import TeaBot.Foundation.RelyGuarantee
import TeaBot.Loggers.UserTables

/-! # How concurrent callers share the two user tables

The invariant of the tables, what one step of a coroutine may do to them, and the
proof outline of `resolveUser`. Under `strict` nothing but `resolveUser` with fresh
objects runs; otherwise other coroutines may add versions of an unchanged content.
-/

namespace TeaBot.Loggers.UserProtocol

open Foundation Foundation.Sql Foundation.System Versioned

abbrev store (w : World) : Store Value Value Identity := userStore w.db

def newUsers (log : List (Write Tbl Col)) : List Value :=
  log.filterMap fun
    | .insert .tgUsers r => some (r .id)
    | _ => none

def newVersions (log : List (Write Tbl Col)) : List Value :=
  log.filterMap fun
    | .insert .tgUserHistory h => some (h .userId)
    | _ => none

def pendingUsers (w : World) (t : Nat) : List Value := newUsers ((w.tx t).getD [])

def pendingVersions (w : World) (t : Nat) : List Value := newVersions ((w.tx t).getD [])

def committers (w : World) : List Nat := w.journal.map (·.1)

def identityOf (n : Int) : Job → Option Identity
  | .resolveUser self => self.data.bind fun d => if d.userId = .int n then some (.ofData d) else none
  | _ => none

def commits (w : World) (n : Int) : List Identity := w.journal.filterMap fun e => identityOf n e.2

def mutexOf (n : Int) : Mutex := Mutex.new "tg_users" (toString n)

structure Inv (strict : Prop) (w : World) : Prop where
  linked : Linked strict (store w)
  texts : ∀ r ∈ (store w).records, r.content.IsText
  userKey : ∀ id ∈ (store w).ids, ∃ k < w.next .tgUsers, id = .int k
  pendingKey : ∀ t, ∀ id ∈ pendingUsers w t, ∃ k < w.next .tgUsers, id = .int k
  versionKey : ∀ v ∈ (store w).history, v.key < w.next .tgUserHistory
  committed : strict → ∀ n, ((store w).of (.int n)).map (·.content) = (commits w n).getLast?.toList

def SameRows (w w' : World) : Prop :=
  w'.db .tgUsers = w.db .tgUsers ∧ w'.db .tgUserHistory = w.db .tgUserHistory

/-- What a step of coroutine `t` may do. A user's record changes only under the user's
mutex, and no version is added to a record that waits for another one. -/
structure Step (strict : Prop) (t : Nat) (w w' : World) : Prop where
  inv : Inv strict w'
  locks : ∀ m u, u ≠ t → (w'.locks m = some u ↔ w.locks m = some u)
  tx : ∀ u, u ≠ t → w'.tx u = w.tx u
  lastId : ∀ u, u ≠ t → w'.lastId u = w.lastId u
  next : ∀ tb, w.next tb ≤ w'.next tb
  ids : ∀ id, id ∈ (store w').ids ∨ id ∈ pendingUsers w' t →
    id ∈ (store w).ids ∨ id ∈ pendingUsers w t ∨ ∃ k, w.next .tgUsers ≤ k ∧ id = .int k
  records : ∀ n, w.locks (mutexOf n) ≠ some t → (store w').of (.int n) = (store w).of (.int n)
  versions : ∀ n, w.locks (mutexOf n) ≠ some t → ∀ r ∈ (store w).of (.int n),
    (∃ u, r.id ∈ pendingVersions w u) → (store w').versions r.id = (store w).versions r.id
  journal : w'.journal = w.journal ∨ ∃ j, w'.journal = w.journal ++ [(t, j)]
  failed : strict → SameRows w w' ∨ t ∈ committers w'

variable {strict : Prop} {w w' : World} {t : Nat}

theorem Step.of_store_eq (hInv : Inv strict w) (hStore : store w' = store w)
    (hSame : strict → SameRows w w' ∧ w'.journal = w.journal)
    (hJournal : w'.journal = w.journal ∨ ∃ j, w'.journal = w.journal ++ [(t, j)])
    (hLocks : ∀ m u, u ≠ t → (w'.locks m = some u ↔ w.locks m = some u))
    (hTx : ∀ u, u ≠ t → w'.tx u = w.tx u) (hLastId : ∀ u, u ≠ t → w'.lastId u = w.lastId u)
    (hNext : ∀ tb, w.next tb ≤ w'.next tb)
    (hPending : ∀ id ∈ pendingUsers w' t, id ∈ pendingUsers w t ∨
      ∃ k, w.next .tgUsers ≤ k ∧ k < w'.next .tgUsers ∧ id = .int k) : Step strict t w w' := by
  refine ⟨?_, hLocks, hTx, hLastId, hNext, ?_, ?_, ?_, hJournal, ?_⟩
  · refine ⟨hStore ▸ hInv.linked, hStore ▸ hInv.texts, ?_, ?_, ?_, ?_⟩
    · intro id hId
      obtain ⟨k, hk, hEq⟩ := hInv.userKey id (hStore ▸ hId)
      exact ⟨k, hk.trans_le (hNext _), hEq⟩
    · intro u id hId
      by_cases hu : u = t
      · subst hu
        rcases hPending id hId with hOld | ⟨k, _, hk, hEq⟩
        · obtain ⟨k, hk, hEq⟩ := hInv.pendingKey u id hOld
          exact ⟨k, hk.trans_le (hNext _), hEq⟩
        · exact ⟨k, hk, hEq⟩
      · rw [pendingUsers, hTx u hu] at hId
        obtain ⟨k, hk, hEq⟩ := hInv.pendingKey u id hId
        exact ⟨k, hk.trans_le (hNext _), hEq⟩
    · intro v hv
      have hKey := hInv.versionKey v (hStore ▸ hv)
      have hLe := hNext .tgUserHistory
      omega
    · intro hStrict n
      rw [hStore, commits, (hSame hStrict).2]
      exact hInv.committed hStrict n
  · rintro id (hId | hId)
    · exact .inl (hStore ▸ hId)
    · rcases hPending id hId with hOld | ⟨k, hk, _, hEq⟩
      · exact .inr (.inl hOld)
      · exact .inr (.inr ⟨k, hk, hEq⟩)
  · intro n _
    rw [hStore]
  · intro n _ r _ _
    rw [hStore]
  · intro hStrict
    exact .inl (hSame hStrict).1

/-- Everything but a commit and an autocommitted write leaves the tables alone. -/
theorem Step.of_db_eq (hInv : Inv strict w) (hDb : w'.db = w.db) (hJournal : w'.journal = w.journal)
    (hLocks : ∀ m u, u ≠ t → (w'.locks m = some u ↔ w.locks m = some u))
    (hTx : ∀ u, u ≠ t → w'.tx u = w.tx u) (hLastId : ∀ u, u ≠ t → w'.lastId u = w.lastId u)
    (hNext : ∀ tb, w.next tb ≤ w'.next tb)
    (hPending : ∀ id ∈ pendingUsers w' t, id ∈ pendingUsers w t ∨
      ∃ k, w.next .tgUsers ≤ k ∧ k < w'.next .tgUsers ∧ id = .int k) : Step strict t w w' :=
  .of_store_eq hInv (congrArg userStore hDb) (fun _ => ⟨⟨congrFun hDb _, congrFun hDb _⟩, hJournal⟩)
    (.inl hJournal) hLocks hTx hLastId hNext hPending

theorem Step.refl (hInv : Inv strict w) : Step strict t w w :=
  .of_db_eq hInv rfl rfl (fun _ _ _ => Iff.rfl) (fun _ _ => rfl) (fun _ _ => rfl) (fun _ => le_rfl)
    fun _ h => .inl h

theorem Step.release (hInv : Inv strict w) (m : Mutex) : Step strict t w (w.release t m) := by
  rw [World.release]
  split
  · rename_i hHeld
    refine .of_db_eq hInv rfl rfl (fun m' u hu => ?_) (fun _ _ => rfl) (fun _ _ => rfl) (fun _ => le_rfl)
      fun _ h => .inl h
    by_cases hm : m' = m
    · subst hm
      simp [hHeld, hu.symm]
    · simp [hm]
  · exact .refl hInv

variable {m : Mutex}

theorem Step.lock (hInv : Inv strict w) (hFree : w.locks m = none) :
    Step strict t w { w with locks := Function.update w.locks m (some t) } := by
  refine .of_db_eq hInv rfl rfl (fun m' u hu => ?_) (fun _ _ => rfl) (fun _ _ => rfl) (fun _ => le_rfl)
    fun _ h => .inl h
  by_cases hm : m' = m
  · subst hm
    simp [hFree, hu.symm]
  · simp [hm]

theorem Step.setTx (hInv : Inv strict w) (x : Option (List (Write Tbl Col)))
    (hx : ∀ id ∈ newUsers (x.getD []), id ∈ pendingUsers w t) :
    Step strict t w { w with tx := Function.update w.tx t x } := by
  refine .of_db_eq hInv rfl rfl (fun _ _ _ => Iff.rfl) (fun u hu => ?_) (fun _ _ => rfl) (fun _ => le_rfl)
    fun id hId => .inl (hx id ?_)
  · exact Function.update_of_ne hu _ _
  · simpa [pendingUsers] using hId

variable {log : List (Write Tbl Col)}

/-- An `INSERT` inside a transaction: the key is taken at once, the row waits in the log. -/
theorem Step.insert (hInv : Inv strict w) (hTx : w.tx t = some log) {tb : Tbl} {r : Row Col}
    (hKey : r .id = .int (w.next tb)) : Step strict t w ((w.takeId t tb).write t [.insert tb r]) := by
  have hEq : (w.takeId t tb).write t [.insert tb r] =
      { w.takeId t tb with tx := Function.update w.tx t (some (log ++ [.insert tb r])) } := by
    simp only [World.write, World.takeId, hTx]
  rw [hEq]
  refine .of_db_eq hInv rfl rfl (fun _ _ _ => Iff.rfl) (fun u hu => ?_) (fun u hu => ?_) (fun tb' => ?_) ?_
  · exact Function.update_of_ne hu _ _
  · exact Function.update_of_ne hu _ _
  · by_cases hTb : tb' = tb
    · subst hTb
      simp [World.takeId]
    · simp [World.takeId, hTb]
  · intro id hId
    have hSplit : id ∈ newUsers log ∨ id ∈ newUsers [.insert tb r] := by
      have hLog : id ∈ newUsers (log ++ [.insert tb r]) := by
        simpa only [pendingUsers, Function.update_self, Option.getD_some] using hId
      rw [newUsers, List.filterMap_append] at hLog
      exact List.mem_append.mp hLog
    rcases hSplit with hOld | hNew
    · exact .inl (by simpa [pendingUsers, hTx] using hOld)
    · cases tb with
      | tgUsers =>
        refine .inr ⟨w.next .tgUsers, le_rfl, by simp [World.takeId], ?_⟩
        rw [← hKey]
        simpa [newUsers] using hNew
      | _ => simp [newUsers] at hNew

variable {i : Identity} {n : Int}

theorem Step.commit (hInv : Inv strict w) (hTx : w.tx t = some log) (hLock : w.locks (mutexOf n) = some t) {j : Job}
    (hJob : strict → ∀ m, identityOf m j = if m = n then some i else none) {s : Store Value Value Identity}
    (hStore : userStore (schema.applyAll log w.db) = s) (hLinked : Linked strict s)
    (hTexts : ∀ r ∈ s.records, r.content.IsText) (hIds : ∀ id ∈ s.ids, id ∈ (store w).ids ∨ id ∈ newUsers log)
    (hKeys : ∀ v ∈ s.history, v.key < w.next .tgUserHistory) (hContent : (s.of (.int n)).map (·.content) = [i])
    (hOther : ∀ m, m ≠ n → s.of (.int m) = (store w).of (.int m) ∧
      ∀ r ∈ (store w).of (.int m), s.versions r.id = (store w).versions r.id) : Step strict t w (w.commit t j).2 := by
  have hNe : ∀ {m : Int}, w.locks (mutexOf m) ≠ some t → m ≠ n := fun hFree hEq => hFree (hEq ▸ hLock)
  simp only [World.commit, hTx]
  subst hStore
  refine ⟨?_, fun _ _ _ => Iff.rfl, fun u hu => ?_, fun _ _ => rfl, fun _ => le_rfl, ?_, ?_, ?_,
    .inr ⟨j, rfl⟩, fun _ => .inr ?_⟩
  · refine ⟨hLinked, hTexts, fun id hId => ?_, fun u id hId => ?_, hKeys, fun hStrict m => ?_⟩
    · rcases hIds id hId with hOld | hNew
      · exact hInv.userKey id hOld
      · exact hInv.pendingKey t id (by simpa [pendingUsers, hTx] using hNew)
    · by_cases hu : u = t
      · subst hu
        simp [pendingUsers, newUsers] at hId
      · refine hInv.pendingKey u id ?_
        simpa [pendingUsers, hu] using hId
    · have hCommits : ∀ x : Option Identity, identityOf m j = x →
          (w.journal ++ [(t, j)]).filterMap (fun e => identityOf m e.2) = commits w m ++ x.toList := by
        intro x hx
        cases x <;> simp [commits, hx]
      rw [commits, hCommits _ (hJob hStrict m)]
      by_cases hm : m = n
      · subst hm
        rw [hContent]
        simp
      · rw [(hOther m hm).1, if_neg hm, Option.toList_none, List.append_nil]
        exact hInv.committed hStrict m
  · exact Function.update_of_ne hu _ _
  · rintro id (hId | hId)
    · rcases hIds id hId with hOld | hNew
      · exact .inl hOld
      · exact .inr (.inl (by simpa [pendingUsers, hTx] using hNew))
    · simp [pendingUsers, newUsers] at hId
  · intro m hFree
    exact (hOther m (hNe hFree)).1
  · intro m hFree r hr _
    exact (hOther m (hNe hFree)).2 r hr
  · simp [committers]

/-! ## Assertions that the steps of other coroutines keep -/

def Failed (strict : Prop) (t : Nat) (w : World) : Prop := strict → t ∉ committers w

theorem Failed.release {u : Nat} (h : Failed strict t w) (m : Mutex) : Failed strict t (w.release u m) := by
  rw [Failed, committers, World.release_journal]
  exact h

structure Idle (strict : Prop) (t : Nat) (w : World) : Prop where
  tx : w.tx t = none
  failed : Failed strict t w

/-- Inside the transaction of `resolveUser` for user `n`. -/
structure InTx (strict : Prop) (t : Nat) (n : Int) (tx : Option (List (Write Tbl Col))) (w : World) : Prop where
  tx : w.tx t = tx
  lock : w.locks (mutexOf n) = some t
  failed : Failed strict t w

/-- Key `k` belongs to the row that `t` alone is about to insert. -/
structure OwnKey (t k : Nat) (w : World) : Prop where
  absent : .int k ∉ (store w).ids
  pending : ∀ u, u ≠ t → Value.int k ∉ pendingUsers w u
  lt : k < w.next .tgUsers

section Stable

variable {u : Nat} (hu : u ≠ t) (hStep : Step strict u w w')

include hu hStep

theorem Failed.stable (h : Failed strict t w) : Failed strict t w' := by
  intro hStrict
  rcases hStep.journal with hEq | ⟨j, hEq⟩
  · rw [committers, hEq]
    exact h hStrict
  · rw [committers, hEq, List.map_append, List.mem_append]
    rintro (hOld | hNew)
    · exact h hStrict hOld
    · exact hu (List.mem_singleton.mp hNew).symm

theorem Idle.stable (h : Idle strict t w) : Idle strict t w' :=
  ⟨(hStep.tx t hu.symm).trans h.tx, h.failed.stable hu hStep⟩

variable {n : Int} {tx : Option (List (Write Tbl Col))}

theorem InTx.stable (h : InTx strict t n tx w) : InTx strict t n tx w' :=
  ⟨(hStep.tx t hu.symm).trans h.tx, (hStep.locks _ t hu.symm).mpr h.lock, h.failed.stable hu hStep⟩

omit hStep in
theorem InTx.free (h : InTx strict t n tx w) : w.locks (mutexOf n) ≠ some u := by
  rw [h.lock]
  exact fun hEq => hu (Option.some.inj hEq).symm

theorem InTx.of_eq (h : InTx strict t n tx w) : (store w').of (.int n) = (store w).of (.int n) :=
  hStep.records n (h.free hu)

theorem OwnKey.stable {k : Nat} (h : OwnKey t k w) : OwnKey t k w' := by
  have hNot : ∀ {id : Value}, id = .int k → id ∈ (store w').ids ∨ id ∈ pendingUsers w' u → False := by
    rintro _ rfl hMem
    rcases hStep.ids _ hMem with hOld | hPending | ⟨k', hLe, hEq⟩
    · exact h.absent hOld
    · exact h.pending u hu hPending
    · have hLt := h.lt
      have hInt : (k : Int) = k' := Value.int.inj hEq
      omega
  refine ⟨fun hMem => hNot rfl (.inl hMem), fun v hv hMem => ?_, h.lt.trans_le (hStep.next _)⟩
  by_cases hvu : v = u
  · subst hvu
    exact hNot rfl (.inr hMem)
  · rw [pendingUsers, hStep.tx v hvu] at hMem
    exact h.pending v hv hMem

end Stable

/-! ## The stages of a transaction -/

/-- The log of `resolveUser` at its commit, which sets user `n` to `i`: nothing to do, a
changed record with its version, or a new record with its first version. -/
inductive Prepared (strict : Prop) (t : Nat) (n : Int) (i : Identity) (w : World) : List (Write Tbl Col) → Prop
  | same {k : Nat} (hOf : (store w).of (.int n) = [⟨.int k, .int n, i⟩]) : Prepared strict t n i w []
  | changed {k : Nat} {j : Identity} {sets : List (Col × Value)} {h : Row Col}
      (hOf : (store w).of (.int n) = [⟨.int k, .int n, j⟩])
      (hId : sets.lookup .id = none) (hOwner : sets.lookup .tgUserId = none) (hSet : j.set sets = i)
      (hUser : h .userId = .int k) (hContent : .ofRow h = i)
      (hKey : ∀ v ∈ (store w).versions (.int k), v.key < rowKey h) (hLt : rowKey h < w.next .tgUserHistory)
      (hChange : strict → j ≠ i) :
      Prepared strict t n i w
        [.update .tgUsers .id (.str (toString k)) sets, .insert .tgUserHistory h]
  | added {k : Nat} {r h : Row Col} (hOf : (store w).of (.int n) = []) (hId : r .id = .int k)
      (hOwner : r .tgUserId = .int n) (hRow : .ofRow r = i) (hOwn : OwnKey t k w)
      (hUser : h .userId = .int k) (hContent : .ofRow h = i) (hLt : rowKey h < w.next .tgUserHistory) :
      Prepared strict t n i w [.insert .tgUsers r, .insert .tgUserHistory h]

theorem Prepared.stable {u : Nat} (hu : u ≠ t) (hStep : Step strict u w w') (hTx : InTx strict t n (some log) w)
    (h : Prepared strict t n i w log) : Prepared strict t n i w' log := by
  have hOf' := hTx.of_eq hu hStep
  have hNext : ∀ x : Int, x < w.next .tgUserHistory → x < w'.next .tgUserHistory := by
    intro x hx
    have hLe := hStep.next .tgUserHistory
    omega
  cases h with
  | same hOf => exact .same (hOf'.trans hOf)
  | @changed k j sets h hOf hId hOwner hSet hUser hContent hKey hLt hChange =>
    -- the version in the log keeps others from adding one to the record
    have hPending : Value.int k ∈ pendingVersions w t := by
      simp [pendingVersions, newVersions, hTx.tx, hUser]
    have hSame : (store w').versions (.int k) = (store w).versions (.int k) :=
      hStep.versions n (hTx.free hu) ⟨.int k, .int n, j⟩ (hOf ▸ List.mem_singleton_self _) ⟨t, hPending⟩
    exact .changed (hOf'.trans hOf) hId hOwner hSet hUser hContent (hSame ▸ hKey) (hNext _ hLt) hChange
  | added hOf hId hOwner hRow hOwn hUser hContent hLt =>
    exact .added (hOf'.trans hOf) hId hOwner hRow (hOwn.stable hu hStep) hUser hContent (hNext _ hLt)

/-- The commit of a prepared log. -/
theorem Prepared.commit (hInv : Inv strict w) (hTx : InTx strict t n (some log) w) (h : Prepared strict t n i w log)
    (hText : i.IsText) {j : Job} (hJob : strict → ∀ m, identityOf m j = if m = n then some i else none) :
    Step strict t w (w.commit t j).2 := by
  cases h with
  | same hOf =>
    refine .commit hInv hTx.tx hTx.lock hJob rfl hInv.linked hInv.texts (fun _ h => .inl h) hInv.versionKey ?_
      fun m _ => ⟨rfl, fun _ _ => rfl⟩
    exact congrArg (List.map _) hOf
  | @changed k c sets h hOf hId hOwner hSet hUser hContent hKey hLt hChange =>
    have hMem : (⟨.int k, .int n, c⟩ : Record Value Value Identity) ∈ (store w).records :=
      (Store.mem_of.mp (hOf ▸ List.mem_singleton_self _)).1
    have hSet' : ∀ r ∈ w.db .tgUsers, r .id = .int k → Identity.ofRow (r.set sets) = i := by
      intro r hr hEq
      have hSame := hInv.linked.eq_of_id (List.mem_map_of_mem hr) hMem hEq
      rw [Identity.ofRow_set, ← hSet]
      exact congrArg (Identity.set · sets) (congrArg Record.content hSame)
    refine .commit hInv hTx.tx hTx.lock hJob (users.store_update (by decide) h hId hOwner hSet') ?_ ?_ ?_ ?_ ?_ ?_
    · exact hInv.linked.replace hMem hUser hContent hKey hChange
    · intro r hr
      obtain ⟨r₀, hr₀, rfl⟩ := List.mem_map.mp hr
      split
      · exact hText
      · exact hInv.texts r₀ hr₀
    · intro id hMem
      rw [Store.ids_replace] at hMem
      exact .inl hMem
    · intro v hv
      rcases List.mem_append.mp hv with hOld | hNew
      · exact hInv.versionKey v hOld
      · rw [List.mem_singleton.mp hNew]
        exact hLt
    · rw [Store.of_replace, hOf]
      simp
    · intro m hm
      have hNe : Value.int n ≠ .int m := fun hEq => hm (Value.int.inj hEq).symm
      refine ⟨hInv.linked.of_replace_of_ne hMem hNe _ _, fun r hr => ?_⟩
      obtain ⟨hr, hOwner⟩ := Store.mem_of.mp hr
      rw [Store.replace, Store.versions_append, if_neg]
      intro hEq
      rw [hInv.linked.eq_of_id hr hMem (hEq.symm.trans hUser)] at hOwner
      exact hNe hOwner
  | @added k r h hOf hId hOwner hRow hOwn hUser hContent hLt =>
    have hNew : (users.record r).id ∉ (store w).ids := fun hMem => hOwn.absent (hId ▸ hMem)
    have hOwner' : (users.record r).owner = .int n := hOwner
    have hRow' : (users.record r).content = i := hRow
    refine .commit hInv hTx.tx hTx.lock hJob (users.store_insert (by decide) w.db r h) ?_ ?_ ?_ ?_ ?_ ?_
    · exact hInv.linked.insert hNew (hOwner' ▸ hOf) (hUser.trans hId.symm)
        (hContent.trans hRow.symm)
    · intro r' hr'
      rcases List.mem_append.mp hr' with hOld | hLast
      · exact hInv.texts r' hOld
      · rw [List.mem_singleton.mp hLast]
        exact hRow' ▸ hText
    · intro id hMem
      rw [Store.ids_insert, List.mem_append] at hMem
      refine hMem.imp_right fun hLast => ?_
      simpa [newUsers, Versioning.record] using hLast
    · intro v hv
      rcases List.mem_append.mp hv with hOld | hLast
      · exact hInv.versionKey v hOld
      · rw [List.mem_singleton.mp hLast]
        exact hLt
    · rw [Store.of_insert, if_pos hOwner', hOf]
      exact congrArg (fun x => [x]) hRow
    · intro m hm
      have hNe : (users.record r).owner ≠ .int m := fun hEq => hm (Value.int.inj (hOwner.symm.trans hEq)).symm
      refine ⟨by rw [Store.of_insert, if_neg hNe], fun r' hr' => ?_⟩
      rw [Store.insert, Store.versions_append, if_neg]
      intro hEq
      refine hNew (List.mem_map.mpr ⟨r', (Store.mem_of.mp hr').1, ?_⟩)
      exact hEq.symm.trans (hUser.trans hId.symm)

/-! ## The outline of `resolveUser` -/

def protocol (strict : Prop) (allow : Nat → Op → World → Prop) (pre : Job → World → Prop) :
    Protocol World Op Job where
  I := Inv strict
  G := Step strict
  allow := allow
  Fresh := Idle strict
  Pre := pre

/-- A normal end as `P` says, or an exception that left the tables alone. -/
def Post (strict : Prop) (t : Nat) {α : Type} (P : α → World → Prop) : Except Throwable α → World → Prop
  | .ok a => P a
  | .error _ => Failed strict t

section Outline

variable {hs : Hashes} {allow : Nat → Op → World → Prop} {pre : Job → World → Prop} {j : Job}

abbrev Spec (strict : Prop) (hs : Hashes) (allow : Nat → Op → World → Prop) (pre : Job → World → Prop)
    (t : Nat) (j : Job) {α : Type} (A : World → Prop) (p : Run α) (P : α → World → Prop) : Prop :=
  Outline (exec hs) spawned (protocol strict allow pre) t j (Post strict t P) p A

variable {α : Type} {P : α → World → Prop}

theorem stable_post (hP : ∀ a, Stable (protocol strict allow pre) t (P a)) (r : Except Throwable α) :
    Stable (protocol strict allow pre) t (Post strict t P r) := by
  cases r with
  | ok a => exact hP a
  | error e => exact fun u hu _ _ _ hStep h => Failed.stable hu hStep h

namespace Spec

variable {A : World → Prop}

theorem bind {β : Type} {p : Run α} {f : α → Run β} {P' : β → World → Prop} (hp : Spec strict hs allow pre t j A p P)
    (hf : ∀ a, Spec strict hs allow pre t j (P a) (f a) P') : Spec strict hs allow pre t j A (p.bind f) P' :=
  Outline.bind hp hf fun _ _ _ h => h

theorem ret {a : α} : Spec strict hs allow pre t j (P a) (.ret a) P :=
  fun _ _ h => h

theorem throw {e : Throwable} :
    Spec strict hs allow pre t j (Failed strict t) (.throw e) P := fun _ _ h => h

variable {o : Op}

/-- An operation raises and changes nothing, or it is carried out in a state that the
run admits. -/
theorem performAllowed {P : o.Res → World → Prop} (hStable : ∀ a, Stable (protocol strict allow pre) t (P a))
    (hRaise : ∀ w e, o.raises e = true → A w → Failed strict t w) (hSpawn : ∀ r, spawned o r = [])
    (hCarry : ∀ w r w' ch, Inv strict w → A w → allow t o w → carry hs t j w o ch = some (r, w') →
      Step strict t w w' ∧ Post strict t P r w') : Spec strict hs allow pre t j A (Loggers.perform o) P := by
  refine Outline.perform ⟨stable_post hStable, ?_⟩
  intro w r w' ch hInv hA hAllow hExec
  rw [hSpawn r]
  rcases exec_eq_some hExec with ⟨e, hRaises, rfl, rfl⟩ | hCarried
  · exact ⟨.refl hInv, fun _ hMem => absurd hMem List.not_mem_nil, hRaise _ e hRaises hA⟩
  · obtain ⟨hStep, hPost⟩ := hCarry w r w' ch hInv hA hAllow hCarried
    exact ⟨hStep, fun _ hMem => absurd hMem List.not_mem_nil, hPost⟩

theorem perform {P : o.Res → World → Prop} (hStable : ∀ a, Stable (protocol strict allow pre) t (P a))
    (hRaise : ∀ w e, o.raises e = true → A w → Failed strict t w) (hSpawn : ∀ r, spawned o r = [])
    (hCarry : ∀ w r w' ch, Inv strict w → A w → carry hs t j w o ch = some (r, w') →
      Step strict t w w' ∧ Post strict t P r w') : Spec strict hs allow pre t j A (Loggers.perform o) P :=
  performAllowed hStable hRaise hSpawn fun w r w' ch hInv hA _ hCarried => hCarry w r w' ch hInv hA hCarried

theorem catchException {p : Run α} {handler : Throwable → Run α} (hp : Spec strict hs allow pre t j A p P)
    (hHandler : ∀ e, Spec strict hs allow pre t j (Failed strict t) (handler e) P) :
    Spec strict hs allow pre t j A (Loggers.catchException p handler) P := by
  refine Outline.tryCatch hp (fun e => ?_) fun _ _ _ h => h
  split
  · exact hHandler e
  · exact throw

theorem stable_failed : Stable (protocol strict allow pre) t (Failed strict t) :=
  fun _ hu _ _ _ hStep h => h.stable hu hStep

theorem release (ho : o = .unlock m ∨ o = .fclose m) (hStable : Stable (protocol strict allow pre) t A)
    (hKeep : ∀ w, A w → A (w.release t m)) : Spec strict hs allow pre t j A (Loggers.perform o) (fun _ => A) := by
  rcases ho with rfl | rfl
  all_goals
    refine perform (fun _ => hStable) nofun (fun _ => rfl) fun w r w' ch hInv hA hCarried => ?_
    cases ch <;> cases hCarried
    exact ⟨.release hInv m, hKeep w hA⟩

theorem mutex_scoped {body : Run α} (hStable : ∀ a, Stable (protocol strict allow pre) t (P a))
    (hKeep : ∀ a w, P a w → P a (w.release t m)) (hBody : Spec strict hs allow pre t j A body P) :
    Spec strict hs allow pre t j A (m.scoped body) P := by
  refine Outline.bind (Q := Post strict t P) (Outline.tryCatch hBody (fun e => ?_) fun _ _ _ h => h)
    (fun a => ?_) fun _ _ _ h => h
  · exact bind (release (.inr rfl) stable_failed fun w h => h.release m) fun _ => throw
  · exact bind (release (.inr rfl) (hStable a) (hKeep a)) fun _ => ret

end Spec

end Outline

end TeaBot.Loggers.UserProtocol
