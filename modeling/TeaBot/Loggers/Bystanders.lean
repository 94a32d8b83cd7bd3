import TeaBot.Loggers.Footprint
import TeaBot.Loggers.ResolveUser

/-! # Code beside the user tables

Operations on other tables, on locks, channels and files keep the protocol of the two
user tables, and so does the transaction of `resolveGroup`.
-/

namespace TeaBot.Loggers.UserProtocol

open Foundation Foundation.Sql Foundation.System Versioned

def userTables : List Tbl := [.tgUsers, .tgUserHistory]

/-- No statement on the user tables, no end of a transaction and no new coroutine. -/
def aside : Op → Bool
  | .beginTransaction | .commit | .rollback | .go _ => false
  | o => o.targets.all (· ∉ userTables)

abbrev Aside (o : Op) : Prop := aside o = true

theorem aside_of_confined {ts : List Tbl} (hts : ∀ tb ∈ ts, tb ∉ userTables) {o : Op} (h : Confined ts o) :
    Aside o := by
  have hTargets : o.targets.all (· ∈ ts) = true → o.targets.all (· ∉ userTables) = true := by
    simp only [List.all_eq_true, decide_eq_true_eq]
    exact fun hAll tb htb => hts tb (hAll tb htb)
  cases o <;> first | exact hTargets h | cases h

def Apart (t : Nat) (w : World) : Prop := ∀ x ∈ (w.tx t).getD [], x.table ∉ userTables

structure Beside (t : Nat) (w w' : World) : Prop where
  rows : SameRows w w'
  locks : ∀ m u, u ≠ t → (w'.locks m = some u ↔ w.locks m = some u)
  tx : ∀ u, u ≠ t → w'.tx u = w.tx u
  closed : Spec.Closed t w → Spec.Closed t w'
  apart : Apart t w → Apart t w'
  lastId : ∀ u, u ≠ t → w'.lastId u = w.lastId u
  next : ∀ tb, w.next tb ≤ w'.next tb
  journal : w'.journal = w.journal

variable {t : Nat} {w w' w'' : World} {hs : Hashes} {j : Job}

namespace Beside

theorem refl : Beside t w w :=
  ⟨⟨rfl, rfl⟩, fun _ _ _ => Iff.rfl, fun _ _ => rfl, id, id, fun _ _ => rfl, fun _ => le_rfl, rfl⟩

theorem trans (h : Beside t w w') (h' : Beside t w' w'') : Beside t w w'' where
  rows := ⟨h'.rows.1.trans h.rows.1, h'.rows.2.trans h.rows.2⟩
  locks m u hu := (h'.locks m u hu).trans (h.locks m u hu)
  tx u hu := (h'.tx u hu).trans (h.tx u hu)
  closed hw := h'.closed (h.closed hw)
  apart hw := h'.apart (h.apart hw)
  lastId u hu := (h'.lastId u hu).trans (h.lastId u hu)
  next tb := (h.next tb).trans (h'.next tb)
  journal := h'.journal.trans h.journal

theorem of_eq (hDb : w'.db = w.db) (hTx : w'.tx = w.tx) (hLast : w'.lastId = w.lastId) (hNext : w'.next = w.next)
    (hJournal : w'.journal = w.journal) (hLocks : ∀ m u, u ≠ t → (w'.locks m = some u ↔ w.locks m = some u)) :
    Beside t w w' where
  rows := ⟨congrFun hDb _, congrFun hDb _⟩
  locks := hLocks
  tx u _ := congrFun hTx u
  closed hw := (congrFun hTx t).trans hw
  apart hw := by rwa [Apart, hTx]
  lastId u _ := congrFun hLast u
  next tb := (congrFun hNext tb).ge
  journal := hJournal

theorem release (m : Mutex) : Beside t w (w.release t m) := by
  by_cases hHeld : w.locks m = some t
  · refine of_eq (by simp) (by simp) ?_ (by simp) (by simp) fun m' u hu => ?_
    · simp [World.release, hHeld]
    · by_cases hm : m' = m
      · subst hm
        simp [World.release, hHeld, hu.symm]
      · simp [World.release, hHeld, hm]
  · have hEq : w.release t m = w := if_neg hHeld
    rw [hEq]
    exact refl

theorem lock {m : Mutex} (hFree : w.locks m = none) :
    Beside t w { w with locks := Function.update w.locks m (some t) } := by
  refine of_eq rfl rfl rfl rfl rfl fun m' u hu => ?_
  by_cases hm : m' = m
  · subst hm
    simp [hFree, hu.symm]
  · simp [hm]

theorem takeId (tb : Tbl) : Beside t w (w.takeId t tb) where
  rows := ⟨rfl, rfl⟩
  locks _ _ _ := Iff.rfl
  tx _ _ := rfl
  closed := id
  apart := id
  lastId u hu := Function.update_of_ne hu _ _
  next tb' := by
    by_cases hTb : tb' = tb
    · subst hTb
      simp [World.takeId]
    · simp [World.takeId, hTb]
  journal := rfl

theorem write {ws : List (Write Tbl Col)} (hws : ∀ x ∈ ws, x.table ∉ userTables) :
    Beside t w (w.write t ws) := by
  cases hTx : w.tx t with
  | none =>
    have hEq : w.write t ws = { w with db := schema.applyAll ws w.db } := by simp [World.write, hTx]
    rw [hEq]
    refine ⟨⟨?_, ?_⟩, fun _ _ _ => Iff.rfl, fun _ _ => rfl, id, id, fun _ _ => rfl, fun _ => le_rfl, rfl⟩
    all_goals exact schema.applyAll_of_ne (fun x hx hEq => hws x hx (by simp [hEq, userTables])) w.db
  | some log =>
    have hEq : w.write t ws = { w with tx := Function.update w.tx t (some (log ++ ws)) } := by
      simp [World.write, hTx]
    rw [hEq]
    refine ⟨⟨rfl, rfl⟩, fun _ _ _ => Iff.rfl, fun u hu => Function.update_of_ne hu _ _, fun hw => ?_, ?_,
      fun _ _ => rfl, fun _ => le_rfl, rfl⟩
    · rw [Spec.Closed, hTx] at hw
      cases hw
    · intro hw x hx
      simp only [Apart, hTx, Option.getD_some] at hw
      simp only [Function.update_self, Option.getD_some, List.mem_append] at hx
      exact hx.elim (hw x) (hws x)

theorem execute {stmt : Stmt Tbl Col} {params : List Php} {r : Except Throwable Unit}
    (hStmt : ∀ tb ∈ stmt.tables, tb ∉ userTables) (h : w.execute t stmt params = (r, w')) : Beside t w w' := by
  simp only [World.execute] at h
  split at h
  · cases h
    exact refl
  · rename_i ws hWrites
    have hws : ∀ x ∈ ws, x.table ∉ userTables := fun x hx => hStmt _ (schema.writes_tables hWrites x hx)
    split at h
    · cases h
      exact (takeId _).trans (write hws)
    · cases h
      exact write hws

theorem insertRows {tb : Tbl} {cols : List Col} {params : List (String × Php)} {rows : List (List String)}
    {r : Except Throwable Unit} (hTb : tb ∉ userTables)
    (h : World.insertRows t tb cols params rows w = (r, w')) : Beside t w w' := by
  induction rows generalizing w with
  | nil =>
    cases h
    exact refl
  | cons names rest ih =>
    simp only [World.insertRows] at h
    split at h
    · cases h
      exact refl
    · split at h
      · rename_i hRow
        refine (execute (fun tb' htb' => ?_) hRow).trans (ih h)
        rwa [List.mem_singleton.mp htb']
      · rename_i hRow
        cases h
        refine execute (fun tb' htb' => ?_) hRow
        rwa [List.mem_singleton.mp htb']

end Beside

theorem carry_beside {o : Op} {ch : Choice} {r : Except Throwable o.Res} (hAside : Aside o)
    (h : carry hs t j w o ch = some (r, w')) : Beside t w w' := by
  have hTargets : o.targets.all (· ∉ userTables) = true → ∀ tb ∈ o.targets, tb ∉ userTables := by
    simp
  have hWorld : ∀ {w₁ : World}, w₁.db = w.db → w₁.tx = w.tx → w₁.lastId = w.lastId → w₁.next = w.next →
      w₁.journal = w.journal → w₁.locks = w.locks → Beside t w w₁ := fun hDb hTx hLast hNext hJournal hLocks =>
    .of_eq hDb hTx hLast hNext hJournal fun m u _ => by rw [hLocks]
  cases o with
  | lock m =>
    cases ch with
    | ok =>
      simp only [carry] at h
      split at h
      · rename_i hFree
        cases h
        exact .lock hFree
      · cases h
    | _ => cases h
  | unlock m | fclose m => cases ch <;> cases h; exact .release m
  | beginTransaction | commit | rollback | go job => cases hAside
  | execute stmt params =>
    cases ch with
    | ok => exact .execute (hTargets hAside) (Option.some.inj h)
    | _ => cases h
  | executeNamed tb cols rows params =>
    cases ch with
    | ok =>
      simp only [carry] at h
      split at h
      · rename_i hRows
        cases h
        exact .insertRows (hTargets hAside tb (List.mem_singleton_self tb)) hRows
      · cases h
        exact .refl
    | _ => cases h
  | rename source target =>
    cases ch with
    | renamed success =>
      simp only [carry] at h
      split at h <;> cases h <;> exact hWorld rfl rfl rfl rfl rfl rfl
    | _ => cases h
  | pop chan =>
    cases ch with
    | ok =>
      simp only [carry] at h
      split at h <;> cases h
      exact hWorld rfl rfl rfl rfl rfl rfl
    | _ => cases h
  | _ => cases ch <;> cases h <;> exact hWorld rfl rfl rfl rfl rfl rfl

theorem newUsers_of_apart {log : List (Write Tbl Col)} (h : ∀ x ∈ log, x.table ∉ userTables) :
    newUsers log = [] := by
  refine List.filterMap_eq_nil_iff.mpr fun x hx => ?_
  have hTable := h x hx
  split
  · simp [Write.table, userTables] at hTable
  · rfl

theorem store_of_rows (h : SameRows w w') : store w' = store w := by
  have hUsers : w'.db users.table = w.db users.table := h.1
  have hHistory : w'.db users.history = w.db users.history := h.2
  simp only [store, Versioning.store, hUsers, hHistory]

theorem Step.of_beside (hInv : Inv False w) (hApart : Apart t w) (h : Beside t w w') : Step False t w w' := by
  refine .of_store_eq hInv (store_of_rows h.rows) False.elim (.inl h.journal) h.locks h.tx h.lastId h.next ?_
  intro id hId
  rw [pendingUsers, newUsers_of_apart (h.apart hApart)] at hId
  cases hId

namespace Spec

variable {allow : Nat → Op → World → Prop} {pre : Job → World → Prop} {α : Type}

theorem stable_apart {strict : Prop} : Stable (protocol strict allow pre) t (Apart t) := by
  intro u hu w w' _ hStep h
  rwa [Apart, hStep.tx t hu.symm]

theorem apart_of_closed (h : Closed t w) : Apart t w := by
  rw [Apart, h]
  exact fun _ hx => absurd hx List.not_mem_nil

theorem failed_false : Failed False t w := False.elim

variable {p : Run α}

theorem frame {A : World → Prop} (hStable : Stable (protocol False allow pre) t A) (hApart : ∀ w, A w → Apart t w)
    (hKeep : ∀ w w', Beside t w w' → A w → A w') (hUses : p.Uses Aside) :
    Spec False hs allow pre t j A p (fun _ => A) := by
  refine Outline.mono (Outline.of_uses hStable ?_ hUses) fun r w _ hA => ?_
  · intro w o r w' ch hAside hInv hA _ hExec
    have hSpawn : spawned o r = [] := by
      cases o with
      | go job => cases hAside
      | _ => rfl
    have hBeside : Beside t w w' := by
      rcases exec_eq_some hExec with ⟨e, _, _, rfl⟩ | hCarried
      · exact .refl
      · exact carry_beside hAside hCarried
    rw [hSpawn]
    exact ⟨.of_beside hInv (hApart w hA) hBeside, fun _ hi => absurd hi List.not_mem_nil, hKeep w w' hBeside hA⟩
  · cases r with
    | ok a => exact hA
    | error e => exact failed_false

theorem frame_closed (hUses : p.Uses Aside) : Spec False hs allow pre t j (Closed t) p (fun _ => Closed t) :=
  frame stable_closed (fun _ => apart_of_closed) (fun _ _ h => h.closed) hUses

theorem frame_apart (hUses : p.Uses Aside) : Spec False hs allow pre t j (Apart t) p (fun _ => Apart t) :=
  frame stable_apart (fun _ h => h) (fun _ _ h => h.apart) hUses

theorem begin_apart : Spec False hs allow pre t j (Closed t) (Loggers.perform .beginTransaction)
    (fun _ => Apart t) := by
  refine perform (fun _ => stable_apart) (fun _ _ _ _ => failed_false) (fun _ => rfl) ?_
  intro w r w' ch hInv hClosed hCarried
  cases ch with
  | ok =>
    have hTx : w.tx t = none := hClosed
    simp only [carry, World.beginTransaction, hTx] at hCarried
    cases hCarried
    refine ⟨.setTx hInv _ fun _ hId => absurd hId List.not_mem_nil, fun x hx => ?_⟩
    simp only [Function.update_self, Option.getD_some] at hx
    cases hx
  | _ => cases hCarried

theorem commit_apart : Spec False hs allow pre t j (Apart t) (Loggers.perform .commit) (fun _ => Closed t) := by
  refine perform (fun _ => stable_closed) (fun _ _ _ _ => failed_false) (fun _ => rfl) ?_
  intro w r w' ch hInv hApart hCarried
  cases ch with
  | ok =>
    simp only [carry, World.commit] at hCarried
    split at hCarried
    · rename_i log hTx
      cases hCarried
      have hLog : ∀ x ∈ log, x.table ∉ userTables := by simpa [Apart, hTx] using hApart
      have hRows : SameRows w { w with db := schema.applyAll log w.db } :=
        ⟨schema.applyAll_of_ne (fun x hx hEq => hLog x hx (by simp [hEq, userTables])) w.db,
          schema.applyAll_of_ne (fun x hx hEq => hLog x hx (by simp [hEq, userTables])) w.db⟩
      refine ⟨.of_store_eq hInv (store_of_rows hRows) False.elim (.inr ⟨j, rfl⟩) (fun _ _ _ => Iff.rfl)
        (fun u hu => Function.update_of_ne hu _ _) (fun _ _ => rfl) (fun _ => le_rfl) ?_, Function.update_self _ _ _⟩
      intro id hId
      simp [pendingUsers, newUsers] at hId
    · cases hCarried
      exact ⟨.refl hInv, failed_false⟩
  | _ => cases hCarried

theorem go {job : Job} {A : World → Prop} (hStable : Stable (protocol False allow pre) t A)
    (hPre : ∀ w, allow t (.go job) w → pre job w) :
    Spec False hs allow pre t j A (Loggers.perform (.go job)) (fun _ => A) := by
  refine Outline.perform ⟨stable_post fun _ => hStable, ?_⟩
  intro w r w' ch hInv hA hAllow hExec
  rcases exec_eq_some hExec with ⟨e, hRaises, _, _⟩ | hCarried
  · cases hRaises
  · cases ch <;> cases hCarried
    refine ⟨.refl hInv, fun i hi => ?_, hA⟩
    rw [List.mem_singleton.mp hi]
    exact hPre _ hAllow

theorem resolveGroup (self : Group) : Spec False hs allow pre t j (Idle False t) (Group.resolveGroup self)
    (fun _ => Closed t) := by
  obtain ⟨data, dateTime, _, _, _, _⟩ := self
  cases data with
  | none => exact Outline.weaken throw fun _ _ _ => failed_false
  | some d =>
    refine transaction ?_ begin_apart (frame_apart ?_) commit_apart
    · exact Outline.weaken (frame_closed (.perform rfl)) fun _ _ h => h.tx
    · refine (Group.resolveGroupInternal_confined _ d).mono fun _ => aside_of_confined ?_
      decide

end Spec

end TeaBot.Loggers.UserProtocol
