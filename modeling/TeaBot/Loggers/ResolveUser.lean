import TeaBot.Loggers.UserProtocol

/-! # The proof outline of `resolveUser`

One assertion for each point between two operations, from the lock to the commit.
-/

namespace TeaBot.Loggers.UserProtocol

open Foundation Foundation.Sql Foundation.System Versioned

structure Shows (u : Col → Php) (k : Nat) (c : Identity) : Prop where
  text : c.IsText
  id : u .id = .str (toString k)
  username : u .username = fetchValue c.username
  firstName : u .firstName = fetchValue c.firstName
  lastName : u .lastName = fetchValue c.lastName

/-- What is written before the version: a changed record `k`, or a new one. -/
inductive Half (strict : Prop) (t : Nat) (n : Int) (i : Identity) (k : Nat) (w : World) :
    List (Write Tbl Col) → Prop
  | changed {c : Identity} {sets : List (Col × Value)}
      (hOf : (store w).of (.int n) = [⟨.int k, .int n, c⟩])
      (hId : sets.lookup .id = none) (hOwner : sets.lookup .tgUserId = none) (hSet : c.set sets = i)
      (hChange : strict → c ≠ i) :
      Half strict t n i k w [.update .tgUsers .id (.str (toString k)) sets]
  | added {r : Row Col} (hOf : (store w).of (.int n) = []) (hId : r .id = .int k)
      (hOwner : r .tgUserId = .int n) (hRow : .ofRow r = i) (hOwn : OwnKey t k w) :
      Half strict t n i k w [.insert .tgUsers r]

variable {strict : Prop} {w w' : World} {t : Nat} {n : Int} {i : Identity}

variable {log : List (Write Tbl Col)} {k : Nat}

theorem Half.stable {u : Nat} (hu : u ≠ t) (hStep : Step strict u w w') (hTx : InTx strict t n (some log) w)
    (h : Half strict t n i k w log) : Half strict t n i k w' log := by
  have hOf' := hTx.of_eq hu hStep
  cases h with
  | changed hOf hId hOwner hSet hChange => exact .changed (hOf'.trans hOf) hId hOwner hSet hChange
  | added hOf hId hOwner hRow hOwn =>
    exact .added (hOf'.trans hOf) hId hOwner hRow (hOwn.stable hu hStep)

theorem Half.record (hInv : Inv strict w) (hTx : InTx strict t n (some log) w) (h : Half strict t n i k w log)
    {r : Row Col} (hId : r .id = .int (w.next .tgUserHistory)) (hUser : r .userId = .int k) (hContent : .ofRow r = i) :
    InTx strict t n (some (log ++ [.insert .tgUserHistory r]))
        ((w.takeId t .tgUserHistory).write t [.insert .tgUserHistory r]) ∧
      Prepared strict t n i ((w.takeId t .tgUserHistory).write t [.insert .tgUserHistory r])
        (log ++ [.insert .tgUserHistory r]) := by
  have hEq : (w.takeId t .tgUserHistory).write t [.insert .tgUserHistory r] =
      { w.takeId t .tgUserHistory with
        tx := Function.update w.tx t (some (log ++ [.insert .tgUserHistory r])) } := by
    simp only [World.write, World.takeId, hTx.tx]
  have hKey : rowKey r = w.next .tgUserHistory := by simp [rowKey, hId, Value.asInt]
  rw [hEq]
  refine ⟨⟨Function.update_self _ _ _, hTx.lock, hTx.failed⟩, ?_⟩
  cases h with
  | changed hOf hSetId hOwner hSet hChange =>
    refine .changed hOf hSetId hOwner hSet hUser hContent (fun v hv => ?_) ?_ hChange
    · rw [hKey]
      exact hInv.versionKey v (List.mem_of_mem_filter hv)
    · simp [hKey, World.takeId]
  | added hOf hRowId hOwner hRow hOwn =>
    refine .added hOf hRowId hOwner hRow ⟨hOwn.absent, fun u hu => ?_, ?_⟩ hUser hContent ?_
    · simpa [pendingUsers, hu] using hOwn.pending u hu
    · simpa [World.takeId] using hOwn.lt
    · simp [hKey, World.takeId]

def Fetched (strict : Prop) (t : Nat) (n : Int) : Option (Col → Php) → World → Prop
  | none, w => InTx strict t n (some []) w ∧ (store w).of (.int n) = []
  | some u, w => ∃ k c, Shows u k c ∧ InTx strict t n (some []) w ∧
      (store w).of (.int n) = [⟨.int k, .int n, c⟩]

theorem selects_tgUserId (collate : String → List Nat) (n : Int) (row : Row Col) :
    schema.selects collate .tgUsers .tgUserId (.int n) row = true ↔ row .tgUserId = .int n :=
  selects_bigint (show schema.type .tgUsers .tgUserId = .bigint true from rfl) collate rfl row

theorem fetched (collate : String → List Nat) (hInv : Inv strict w) (hTx : InTx strict t n (some []) w) :
    Fetched strict t n (w.fetchRow collate t .tgUsers User.selectCols .tgUserId (.int n)) w := by
  have hView : w.view t = w.db := by simp [World.view, hTx.tx]
  rw [World.fetchRow, hView]
  cases hFind : (w.db .tgUsers).find? (schema.selects collate .tgUsers .tgUserId (bindParam (.int n))) with
  | none =>
    refine ⟨hTx, List.filter_eq_nil_iff.mpr fun r hr hOwner => ?_⟩
    obtain ⟨row, hRow, rfl⟩ := List.mem_map.mp hr
    refine List.find?_eq_none.mp hFind row hRow ?_
    exact (selects_tgUserId collate n row).mpr (of_decide_eq_true hOwner)
  | some row =>
    have hRow : users.record row ∈ (store w).records := List.mem_map_of_mem (List.mem_of_find?_eq_some hFind)
    have hOwner : row .tgUserId = .int n := (selects_tgUserId collate n row).mp (List.find?_some hFind)
    obtain ⟨k, _, hKey⟩ := hInv.userKey (row .id) (List.mem_map_of_mem hRow)
    have hMem : users.record row ∈ (store w).of (.int n) := Store.mem_of.mpr ⟨hRow, hOwner⟩
    have hOf : (store w).of (.int n) = [users.record row] := by
      obtain ⟨r, hr⟩ := List.length_eq_one_iff.mp
        (le_antisymm (hInv.linked.single (.int n)) (List.length_pos_of_mem hMem))
      rw [hr] at hMem
      rw [hr, List.mem_singleton.mp hMem]
    refine ⟨k, .ofRow row, ⟨hInv.texts _ hRow, ?_, rfl, rfl, rfl⟩, hTx, ?_⟩
    · change fetchValue (row .id) = _
      rw [hKey]
      rfl
    · rw [hOf, ← hKey, ← hOwner]
      rfl

/-- The names are strings or missing, as in an update from Telegram. -/
def Typed (d : Data) : Prop :=
  ∃ username firstName lastName : Option String,
    d.username = .ofOption username ∧ d.firstName = .ofOption firstName ∧ d.lastName = .ofOption lastName

variable {c : Identity} {u : Col → Php}

theorem eq_ofData_of_changes {d : Data} (h : Shows u k c) (hNone : User.changes u d = []) : c = .ofData d := by
  have hSame : ∀ {col : Col} {old new : Php}, UpdateQuery.change col old new = [] → old = new := by
    intro col old new hNil
    by_contra hNe
    simp [UpdateQuery.change, hNe] at hNil
  have hField : ∀ {v : Value} {new : Php}, v.text = v → fetchValue v = new → v = (bindParam new).text := by
    rintro v _ hText rfl
    rw [bindParam_fetchValue hText, hText]
  simp only [User.changes, List.append_eq_nil_iff] at hNone
  obtain ⟨⟨hUsername, hFirst⟩, hLast⟩ := hNone
  exact congr (congr (congrArg Identity.mk (hField h.text.username (h.username ▸ hSame hUsername)))
    (hField h.text.firstName (h.firstName ▸ hSame hFirst))) (hField h.text.lastName (h.lastName ▸ hSame hLast))

theorem changes_eq_nil {d : Data} (hTyped : Typed d) (h : Shows u k (.ofData d)) : User.changes u d = [] := by
  have hText : ∀ o : Option String, fetchValue (bindParam (.ofOption o)).text = .ofOption o := by
    intro o
    cases o <;> rfl
  obtain ⟨a, b, c, ha, hb, hc⟩ := hTyped
  have hUsername := h.username
  have hFirst := h.firstName
  have hLast := h.lastName
  simp only [Identity.ofData, ha, hb, hc, hText] at hUsername hFirst hLast
  simp [User.changes, UpdateQuery.change, ha, hb, hc, hUsername, hFirst, hLast]

def Resolved (strict : Prop) (t : Nat) (n : Int) (i : Identity) (needHistory : Bool) (id : Php) (w : World) :
    Prop :=
  if needHistory then
    ∃ (k : Nat) (log : List (Write Tbl Col)), id.intParam = some (k : Int) ∧
      InTx strict t n (some log) w ∧ Half strict t n i k w log
  else InTx strict t n (some []) w ∧ Prepared strict t n i w []

def Ready (strict : Prop) (t : Nat) (n : Int) (i : Identity) (w : World) : Prop :=
  ∃ log, InTx strict t n (some log) w ∧ Prepared strict t n i w log

namespace Spec

variable {hs : Hashes} {allow : Nat → Op → World → Prop} {pre : Job → World → Prop} {j : Job}

theorem stable_inTx (tx : Option (List (Write Tbl Col))) :
    Stable (protocol strict allow pre) t (InTx strict t n tx) :=
  fun _ hu _ _ _ hStep h => h.stable hu hStep

theorem lock {m : Mutex} (hm : m = mutexOf n) : Spec strict hs allow pre t j (Idle strict t)
    (Loggers.perform (.lock m)) (fun _ => InTx strict t n none) := by
  subst hm
  refine perform (fun _ => stable_inTx none) nofun (fun _ => rfl) fun w r w' ch hInv hIdle hCarried => ?_
  cases ch with
  | ok =>
    simp only [carry] at hCarried
    split at hCarried
    · rename_i hFree
      cases hCarried
      exact ⟨.lock hInv hFree, hIdle.tx, Function.update_self _ _ _, hIdle.failed⟩
    · cases hCarried
  | _ => cases hCarried

theorem beginTransaction : Spec strict hs allow pre t j (InTx strict t n none)
    (Loggers.perform .beginTransaction) (fun _ => InTx strict t n (some [])) := by
  refine perform (fun _ => stable_inTx _) (fun _ _ _ h => h.failed) (fun _ => rfl)
    fun w r w' ch hInv hTx hCarried => ?_
  cases ch with
  | ok =>
    simp only [carry, World.beginTransaction, hTx.tx] at hCarried
    cases hCarried
    exact ⟨.setTx hInv _ fun _ hId => absurd hId List.not_mem_nil, Function.update_self _ _ _, hTx.lock, hTx.failed⟩
  | _ => cases hCarried

theorem stable_fetched (row : Option (Col → Php)) :
    Stable (protocol strict allow pre) t (Fetched strict t n row) := by
  intro u hu w w' _ hStep h
  cases row with
  | none => exact ⟨h.1.stable hu hStep, (h.1.of_eq hu hStep).trans h.2⟩
  | some row =>
    obtain ⟨k, c, hShows, hTx, hOf⟩ := h
    exact ⟨k, c, hShows, hTx.stable hu hStep, (hTx.of_eq hu hStep).trans hOf⟩

theorem fetch : Spec strict hs allow pre t j (InTx strict t n (some []))
    (Loggers.perform (.fetch .tgUsers User.selectCols .tgUserId (.int n))) (Fetched strict t n) := by
  refine perform stable_fetched (fun _ _ _ h => h.failed) (fun _ => rfl)
    fun w r w' ch hInv hTx hCarried => ?_
  cases ch with
  | ok =>
    cases hCarried
    exact ⟨.refl hInv, fetched _ hInv hTx⟩
  | _ => cases hCarried

theorem stable_resolved (needHistory : Bool) (id : Php) :
    Stable (protocol strict allow pre) t (Resolved strict t n i needHistory id) := by
  intro u hu w w' _ hStep h
  cases needHistory with
  | false => exact ⟨h.1.stable hu hStep, h.2.stable hu hStep h.1⟩
  | true =>
    obtain ⟨k, log, hId, hTx, hHalf⟩ := h
    exact ⟨k, log, hId, hTx.stable hu hStep, hHalf.stable hu hStep hTx⟩

theorem stable_ready : Stable (protocol strict allow pre) t (Ready strict t n i) := by
  rintro u hu w w' _ hStep ⟨log, hTx, hPrepared⟩
  exact ⟨log, hTx.stable hu hStep, hPrepared.stable hu hStep hTx⟩

variable {d : Data}

variable {dateTime : String}

theorem updateRow (hShows : Shows u k c) (hTyped : strict → Typed d) (hChanges : User.changes u d ≠ []) :
    Spec strict hs allow pre t j
      (fun w => InTx strict t n (some []) w ∧ (store w).of (.int n) = [⟨.int k, .int n, c⟩])
      (Loggers.perform ((User.updateQuery u d).finish .tgUsers dateTime (u .id)))
      (fun _ => Resolved strict t n (.ofData d) true (u .id)) := by
  refine perform (fun _ => stable_resolved true _) (fun _ _ _ h => h.1.failed) (fun _ => rfl) ?_
  rintro w r w' ch hInv ⟨hTx, hOf⟩ hCarried
  cases ch with
  | ok =>
    rcases World.execute_eq (Option.some.inj hCarried) with ⟨e, rfl, rfl⟩ | ⟨ws, hWrites, rfl, rfl⟩
    · exact ⟨.refl hInv, hTx.failed⟩
    · have hView : w.view t = w.db := by simp [World.view, hTx.tx]
      rw [hView] at hWrites
      have hRow : ∃ row ∈ w.db .tgUsers, row .id = .int k := by
        obtain ⟨row, hRow, hEq⟩ := List.mem_map.mp
          (Store.mem_of.mp (hOf ▸ List.mem_singleton_self _ : _ ∈ (store w).of (.int n))).1
        exact ⟨row, hRow, congrArg Record.id hEq⟩
      obtain ⟨rfl, hSet⟩ := User.trackUserUpdate_writes hShows.text hShows.id hShows.username
        hShows.firstName hShows.lastName hRow hChanges hWrites
      have hLookup := fun c hc => User.lookup_updateSets u d dateTime (c := c) hc
      generalize User.updateSets u d dateTime = sets at hCarried hSet hLookup ⊢
      have hWrite : w.write t [.update .tgUsers .id (.str (toString k)) sets] =
          { w with tx := Function.update w.tx t (some [.update .tgUsers .id (.str (toString k)) sets]) } := by
        simp [World.write, hTx.tx]
      rw [hWrite]
      refine ⟨.setTx hInv _ fun _ hId => absurd hId List.not_mem_nil, k, _, ?_, ⟨Function.update_self _ _ _, hTx.lock, hTx.failed⟩,
        .changed hOf (hLookup .id (by decide)) (hLookup .tgUserId (by decide)) hSet ?_⟩
      · rw [hShows.id, Php.intParam_toString]
      · rintro hStrict rfl
        exact hChanges (changes_eq_nil (hTyped hStrict) hShows)
  | _ => cases hCarried

variable {self : User}

theorem trackUserUpdate (hShows : Shows u k c) (hTyped : strict → Typed d) (hSelf : self.needHistory = false) :
    Spec strict hs allow pre t j
      (fun w => InTx strict t n (some []) w ∧ (store w).of (.int n) = [⟨.int k, .int n, c⟩])
      (User.trackUserUpdate self d u)
      (fun self' => Resolved strict t n (.ofData d) self'.needHistory (u .id)) := by
  rw [User.trackUserUpdate]
  by_cases hChanges : User.changes u d = []
  · have hNone : (User.updateQuery u d).doUpdate = false := by
      simp [User.updateQuery_eq, UpdateQuery.ofChanges, hChanges]
    rw [hNone, if_neg (by simp)]
    rintro w _ ⟨hTx, hOf⟩
    rw [eq_ofData_of_changes hShows hChanges] at hOf
    change Resolved strict t n (.ofData d) self.needHistory (u .id) w
    rw [hSelf]
    exact ⟨hTx, .same hOf⟩
  · have hSome : (User.updateQuery u d).doUpdate = true := by
      simp [User.updateQuery_eq, UpdateQuery.ofChanges, hChanges]
    rw [hSome, if_pos rfl]
    exact bind (updateRow hShows hTyped hChanges) fun _ => ret

def Inserted (strict : Prop) (t : Nat) (n : Int) (i : Identity) (w : World) : Prop :=
  ∃ log, InTx strict t n (some log) w ∧ Half strict t n i (w.lastId t) w log

theorem stable_inserted : Stable (protocol strict allow pre) t (Inserted strict t n i) := by
  rintro u hu w w' _ hStep ⟨log, hTx, hHalf⟩
  refine ⟨log, hTx.stable hu hStep, ?_⟩
  rw [hStep.lastId t hu.symm]
  exact hHalf.stable hu hStep hTx

theorem insertRow {isBot : Php} (hId : d.userId = .int n) :
    Spec strict hs allow pre t j (Fetched strict t n none)
      (Loggers.perform (.execute (.insert .tgUsers User.insertCols)
        [d.userId, d.username, d.firstName, d.lastName, .int 0, .int 0, isBot, .str dateTime]))
      (fun _ => Inserted strict t n (.ofData d)) := by
  refine perform (fun _ => stable_inserted) (fun _ _ _ h => h.1.failed) (fun _ => rfl) ?_
  rintro w r w' ch hInv ⟨hTx, hOf⟩ hCarried
  cases ch with
  | ok =>
    rcases World.execute_eq (Option.some.inj hCarried) with ⟨e, rfl, rfl⟩ | ⟨ws, hWrites, rfl, rfl⟩
    · exact ⟨.refl hInv, hTx.failed⟩
    · obtain ⟨row, rfl, hKey, hOwner, hContent⟩ := User.insertUser_writes hId hWrites
      refine ⟨.insert hInv hTx.tx hKey, ?_⟩
      have hWrite : (w.takeId t .tgUsers).write t [.insert .tgUsers row] =
          { w.takeId t .tgUsers with tx := Function.update w.tx t (some [.insert .tgUsers row]) } := by
        simp [World.write, World.takeId, hTx.tx]
      rw [hWrite]
      have hFresh : ∀ (ids : List Value), (∀ id ∈ ids, ∃ k < w.next .tgUsers, id = .int k) →
          Value.int (w.next .tgUsers) ∉ ids := by
        intro ids hIds hMem
        obtain ⟨k, hk, hEq⟩ := hIds _ hMem
        have hInt : (w.next .tgUsers : Int) = k := Value.int.inj hEq
        omega
      refine ⟨_, ⟨Function.update_self _ _ _, hTx.lock, hTx.failed⟩, .added hOf ?_ hOwner hContent ⟨?_, ?_, ?_⟩⟩
      · simpa [World.takeId] using hKey
      · simpa [World.takeId] using hFresh _ hInv.userKey
      · intro u hu
        simpa [World.takeId, pendingUsers, hu] using hFresh _ (hInv.pendingKey u)
      · simp [World.takeId]
  | _ => cases hCarried

theorem lastUserId : Spec strict hs allow pre t j (Inserted strict t n i) (Loggers.perform .lastInsertId)
    (fun k => Resolved strict t n i true (.int k)) := by
  refine perform (fun _ => stable_resolved true _) (fun _ _ _ ⟨_, h, _⟩ => h.failed) (fun _ => rfl) ?_
  rintro w r w' ch hInv ⟨log, hTx, hHalf⟩ hCarried
  cases ch with
  | ok =>
    cases hCarried
    exact ⟨.refl hInv, w.lastId t, log, rfl, hTx, hHalf⟩
  | _ => cases hCarried

theorem resolveRow (hId : d.userId = .int n) (hTyped : strict → Typed d) (hSelf : self.needHistory = false)
    (row : Option (Col → Php)) :
    Spec strict hs allow pre t j (Fetched strict t n row) (User.resolveRow self d row)
      (fun r => Resolved strict t n (.ofData d) r.1.needHistory r.2.id) := by
  cases row with
  | none => exact bind (bind (insertRow hId) fun _ => bind lastUserId fun _ => ret) fun _ => ret
  | some u =>
    refine Outline.exists_intro fun k => Outline.exists_intro fun c => Outline.and_intro fun hShows => ?_
    exact bind (trackUserUpdate hShows hTyped hSelf) fun _ => ret

theorem versionRow {photo : Php} :
    Spec strict hs allow pre t j
      (fun w => InTx strict t n (some log) w ∧ Half strict t n (.ofData d) k w log)
      (Loggers.perform (.execute (.insert .tgUserHistory User.historyCols)
        [.int k, d.username, d.firstName, d.lastName, photo, .str dateTime]))
      (fun _ => Ready strict t n (.ofData d)) := by
  refine perform (fun _ => stable_ready) (fun _ _ _ h => h.1.failed) (fun _ => rfl) ?_
  rintro w r w' ch hInv ⟨hTx, hHalf⟩ hCarried
  cases ch with
  | ok =>
    rcases World.execute_eq (Option.some.inj hCarried) with ⟨e, rfl, rfl⟩ | ⟨ws, hWrites, rfl, rfl⟩
    · exact ⟨.refl hInv, hTx.failed⟩
    · obtain ⟨row, rfl, hKey, hUser, hContent, _⟩ := User.createUserHistory_writes hWrites
      exact ⟨.insert hInv hTx.tx hKey, _, hHalf.record hInv hTx hKey hUser hContent⟩
  | _ => cases hCarried

theorem lastVersionId : Spec strict hs allow pre t j (Ready strict t n i) (Loggers.perform .lastInsertId)
    (fun _ => Ready strict t n i) := by
  refine perform (fun _ => stable_ready) (fun _ _ _ ⟨_, h, _⟩ => h.failed) (fun _ => rfl) ?_
  rintro w r w' ch hInv hReady hCarried
  cases ch with
  | ok =>
    cases hCarried
    exact ⟨.refl hInv, hReady⟩
  | _ => cases hCarried

theorem recordHistory (self : User) (u : UserInfo) :
    Spec strict hs allow pre t j (Resolved strict t n (.ofData d) self.needHistory u.id)
      (User.recordHistory d (self, u)) (fun _ => Ready strict t n (.ofData d)) := by
  rw [User.recordHistory]
  cases hNeed : self.needHistory with
  | false =>
    rintro w _ ⟨hTx, hPrepared⟩
    exact ⟨[], hTx, hPrepared⟩
  | true =>
    refine Outline.exists_intro fun k => Outline.exists_intro fun log => Outline.and_intro fun hId => ?_
    have hArg : (intArg u.id : Run Int) = .ret (k : Int) := by simp [intArg, hId]
    simp only [if_true, User.createUserHistory, hArg, Prog.bind_eq, Prog.bind_ret]
    exact bind (bind versionRow fun _ => bind lastVersionId fun _ => ret) fun _ => ret

theorem resolveUserInternal (hId : d.userId = .int n) (hTyped : strict → Typed d) (hSelf : self.needHistory = false) :
    Spec strict hs allow pre t j (InTx strict t n (some [])) (User.resolveUserInternal self d)
      (fun _ => Ready strict t n (.ofData d)) := by
  rw [User.resolveUserInternal, hId]
  exact bind fetch fun row => bind (resolveRow hId hTyped hSelf row) fun (self', u) => recordHistory self' u

def Closed (t : Nat) (w : World) : Prop := w.tx t = none

theorem stable_closed : Stable (protocol strict allow pre) t (Closed t) :=
  fun _ hu _ _ _ hStep h => (hStep.tx t hu.symm).trans h

theorem closed_release (m : Mutex) (w : World) (h : Closed t w) : Closed t (w.release t m) := by
  rw [Closed, World.release_tx]
  exact h

theorem commit (hJob : strict → ∀ m, identityOf m j = if m = n then some (.ofData d) else none) :
    Spec strict hs allow pre t j (Ready strict t n (.ofData d)) (Loggers.perform .commit)
      (fun _ => Closed t) := by
  refine perform (fun _ => stable_closed) (fun _ _ _ ⟨_, h, _⟩ => h.failed) (fun _ => rfl) ?_
  rintro w r w' ch hInv ⟨log, hTx, hPrepared⟩ hCarried
  cases ch with
  | ok =>
    have hStep := hPrepared.commit hInv hTx (Identity.isText_ofData d) hJob
    simp only [carry, World.commit, hTx.tx] at hCarried hStep
    cases hCarried
    exact ⟨hStep, Function.update_self _ _ _⟩
  | _ => cases hCarried

theorem rollback : Spec strict hs allow pre t j (Failed strict t) (Loggers.perform .rollback)
    (fun _ => Failed strict t) := by
  refine perform (fun _ => stable_failed) (fun _ _ _ h => h) (fun _ => rfl) ?_
  rintro w r w' ch hInv hFailed hCarried
  cases ch with
  | ok =>
    simp only [carry, World.rollback] at hCarried
    split at hCarried
    · cases hCarried
      exact ⟨.setTx hInv none fun _ hId => absurd hId List.not_mem_nil, hFailed⟩
    · cases hCarried
      exact ⟨.refl hInv, hFailed⟩
  | _ => cases hCarried

/-- Whatever fails on the way, the transaction either commits as a whole or not at all. -/
theorem transaction {α : Type} {m : Mutex} {body : Run α} {L B C : World → Prop}
    (hLock : Spec strict hs allow pre t j (Idle strict t) (Loggers.perform (.lock m)) (fun _ => L))
    (hBegin : Spec strict hs allow pre t j L (Loggers.perform .beginTransaction) (fun _ => B))
    (hBody : Spec strict hs allow pre t j B body (fun _ => C))
    (hCommit : Spec strict hs allow pre t j C (Loggers.perform .commit) (fun _ => Closed t)) :
    Spec strict hs allow pre t j (Idle strict t) (inTransaction m body) (fun _ => Closed t) := by
  refine mutex_scoped (fun _ => stable_closed) (fun _ => closed_release _) ?_
  refine bind hLock fun _ => bind (P := fun _ => Closed t) (catchException ?_ fun e => ?_) fun _ =>
    bind (release (.inl rfl) stable_closed (closed_release _)) fun _ => ret
  · exact bind hBegin fun _ => bind hBody fun _ => bind hCommit fun _ => ret
  · exact bind rollback fun _ => bind (release (.inl rfl) stable_failed fun w h => h.release _) fun _ => throw

theorem resolveUser (hData : self.data = some d) (hId : d.userId = .int n) (hTyped : strict → Typed d)
    (hSelf : self.needHistory = false)
    (hJob : strict → ∀ m, identityOf m j = if m = n then some (.ofData d) else none) :
    Spec strict hs allow pre t j (Idle strict t) (User.resolveUser self) (fun _ => Closed t) := by
  have hMutex : User.userMutex d = mutexOf n := by rw [User.userMutex, hId]; rfl
  simp only [User.resolveUser, hData]
  exact transaction (lock hMutex) beginTransaction (resolveUserInternal hId hTyped hSelf) (commit hJob)

end Spec

end TeaBot.Loggers.UserProtocol
