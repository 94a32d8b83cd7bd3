import TeaBot.Loggers.Bystanders

/-! # `trackPhoto` beside `resolveUser`

`trackPhoto` writes a version from the data its message carried, outside any
transaction and under another mutex than `resolveUser`. It keeps the protocol of the user
tables as long as each such version repeats the stored identity and no open transaction
holds an earlier version of the same user.
-/

namespace TeaBot.Loggers.UserProtocol

open Foundation Foundation.Sql Foundation.System Versioned

/-! ## Statements that only set the photo -/

def SetsPhoto : Write Tbl Col → Prop
  | .update _ _ _ sets => ∃ x, sets = [(.photo, x)]
  | _ => False

theorem map_update {β : Type} {f : Row Col → β} {sets : List (Col × Value)} (hf : ∀ row, f (row.set sets) = f row)
    (p : Row Col → Bool) (rows : List (Row Col)) :
    (rows.map fun row => if p row then row.set sets else row).map f = rows.map f := by
  rw [List.map_map]
  refine List.map_congr_left fun row _ => ?_
  by_cases hp : p row = true
  · simp [hp, hf]
  · simp [hp]

theorem store_setsPhoto {ws : List (Write Tbl Col)} (hws : ∀ x ∈ ws, SetsPhoto x) (db : Tables Tbl Col) :
    userStore (schema.applyAll ws db) = userStore db := by
  induction ws generalizing db with
  | nil => rfl
  | cons x ws ih =>
    rw [Schema.applyAll_cons, ih fun y hy => hws y (List.mem_cons_of_mem x hy)]
    have hHead := hws x List.mem_cons_self
    cases x with
    | insert => cases hHead
    | delete => cases hHead
    | increment => cases hHead
    | update tb key v _ =>
      obtain ⟨photo, rfl⟩ := hHead
      have hRecord : ∀ row : Row Col, users.record (row.set [(.photo, photo)]) = users.record row := fun _ => rfl
      have hVersion : ∀ row : Row Col, users.version (row.set [(.photo, photo)]) = users.version row := fun _ => rfl
      have hMap : ∀ {β : Type} {f : Row Col → β} (tb' : Tbl),
          (∀ row, f (row.set [(.photo, photo)]) = f row) →
          (schema.apply (.update tb key v [(.photo, photo)]) db tb').map f = (db tb').map f := by
        intro β f tb' hf
        by_cases hTb : tb' = tb
        · subst hTb
          simp only [Schema.apply, Function.update_self]
          exact map_update hf _ _
        · simp only [Schema.apply, Function.update_of_ne hTb]
      simp only [userStore, Versioning.store, hMap _ hRecord, hMap _ hVersion]

variable {t : Nat} {w : World} {hs : Hashes} {j : Job}

theorem Step.setsPhoto (hInv : Inv False w) (hClosed : Spec.Closed t w) {ws : List (Write Tbl Col)}
    (hws : ∀ x ∈ ws, SetsPhoto x) : Step False t w (w.write t ws) := by
  have hTx : w.tx t = none := hClosed
  have hEq : w.write t ws = { w with db := schema.applyAll ws w.db } := by simp [World.write, hTx]
  rw [hEq]
  exact .of_store_eq hInv (store_setsPhoto hws w.db) False.elim (.inl rfl) (fun _ _ _ => Iff.rfl) (fun _ _ => rfl)
    (fun _ _ => rfl) (fun _ => le_rfl) fun _ h => .inl h

/-! ## A version outside a transaction -/

/-- The record `id` still has identity `i`, and none of the coroutines below `n` is about
to commit a version of it. -/
def Current (n : Nat) (w : World) (id : Value) (i : Identity) : Prop :=
  (∀ r ∈ w.db .tgUsers, r .id = id → Identity.ofRow r = i) ∧ ∀ u < n, id ∉ pendingVersions w u

instance (n : Nat) (w : World) (id : Value) (i : Identity) : Decidable (Current n w id i) :=
  inferInstanceAs (Decidable (_ ∧ _))

theorem Step.confirm (hInv : Inv False w) (hClosed : Spec.Closed t w) {r : Row Col}
    (hKey : r .id = .int (w.next .tgUserHistory)) {k : Int} (hUser : r .userId = .int k)
    (hParent : ∃ u ∈ w.db .tgUsers, u .id = .int k) (hCurrent : ∀ n, Current n w (.int k) (.ofRow r)) :
    Step False t w ((w.takeId t .tgUserHistory).write t [.insert .tgUserHistory r]) := by
  have hTx : w.tx t = none := hClosed
  have hEq : (w.takeId t .tgUserHistory).write t [.insert .tgUserHistory r] =
      { w.takeId t .tgUserHistory with db := schema.applyAll [.insert .tgUserHistory r] w.db } := by
    simp [World.write, World.takeId, hTx]
  have hStore : userStore (schema.applyAll [.insert .tgUserHistory r] w.db) =
      (store w).confirm (users.version r) := by
    simp [Versioning.store, Schema.apply, Store.confirm, users]
  have hVersion : (users.version r).key = w.next .tgUserHistory := by
    simp [Versioning.version, rowKey, hKey, Value.asInt]
  obtain ⟨row, hRow, hId⟩ := hParent
  have hOlder : ∀ v ∈ (store w).history, v.key < (users.version r).key := by
    rw [hVersion]
    exact hInv.versionKey
  have hNext : ∀ tb, w.next tb ≤ (w.takeId t .tgUserHistory).next tb := (Beside.takeId _).next
  rw [hEq]
  refine ⟨⟨?_, ?_, ?_, ?_, ?_, False.elim⟩, fun _ _ _ => Iff.rfl, fun _ _ => rfl, ?_, hNext, ?_, ?_, ?_, .inl rfl, False.elim⟩
  · rw [store, hStore]
    refine hInv.linked.confirm id (List.mem_map_of_mem hRow) (hUser.trans hId.symm) ?_ fun v hv => ?_
    · exact ((hCurrent 0).1 row hRow hId).symm
    · exact hOlder v (List.mem_of_mem_filter hv)
  · rw [store, hStore]
    exact hInv.texts
  · rw [store, hStore]
    exact hInv.userKey
  · exact hInv.pendingKey
  · rw [store, hStore]
    intro v hv
    have hLt : (w.next .tgUserHistory : Int) < ((w.takeId t .tgUserHistory).next .tgUserHistory : Int) := by
      simp [World.takeId]
    rcases List.mem_append.mp hv with hOld | hNew
    · exact (hVersion ▸ hOlder v hOld).trans hLt
    · rw [List.mem_singleton.mp hNew, hVersion]
      exact hLt
  · exact fun u hu => Function.update_of_ne hu _ _
  · rintro id (hMem | hMem)
    · rw [store, hStore] at hMem
      exact .inl hMem
    · exact .inr (.inl hMem)
  · intro n _
    rw [store, hStore]
    rfl
  · rintro n _ r' _ ⟨u, hPending⟩
    rw [store, hStore, Store.confirm, Store.versions_append, if_neg]
    intro hSame
    have hId : r'.id = .int k := hSame.symm.trans hUser
    exact (hCurrent (u + 1)).2 u u.lt_succ_self (hId ▸ hPending)

/-! ## The outlines of all coroutines -/

/-- The Telegram ids are integers, and `resolveUser` runs on a fresh object. -/
def proper : Job → Bool
  | .resolveUser self => !self.needHistory && self.data.all (·.userId.isInt)
  | .groupLogger d _ => d.userId.isInt
  | .adminUser _ v _ _ =>
    match Data.constructUserData (v.read "user") with
    | .ok d => d.userId.isInt
    | .error _ => true
  | _ => true

/-- A version that one of the `n` coroutines writes outside a transaction repeats the
identity of its user. -/
def timely (n t : Nat) : Op → World → Bool
  | .execute (.insert .tgUserHistory _) (id :: username :: firstName :: lastName :: _), w =>
    (w.tx t).isSome || decide (Current n w (bindParam id)
      ⟨(bindParam username).text, (bindParam firstName).text, (bindParam lastName).text⟩)
  | .go job, _ => proper job
  | _, _ => true

def Timely (t : Nat) (o : Op) (w : World) : Prop := ∀ n, timely n t o w = true

theorem timely_of_below {n t : Nat} {o : Op} {w : World} (hFresh : ∀ u, n ≤ u → w.tx u = none)
    (h : timely n t o w = true) : Timely t o w := by
  intro n'
  unfold timely at h ⊢
  split at h
  · simp only [Bool.or_eq_true, decide_eq_true_eq] at h ⊢
    refine h.imp_right fun hCurrent => ⟨hCurrent.1, fun u _ hPending => ?_⟩
    by_cases hu : u < n
    · exact hCurrent.2 u hu hPending
    · simp [pendingVersions, newVersions, hFresh u (by omega)] at hPending
  · exact h
  · rfl

namespace Spec

abbrev Timed (hs : Hashes) (t : Nat) (j : Job) {α : Type} (A : World → Prop) (p : Run α) (P : α → World → Prop) :
    Prop := Spec False hs Timely (fun j _ => proper j = true) t j A p P

variable {self : User} {d : Data} {u : UserInfo}

theorem closed_write (h : Closed t w) (ws : List (Write Tbl Col)) : Closed t (w.write t ws) := by
  have hTx : w.tx t = none := h
  simp [Closed, World.write, hTx]

theorem setsPhoto {stmt : Stmt Tbl Col} {params : List Php} (hStmt : ∀ tb cols, stmt ≠ .insert tb cols)
    (hWrites : ∀ view next ws, schema.writes view next stmt (params.map bindParam) = .ok ws → ∀ x ∈ ws, SetsPhoto x) :
    Timed hs t j (Closed t) (Loggers.perform (.execute stmt params)) (fun _ => Closed t) := by
  refine perform (fun _ => stable_closed) (fun _ _ _ _ => failed_false) (fun _ => rfl) ?_
  intro w r w' ch hInv hClosed hCarried
  cases ch with
  | ok =>
    rcases World.execute_eq (Option.some.inj hCarried) with ⟨e, rfl, rfl⟩ | ⟨ws, hWs, rfl, rfl⟩
    · exact ⟨.refl hInv, failed_false⟩
    · cases stmt with
      | insert tb cols => exact absurd rfl (hStmt tb cols)
      | _ => exact ⟨.setsPhoto hInv hClosed (hWrites _ _ _ hWs), closed_write hClosed ws⟩
  | _ => cases hCarried

theorem setUserPhoto (fileId id : Php) :
    Timed hs t j (Closed t) (Loggers.perform (.execute (.update .tgUsers [.assign .photo] .id) [fileId, id]))
      (fun _ => Closed t) := by
  refine setsPhoto nofun fun view next ws h => ?_
  obtain ⟨rfl, _⟩ := schema.writes_update rfl h
  exact fun x hx => List.mem_singleton.mp hx ▸ ⟨_, rfl⟩

theorem setBothPhotos (fileId historyId : Php) :
    Timed hs t j (Closed t)
      (Loggers.perform (.execute (.updateJoin .tgUsers .tgUserHistory .userId .photo) [fileId, fileId, historyId]))
      (fun _ => Closed t) := by
  refine setsPhoto nofun fun view next ws h => ?_
  simp only [Schema.writes, List.map_cons, List.map_nil] at h
  split at h
  · cases h
    exact fun _ hx => absurd hx List.not_mem_nil
  · split at h
    · cases h
    · cases h
      intro x hx
      rcases List.mem_pair.mp hx with rfl | rfl
      · exact ⟨_, rfl⟩
      · exact ⟨_, rfl⟩

theorem insertVersion {k : Int} {photo : Php} {dateTime : String} :
    Timed hs t j (Closed t)
      (Loggers.perform (.execute (.insert .tgUserHistory User.historyCols)
        [.int k, d.username, d.firstName, d.lastName, photo, .str dateTime]))
      (fun _ => Closed t) := by
  refine performAllowed (fun _ => stable_closed) (fun _ _ _ _ => failed_false) (fun _ => rfl) ?_
  intro w r w' ch hInv hClosed hTimely hCarried
  have hTx : w.tx t = none := hClosed
  cases ch with
  | ok =>
    rcases World.execute_eq (Option.some.inj hCarried) with ⟨e, rfl, rfl⟩ | ⟨ws, hWrites, rfl, rfl⟩
    · exact ⟨.refl hInv, failed_false⟩
    · have hView : w.view t = w.db := by simp [World.view, hTx]
      rw [hView] at hWrites
      obtain ⟨row, rfl, hKey, hUser, hContent, hParent⟩ := User.createUserHistory_writes hWrites
      refine ⟨.confirm hInv hClosed hKey hUser hParent ?_, ?_⟩
      · intro n
        have hCurrent := hTimely n
        simp only [timely, hTx, Option.isSome_none, Bool.false_or, decide_eq_true_eq] at hCurrent
        rw [hContent]
        exact hCurrent
      · exact closed_write (w := w.takeId t .tgUserHistory) hClosed _
  | _ => cases hCarried

theorem createUserHistory (id : Php) :
    Timed hs t j (Closed t) (User.createUserHistory self d id) (fun _ => Closed t) := by
  refine bind (P := fun _ => Closed t) (frame_closed (intArg_uses id)) fun k => bind insertVersion fun _ => ?_
  exact bind (frame_closed (.perform rfl)) fun _ => ret

theorem savePhoto (fileId : Option Nat) :
    Timed hs t j (Closed t) (User.savePhoto self d u fileId) (fun _ => Closed t) := by
  cases fileId with
  | none => exact ret
  | some fileId =>
    simp only [User.savePhoto]
    split
    · split
      · exact bind (setUserPhoto _ _) fun _ => bind (createUserHistory _) fun _ => ret
      · exact setBothPhotos _ _
    · exact ret

theorem resolveFile_aside (md5 : String → String) (tgFileId dateTime : String) :
    (File.resolveFile md5 tgFileId dateTime).Uses Aside := by
  refine .tryFinally (.bind (.perform rfl) fun _ => .bind ?_ fun _ => .bind (.perform rfl) fun _ => trivial)
    (.perform rfl)
  exact (File.resolveOrDownload_confined _ _ _).mono fun _ => aside_of_confined (by decide)

theorem trackPhoto (md5 : String → String) (self : User) :
    Timed hs t j (Closed t) (User.trackPhoto md5 self) (fun _ => Closed t) := by
  unfold User.trackPhoto
  split
  · rename_i u d _ _
    refine mutex_scoped (fun _ => stable_closed) (fun _ => closed_release _) ?_
    refine bind (frame_closed (.perform rfl)) fun _ => bind (P := fun _ => Closed t) ?_ fun _ =>
      frame_closed (.perform rfl)
    refine bind (frame_closed (.perform rfl)) fun answer => bind (frame_closed (.ofExcept _)) fun photo => ?_
    split
    · refine bind (frame_closed (strArg_uses _)) fun tgFileId => ?_
      exact bind (frame_closed (resolveFile_aside md5 _ _)) fun fileId => savePhoto fileId
    · exact ret
  · exact Outline.weaken throw fun _ _ _ => failed_false

theorem groupTrackPhoto_aside (md5 : String → String) (self : Group) :
    (Group.trackPhoto md5 self).Uses Aside := by
  unfold Group.trackPhoto
  split
  · refine .tryFinally (.bind (.perform rfl) fun _ => .bind ?_ fun _ => .perform rfl) (.perform rfl)
    refine .bind (.perform rfl) fun answer => ?_
    dsimp only
    split
    · refine .bind (strArg_uses _) fun _ => .bind (resolveFile_aside md5 _ _) fun fileId => ?_
      exact (Group.savePhoto_confined _ _ _ fileId).mono fun _ => aside_of_confined (by decide)
    · trivial
  · trivial

theorem popAll_aside (chan n : Nat) : (Group.popAll chan n).Uses Aside := by
  induction n with
  | zero => trivial
  | succ n ih => exact .bind (.perform rfl) fun _ => .bind ih fun _ => trivial

theorem startAll (chan : Nat) (dateTime : String) : (admins : PhpArray) →
    Timed hs t j (Closed t) (Group.startAll chan dateTime admins) (fun _ => Closed t)
  | .nil => ret
  | .cons _ _ rest => bind (go stable_closed fun _ h => h 0) fun _ => startAll chan dateTime rest

theorem trackAdmins (self : Group) :
    Timed hs t j (Closed t) (Group.trackAdmins self) (fun _ => Closed t) := by
  unfold Group.trackAdmins
  split
  · refine mutex_scoped (fun _ => stable_closed) (fun _ => closed_release _) ?_
    refine bind (frame_closed (.perform rfl)) fun _ => bind (P := fun _ => Closed t) ?_ fun _ =>
      frame_closed (.perform rfl)
    refine bind (frame_closed (.perform rfl)) fun answer => ?_
    split
    · rename_i admins _
      refine bind (frame_closed (.perform rfl)) fun chan => bind (startAll chan _ admins) fun _ => ?_
      refine bind (frame_closed (popAll_aside chan _)) fun rows => frame_closed (.bind (.perform rfl) fun _ => ?_)
      split
      · trivial
      · exact .perform rfl
    · exact ret
  · exact Outline.weaken throw fun _ _ _ => failed_false

theorem when {b : Bool} {p : Run Unit} (hp : Timed hs t j (Closed t) p (fun _ => Closed t)) :
    Timed hs t j (Closed t) (Prog.when b p) (fun _ => Closed t) := by
  cases b with
  | true => exact hp
  | false => exact ret

theorem resolveUser_closed {n : Int} (hData : self.data = some d) (hId : d.userId = .int n)
    (hSelf : self.needHistory = false) :
    Timed hs t j (Closed t) (User.resolveUser self) (fun _ => Closed t) :=
  Outline.weaken (resolveUser hData hId nofun hSelf nofun) fun _ _ h => ⟨h, failed_false⟩

theorem resolveGroup_closed (self : Group) :
    Timed hs t j (Closed t) (Group.resolveGroup self) (fun _ => Closed t) :=
  Outline.weaken (resolveGroup self) fun _ _ h => ⟨h, failed_false⟩

theorem groupLogger {n : Int} (hId : d.userId = .int n) (dateTime : String) :
    Timed hs t j (Closed t) (GroupLogger.run d dateTime) (fun _ => Closed t) := by
  refine bind (frame_closed (.perform rfl)) fun _ => bind (resolveUser_closed rfl hId rfl) fun ⟨user, userII⟩ => ?_
  refine bind (when (go stable_closed fun _ h => h 0)) fun _ => bind (resolveGroup_closed _) fun ⟨group, groupII⟩ => ?_
  exact when (bind (go stable_closed fun _ h => h 0) fun _ => go stable_closed fun _ h => h 0)

theorem adminUser (md5 : String → String) {k : Key} {v : Php} {chan : Nat} {dateTime : String}
    (hProper : proper (.adminUser k v chan dateTime) = true) :
    Timed hs t j (Closed t) (Group.adminUser md5 k v chan dateTime) (fun _ => Closed t) := by
  refine bind (frame_closed (.perform rfl)) fun _ => ?_
  cases hData : Data.constructUserData (v.read "user") with
  | error e => exact Outline.weaken throw fun _ _ _ => failed_false
  | ok d =>
    simp only [proper, hData] at hProper
    obtain ⟨n, hId⟩ := Php.isInt_iff.mp hProper
    simp only [Prog.ofExcept_ok, Prog.bind_eq, Prog.bind_ret]
    refine bind (resolveUser_closed rfl hId rfl) fun ⟨user, u⟩ => ?_
    exact bind (frame_closed (.perform rfl)) fun _ => trackPhoto md5 user

end Spec

end TeaBot.Loggers.UserProtocol
