import TeaBot.Loggers.Photos

/-! # A photo change through `resolveUser` or `resolveGroup` and `trackPhoto`

The comparison in `trackPhoto` is between a fetched string and an integer, so both methods
always write; what they write depends on whether the resolve before has written a version.
-/

namespace TeaBot.Loggers

open Foundation Foundation.Sql

/-- `refreshPhoto` up to the file it finds. -/
def User.newPhoto (md5 : String → String) (self : User) (d : Data) : Run (Option Nat) := do
  let j ← perform (.exe (.getUserProfilePhotos d.userId))
  let photo ← Prog.ofExcept (profilePhoto j)
  if photo.isset then
    let tgFileId ← strArg photo
    File.resolveFile md5 tgFileId self.dateTime
  else pure none

theorem User.refreshPhoto_eq (md5 : String → String) (self : User) (d : Data) (u : UserInfo) :
    refreshPhoto md5 self d u = (newPhoto md5 self d).bind (savePhoto self d u) := by
  simp only [refreshPhoto, newPhoto, Prog.bind_eq, Prog.bind_assoc]
  refine congrArg _ (funext fun j => congrArg _ (funext fun photo => ?_))
  split
  · rw [Prog.bind_assoc]
  · rfl

def Group.newPhoto (md5 : String → String) (self : Group) (d : Data) : Run (Option Nat) := do
  let j ← perform (.exe (.getChat d.chatId))
  let photo := ((j.get (.str "result")).get (.str "photo")).get (.str "big_file_id")
  if photo.isset then
    let tgFileId ← strArg photo
    File.resolveFile md5 tgFileId self.dateTime
  else pure none

theorem Group.refreshPhoto_eq (md5 : String → String) (self : Group) (d : Data) (u : GroupInfo) :
    refreshPhoto md5 self d u = (newPhoto md5 self d).bind (savePhoto self d u) := by
  simp only [refreshPhoto, newPhoto, Prog.bind_eq, Prog.bind_assoc]
  refine congrArg _ (funext fun j => ?_)
  split
  · rw [Prog.bind_assoc]
  · rfl

namespace Photos

variable {h : Hashes} {j : Job} {w w' : World} {f : Nat} {out : Except Throwable Unit}

/-- A run under the mutex `m` in which `find` comes up with file `f`. -/
def PhotoRun (h : Hashes) (j : Job) (m : Mutex) (find : Run (Option Nat)) (save : Option Nat → Run Unit) (f : Nat)
    (w : World) (out : Except Throwable Unit) (w' : World) : Prop :=
  ∃ w₁ w₂, Alone h j (perform (.lock m)) w (.ok ()) w₁ ∧ Alone h j find w₁ (.ok (some f)) w₂ ∧
    Alone h j (m.scoped ((save (some f)).bind fun _ => perform (.unlock m))) w₂ out w'

variable {m : Mutex}

theorem PhotoRun.alone {find : Run (Option Nat)} {save : Option Nat → Run Unit}
    (hRun : PhotoRun h j m find save f w out w') :
    Alone h j (m.scoped ((perform (.lock m)).bind fun _ => (find.bind save).bind fun _ => perform (.unlock m))) w out w' := by
  obtain ⟨w₁, w₂, hLock, hFind, hSave⟩ := hRun
  refine Prog.Runs.tryFinally_bind hLock ?_
  rw [Prog.bind_assoc]
  exact Prog.Runs.tryFinally_bind hFind hSave

/-- `trackPhoto` of a user, with `f` the file that `resolveFile` returns. -/
def UserTracks (h : Hashes) (j : Job) (self : User) (f : Nat) (w : World) (out : Except Throwable Unit) (w' : World) :
    Prop :=
  ∃ u d, self.u = some u ∧ self.data = some d ∧
    PhotoRun h j (User.rowMutex u) (User.newPhoto h.md5 self d) (User.savePhoto self d u) f w out w'

def GroupTracks (h : Hashes) (j : Job) (self : Group) (f : Nat) (w : World) (out : Except Throwable Unit) (w' : World) :
    Prop :=
  ∃ u d, self.u = some u ∧ self.data = some d ∧
    PhotoRun h j (Group.rowMutex u) (Group.newPhoto h.md5 self d) (Group.savePhoto self d u) f w out w'

variable {self : User}

theorem UserTracks.alone (hRun : UserTracks h j self f w out w') : Alone h j (User.trackPhoto h.md5 self) w out w' := by
  obtain ⟨u, d, hInfo, hData, hRun⟩ := hRun
  simp only [User.trackPhoto, hInfo, hData, User.refreshPhoto_eq]
  exact hRun.alone

theorem GroupTracks.alone {self : Group} (hRun : GroupTracks h j self f w out w') :
    Alone h j (Group.trackPhoto h.md5 self) w out w' := by
  obtain ⟨u, d, hInfo, hData, hRun⟩ := hRun
  simp only [Group.trackPhoto, hInfo, hData, Group.refreshPhoto_eq]
  exact hRun.alone

/-! ## What is found -/

variable {md5 : String → String}

theorem strArg_found {photo : Php} {dateTime : String} (hTx : w.tx 0 = none) (hValid : schema.Valid w.db w.next)
    (hRun : Alone h j (if photo.isset then
      (strArg photo).bind fun tgFileId => File.resolveFile md5 tgFileId dateTime else pure none) w (.ok (some f)) w') :
    Found w f w' := by
  split at hRun
  · rcases hRun.bind_cases with ⟨_, hEq, _⟩ | ⟨s, w₁, hArg, hResolve⟩
    · cases hEq
    have hSame : Untouched w w₁ := untouched_of_uses (strArg_uses photo) hArg
    exact .before hSame (resolveFile_found (hSame.tx ▸ hTx) (hSame.db ▸ hSame.next ▸ hValid) hResolve)
  · cases hRun

variable {d : Data}

theorem userPhoto_found (hTx : w.tx 0 = none) (hValid : schema.Valid w.db w.next)
    (hRun : Alone h j (User.newPhoto md5 self d) w (.ok (some f)) w') : Found w f w' := by
  rcases Prog.Runs.bind_cases hRun with ⟨_, hEq, _⟩ | ⟨answer, w₁, hExe, hRest⟩
  · cases hEq
  rcases Prog.Runs.bind_cases hRest with ⟨_, hEq, _⟩ | ⟨photo, w₂, hPhoto, hFile⟩
  · cases hEq
  have hSame : Untouched w w₂ := .trans (alone_untouched rfl (Prog.Runs.perform_iff.mp hExe))
    (untouched_of_uses (.ofExcept _) hPhoto)
  exact .before hSame (strArg_found (hSame.tx ▸ hTx) (hSame.db ▸ hSame.next ▸ hValid) hFile)

theorem groupPhoto_found {self : Group} (hTx : w.tx 0 = none) (hValid : schema.Valid w.db w.next)
    (hRun : Alone h j (Group.newPhoto md5 self d) w (.ok (some f)) w') : Found w f w' := by
  rcases Prog.Runs.bind_cases hRun with ⟨_, hEq, _⟩ | ⟨answer, w₁, hExe, hFile⟩
  · cases hEq
  have hSame : Untouched w w₁ := alone_untouched rfl (Prog.Runs.perform_iff.mp hExe)
  exact .before hSame (strArg_found (hSame.tx ▸ hTx) (hSame.db ▸ hSame.next ▸ hValid) hFile)

theorem PhotoRun.saves {find : Run (Option Nat)} {save : Option Nat → Run Unit} (hSteady : Steady w)
    (hFind : ∀ w₁ w₂, w₁.tx 0 = none → schema.Valid w₁.db w₁.next → Alone h j find w₁ (.ok (some f)) w₂ → Found w₁ f w₂)
    (hRun : PhotoRun h j m find save f w out w') :
    ∃ w₂ w₃, Found w f w₂ ∧ Alone h j (save (some f)) w₂ out w₃ ∧ Untouched w₃ w' := by
  obtain ⟨w₁, w₂, hLock, hFound, hSave⟩ := hRun
  have hSame : Untouched w w₁ := alone_untouched rfl (Prog.Runs.perform_iff.mp hLock)
  obtain ⟨w₄, hBody, hClose⟩ := alone_scoped hSave
  obtain ⟨w₃, hSaved, hUnlock⟩ := alone_unlock_unit hBody
  have hFiles := hFind w₁ w₂ (hSame.tx ▸ hSteady.quiet.tx) (hSame.db ▸ hSame.next ▸ hSteady.valid) hFound
  exact ⟨w₂, w₃, .before hSame hFiles, hSaved, hUnlock.trans hClose⟩

/-! ## After a resolve -/

section Tracked

variable {C : Type} {V : Versioning C} {n : Int} {k : Nat} {p : Value} {id : Php} {cols : List Col} {params : List Php}
  {historyId : Option Nat} {w₁ w₂ w₃ : World}

theorem Resolved.found (hV : HasPhoto V) (hResolved : Resolved V w₁.db n k p historyId) (hFound : Found w₁ f w₂) :
    Resolved V w₂.db n k p historyId := by
  have hTable := hFound.db V.table hV.recordFiles
  have hHistory := hFound.db V.history hV.versionFiles
  refine ⟨hTable ▸ hResolved.row, fun key hKey => ?_⟩
  rw [hHistory]
  exact hResolved.version key hKey

end Tracked

section Resolves

variable {C : Type} {V : Versioning C} {db : Tables Tbl Col} {next : Tbl → Nat} {n : Int} {k : Nat} {p : Value}
  {r v : Row Col}

theorem resolved_same (hMem : r ∈ db V.table) (hOwner : r V.owner = .int n) (hId : r .id = .int k) :
    Resolved V db n k (r .photo) none :=
  ⟨⟨r, hMem, hOwner, hId, rfl⟩, nofun⟩

theorem newest_version (hValid : schema.Valid db next) (hKey : v .id = .int (next V.history)) (hRef : v V.ref = .int k)
    (hPhoto : v .photo = p) {rows : List (Row Col)} (hRows : rows = db V.history ++ [v]) :
    ∀ key, some (next V.history) = some key → ∃ v ∈ rows, v .id = .int key ∧ v V.ref = .int k ∧ v .photo = p ∧
      ∀ v' ∈ rows, rowKey v' ≤ key := by
  rintro key ⟨⟩
  refine ⟨v, by simp [hRows], hKey, hRef, hPhoto, fun v' hv' => ?_⟩
  rw [hRows] at hv'
  rcases List.mem_append.mp hv' with hEarlier | hLast
  · obtain ⟨key, hKey', hLt⟩ := hValid.key V.history v' hEarlier
    rw [rowKey_of_id hKey']
    omega
  · rw [List.mem_singleton.mp hLast, rowKey_of_id hKey]

theorem resolved_inserted (hV : HasPhoto V) (hValid : schema.Valid db next) (hOwner : r V.owner = .int n)
    (hId : r .id = .int k) (hPhoto : r .photo = p) (hKey : v .id = .int (next V.history)) (hRef : v V.ref = .int k)
    (hPhoto' : v .photo = p) :
    Resolved V (schema.applyAll [.insert V.table r, .insert V.history v] db) n k p (some (next V.history)) := by
  have hFrame : schema.apply (.insert V.table r) db V.history = db V.history := Function.update_of_ne hV.tables.symm _ _
  refine ⟨⟨r, ?_, hOwner, hId, hPhoto⟩, newest_version hValid hKey hRef hPhoto' ?_⟩
  · rw [Schema.applyAll_cons, Schema.applyAll_cons, Schema.applyAll_nil]
    exact mem_apply_insert.mpr (.inl (mem_apply_insert.mpr (.inr ⟨rfl, rfl⟩)))
  · rw [Schema.applyAll_cons, Schema.applyAll_cons, Schema.applyAll_nil]
    exact (Function.update_self _ _ _).trans (congrArg (· ++ [v]) hFrame)

theorem resolved_updated (hV : HasPhoto V) (hValid : schema.Valid db next) (hMem : r ∈ db V.table)
    (hOwner : r V.owner = .int n) (hId : r .id = .int k) {sets : List (Col × Value)}
    (hSets : ∀ c ∈ [V.owner, .id, .photo], sets.lookup c = none) (hKey : v .id = .int (next V.history))
    (hRef : v V.ref = .int k) (hPhoto : v .photo = r .photo) :
    Resolved V (schema.applyAll [.update V.table .id (.str (toString k)) sets, .insert V.history v] db) n k (r .photo)
      (some (next V.history)) := by
  have hFrame : schema.apply (.update V.table .id (.str (toString k)) sets) db V.history = db V.history :=
    Function.update_of_ne hV.tables.symm _ _
  have hSame : ∀ c ∈ [V.owner, .id, .photo], r.set sets c = r c := by
    intro c hc
    rw [Row.set, hSets c hc, Option.getD_none]
  refine ⟨⟨r.set sets, ?_, ?_, ?_, ?_⟩, newest_version hValid hKey hRef hPhoto ?_⟩
  · rw [Schema.applyAll_cons, Schema.applyAll_cons, Schema.applyAll_nil]
    exact mem_apply_insert.mpr (.inl (mem_updated hMem hId sets))
  · rw [hSame V.owner (by simp), hOwner]
  · rw [hSame .id (by simp), hId]
  · exact hSame .photo (by simp)
  · rw [Schema.applyAll_cons, Schema.applyAll_cons, Schema.applyAll_nil]
    exact (Function.update_self _ _ _).trans (congrArg (· ++ [v]) hFrame)

def ReadFrom (V : Versioning C) (db : Tables Tbl Col) (n : Int) (p : Value) : Prop :=
  (∃ r ∈ db V.table, r V.owner = .int n ∧ r .photo = p) ∨ (p = .null ∧ ∀ r ∈ db V.table, r V.owner ≠ .int n)

theorem ReadFrom.ne (hRead : ReadFrom V db n p) (hDiffers : ∀ r ∈ db V.table, r V.owner = .int n → r .photo ≠ .int f) :
    p ≠ .int f := by
  rcases hRead with ⟨r, hr, hOwner, rfl⟩ | ⟨rfl, _⟩
  · exact hDiffers r hr hOwner
  · nofun

end Resolves

section Recorded

variable {C : Type} {V : Versioning C} {w₁ : World} {n : Int} {k : Nat} {p : Value} {id : Php} {cols : List Col}
  {params : List Php} {historyId : Option Nat}

theorem Resolved.holds (hV : HasPhoto V) (hValid : schema.Valid w.db w.next) (hResolved : Resolved V w.db n k p historyId) :
    photo.Holds p := by
  obtain ⟨r, hr, _, _, rfl⟩ := hResolved.row
  exact hValid.cell V.table r hr photo (List.mem_of_find?_eq_some hV.record)

theorem PhotoRun.recorded_iff {find : Run (Option Nat)} {store : Option Nat → Run Unit} (hV : HasPhoto V)
    (hSteady : Steady w₁) (hRead : ReadFrom V w.db n p) (hResolved : Resolved V w₁.db n k p historyId)
    (hFind : ∀ w₁ w₂, w₁.tx 0 = none → schema.Valid w₁.db w₁.next → Alone h j find w₁ (.ok (some f)) w₂ → Found w₁ f w₂)
    (hAdds : photo.Holds p → Adds V k p cols params) (hStore : store (some f) = save V f id cols params historyId)
    (hRun : PhotoRun h j m find store f w₁ out w')
    (hDiffers : ∀ r ∈ w.db V.table, r V.owner = .int n → r .photo ≠ .int f) :
    (out = .ok () ∧ Recorded V w'.db n f) ↔ historyId.isSome = true := by
  obtain ⟨w₂, w₃, hFound, hSave, hEnd⟩ := hRun.saves hSteady hFind
  rw [hStore] at hSave
  rw [hEnd.db]
  exact save_recorded_iff hV hFound.tx hFound.valid hFound.file (hAdds (hResolved.holds hV hSteady.valid))
    (hResolved.found hV hFound) hSave (hRead.ne hDiffers)

end Recorded

theorem fetchValue_ne_int (v : Value) (n : Int) : fetchValue v ≠ .int n := by
  cases v <;> nofun

/-! ## Users -/

variable {k : Nat}

section Users

variable {c : UserCalls.UserCall} {d : Data} {self : User} {u : UserInfo} {log : List (Write Tbl Col)} {w₁ : World}

theorem user_resolved (hSteady : Steady w) (hWrote : UserCalls.Wrote w c d (self, u) log) :
    ∃ r k, UserCalls.Result d c.dateTime self u r k ∧ ReadFrom users w.db c.userId (r .photo) ∧
      Resolved users (schema.applyAll log w.db) c.userId k (r .photo) self.historyId := by
  cases hWrote with
  | same hMem hOwner hId hIdentity hResult hHistory =>
    exact ⟨_, _, hResult, .inl ⟨_, hMem, hOwner, rfl⟩, hHistory ▸ resolved_same hMem hOwner hId⟩
  | inserted hNew hRow hVersion hResult hHistory =>
    refine ⟨_, _, hResult, .inr ⟨hRow.photo, hNew⟩, ?_⟩
    rw [hHistory]
    exact resolved_inserted hasPhoto_users hSteady.valid hRow.owner hRow.id rfl hVersion.id hVersion.ref
      (hVersion.photo.trans hRow.photo.symm)
  | updated hMem hOwner hId hSets hIdentity hVersion hResult hHistory =>
    have hKept : ∀ col ∈ [Col.tgUserId, .id, .photo], col ∉ [Col.username, .firstName, .lastName, .updatedAt] := by decide
    refine ⟨_, _, hResult, .inl ⟨_, hMem, hOwner, rfl⟩, ?_⟩
    rw [hHistory]
    exact resolved_updated hasPhoto_users hSteady.valid hMem hOwner hId (fun col hc => hSets col (hKept col hc))
      hVersion.id hVersion.ref hVersion.photo

theorem user_adds {p : Value} (hHolds : photo.Holds p) (dateTime : String) :
    Adds users k p User.historyCols
      [.int k, d.username, d.firstName, d.lastName, fetchValue p, .str dateTime] := by
  intro view next v hWrites
  obtain ⟨hEq, _⟩ := schema.writes_insert hWrites
  cases hEq
  exact ⟨rfl, Column.stored_bigint rfl (GroupTitle.check_key k .userId), (rebind_bigint rfl hHolds).2⟩

theorem userSave_eq {r : Row Col} (hResult : UserCalls.Result d c.dateTime self u r k) :
    User.savePhoto self d u (some f) = save users f u.id User.historyCols
      [.int k, d.username, d.firstName, d.lastName, fetchValue (r .photo), .str c.dateTime] self.historyId := by
  have hDiffers : u.photo ≠ .int f := hResult.photo ▸ fetchValue_ne_int (r .photo) f
  have hArg : (intArg u.id : Run Int) = .ret (k : Int) := by simp [intArg, hResult.id.intParam]
  have hPhoto : (self.u.map (·.photo)).getD .null = fetchValue (r .photo) := by
    rw [hResult.info, ← hResult.photo]
    rfl
  rw [← hPhoto, ← hResult.date, User.savePhoto, if_pos hDiffers]
  cases self.historyId with
  | some historyId => rfl
  | none =>
    simp only [User.createUserHistory, hArg, Prog.bind_eq, Prog.bind_ret, Prog.bind_assoc, Prog.pure_eq]
    rfl

theorem user_result (hSteady : Steady w) (hReads : c.Reads d)
    (hResolve : (User.resolveUser (UserCalls.fresh d c.dateTime)).eval (serve h j) w = (.ok (self, u), w₁)) :
    Steady w₁ ∧ ∃ r k, UserCalls.Result d c.dateTime self u r k ∧ ReadFrom users w.db c.userId (r .photo) ∧
      Resolved users w₁.db c.userId k (r .photo) self.historyId := by
  rcases UserCalls.resolveUser_cases hSteady hReads h j with
    ⟨_, a, log, _, hEval, hSteady₁, hDb, hWrote⟩ | ⟨_, e, _, hEval, _⟩
  · cases hEval.symm.trans hResolve
    exact ⟨hSteady₁, hDb ▸ user_resolved hSteady hWrote⟩
  · cases hEval.symm.trans hResolve

end Users

/-! ## Groups -/

section Groups

variable {c : GroupTitle.GroupCall} {d : Data} {self : Group} {u : GroupInfo} {log : List (Write Tbl Col)} {w₁ : World}

theorem group_resolved (hSteady : Steady w) (hWrote : GroupTitle.Wrote w c d (self, u) log) :
    ∃ r k, GroupTitle.Result d c.dateTime self u r k ∧ ReadFrom GroupTitle.groups w.db c.chatId (r .photo) ∧
      Resolved GroupTitle.groups (schema.applyAll log w.db) c.chatId k (r .photo) self.historyId := by
  cases hWrote with
  | same hMem hOwner hId hIdentity hResult hHistory =>
    exact ⟨_, _, hResult, .inl ⟨_, hMem, hOwner, rfl⟩, hHistory ▸ resolved_same hMem hOwner hId⟩
  | inserted hNew hRow hVersion hResult hHistory =>
    refine ⟨_, _, hResult, .inr ⟨hRow.photo, hNew⟩, ?_⟩
    rw [hHistory]
    exact resolved_inserted hasPhoto_groups hSteady.valid hRow.owner hRow.id rfl hVersion.id hVersion.ref
      (hVersion.photo.trans hRow.photo.symm)
  | updated hMem hOwner hId hName hVersion hResult hHistory =>
    have hKept : ∀ col ∈ [Col.tgGroupId, .id, .photo], (GroupTitle.updateSets c c.dateTime).lookup col = none := by
      intro col hc
      simp only [List.mem_cons, List.not_mem_nil, or_false] at hc
      rcases hc with rfl | rfl | rfl <;> rfl
    refine ⟨_, _, hResult, .inl ⟨_, hMem, hOwner, rfl⟩, ?_⟩
    rw [hHistory]
    exact resolved_updated hasPhoto_groups hSteady.valid hMem hOwner hId hKept hVersion.id hVersion.ref hVersion.photo

theorem group_adds {p : Value} {link : Php} (hHolds : photo.Holds p) (dateTime : String) :
    Adds GroupTitle.groups k p Group.historyCols
      [.int k, d.chatUsername, d.chatTitle, link, fetchValue p, .str dateTime] := by
  intro view next v hWrites
  obtain ⟨hEq, _⟩ := schema.writes_insert hWrites
  cases hEq
  exact ⟨rfl, Column.stored_bigint rfl (GroupTitle.check_key k .groupId), (rebind_bigint rfl hHolds).2⟩

theorem groupSave_eq {r : Row Col} (hResult : GroupTitle.Result d c.dateTime self u r k) :
    Group.savePhoto self d u (some f) = save GroupTitle.groups f u.id Group.historyCols
      [.int k, d.chatUsername, d.chatTitle, fetchValue (r .link), fetchValue (r .photo), .str c.dateTime]
      self.historyId := by
  have hDiffers : u.photo ≠ .int f := hResult.photo ▸ fetchValue_ne_int (r .photo) f
  have hArg : (intArg u.id : Run Int) = .ret (k : Int) := by simp [intArg, hResult.id.intParam]
  have hLink : (self.u.map (·.link)).getD .null = fetchValue (r .link) := by
    rw [hResult.info, ← hResult.link]
    rfl
  have hPhoto : (self.u.map (·.photo)).getD .null = fetchValue (r .photo) := by
    rw [hResult.info, ← hResult.photo]
    rfl
  rw [← hLink, ← hPhoto, ← hResult.date, Group.savePhoto, if_pos hDiffers]
  cases self.historyId with
  | some historyId => rfl
  | none =>
    simp only [Group.createGroupHistory, hArg, Prog.bind_eq, Prog.bind_ret, Prog.bind_assoc, Prog.pure_eq]
    rfl

theorem group_result (hSteady : Steady w) (hReads : c.Reads d)
    (hResolve : (Group.resolveGroup (GroupTitle.fresh d c.dateTime)).eval (serve h j) w = (.ok (self, u), w₁)) :
    Steady w₁ ∧ ∃ r k, GroupTitle.Result d c.dateTime self u r k ∧
      ReadFrom GroupTitle.groups w.db c.chatId (r .photo) ∧
      Resolved GroupTitle.groups w₁.db c.chatId k (r .photo) self.historyId := by
  rcases GroupTitle.resolveGroup_cases hSteady hReads h j with
    ⟨_, a, log, _, hEval, hSteady₁, hDb, hWrote⟩ | ⟨_, e, _, hEval, _⟩
  · cases hEval.symm.trans hResolve
    exact ⟨hSteady₁, hDb ▸ group_resolved hSteady hWrote⟩
  · cases hEval.symm.trans hResolve

end Groups

/-! ## The statements of a run -/

/-- A trace of `trackPhoto` in which `resolveFile` has returned `found`, or was not called. -/
def UserTrace (md5 : String → String) (self : User) (found : Option Nat) (tr : List Answered)
    (out : Except Throwable Unit) : Prop :=
  (User.trackPhoto md5 self).Exec tr out ∧ ∃ u d tr₁ tr₂, self.u = some u ∧ self.data = some d ∧
    tr = ⟨.lock (User.rowMutex u), .ok ()⟩ :: (tr₁ ++ tr₂) ∧ (User.newPhoto md5 self d).Exec tr₁ (.ok found)

def GroupTrace (md5 : String → String) (self : Group) (found : Option Nat) (tr : List Answered)
    (out : Except Throwable Unit) : Prop :=
  (Group.trackPhoto md5 self).Exec tr out ∧ ∃ u d tr₁ tr₂, self.u = some u ∧ self.data = some d ∧
    tr = ⟨.lock (Group.rowMutex u), .ok ()⟩ :: (tr₁ ++ tr₂) ∧ (Group.newPhoto md5 self d).Exec tr₁ (.ok found)

/-- No statement is issued that writes to one of the two tables. -/
def Silent {C : Type} (V : Versioning C) (tr : List Answered) : Prop :=
  ∀ x ∈ tr, V.table ∉ x.op.targets ∧ V.history ∉ x.op.targets

def Apart (o : Op) : Prop := ∀ t ∈ o.targets, t = .tgFiles

theorem Confined.apart {o : Op} (h : Confined [.tgFiles] o) : Apart o := by
  intro t ht
  cases o with
  | execute stmt params | executeNamed tb cols names params => simpa using List.all_eq_true.mp h t ht
  | _ => cases ht

theorem resolveFile_apart (md5 : String → String) (tgFileId dateTime : String) :
    (File.resolveFile md5 tgFileId dateTime).Uses Apart := by
  refine .tryFinally (.bind (.perform nofun) fun _ => .bind ?_ fun _ => .bind (.perform nofun) fun _ => trivial)
    (.perform nofun)
  exact (File.resolveOrDownload_confined _ _ _).mono fun _ => Confined.apart

theorem photoFile_apart (md5 : String → String) (photo : Php) (dateTime : String) :
    (if photo.isset then (strArg photo).bind fun tgFileId => File.resolveFile md5 tgFileId dateTime
      else pure none : Run (Option Nat)).Uses Apart := by
  split
  · exact .bind (strArg_uses photo) fun _ => resolveFile_apart md5 _ _
  · trivial

theorem userPhoto_apart (md5 : String → String) (self : User) (d : Data) : (User.newPhoto md5 self d).Uses Apart :=
  .bind (.perform nofun) fun _ => .bind (.ofExcept _) fun photo => photoFile_apart md5 photo self.dateTime

theorem groupPhoto_apart (md5 : String → String) (self : Group) (d : Data) : (Group.newPhoto md5 self d).Uses Apart :=
  .bind (.perform nofun) fun _ => photoFile_apart md5 _ self.dateTime

theorem UserTracks.trace (hRun : UserTracks h j self f w out w') : ∃ tr, UserTrace h.md5 self (some f) tr out := by
  obtain ⟨u, d, hInfo, hData, w₁, w₂, hLock, hFind, hRest⟩ := hRun
  obtain ⟨_, hLock⟩ := hLock.exec
  cases hLock.perform_ok
  obtain ⟨tr₁, hFind⟩ := hFind.exec
  obtain ⟨tr₂, hRest⟩ := hRest.exec
  refine ⟨_, ?_, u, d, tr₁, tr₂, hInfo, hData, rfl, hFind⟩
  simp only [User.trackPhoto, hInfo, hData, User.refreshPhoto_eq]
  have hSaves : (((User.newPhoto h.md5 self d).bind fun a => (User.savePhoto self d u a).bind fun _ =>
      perform (.unlock (User.rowMutex u))).tryFinally (perform (.fclose (User.rowMutex u)))).Exec (tr₁ ++ tr₂) out :=
    hFind.tryFinally_bind hRest
  rw [← Prog.bind_assoc] at hSaves
  exact hLock.tryFinally_bind hSaves

section Traces

variable {C : Type} {V : Versioning C} {m : Mutex} {find : Run (Option Nat)} {save : Option Nat → Run Unit}
  {found : Option Nat} {tr tr₁ tr₂ : List Answered}

theorem untargeted {o : Op} (ho : o = .unlock m ∨ o = .fclose m) {out : Except Throwable o.Res}
    (hExec : (perform o).Exec tr out) : ∀ x ∈ tr, x.op.targets = [] := by
  refine Prog.Uses.exec (P := fun o => o.targets = []) (.perform ?_) hExec
  rcases ho with rfl | rfl <;> rfl

theorem after_find
    (hExec : (m.scoped ((perform (.lock m)).bind fun _ => (find.bind save).bind fun _ => perform (.unlock m))).Exec
      (⟨.lock m, .ok ()⟩ :: (tr₁ ++ tr₂)) out) (hFind : find.Exec tr₁ (.ok found)) :
    ∃ saved rest out', tr₂ = saved ++ rest ∧ (save found).Exec saved out' ∧ ∀ x ∈ rest, x.op.targets = [] := by
  cases hExec with
  | op hRest =>
  obtain ⟨out₁, body, close, hTrace, hBody, hClose⟩ := Prog.Exec.tryFinally_cases hRest
  have hClosed : ∀ x ∈ close, x.op.targets = [] := by
    rcases hClose with ⟨_, h⟩ | ⟨_, _, h⟩ <;> exact untargeted (.inr rfl) h
  have hBody : (find.bind fun a => (save a).bind fun _ => perform (.unlock m)).Exec body out₁ := by
    rw [← Prog.bind_assoc]
    exact hBody
  rcases hBody.bind_cases with ⟨e, _, hRaised⟩ | ⟨a, found₁, rest, hEq, hFound, hSave⟩
  · cases (hFind.unique hRaised hTrace).2
  · have hSplit : tr₁ ++ tr₂ = found₁ ++ (rest ++ close) := by rw [hTrace, hEq, List.append_assoc]
    obtain ⟨rfl, hSame⟩ := hFind.unique hFound hSplit
    cases hSame
    obtain rfl := List.append_cancel_left hSplit
    rcases hSave.bind_cases with ⟨e, _, hSaved⟩ | ⟨_, saved, unlock, rfl, hSaved, hUnlock⟩
    · exact ⟨rest, close, _, rfl, hSaved, hClosed⟩
    · refine ⟨saved, unlock ++ close, _, List.append_assoc _ _ _, hSaved, fun x hx => ?_⟩
      exact (List.mem_append.mp hx).elim (untargeted (.inl rfl) hUnlock x) (hClosed x)

theorem silent_of_apart (hV : HasPhoto V) (hApart : ∀ x ∈ tr, Apart x.op) : Silent V tr :=
  fun x hx => ⟨fun h => hV.recordFiles (hApart x hx _ h), fun h => hV.versionFiles (hApart x hx _ h)⟩

theorem save_issues (V : Versioning C) (f : Nat) (id : Php) (cols : List Col) (params : List Php)
    (historyId : Option Nat) :
    ∃ stmt ps k, Photos.save V f id cols params historyId = .op (.execute stmt ps) k ∧ V.table ∈ stmt.tables := by
  cases historyId with
  | none => exact ⟨_, _, _, rfl, List.mem_singleton_self _⟩
  | some key => exact ⟨_, _, _, rfl, List.mem_cons_self⟩

theorem track_silent_iff (hV : HasPhoto V) (hFind : find.Uses Apart) (hNone : save none = .ret ())
    (hSome : ∀ f, ∃ stmt params k, save (some f) = .op (.execute stmt params) k ∧ V.table ∈ stmt.tables)
    (hExec : (m.scoped ((perform (.lock m)).bind fun _ => (find.bind save).bind fun _ => perform (.unlock m))).Exec
      (⟨.lock m, .ok ()⟩ :: (tr₁ ++ tr₂)) out) (hFound : find.Exec tr₁ (.ok found)) :
    Silent V (⟨.lock m, .ok ()⟩ :: (tr₁ ++ tr₂)) ↔ found = none := by
  obtain ⟨saved, rest, out', rfl, hSaved, hRest⟩ := after_find hExec hFound
  cases found with
  | none =>
    rw [hNone] at hSaved
    cases hSaved
    refine iff_of_true (silent_of_apart hV (List.forall_mem_cons.mpr ⟨nofun, fun x hx => ?_⟩)) rfl
    rcases List.mem_append.mp hx with hx | hx
    · exact hFind.exec hFound x hx
    · rw [Apart, hRest x hx]
      nofun
  | some f =>
    obtain ⟨stmt, params, k, hSave, hMem⟩ := hSome f
    rw [hSave] at hSaved
    cases hSaved with
    | @op _ _ r tr _ _ =>
      refine iff_of_false (fun hSilent => (hSilent ⟨.execute stmt params, r⟩ ?_).1 hMem) nofun
      simp

end Traces

/-! ## Both classes -/

/-- A photo that differs is in the row and in its latest version afterwards exactly when
the resolve has written a version: otherwise the new version gets the old photo. -/
theorem photo_recorded_iff (h : Hashes) (j j' : Job) (f : Nat) (out : Except Throwable Unit) {w : World}
    (hSteady : Steady w) (w₁ w₂ : World) :
    (∀ (c : UserCalls.UserCall) (d : Data) (self : User) (u : UserInfo), c.Reads d →
      (User.resolveUser (UserCalls.fresh d c.dateTime)).eval (serve h j) w = (.ok (self, u), w₁) →
      UserTracks h j' self f w₁ out w₂ →
      (∀ r ∈ w.db .tgUsers, r .tgUserId = .int c.userId → r .photo ≠ .int f) →
      ((out = .ok () ∧ Recorded users w₂.db c.userId f) ↔ self.historyId.isSome = true)) ∧
    (∀ (c : GroupTitle.GroupCall) (d : Data) (self : Group) (u : GroupInfo), c.Reads d →
      (Group.resolveGroup (GroupTitle.fresh d c.dateTime)).eval (serve h j) w = (.ok (self, u), w₁) →
      GroupTracks h j' self f w₁ out w₂ →
      (∀ r ∈ w.db .tgGroups, r .tgGroupId = .int c.chatId → r .photo ≠ .int f) →
      ((out = .ok () ∧ Recorded GroupTitle.groups w₂.db c.chatId f) ↔ self.historyId.isSome = true)) := by
  constructor
  · rintro c d self u hReads hResolve ⟨u', d', hInfo, hData, hRun⟩ hDiffers
    obtain ⟨hSteady₁, r, k, hResult, hRead, hResolved⟩ := user_result hSteady hReads hResolve
    cases hInfo.symm.trans hResult.info
    cases hData.symm.trans hResult.data
    exact hRun.recorded_iff hasPhoto_users hSteady₁ hRead hResolved (fun _ _ => userPhoto_found)
      (fun hHolds => user_adds hHolds c.dateTime) (userSave_eq hResult) hDiffers
  · rintro c d self u hReads hResolve ⟨u', d', hInfo, hData, hRun⟩ hDiffers
    obtain ⟨hSteady₁, r, k, hResult, hRead, hResolved⟩ := group_result hSteady hReads hResolve
    cases hInfo.symm.trans hResult.info
    cases hData.symm.trans hResult.data
    exact hRun.recorded_iff hasPhoto_groups hSteady₁ hRead hResolved (fun _ _ => groupPhoto_found)
      (fun hHolds => group_adds hHolds c.dateTime) (groupSave_eq hResult) hDiffers

def sampleDate : String := "2020-01-01 00:00:00"

def sampleCall (firstName : String) : UserCalls.UserCall := ⟨7, none, firstName, none, sampleDate⟩

def sampleData (firstName : String) : Data := { userId := .int 7, firstName := .str firstName }

theorem sampleCall_reads (firstName : String) : (sampleCall firstName).Reads (sampleData firstName) :=
  ⟨rfl, rfl, rfl, rfl⟩

def resolveSample (firstName : String) (w : World) : Except Throwable (User × UserInfo) × World :=
  (User.resolveUser (UserCalls.fresh (sampleData firstName) sampleDate)).eval
    (serve plainHashes (.resolveUser (UserCalls.fresh (sampleData firstName) sampleDate))) w

def fileParams : List Value :=
  [.str "F", .str "U", .str "m", .str "s", .str "image/jpeg", .str "jpg", .int 3, .str sampleDate]

def fileWorld : World :=
  { World.initial with
    db := schema.applyAll [.insert .tgFiles (schema.newRow .tgFiles (File.insertCols.zip fileParams) 1)] World.initial.db
    next := Function.update World.initial.next .tgFiles 2 }

theorem fileWorld_steady : Steady fileWorld := by
  have hWrites : schema.writes World.initial.db World.initial.next (.insert .tgFiles File.insertCols) fileParams =
      .ok [.insert .tgFiles (schema.newRow .tgFiles (File.insertCols.zip fileParams) 1)] := rfl
  exact ⟨⟨rfl, fun _ => rfl⟩, steady_initial.valid.insert schema_wellFormed hWrites⟩

def photoAnswer : Php :=
  .obj [("result", .obj [("photos", .arr (.cons (.int 0) (.arr (.cons (.int 0)
    (.obj [("file_id", .str "F"), ("width", .int 160), ("height", .int 160)]) .nil)) .nil))])]

def newUser : User where
  data := some (sampleData "A")
  dateTime := sampleDate
  needHistory := true
  historyId := some 1
  hasInsertAct := true
  u := some ⟨.int 1, .null, .int 0, .int 0⟩

def lockSample (self : User) (u : UserInfo) (w : World) : World :=
  afterScript plainHashes (.userTrackPhoto self) (perform (.lock (User.rowMutex u))) [.ok] w

def findSample (self : User) (u : UserInfo) (d : Data) (w : World) : World :=
  afterScript plainHashes (.userTrackPhoto self) (User.newPhoto id self d) [.answer photoAnswer, .ok, .ok, .ok, .ok]
    (lockSample self u w)

def endSample (self : User) (u : UserInfo) (d : Data) : Run Unit :=
  (User.rowMutex u).scoped ((User.savePhoto self d u (some 1)).bind fun _ => perform (.unlock (User.rowMutex u)))

def trackSample (self : User) (u : UserInfo) (d : Data) (w : World) : World :=
  afterScript plainHashes (.userTrackPhoto self) (endSample self u d) [.ok, .ok, .ok] (findSample self u d w)

def TracksSample (self : User) (u : UserInfo) (d : Data) (w : World) : Prop :=
  (script plainHashes (.userTrackPhoto self) (perform (.lock (User.rowMutex u))) [.ok] w).map (·.1) = some (.ok ()) ∧
  (script plainHashes (.userTrackPhoto self) (User.newPhoto id self d) [.answer photoAnswer, .ok, .ok, .ok, .ok]
    (lockSample self u w)).map (·.1) = some (.ok (some 1)) ∧
  (script plainHashes (.userTrackPhoto self) (endSample self u d) [.ok, .ok, .ok]
    (findSample self u d w)).map (·.1) = some (.ok ())

instance (self : User) (u : UserInfo) (d : Data) (w : World) : Decidable (TracksSample self u d w) :=
  inferInstanceAs (Decidable (_ ∧ _))

theorem TracksSample.tracks {u : UserInfo} (hInfo : self.u = some u) (hData : self.data = some d)
    (hTracks : TracksSample self u d w) :
    UserTracks plainHashes (.userTrackPhoto self) self 1 w (.ok ()) (trackSample self u d w) :=
  ⟨u, d, hInfo, hData, _, _, afterScript_alone hTracks.1, afterScript_alone hTracks.2.1, afterScript_alone hTracks.2.2⟩

theorem photo_recorded_new_user :
    ∃ w₁ w₂, resolveSample "A" fileWorld = (.ok (newUser, ⟨.int 1, .null, .int 0, .int 0⟩), w₁) ∧
      UserTracks plainHashes (.userTrackPhoto newUser) newUser 1 w₁ (.ok ()) w₂ ∧ Recorded users w₂.db 7 1 := by
  have hUser : (resolveSample "A" fileWorld).1 = .ok (newUser, ⟨.int 1, .null, .int 0, .int 0⟩) := by decide +kernel
  have hResolve : resolveSample "A" fileWorld = (.ok (newUser, ⟨.int 1, .null, .int 0, .int 0⟩), _) := Prod.ext hUser rfl
  have hTracks : TracksSample newUser ⟨.int 1, .null, .int 0, .int 0⟩ (sampleData "A") (resolveSample "A" fileWorld).2 := by
    decide +kernel
  have hRun := hTracks.tracks rfl rfl
  have hRecorded := ((photo_recorded_iff _ _ _ 1 _ fileWorld_steady _ _).1 (sampleCall "A") _ _ _
    (sampleCall_reads "A") hResolve hRun nofun).mpr rfl
  exact ⟨_, _, hResolve, hRun, hRecorded.2⟩

def photos (w : World) : List Value × List Value :=
  ((w.db .tgUsers).map (· .photo), (w.db .tgUserHistory).map (· .photo))

def knownUser (photo : Php) : User where
  data := some (sampleData "A")
  dateTime := sampleDate
  u := some ⟨.str "1", photo, .str "0", .str "0"⟩

def trackKnown (photo : Php) (w : World) : Option (Except Throwable Unit × World) :=
  script plainHashes (.userTrackPhoto (knownUser photo)) (User.trackPhoto id (knownUser photo))
    [.ok, .answer photoAnswer, .ok, .ok, .ok, .ok, .ok, .ok, .ok, .ok, .ok] w

/-- The user is stored without a photo and resolved again; the photo `F` then makes it
to the row, but its version has none. -/
theorem photo_change_keeps_old_version :
    (resolveSample "A" (resolveSample "A" fileWorld).2).1 =
        .ok (knownUser .null, ⟨.str "1", .null, .str "0", .str "0"⟩) ∧
      (trackKnown .null (resolveSample "A" (resolveSample "A" fileWorld).2).2).map (fun r => (r.1, photos r.2)) =
        some (.ok (), [.int 1], [.null, .null]) := by
  decide +kernel

/-- Whenever `resolveFile` returns a file, stored already or not, a statement that writes is
issued: what was fetched is a string, and no string is identical to an integer. -/
theorem photo_silent_iff (h : Hashes) (j : Job) {w : World} (hSteady : Steady w) (w₁ : World) (found : Option Nat)
    (tr : List Answered) (out : Except Throwable Unit) :
    (∀ (c : UserCalls.UserCall) (d : Data) (self : User) (u : UserInfo), c.Reads d →
      (User.resolveUser (UserCalls.fresh d c.dateTime)).eval (serve h j) w = (.ok (self, u), w₁) →
      UserTrace h.md5 self found tr out → (Silent users tr ↔ found = none)) ∧
    (∀ (c : GroupTitle.GroupCall) (d : Data) (self : Group) (u : GroupInfo), c.Reads d →
      (Group.resolveGroup (GroupTitle.fresh d c.dateTime)).eval (serve h j) w = (.ok (self, u), w₁) →
      GroupTrace h.md5 self found tr out → (Silent GroupTitle.groups tr ↔ found = none)) := by
  constructor
  · rintro c d self u hReads hResolve ⟨hExec, u', d', tr₁, tr₂, hInfo, hData, rfl, hFound⟩
    obtain ⟨_, r, k, hResult, _⟩ := user_result hSteady hReads hResolve
    cases hInfo.symm.trans hResult.info
    cases hData.symm.trans hResult.data
    simp only [User.trackPhoto, hResult.info, hResult.data, User.refreshPhoto_eq] at hExec
    refine track_silent_iff hasPhoto_users (userPhoto_apart _ _ _) rfl (fun f => ?_) hExec hFound
    rw [userSave_eq hResult]
    exact save_issues ..
  · rintro c d self u hReads hResolve ⟨hExec, u', d', tr₁, tr₂, hInfo, hData, rfl, hFound⟩
    obtain ⟨_, r, k, hResult, _⟩ := group_result hSteady hReads hResolve
    cases hInfo.symm.trans hResult.info
    cases hData.symm.trans hResult.data
    simp only [Group.trackPhoto, hResult.info, hResult.data, Group.refreshPhoto_eq] at hExec
    refine track_silent_iff hasPhoto_groups (groupPhoto_apart _ _ _) rfl (fun f => ?_) hExec hFound
    rw [groupSave_eq hResult]
    exact save_issues ..

def userParams : List Value :=
  [.int 7, .null, .str "A", .null, .int 0, .int 0, .int 0, .str sampleDate, .int 1]

def userRow : Row Col := schema.newRow .tgUsers ((User.insertCols ++ [Col.photo]).zip userParams) 1

def photoWorld : World :=
  { fileWorld with
    db := schema.applyAll [.insert .tgUsers userRow] fileWorld.db
    next := Function.update fileWorld.next .tgUsers 2 }

theorem photoWorld_steady : Steady photoWorld := by
  have hWrites : schema.writes fileWorld.db fileWorld.next (.insert .tgUsers (User.insertCols ++ [Col.photo])) userParams =
      .ok [.insert .tgUsers userRow] := rfl
  exact ⟨⟨rfl, fun _ => rfl⟩, fileWorld_steady.valid.insert schema_wellFormed hWrites⟩

def renamedUser : User where
  data := some (sampleData "B")
  dateTime := sampleDate
  needHistory := true
  historyId := some 1
  u := some ⟨.str "1", .str "1", .str "0", .str "0"⟩

/-- A photo that is stored is written once more for a user who has been renamed. -/
theorem renamed_user_written_again :
    (resolveSample "B" photoWorld).1 = .ok (renamedUser, ⟨.str "1", .str "1", .str "0", .str "0"⟩) ∧
      (∃ r ∈ photoWorld.db .tgUsers, r .tgUserId = .int 7 ∧ r .photo = .int 1) ∧
      ∃ tr, UserTrace id renamedUser (some 1) tr (.ok ()) ∧ ¬ Silent users tr := by
  have hUser : (resolveSample "B" photoWorld).1 = .ok (renamedUser, ⟨.str "1", .str "1", .str "0", .str "0"⟩) := by
    decide +kernel
  have hResolve : resolveSample "B" photoWorld = (.ok (renamedUser, ⟨.str "1", .str "1", .str "0", .str "0"⟩), _) :=
    Prod.ext hUser rfl
  have hTracks : TracksSample renamedUser ⟨.str "1", .str "1", .str "0", .str "0"⟩ (sampleData "B")
      (resolveSample "B" photoWorld).2 := by
    decide +kernel
  obtain ⟨tr, hTrace⟩ := (hTracks.tracks rfl rfl).trace
  have hIff := (photo_silent_iff plainHashes _ photoWorld_steady _ (some 1) tr _).1 (sampleCall "B") _ _ _
    (sampleCall_reads "B") hResolve hTrace
  exact ⟨hUser, ⟨userRow, List.mem_singleton_self _, rfl, rfl⟩, tr, hTrace, fun hSilent => nomatch hIff.mp hSilent⟩

/-- The user is stored with the photo `F` and resolved again; the same photo then adds a version. -/
theorem same_photo_versioned_again :
    (resolveSample "A" photoWorld).1 = .ok (knownUser (.str "1"), ⟨.str "1", .str "1", .str "0", .str "0"⟩) ∧
      photos (resolveSample "A" photoWorld).2 = ([.int 1], []) ∧
      (trackKnown (.str "1") (resolveSample "A" photoWorld).2).map (fun r => (r.1, photos r.2)) =
        some (.ok (), [.int 1], [.int 1]) := by
  decide +kernel

end Photos

end TeaBot.Loggers
