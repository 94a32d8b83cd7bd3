import TeaBot.Loggers.GroupCalls
import TeaBot.Loggers.UserTables

/-! # One call of `resolveUser`

From any sound state, with a fresh `User` object. A stored user whose fields are
unchanged is always resolved; otherwise the history has to take the fields, and its
`username` is narrower than that of `tg_users`.
-/

namespace TeaBot.Loggers.UserCalls

open Foundation Foundation.Sql
open GroupTitle (textFits check_str check_option usernameColumn check_key)

structure UserCall where
  userId : Nat
  username : Option String
  firstName : String
  lastName : Option String
  dateTime : String

namespace UserCall

variable (c : UserCall)

def identity : Identity := ⟨bindParam (.ofOption c.username), .str c.firstName, bindParam (.ofOption c.lastName)⟩

structure Reads (d : Data) : Prop where
  userId : d.userId = .int c.userId
  username : d.username = .ofOption c.username
  firstName : d.firstName = .str c.firstName
  lastName : d.lastName = .ofOption c.lastName

def Fits : Prop :=
  (∀ s, c.username = some s → textFits 72 .latin1 s = true) ∧ textFits 255 .utf8mb4 c.firstName = true ∧
    ∀ s, c.lastName = some s → textFits 255 .utf8mb4 s = true

end UserCall

def oldUsernameColumn : Column Col := { name := .username, type := .varchar 72 .latin1, nullable := true }

def firstNameColumn : Column Col := { name := .firstName, type := .varchar 255 .utf8mb4 }

def lastNameColumn : Column Col := { name := .lastName, type := .varchar 255 .utf8mb4, nullable := true }

theorem fits_iff (c : UserCall) : c.Fits ↔ oldUsernameColumn.check c.identity.username = none ∧
    firstNameColumn.check c.identity.firstName = none ∧ lastNameColumn.check c.identity.lastName = none :=
  and_congr (check_option rfl rfl c.username).symm
    (and_congr (check_str rfl c.firstName).symm (check_option rfl rfl c.lastName).symm)

/-- The wider column of `tg_users` takes whatever the history takes. -/
theorem textFits_wider {s : String} (h : textFits 72 .latin1 s = true) : textFits 255 .utf8 s = true := by
  simp only [textFits, Bool.and_eq_true, decide_eq_true_eq, List.all_eq_true] at h ⊢
  refine ⟨by omega, fun x hx => ?_⟩
  have hEncodes := h.2 x hx
  simp only [Charset.encodes, Bool.or_eq_true, Bool.and_eq_true, decide_eq_true_eq] at hEncodes ⊢
  rcases hEncodes with (hLow | ⟨_, hHigh⟩) | hTable
  · omega
  · omega
  · have hAll : ∀ n ∈ cp1252, n < 0x10000 := by decide
    exact hAll _ hTable

theorem UserCall.Fits.username_check {c : UserCall} (hFits : c.Fits) : usernameColumn.check c.identity.username = none :=
  (check_option rfl rfl c.username).mpr fun s hs => textFits_wider (hFits.1 s hs)

theorem UserCall.Reads.ofData_eq {c : UserCall} {d : Data} (hReads : c.Reads d) : Identity.ofData d = c.identity := by
  have hText : ∀ o : Option String, (bindParam (.ofOption o)).text = bindParam (.ofOption o) := by
    intro o
    cases o <;> rfl
  rw [Identity.ofData, hReads.username, hReads.firstName, hReads.lastName, hText, hText]
  rfl

/-! ## The statements -/

variable {dateTime : String} {k : Nat}

section Statements

variable {view : Tables Tbl Col} (next : Tbl → Nat) {c : UserCall} {d : Data} (hReads : c.Reads d)

def insertParams (d : Data) (dateTime : String) : List Php :=
  [d.userId, d.username, d.firstName, d.lastName, .int 0, .int 0, .int (if d.isBot.truthy then 1 else 0), .str dateTime]

def historyParams (d : Data) (k : Nat) (photo : Php) (dateTime : String) : List Php :=
  [.int k, d.username, d.firstName, d.lastName, photo, .str dateTime]

include hReads

theorem insertUser_of_fits (hFits : c.Fits) (hNew : ∀ r ∈ view .tgUsers, r .tgUserId ≠ .int c.userId)
    (dateTime : String) :
    ∃ ws, schema.writes view next (.insert .tgUsers User.insertCols) ((insertParams d dateTime).map bindParam) = .ok ws := by
  obtain ⟨_, hFirst, hLast⟩ := (fits_iff c).mp hFits
  have hUsername := hFits.username_check
  have hBot : (⟨.isBot, flag, false, some (.str "0")⟩ : Column Col).check
      (.int (if d.isBot.truthy then 1 else 0)) = none := by
    split <;> decide
  have hKey := check_key c.userId .tgUserId
  have hRow : schema.newRow .tgUsers (User.insertCols.zip ((insertParams d dateTime).map bindParam)) (next .tgUsers)
      .tgUserId = .int c.userId := by
    rw [insertParams, hReads.userId]
    exact Column.stored_bigint rfl hKey
  refine ⟨_, schema.writes_insert_of (by decide) rfl ?_ ?_ rfl⟩
  · intro col hd hId
    rw [insertParams, hReads.userId, hReads.username, hReads.firstName, hReads.lastName]
    simp only [schema, table, List.mem_cons, List.not_mem_nil, or_false] at hd
    rcases hd with rfl | rfl | rfl | rfl | rfl | rfl | rfl | rfl | rfl | rfl | rfl
    · exact absurd rfl hId
    · exact hKey
    · exact hUsername
    · exact hFirst
    · exact hLast
    · rfl
    · rfl
    · rfl
    · exact hBot
    · rfl
    · rfl
  · refine schema.duplicateError_eq_none_iff.mpr fun col hCol r hr hEq => ?_
    cases List.mem_singleton.mp hCol
    exact hNew r hr (hEq.trans hRow)

structure NewRow (c : UserCall) (k : Nat) (r : Row Col) : Prop where
  id : r .id = .int k
  owner : r .tgUserId = .int c.userId
  identity : .ofRow r = c.identity
  photo : r .photo = .null

theorem insertUser_writes {r : Row Col}
    (h : schema.writes view next (.insert .tgUsers User.insertCols) ((insertParams d dateTime).map bindParam) =
      .ok [.insert .tgUsers r]) : NewRow c (next .tgUsers) r := by
  obtain ⟨hEq, _⟩ := schema.writes_insert h
  obtain ⟨r', hr', hId, hOwner, hIdentity⟩ := User.insertUser_writes hReads.userId h
  cases hr'
  refine ⟨hId, hOwner, hIdentity.trans hReads.ofData_eq, ?_⟩
  cases hEq
  rfl

theorem createUserHistory_of_fits (hFits : c.Fits) {p : Php} (dateTime : String)
    (hParent : ∃ r ∈ view .tgUsers, r .id = .int k) (hPhoto : photo.check (bindParam p) = none)
    (hFile : photo.stored (bindParam p) = .null ∨ ∃ f ∈ view .tgFiles, f .id = photo.stored (bindParam p)) :
    ∃ ws, schema.writes view next (.insert .tgUserHistory User.historyCols)
      ((historyParams d k p dateTime).map bindParam) = .ok ws := by
  obtain ⟨hUsername, hFirst, hLast⟩ := (fits_iff c).mp hFits
  have hStored := Column.stored_bigint rfl (check_key k .userId)
  refine ⟨_, schema.writes_insert_of (by decide) rfl ?_ rfl ?_⟩
  · intro col hd hId
    rw [historyParams, hReads.username, hReads.firstName, hReads.lastName]
    simp only [schema, table, List.mem_cons, List.not_mem_nil, or_false] at hd
    rcases hd with rfl | rfl | rfl | rfl | rfl | rfl | rfl
    · exact absurd rfl hId
    · exact check_key k .userId
    · exact hUsername
    · exact hFirst
    · exact hLast
    · exact hPhoto
    · rfl
  · refine schema.foreignError_eq_none_iff.mpr fun ref hRef => ?_
    simp only [schema, table, List.mem_cons, List.not_mem_nil, or_false] at hRef
    rcases hRef with rfl | rfl
    · obtain ⟨r, hr, hId⟩ := hParent
      exact .inr ⟨r, hr, hId.trans hStored.symm⟩
    · exact hFile

structure VersionRow (c : UserCall) (k : Nat) (p : Value) (key : Nat) (v : Row Col) : Prop where
  id : v .id = .int key
  ref : v .userId = .int k
  identity : .ofRow v = c.identity
  photo : v .photo = p

theorem createUserHistory_writes {p : Php} {v : Row Col}
    (h : schema.writes view next (.insert .tgUserHistory User.historyCols)
      ((historyParams d k p dateTime).map bindParam) = .ok [.insert .tgUserHistory v]) :
    VersionRow c k (photo.stored (bindParam p)) (next .tgUserHistory) v ∧ c.Fits := by
  obtain ⟨hEq, hCells, _⟩ := schema.writes_insert h
  obtain ⟨v', hv', hId, hRef, hIdentity, _⟩ := User.createUserHistory_writes h
  cases hv'
  refine ⟨⟨hId, hRef, hIdentity.trans hReads.ofData_eq, ?_⟩, (fits_iff c).mpr ⟨?_, ?_, ?_⟩⟩
  · cases hEq
    rfl
  all_goals rw [historyParams, hReads.username, hReads.firstName, hReads.lastName] at hCells
  · exact hCells oldUsernameColumn (by simp [schema, table, oldUsernameColumn]) (by decide)
  · exact hCells firstNameColumn (by simp [schema, table, firstNameColumn]) (by decide)
  · exact hCells lastNameColumn (by simp [schema, table, lastNameColumn]) (by decide)

omit hReads in
theorem mem_changes {u : Col → Php} {p : Col × Php} (h : p ∈ User.changes u d) :
    p = (.username, d.username) ∨ p = (.firstName, d.firstName) ∨ p = (.lastName, d.lastName) := by
  have hChange : ∀ {c : Col} {old new : Php}, p ∈ UpdateQuery.change c old new → p = (c, new) := by
    intro c old new hp
    rw [UpdateQuery.change] at hp
    split at hp
    · cases hp
    · exact List.mem_singleton.mp hp
  rcases List.mem_append.mp h with hTwo | hLast
  · rcases List.mem_append.mp hTwo with hUsername | hFirst
    · exact .inl (hChange hUsername)
    · exact .inr (.inl (hChange hFirst))
  · exact .inr (.inr (hChange hLast))

omit hReads in
theorem updated_mem {u : Col → Php} {col : Col} (h : col ∈ (User.changes u d).map (·.1) ++ [.updatedAt]) :
    col ∈ [Col.username, .firstName, .lastName, .updatedAt] := by
  rcases List.mem_append.mp h with hChange | hEnd
  · obtain ⟨p, hp, rfl⟩ := List.mem_map.mp hChange
    rcases mem_changes hp with rfl | rfl | rfl <;> simp
  · rw [List.mem_singleton.mp hEnd]
    decide

omit hReads in
theorem foreignError_set {row : Row Col} {sets : List (Col × Value)} (h : sets.lookup .photo = none) :
    schema.foreignError view .tgUsers (row.set sets) = schema.foreignError view .tgUsers row := by
  have hPhoto : row.set sets .photo = row .photo := by rw [Row.set, h, Option.getD_none]
  simp only [Schema.foreignError, schema, table, List.findSome?_cons, List.findSome?_nil, hPhoto]
  rfl

theorem trackUserUpdate_of_fits (hFits : c.Fits) {u : Col → Php} (hChanges : User.changes u d ≠ []) (dateTime : String)
    (hForeign : ∀ r ∈ view .tgUsers, schema.foreignError view .tgUsers r = none) :
    ∃ ws, schema.writes view next
      (.update .tgUsers ((User.updateQuery u d).clause ++ [.comma, .assign .updatedAt]) .id)
      (((User.updateQuery u d).params ++ [.str dateTime, u .id]).map bindParam) = .ok ws := by
  obtain ⟨_, hFirst, hLast⟩ := (fits_iff c).mp hFits
  rw [User.updateQuery_eq]
  refine ⟨_, schema.writes_update_of (UpdateQuery.parseSet_ofChanges .updatedAt hChanges) ?_ ?_ ?_ ?_⟩
  · intro col hCol
    rcases List.mem_append.mp hCol with hSet | hKey
    · have hAll : ∀ col ∈ [Col.username, .firstName, .lastName, .updatedAt], (schema.column .tgUsers col).isSome = true := by
        decide
      exact hAll col (updated_mem hSet)
    · rw [List.mem_singleton.mp hKey]
      rfl
  · simp [UpdateQuery.ofChanges]
  · intro p hp col hd
    rw [UpdateQuery.zip_finish] at hp
    rcases List.mem_append.mp hp with hChange | hEnd
    · obtain ⟨q, hq, rfl⟩ := List.mem_map.mp hChange
      rcases mem_changes hq with rfl | rfl | rfl
      · cases hd
        rw [UpdateQuery.bound, hReads.username]
        exact hFits.username_check
      · cases hd
        rw [UpdateQuery.bound, hReads.firstName]
        exact hFirst
      · cases hd
        rw [UpdateQuery.bound, hReads.lastName]
        exact hLast
    · rw [List.mem_singleton.mp hEnd] at hd ⊢
      cases hd
      rfl
  · intro row hRow
    rw [UpdateQuery.zip_finish]
    exact (foreignError_set (User.lookup_updateSets u d dateTime (by decide))).trans (hForeign row hRow)

end Statements

/-! ## The call -/

/-- The user is stored with these very fields, or the fields fit. -/
def Accepted (w : World) (c : UserCall) : Prop :=
  c.Fits ∨ ∃ r ∈ w.db .tgUsers, r .tgUserId = .int c.userId ∧ .ofRow r = c.identity

structure Result (d : Data) (dateTime : String) (g : User) (u : UserInfo) (r : Row Col) (k : Nat) : Prop where
  data : g.data = some d
  date : g.dateTime = dateTime
  info : g.u = some u
  id : ShowsKey u.id k
  photo : u.photo = fetchValue (r .photo)

inductive Wrote (w : World) (c : UserCall) (d : Data) : User × UserInfo → List (Write Tbl Col) → Prop
  | same {g : User} {u : UserInfo} {r : Row Col} {k : Nat} (hMem : r ∈ w.db .tgUsers)
      (hOwner : r .tgUserId = .int c.userId) (hId : r .id = .int k) (hIdentity : .ofRow r = c.identity)
      (hResult : Result d c.dateTime g u r k) (hHistory : g.historyId = none) : Wrote w c d (g, u) []
  | inserted {g : User} {u : UserInfo} {r v : Row Col} (hNew : ∀ r ∈ w.db .tgUsers, r .tgUserId ≠ .int c.userId)
      (hRow : NewRow c (w.next .tgUsers) r)
      (hVersion : VersionRow c (w.next .tgUsers) .null (w.next .tgUserHistory) v)
      (hResult : Result d c.dateTime g u r (w.next .tgUsers))
      (hHistory : g.historyId = some (w.next .tgUserHistory)) :
      Wrote w c d (g, u) [.insert .tgUsers r, .insert .tgUserHistory v]
  | updated {g : User} {u : UserInfo} {r v : Row Col} {k : Nat} {sets : List (Col × Value)} (hMem : r ∈ w.db .tgUsers)
      (hOwner : r .tgUserId = .int c.userId) (hId : r .id = .int k)
      (hSets : ∀ col ∉ [Col.username, .firstName, .lastName, .updatedAt], sets.lookup col = none)
      (hIdentity : .ofRow (r.set sets) = c.identity)
      (hVersion : VersionRow c k (r .photo) (w.next .tgUserHistory) v) (hResult : Result d c.dateTime g u r k)
      (hHistory : g.historyId = some (w.next .tgUserHistory)) :
      Wrote w c d (g, u) [.update .tgUsers .id (.str (toString k)) sets, .insert .tgUserHistory v]

section Call

variable {h : Hashes} {j : Job} {c : UserCall} {d : Data} {w w₁ : World} {m : Mutex}

structure Due (view : Tables Tbl Col) (d : Data) (dateTime : String) (g : User) (u : UserInfo) (r : Row Col)
    (k : Nat) : Prop extends Result d dateTime g u r k where
  need : g.needHistory = true
  mem : r ∈ view .tgUsers
  key : r .id = .int k

theorem recordHistory_ends {log : List (Write Tbl Col)} {g : User} {u : UserInfo} {r : Row Col} {ok : Prop}
    {Q : User × UserInfo → List (Write Tbl Col) → World → Prop} (hReads : c.Reads d) (hInside : Inside w m log w₁)
    (hDue : Due (schema.applyAll log w.db) d c.dateTime g u r k) (hOk : ok ↔ c.Fits)
    (hQ : ∀ v w₂, VersionRow c k (r .photo) (w₁.next .tgUserHistory) v →
      Q ({ g with historyId := some (w₁.next .tgUserHistory) }, u) (log ++ [.insert .tgUserHistory v]) w₂) :
    Ends h j w m (User.recordHistory d (g, u)) w₁ ok Q := by
  have hPhotoHolds : photo.Holds (r .photo) :=
    hInside.valid.cell .tgUsers r hDue.mem photo (by simp [schema, table])
  have hPhoto := rebind_bigint rfl hPhotoHolds
  have hParams : [.int k, d.username, d.firstName, d.lastName, (g.u.map (·.photo)).getD .null, .str g.dateTime] =
      historyParams d k (fetchValue (r .photo)) c.dateTime := by
    rw [hDue.info, hDue.date, Option.map_some, Option.getD_some, hDue.photo]
    rfl
  have hNeed : User.recordHistory d (g, u) = (User.createUserHistory g d u.id).bind fun self => .ret (self, u) :=
    if_pos hDue.need
  have hArg : (intArg u.id : Run Int) = .ret (k : Int) := by simp [intArg, hDue.id.intParam]
  rw [hNeed]
  simp only [User.createUserHistory, hArg, Prog.bind_eq, Prog.bind_ret, Prog.bind_assoc, Prog.pure_eq]
  rw [hParams]
  refine .insert hInside (fun e hRefused hHere => ?_) fun v w₂ hWrites hInside₂ _ => ?_
  · obtain ⟨ws, hAccepted⟩ := createUserHistory_of_fits w₁.next hReads (hOk.mp hHere) c.dateTime
      ⟨r, hDue.mem, hDue.key⟩ hPhoto.1 (hPhoto.2.symm ▸ file_of_photo hInside.valid (by decide) hDue.mem)
    cases hAccepted.symm.trans hRefused
  · obtain ⟨hVersion, hFits⟩ := createUserHistory_writes w₁.next hReads hWrites
    exact .ret hInside₂ (hOk.mpr hFits) (hQ v w₂ (hPhoto.2 ▸ hVersion))

theorem resolveRow_none (self : User) (d : Data) :
    (User.resolveRow self d none).bind (User.recordHistory d) =
      (perform (.execute (.insert .tgUsers User.insertCols) (insertParams d self.dateTime))).bind fun _ =>
      (perform .lastInsertId).bind fun id =>
        User.recordHistory d ({ self with
          needHistory := true, u := some ⟨.int id, .null, .int 0, .int 0⟩, hasInsertAct := true },
          ⟨.int id, .null, .int 0, .int 0⟩) := by
  simp only [User.resolveRow, User.insertUser, insertParams, Prog.bind_eq, Prog.bind_assoc, Prog.bind_ret, Prog.pure_eq]

def shown (u : Col → Php) : UserInfo := ⟨u .id, u .photo, u .groupMsgCount, u .privateMsgCount⟩

theorem resolveRow_some (self : User) (d : Data) (u : Col → Php) :
    (User.resolveRow self d (some u)).bind (User.recordHistory d) =
      if (User.updateQuery u d).doUpdate then
        (perform ((User.updateQuery u d).finish .tgUsers self.dateTime (u .id))).bind fun _ =>
          User.recordHistory d ({ self with needHistory := true, u := some (shown u) }, shown u)
      else User.recordHistory d ({ self with u := some (shown u) }, shown u) := by
  simp only [User.resolveRow, User.trackUserUpdate, Prog.bind_eq, Prog.bind_assoc, Prog.bind_ret, Prog.pure_eq]
  split
  · exact Prog.bind_assoc ..
  · rfl

abbrev fresh (d : Data) (dateTime : String) : User := { data := some d, dateTime := dateTime }

def EndsRow (h : Hashes) (j : Job) (w : World) (m : Mutex) (c : UserCall) (d : Data) (row : Option (Col → Php)) : Prop :=
  Ends h j w m ((User.resolveRow (fresh d c.dateTime) d row).bind (User.recordHistory d)) (w.opened m) (Accepted w c)
    fun a log _ => Wrote w c d a log

theorem ends_new (hSteady : Steady w) (hReads : c.Reads d)
    (hNew : ∀ r ∈ w.db .tgUsers, r .tgUserId ≠ .int c.userId) :
    EndsRow h j w m c d none := by
  have hOk : Accepted w c ↔ c.Fits := by
    refine ⟨fun hAccepted => hAccepted.resolve_right ?_, .inl⟩
    rintro ⟨r, hr, hOwner, _⟩
    exact hNew r hr hOwner
  rw [EndsRow, resolveRow_none]
  refine .insert (.opened hSteady m) (fun e hRefused hAccepted => ?_) fun r w₁ hWrites hInside hNext => ?_
  · obtain ⟨ws, hWrites⟩ := insertUser_of_fits w.next hReads (hOk.mp hAccepted) hNew c.dateTime
    cases hWrites.symm.trans hRefused
  · have hRow := insertUser_writes w.next hReads hWrites
    have hKey : w₁.next .tgUserHistory = w.next .tgUserHistory := by simp [hNext, World.opened]
    have hResult : ∀ g : User, g.data = some d → g.dateTime = c.dateTime →
        g.u = some ⟨.int (w.next .tgUsers), .null, .int 0, .int 0⟩ →
        Result d c.dateTime g ⟨.int (w.next .tgUsers), .null, .int 0, .int 0⟩ r (w.next .tgUsers) :=
      fun g hData hDate hInfo => ⟨hData, hDate, hInfo, .inl rfl, by rw [hRow.photo]; rfl⟩
    refine recordHistory_ends hReads hInside ⟨hResult _ rfl rfl rfl, rfl, by simp [Schema.apply], hRow.id⟩ hOk
      fun v w₂ hVersion => ?_
    rw [hRow.photo, hKey] at hVersion
    exact .inserted hNew hRow hVersion (hResult _ rfl rfl rfl) (congrArg some hKey)

section Stored

variable {u : Col → Php} {r : Row Col} {k : Nat} (hSteady : Steady w) (hReads : c.Reads d)
  (hShows : Shows w .tgUsers User.selectCols .tgUserId c.userId u r k)

include hShows

theorem result_of_shows {g : User} (hData : g.data = some d) (hDate : g.dateTime = dateTime)
    (hInfo : g.u = some (shown u)) : Result d dateTime g (shown u) r k := by
  refine ⟨hData, hDate, hInfo, ?_, hShows.shown .photo (by decide)⟩
  change ShowsKey (u .id) k
  rw [hShows.shown .id (by decide), hShows.id]
  exact .inr rfl

include hSteady

theorem text_shown : (Identity.ofRow r).IsText := by
  have hCell := hSteady.valid.cell .tgUsers r hShows.mem
  exact ⟨text_of_holds rfl (hCell usernameColumn (by simp [schema, table, usernameColumn])),
    text_of_holds rfl (hCell firstNameColumn (by simp [schema, table, firstNameColumn])),
    text_of_holds rfl (hCell lastNameColumn (by simp [schema, table, lastNameColumn]))⟩

include hReads

theorem changes_eq_nil_iff : User.changes u d = [] ↔ Identity.ofRow r = c.identity := by
  have hText := text_shown hSteady hShows
  have hUsername : u .username = d.username ↔ r .username = c.identity.username := by
    rw [hShows.shown .username (by decide), hReads.username]
    exact fetchValue_eq_ofOption hText.username c.username
  have hFirst : u .firstName = d.firstName ↔ r .firstName = c.identity.firstName := by
    rw [hShows.shown .firstName (by decide), hReads.firstName]
    exact fetchValue_eq_ofOption hText.firstName (some c.firstName)
  have hLast : u .lastName = d.lastName ↔ r .lastName = c.identity.lastName := by
    rw [hShows.shown .lastName (by decide), hReads.lastName]
    exact fetchValue_eq_ofOption hText.lastName c.lastName
  have hNil : ∀ (col : Col) (old new : Php), UpdateQuery.change col old new = [] ↔ old = new := by
    intro col old new
    by_cases hEq : old = new <;> simp [UpdateQuery.change, hEq]
  rw [User.changes, List.append_eq_nil_iff, List.append_eq_nil_iff, hNil, hNil, hNil, hUsername, hFirst, hLast, and_assoc]
  constructor
  · rintro ⟨hU, hF, hL⟩
    exact congr (congr (congrArg Identity.mk hU) hF) hL
  · intro hEq
    exact ⟨congrArg Identity.username hEq, congrArg Identity.firstName hEq, congrArg Identity.lastName hEq⟩

theorem ends_same (hIdentity : .ofRow r = c.identity) :
    EndsRow h j w m c d (some u) := by
  have hNone : (User.updateQuery u d).doUpdate = false := by
    rw [User.updateQuery_eq, (changes_eq_nil_iff hSteady hReads hShows).mpr hIdentity]
    rfl
  rw [EndsRow, resolveRow_some, hNone, if_neg Bool.false_ne_true]
  exact .ret (.opened hSteady m) (.inr ⟨r, hShows.mem, hShows.owner, hIdentity⟩)
    (.same hShows.mem hShows.owner hShows.id hIdentity (result_of_shows hShows rfl rfl rfl) rfl)

theorem ends_changed (hIdentity : .ofRow r ≠ c.identity) :
    EndsRow h j w m c d (some u) := by
  have hChanges : User.changes u d ≠ [] := fun hNil => hIdentity ((changes_eq_nil_iff hSteady hReads hShows).mp hNil)
  have hUpdate : (User.updateQuery u d).doUpdate = true := by
    rw [User.updateQuery_eq, UpdateQuery.ofChanges]
    simpa using hChanges
  have hOk : Accepted w c ↔ c.Fits := by
    refine ⟨fun hAccepted => hAccepted.resolve_right ?_, .inl⟩
    rintro ⟨r', hr', hOwner, hEq⟩
    exact hIdentity (hShows.only r' hr' hOwner ▸ hEq)
  have hParse : parseSet ((User.updateQuery u d).clause ++ [.comma, .assign .updatedAt]) =
      some ((User.changes u d).map (·.1) ++ [.updatedAt]) := by
    rw [User.updateQuery_eq]
    exact UpdateQuery.parseSet_ofChanges .updatedAt hChanges
  rw [EndsRow, resolveRow_some, if_pos hUpdate]
  refine .update (.opened hSteady m) hParse (fun hMem => absurd (updated_mem hMem) (by decide))
    (fun col hCol hMem => ?_) (fun e hRefused hAccepted => ?_) fun ws w₁ hWrites hInside hNext => ?_
  · have hUnique : ∀ col ∈ (table .tgUsers).unique, col ∉ [Col.username, .firstName, .lastName, .updatedAt] := by decide
    exact hUnique col hCol (updated_mem hMem)
  · obtain ⟨ws, hWrites⟩ := trackUserUpdate_of_fits w.next hReads (hOk.mp hAccepted) hChanges c.dateTime
      (hSteady.valid.foreign .tgUsers)
    cases hWrites.symm.trans hRefused
  · have hId : u .id = .str (toString k) := by
      rw [hShows.shown .id (by decide), hShows.id]
      rfl
    obtain ⟨rfl, hSet⟩ := User.trackUserUpdate_writes (text_shown hSteady hShows) hId (hShows.shown .username (by decide))
      (hShows.shown .firstName (by decide)) (hShows.shown .lastName (by decide)) ⟨r, hShows.mem, hShows.id⟩ hChanges hWrites
    have hLookup : ∀ col ∉ [Col.username, .firstName, .lastName, .updatedAt],
        (User.updateSets u d c.dateTime).lookup col = none := fun col hCol => User.lookup_updateSets u d c.dateTime hCol
    generalize User.updateSets u d c.dateTime = sets at hInside hSet hLookup
    have hSame : ∀ col ∉ [Col.username, .firstName, .lastName, .updatedAt], r.set sets col = r col := by
      intro col hCol
      rw [Row.set, hLookup col hCol, Option.getD_none]
    -- the `UPDATE` touches none of the columns that the version refers to
    have hDue : Due (schema.applyAll ([] ++ [.update .tgUsers .id (.str (toString k)) sets]) w.db) d c.dateTime
        { fresh d c.dateTime with needHistory := true, u := some (shown u) } (shown u) (r.set sets) k := by
      obtain ⟨_, _, _, hId, hPhoto⟩ :=
        result_of_shows (g := { fresh d c.dateTime with u := some (shown u) }) hShows rfl rfl rfl
      refine ⟨⟨rfl, rfl, rfl, hId, ?_⟩, rfl, mem_updated hShows.mem hShows.id sets, ?_⟩
      · rw [hSame .photo (by decide), hPhoto]
      · rw [hSame .id (by decide), hShows.id]
    have hKey : w₁.next .tgUserHistory = w.next .tgUserHistory := congrFun hNext _
    refine recordHistory_ends hReads hInside hDue hOk fun v w₂ hVersion => ?_
    rw [hKey, hSame .photo (by decide)] at hVersion
    exact .updated hShows.mem hShows.owner hShows.id hLookup (hSet.trans hReads.ofData_eq) hVersion
      (result_of_shows hShows rfl rfl rfl) (congrArg some hKey)

end Stored

theorem resolveUser_cases (hSteady : Steady w) (hReads : c.Reads d) (h : Hashes) (j : Job) :
    (Accepted w c ∧ ∃ a log w', (User.resolveUser (fresh d c.dateTime)).eval (serve h j) w = (.ok a, w') ∧ Steady w' ∧
      w'.db = schema.applyAll log w.db ∧ Wrote w c d a log) ∨
    (¬ Accepted w c ∧ ∃ e w', (User.resolveUser (fresh d c.dateTime)).eval (serve h j) w = (.error e, w') ∧
      Steady w' ∧ w'.db = w.db) := by
  have hEnds : Ends h j w (User.userMutex d) (User.resolveUserInternal (fresh d c.dateTime) d)
      (w.opened (User.userMutex d)) (Accepted w c) fun a log _ => Wrote w c d a log := by
    rcases fetch_cases h.collate .tgUsers .tgUserId hSteady rfl (by decide) (User.userMutex d) User.selectCols c.userId with
      ⟨hFetch, hNew⟩ | ⟨u, r, k, hFetch, hShows⟩
    · exact .of_eval (serve_fetch (hReads.userId ▸ hFetch)) (ends_new hSteady hReads hNew)
    · refine .of_eval (serve_fetch (hReads.userId ▸ hFetch)) ?_
      by_cases hIdentity : Identity.ofRow r = c.identity
      · exact ends_same hSteady hReads hShows hIdentity
      · exact ends_changed hSteady hReads hShows hIdentity
  rcases hEnds.inTransaction hSteady with ⟨hAccepted, a, log, _, w', hCall, hSteady', hDb, hWrote⟩ | hFails
  · exact .inl ⟨hAccepted, a, log, w', hCall, hSteady', hDb, hWrote⟩
  · exact .inr hFails

end Call

end TeaBot.Loggers.UserCalls
