import TeaBot.Loggers.Steady

/-! # One call of `resolveGroup`

From any sound state: when a call with a fresh `Group` object is accepted, and what it
has written then.
-/

namespace TeaBot.Loggers.GroupTitle

open Foundation Foundation.Sql Versioned

structure GroupIdentity where
  username : Value
  name : Value
  deriving DecidableEq

def GroupIdentity.ofRow (row : Row Col) : GroupIdentity := ⟨row .username, row .name⟩

def groups : Versioning GroupIdentity where
  table := .tgGroups
  history := .tgGroupHistory
  owner := .tgGroupId
  ref := .groupId
  content := .ofRow

structure GroupCall where
  chatId : Int
  username : Option String
  title : Option String
  dateTime : String

namespace GroupCall

variable (c : GroupCall)

def data : Data where
  chatId := .int c.chatId
  chatUsername := .ofOption c.username
  chatTitle := .ofOption c.title

def group : Group := { data := some c.data, dateTime := c.dateTime }

def identity : GroupIdentity := ⟨bindParam (.ofOption c.username), bindParam (.ofOption c.title)⟩

structure Reads (d : Data) : Prop where
  chatId : d.chatId = .int c.chatId
  username : d.chatUsername = .ofOption c.username
  title : d.chatTitle = .ofOption c.title

theorem reads_data : c.Reads c.data := ⟨rfl, rfl, rfl⟩

end GroupCall

def textFits (length : Nat) (charset : Charset) (s : String) : Bool :=
  s.length ≤ length && s.toList.all charset.encodes

/-- The values can be stored at all: there is a title, and both texts fit their columns. -/
def GroupCall.Fits (c : GroupCall) : Prop :=
  (∀ s, c.username = some s → textFits 255 .utf8 s = true) ∧
    ∃ s, c.title = some s ∧ textFits 255 .utf8mb4 s = true

def usernameColumn : Column Col := { name := .username, type := .varchar 255 .utf8, nullable := true }

def nameColumn : Column Col := { name := .name, type := .varchar 255 .utf8mb4 }

variable {d : Column Col} {length : Nat} {charset : Charset}

theorem check_str (hType : d.type = .varchar length charset) (s : String) :
    d.check (.str s) = none ↔ textFits length charset s = true := by
  simp [Column.check, hType, ColumnType.store, Value.asText, textFits]

theorem check_option (hType : d.type = .varchar length charset) (hNullable : d.nullable = true) (o : Option String) :
    d.check (bindParam (.ofOption o)) = none ↔ ∀ s, o = some s → textFits length charset s = true := by
  cases o with
  | none => simp [Php.ofOption, bindParam, Column.check, hNullable]
  | some s => simpa [Php.ofOption, bindParam] using check_str hType s

theorem fits_iff (c : GroupCall) :
    c.Fits ↔ usernameColumn.check c.identity.username = none ∧ nameColumn.check c.identity.name = none := by
  refine and_congr (check_option rfl rfl c.username).symm ?_
  cases hTitle : c.title with
  | none => simp [GroupCall.identity, hTitle, Php.ofOption, bindParam, nameColumn, Column.check]
  | some s => simpa [GroupCall.identity, hTitle, Php.ofOption, bindParam] using (check_str rfl s).symm

theorem stored_of_check {o : Option String} (hType : d.type = .varchar length charset)
    (hCheck : d.check (bindParam (.ofOption o)) = none) :
    d.stored (bindParam (.ofOption o)) = bindParam (.ofOption o) := by
  rw [Column.stored_varchar hType hCheck]
  cases o <;> rfl

/-! ## The statements -/

variable {r : Row Col} {k : Nat}

variable {u : Col → Php}

section Statements

variable {view : Tables Tbl Col} (next : Tbl → Nat) {c : GroupCall}

def insertParams (c : GroupCall) : List Value :=
  [.int c.chatId, c.identity.username, c.identity.name, .int 0, .str c.dateTime]

theorem insertGroup_of_fits (hFits : c.Fits) (hNew : ∀ r ∈ view .tgGroups, r .tgGroupId ≠ .int c.chatId) :
    ∃ ws, schema.writes view next (.insert .tgGroups Group.insertCols) (insertParams c) = .ok ws := by
  obtain ⟨hUsername, hName⟩ := (fits_iff c).mp hFits
  have hRow : schema.newRow .tgGroups (Group.insertCols.zip (insertParams c)) (next .tgGroups) .tgGroupId =
      .int c.chatId := rfl
  refine ⟨_, schema.writes_insert_of (by decide) rfl ?_ ?_ ?_⟩
  · intro d hd hId
    simp only [schema, table, List.mem_cons, List.not_mem_nil, or_false] at hd
    rcases hd with rfl | rfl | rfl | rfl | rfl | rfl | rfl | rfl | rfl
    · exact absurd rfl hId
    · rfl
    · exact hUsername
    · exact hName
    all_goals rfl
  · refine schema.duplicateError_eq_none_iff.mpr fun col hCol r hr hEq => ?_
    cases List.mem_singleton.mp hCol
    exact hNew r hr (hEq.trans hRow)
  · rfl

structure NewRow (c : GroupCall) (k : Nat) (r : Row Col) : Prop where
  id : r .id = .int k
  owner : r .tgGroupId = .int c.chatId
  identity : .ofRow r = c.identity
  photo : r .photo = .null
  link : r .link = .null
  msgCount : r .msgCount = .int 0

theorem insertGroup_writes
    (h : schema.writes view next (.insert .tgGroups Group.insertCols) (insertParams c) = .ok [.insert .tgGroups r]) :
    NewRow c (next .tgGroups) r ∧ c.Fits := by
  obtain ⟨hEq, hCells, _⟩ := schema.writes_insert h
  cases hEq
  have hUsername : usernameColumn.check c.identity.username = none :=
    hCells usernameColumn (by simp [schema, table, usernameColumn]) (by decide)
  have hName : nameColumn.check c.identity.name = none :=
    hCells nameColumn (by simp [schema, table, nameColumn]) (by decide)
  refine ⟨⟨rfl, rfl, ?_, rfl, rfl, rfl⟩, (fits_iff c).mpr ⟨hUsername, hName⟩⟩
  exact congr (congrArg GroupIdentity.mk (stored_of_check rfl hUsername)) (stored_of_check rfl hName)

def historyParams (c : GroupCall) (k : Nat) (link photo : Value) : List Value :=
  [.int k, c.identity.username, c.identity.name, link, photo, .str c.dateTime]

def linkColumn : Column Col := { name := .link, type := .varchar 255 .utf8, nullable := true }

theorem check_key (k : Nat) (col : Col) :
    ({ name := col, type := .bigint true } : Column Col).check (.int k) = none := by
  simp [Column.check, ColumnType.store, Value.asInt]

variable {p link : Value}

theorem createGroupHistory_of_fits (hFits : c.Fits) (hParent : ∃ r ∈ view .tgGroups, r .id = .int k)
    (hLink : linkColumn.check link = none) (hPhoto : photo.check p = none)
    (hFile : photo.stored p = .null ∨ ∃ f ∈ view .tgFiles, f .id = photo.stored p) :
    ∃ ws, schema.writes view next (.insert .tgGroupHistory Group.historyCols) (historyParams c k link p) = .ok ws := by
  obtain ⟨hUsername, hName⟩ := (fits_iff c).mp hFits
  have hStored := Column.stored_bigint rfl (check_key k .groupId)
  refine ⟨_, schema.writes_insert_of (by decide) rfl ?_ rfl ?_⟩
  · intro d hd hId
    simp only [schema, table, List.mem_cons, List.not_mem_nil, or_false] at hd
    rcases hd with rfl | rfl | rfl | rfl | rfl | rfl | rfl
    · exact absurd rfl hId
    · exact check_key k .groupId
    · exact hUsername
    · exact hName
    · exact hLink
    · exact hPhoto
    · rfl
  · refine schema.foreignError_eq_none_iff.mpr fun ref hRef => ?_
    simp only [schema, table, List.mem_cons, List.not_mem_nil, or_false] at hRef
    rcases hRef with rfl | rfl
    · obtain ⟨r, hr, hId⟩ := hParent
      exact .inr ⟨r, hr, hId.trans hStored.symm⟩
    · exact hFile

structure VersionRow (c : GroupCall) (k : Nat) (p : Value) (key : Nat) (v : Row Col) : Prop where
  id : v .id = .int key
  ref : v .groupId = .int k
  identity : .ofRow v = c.identity
  photo : v .photo = p

theorem createGroupHistory_writes {v : Row Col}
    (h : schema.writes view next (.insert .tgGroupHistory Group.historyCols) (historyParams c k link p) =
      .ok [.insert .tgGroupHistory v]) : VersionRow c k (photo.stored p) (next .tgGroupHistory) v := by
  obtain ⟨hEq, hCells, _⟩ := schema.writes_insert h
  cases hEq
  have hUsername : usernameColumn.check c.identity.username = none :=
    hCells usernameColumn (by simp [schema, table, usernameColumn]) (by decide)
  have hName : nameColumn.check c.identity.name = none :=
    hCells nameColumn (by simp [schema, table, nameColumn]) (by decide)
  refine ⟨rfl, Column.stored_bigint rfl (check_key k .groupId), ?_, rfl⟩
  exact congr (congrArg GroupIdentity.mk (stored_of_check rfl hUsername)) (stored_of_check rfl hName)

/-- The fields that differ; a changed title is assigned to `first_name`. -/
def changes (u : Col → Php) (d : Data) : List (Col × Php) :=
  UpdateQuery.change .username (u .username) d.chatUsername ++
    UpdateQuery.change .firstName (u .name) d.chatTitle

theorem updateQuery_eq (u : Col → Php) (d : Data) :
    Group.updateQuery u d = UpdateQuery.ofChanges (changes u d) := by
  simp [Group.updateQuery, ← UpdateQuery.ofChanges_nil, UpdateQuery.ofChanges_track, changes]

def updateStmt (u : Col → Php) (d : Data) : Stmt Tbl Col :=
  .update .tgGroups ((Group.updateQuery u d).clause ++ [.comma, .assign .updatedAt]) .id

def updateParams (u : Col → Php) (d : Data) (dateTime : String) : List Value :=
  ((Group.updateQuery u d).params ++ [.str dateTime, u .id]).map bindParam

variable {d : Data} (hReads : c.Reads d)

include hReads

theorem updateGroup_of_title (hTitle : u .name ≠ .ofOption c.title) (dateTime : String) :
    ∃ e, schema.writes view next (updateStmt u d) (updateParams u d dateTime) = .error e := by
  have hMem : (Col.firstName, d.chatTitle) ∈ changes u d :=
    List.mem_append_right _ (by simp [UpdateQuery.change, hReads.title, hTitle])
  rw [updateStmt, updateParams, updateQuery_eq]
  exact schema.writes_update_unknown (UpdateQuery.parseSet_ofChanges .updatedAt (List.ne_nil_of_mem hMem))
    (List.mem_append_left _ (List.mem_map_of_mem hMem)) rfl

section SameTitle

variable {u : Col → Php} {dateTime : String} (hTitle : u .name = .ofOption c.title)
  (hUsername : u .username ≠ .ofOption c.username)

include hTitle hUsername

theorem changes_of_username : changes u d = [(.username, .ofOption c.username)] := by
  simp [changes, UpdateQuery.change, hReads.username, hReads.title, hTitle, hUsername]

theorem updateGroup_of_fits (hId : u .id = .str (toString k)) (hFits : c.Fits)
    (hForeign : ∀ r ∈ view .tgGroups, schema.foreignError view .tgGroups r = none) :
    ∃ ws, schema.writes view next (updateStmt u d) (updateParams u d dateTime) = .ok ws := by
  obtain ⟨hCheck, _⟩ := (fits_iff c).mp hFits
  rw [updateStmt, updateParams, updateQuery_eq, changes_of_username hReads hTitle hUsername, hId]
  refine ⟨_, schema.writes_update_of (UpdateQuery.parseSet_ofChanges .updatedAt (by simp)) ?_ rfl ?_ ?_⟩
  · simp only [List.map_cons, List.map_nil]
    decide
  · intro p hp d hd
    rw [UpdateQuery.zip_finish] at hp
    rcases List.mem_cons.mp hp with rfl | hp
    · cases hd
      exact hCheck
    · rw [List.mem_singleton.mp hp] at hd ⊢
      cases hd
      rfl
  · intro row hRow
    rw [UpdateQuery.zip_finish]
    exact hForeign row hRow

def updateSets (c : GroupCall) (dateTime : String) : List (Col × Value) :=
  [(.username, c.identity.username), (.updatedAt, .str dateTime)]

theorem updateGroup_writes (hId : u .id = .str (toString k)) {ws : List (Write Tbl Col)}
    (hRow : ∃ row ∈ view .tgGroups, row .id = .int k)
    (h : schema.writes view next (updateStmt u d) (updateParams u d dateTime) = .ok ws) :
    ws = [.update .tgGroups .id (.str (toString k)) (updateSets c dateTime)] ∧
      usernameColumn.check c.identity.username = none := by
  rw [updateStmt, updateParams, updateQuery_eq, changes_of_username hReads hTitle hUsername, hId] at h
  obtain ⟨rfl, hCheck⟩ := schema.writes_update (UpdateQuery.parseSet_ofChanges .updatedAt (by simp)) h
  rw [UpdateQuery.zip_finish, UpdateQuery.getLastD_finish] at hCheck ⊢
  obtain ⟨row, hMem, hKey⟩ := hRow
  have hHere : usernameColumn.check c.identity.username = none :=
    hCheck ⟨row, hMem, (matches_id .tgGroups (asInt_toString k) row).mpr hKey⟩ .username _ usernameColumn rfl rfl
  refine ⟨?_, hHere⟩
  have hStored := stored_of_check (d := usernameColumn) rfl hHere
  exact congrArg (fun v => [Write.update Tbl.tgGroups .id (.str (toString k))
    [(Col.username, v), (Col.updatedAt, Value.str dateTime)]]) hStored

end SameTitle

end Statements

/-! ## The call -/

def groupsOf (db : Tables Tbl Col) (n : Int) : List (Row Col) :=
  (db .tgGroups).filter fun r => r .tgGroupId = .int n

/-- The values fit, and the title is not a changed one. -/
def Accepted (w : World) (c : GroupCall) : Prop :=
  c.Fits ∧ ∀ r ∈ groupsOf w.db c.chatId, r .name = c.identity.name

structure Result (d : Data) (dateTime : String) (g : Group) (u : GroupInfo) (r : Row Col) (k : Nat) : Prop where
  data : g.data = some d
  date : g.dateTime = dateTime
  info : g.u = some u
  id : ShowsKey u.id k
  link : u.link = fetchValue (r .link)
  photo : u.photo = fetchValue (r .photo)
  msgCount : u.msgCount.intParam = (r .msgCount).asInt

/-- What an accepted call has written, by what it found. -/
inductive Wrote (w : World) (c : GroupCall) (d : Data) : Group × GroupInfo → List (Write Tbl Col) → Prop
  | same {g : Group} {u : GroupInfo} {r : Row Col} {k : Nat} (hMem : r ∈ w.db .tgGroups)
      (hOwner : r .tgGroupId = .int c.chatId) (hId : r .id = .int k) (hIdentity : .ofRow r = c.identity)
      (hResult : Result d c.dateTime g u r k) (hHistory : g.historyId = none) : Wrote w c d (g, u) []
  | inserted {g : Group} {u : GroupInfo} {r v : Row Col} (hNew : ∀ r ∈ w.db .tgGroups, r .tgGroupId ≠ .int c.chatId)
      (hRow : NewRow c (w.next .tgGroups) r)
      (hVersion : VersionRow c (w.next .tgGroups) .null (w.next .tgGroupHistory) v)
      (hResult : Result d c.dateTime g u r (w.next .tgGroups))
      (hHistory : g.historyId = some (w.next .tgGroupHistory)) :
      Wrote w c d (g, u) [.insert .tgGroups r, .insert .tgGroupHistory v]
  | updated {g : Group} {u : GroupInfo} {r v : Row Col} {k : Nat} (hMem : r ∈ w.db .tgGroups)
      (hOwner : r .tgGroupId = .int c.chatId) (hId : r .id = .int k) (hName : r .name = c.identity.name)
      (hVersion : VersionRow c k (r .photo) (w.next .tgGroupHistory) v) (hResult : Result d c.dateTime g u r k)
      (hHistory : g.historyId = some (w.next .tgGroupHistory)) :
      Wrote w c d (g, u)
        [.update .tgGroups .id (.str (toString k)) (updateSets c c.dateTime), .insert .tgGroupHistory v]

section Call

variable {h : Hashes} {j : Job} {c : GroupCall} {d : Data} {w w₁ : World} {m : Mutex}

structure Due (view : Tables Tbl Col) (d : Data) (dateTime : String) (g : Group) (u : GroupInfo) (r : Row Col)
    (k : Nat) : Prop extends Result d dateTime g u r k where
  need : g.needHistory = true
  mem : r ∈ view .tgGroups
  key : r .id = .int k

variable {g : Group}

theorem recordHistory_ends {log : List (Write Tbl Col)} {u : GroupInfo} {ok : Prop}
    {Q : Group × GroupInfo → List (Write Tbl Col) → World → Prop} (hReads : c.Reads d) (hInside : Inside w m log w₁)
    (hDue : Due (schema.applyAll log w.db) d c.dateTime g u r k) (hFits : c.Fits) (hOk : ok)
    (hQ : ∀ v w₂, VersionRow c k (r .photo) (w₁.next .tgGroupHistory) v →
      Q ({ g with historyId := some (w₁.next .tgGroupHistory) }, u) (log ++ [.insert .tgGroupHistory v]) w₂) :
    Ends h j w m (Group.recordHistory d (g, u)) w₁ ok Q := by
  have hCell := hInside.valid.cell .tgGroups r hDue.mem
  have hLinkHolds : linkColumn.Holds (r .link) := hCell linkColumn (by simp [schema, table, linkColumn])
  have hPhotoHolds : photo.Holds (r .photo) := hCell photo (by simp [schema, table])
  have hLink := rebind_varchar rfl hLinkHolds
  have hPhoto := rebind_bigint rfl hPhotoHolds
  have hParams : [.int k, d.chatUsername, d.chatTitle, (g.u.map (·.link)).getD .null, (g.u.map (·.photo)).getD .null,
      .str g.dateTime].map bindParam = historyParams c k (r .link) (bindParam (fetchValue (r .photo))) := by
    rw [hReads.username, hReads.title, hDue.info, hDue.date, Option.map_some, Option.map_some, Option.getD_some,
      Option.getD_some, hDue.link, hDue.photo]
    exact congrArg (fun link => historyParams c k link (bindParam (fetchValue (r .photo)))) hLink
  have hNeed : Group.recordHistory d (g, u) = (Group.createGroupHistory g d u.id).bind fun self => .ret (self, u) :=
    if_pos hDue.need
  have hArg : (intArg u.id : Run Int) = .ret (k : Int) := by simp [intArg, hDue.id.intParam]
  rw [hNeed]
  simp only [Group.createGroupHistory, hArg, Prog.bind_eq, Prog.bind_ret, Prog.bind_assoc, Prog.pure_eq]
  refine .insert hInside (fun e hRefused => ?_) fun v w₂ hWrites hInside₂ _ => .ret hInside₂ hOk (hQ v w₂ ?_)
  · obtain ⟨ws, hAccepted⟩ := createGroupHistory_of_fits w₁.next hFits ⟨r, hDue.mem, hDue.key⟩ hLinkHolds.check
      hPhoto.1 (hPhoto.2.symm ▸ file_of_photo hInside.valid (by decide) hDue.mem)
    rw [hParams, hAccepted] at hRefused
    cases hRefused
  · rw [hParams] at hWrites
    exact hPhoto.2 ▸ createGroupHistory_writes w₁.next hWrites

theorem resolveRow_none (self : Group) (d : Data) :
    (Group.resolveRow self d none).bind (Group.recordHistory d) =
      (perform (.execute (.insert .tgGroups Group.insertCols)
        [d.chatId, d.chatUsername, d.chatTitle, .int 0, .str self.dateTime])).bind fun _ =>
      (perform .lastInsertId).bind fun id =>
        Group.recordHistory d ({ self with
          needHistory := true, u := some ⟨.int id, .null, .null, .int 0⟩, hasInsertAct := true },
          ⟨.int id, .null, .null, .int 0⟩) := by
  simp only [Group.resolveRow, Group.insertGroup, Prog.bind_eq, Prog.bind_assoc, Prog.bind_ret, Prog.pure_eq]

def shown (u : Col → Php) : GroupInfo := ⟨u .id, u .link, u .photo, u .msgCount⟩

theorem resolveRow_some (self : Group) (d : Data) (u : Col → Php) :
    (Group.resolveRow self d (some u)).bind (Group.recordHistory d) =
      if (Group.updateQuery u d).doUpdate then
        (perform ((Group.updateQuery u d).finish .tgGroups self.dateTime (u .id))).bind fun _ =>
          Group.recordHistory d ({ self with needHistory := true, u := some (shown u) }, shown u)
      else Group.recordHistory d ({ self with u := some (shown u) }, shown u) := by
  simp only [Group.resolveRow, Group.trackGroupUpdate, Prog.bind_eq, Prog.bind_assoc, Prog.bind_ret, Prog.pure_eq]
  split
  · exact Prog.bind_assoc ..
  · rfl

abbrev fresh (d : Data) (dateTime : String) : Group := { data := some d, dateTime := dateTime }

def EndsRow (h : Hashes) (j : Job) (w : World) (m : Mutex) (c : GroupCall) (d : Data) (row : Option (Col → Php)) : Prop :=
  Ends h j w m ((Group.resolveRow (fresh d c.dateTime) d row).bind (Group.recordHistory d)) (w.opened m) (Accepted w c)
    fun a log _ => Wrote w c d a log

theorem ends_new (hSteady : Steady w) (hReads : c.Reads d)
    (hNew : ∀ r ∈ w.db .tgGroups, r .tgGroupId ≠ .int c.chatId) :
    EndsRow h j w m c d none := by
  have hNone : groupsOf w.db c.chatId = [] :=
    List.filter_eq_nil_iff.mpr fun r hr hEq => hNew r hr (of_decide_eq_true hEq)
  have hParams : [d.chatId, d.chatUsername, d.chatTitle, .int 0, .str c.dateTime].map bindParam = insertParams c := by
    rw [hReads.chatId, hReads.username, hReads.title]
    rfl
  rw [EndsRow, resolveRow_none]
  refine .insert (.opened hSteady m) (fun e hRefused hAccepted => ?_) fun r w₁ hWrites hInside hNext => ?_
  · obtain ⟨ws, hWrites⟩ := insertGroup_of_fits w.next hAccepted.1 hNew
    cases (hParams ▸ hWrites).symm.trans hRefused
  · obtain ⟨hRow, hFits⟩ := insertGroup_writes w.next (hParams ▸ hWrites)
    have hKey : w₁.next .tgGroupHistory = w.next .tgGroupHistory := by simp [hNext, World.opened]
    have hResult : ∀ g : Group, g.data = some d → g.dateTime = c.dateTime →
        g.u = some ⟨.int (w.next .tgGroups), .null, .null, .int 0⟩ →
        Result d c.dateTime g ⟨.int (w.next .tgGroups), .null, .null, .int 0⟩ r (w.next .tgGroups) := fun g hData hDate hInfo =>
      ⟨hData, hDate, hInfo, .inl rfl, by rw [hRow.link]; rfl, by rw [hRow.photo]; rfl, by rw [hRow.msgCount]; rfl⟩
    refine recordHistory_ends hReads hInside ⟨hResult _ rfl rfl rfl, rfl, by simp [Schema.apply], hRow.id⟩ hFits
      ⟨hFits, by simp [hNone]⟩ fun v w₂ hVersion => ?_
    rw [hRow.photo, hKey] at hVersion
    exact .inserted hNew hRow hVersion (hResult _ rfl rfl rfl) (congrArg some hKey)

structure Compares (c : GroupCall) (u : Col → Php) (r : Row Col) (k : Nat) : Prop where
  id : u .id = .str (toString k)
  username : u .username = .ofOption c.username ↔ r .username = c.identity.username
  name : u .name = .ofOption c.title ↔ r .name = c.identity.name
  nameHolds : nameColumn.Holds (r .name)
  usernameHolds : usernameColumn.Holds (r .username)

theorem Compares.of_shows (hSteady : Steady w) (hShows : Shows w .tgGroups Group.selectCols .tgGroupId c.chatId u r k) :
    Compares c u r k := by
  have hCell := hSteady.valid.cell .tgGroups r hShows.mem
  have hUsername : usernameColumn.Holds (r .username) := hCell usernameColumn (by simp [schema, table, usernameColumn])
  have hName : nameColumn.Holds (r .name) := hCell nameColumn (by simp [schema, table, nameColumn])
  refine ⟨?_, ?_, ?_, hName, hUsername⟩
  · rw [hShows.shown .id (by decide), hShows.id]
    rfl
  · rw [hShows.shown .username (by decide)]
    exact fetchValue_eq_ofOption (text_of_holds rfl hUsername) c.username
  · rw [hShows.shown .name (by decide)]
    exact fetchValue_eq_ofOption (text_of_holds rfl hName) c.title

section Stored

variable {u : Col → Php} {r : Row Col} {k : Nat} (hSteady : Steady w) (hReads : c.Reads d)
  (hShows : Shows w .tgGroups Group.selectCols .tgGroupId c.chatId u r k)

include hShows

theorem result_of_shows (hSteady : Steady w) {dateTime : String} (hData : g.data = some d)
    (hDate : g.dateTime = dateTime) (hInfo : g.u = some (shown u)) : Result d dateTime g (shown u) r k := by
  refine ⟨hData, hDate, hInfo, ?_, hShows.shown .link (by decide), hShows.shown .photo (by decide), ?_⟩
  · change ShowsKey (u .id) k
    rw [hShows.shown .id (by decide), hShows.id]
    exact .inr rfl
  · change (u .msgCount).intParam = _
    rw [hShows.shown .msgCount (by decide)]
    exact intParam_fetchValue rfl (hSteady.valid.cell .tgGroups r hShows.mem
      { name := .msgCount, type := .bigint true, default := some (.int 0) } (by simp [schema, table]))

theorem accepted_iff : Accepted w c ↔ c.Fits ∧ r .name = c.identity.name := by
  refine and_congr_right fun _ => ⟨fun hAll => hAll r ?_, fun hName r' hr' => ?_⟩
  · exact List.mem_filter.mpr ⟨hShows.mem, decide_eq_true hShows.owner⟩
  · obtain ⟨hMem, hOwner⟩ := List.mem_filter.mp hr'
    rw [hShows.only r' hMem (of_decide_eq_true hOwner)]
    exact hName

include hSteady hReads

theorem ends_same (hIdentity : .ofRow r = c.identity) :
    EndsRow h j w m c d (some u) := by
  have hCompares := Compares.of_shows hSteady hShows
  have hUsername : r .username = c.identity.username := congrArg GroupIdentity.username hIdentity
  have hName : r .name = c.identity.name := congrArg GroupIdentity.name hIdentity
  have hNone : (Group.updateQuery u d).doUpdate = false := by
    simp [updateQuery_eq, changes, UpdateQuery.change, UpdateQuery.ofChanges, hReads.username, hReads.title,
      hCompares.username.mpr hUsername, hCompares.name.mpr hName]
  have hFits : c.Fits := (fits_iff c).mpr ⟨hUsername ▸ hCompares.usernameHolds.check, hName ▸ hCompares.nameHolds.check⟩
  rw [EndsRow, resolveRow_some, hNone, if_neg Bool.false_ne_true]
  exact .ret (.opened hSteady m) ((accepted_iff hShows).mpr ⟨hFits, hName⟩)
    (.same hShows.mem hShows.owner hShows.id hIdentity (result_of_shows hShows hSteady rfl rfl rfl) rfl)

theorem ends_title (hName : r .name ≠ c.identity.name) :
    EndsRow h j w m c d (some u) := by
  have hTitle : u .name ≠ .ofOption c.title := fun hEq => hName ((Compares.of_shows hSteady hShows).name.mp hEq)
  have hUpdate : (Group.updateQuery u d).doUpdate = true := by
    simp [updateQuery_eq, changes, UpdateQuery.change, UpdateQuery.ofChanges, hReads.title, hTitle]
  obtain ⟨e, hWrites⟩ : ∃ e, schema.writes w.db w.next (updateStmt u d) (updateParams u d c.dateTime) = .error e :=
    updateGroup_of_title w.next hReads hTitle c.dateTime
  rw [EndsRow, resolveRow_some, if_pos hUpdate]
  exact .refused (.opened hSteady m) (fun hAccepted => hName ((accepted_iff hShows).mp hAccepted).2) hWrites

theorem ends_username (hUsername : r .username ≠ c.identity.username) (hName : r .name = c.identity.name) :
    EndsRow h j w m c d (some u) := by
  have hCompares := Compares.of_shows hSteady hShows
  have hTitle : u .name = .ofOption c.title := hCompares.name.mpr hName
  have hChanged : u .username ≠ .ofOption c.username := fun hEq => hUsername (hCompares.username.mp hEq)
  have hChanges := changes_of_username hReads hTitle hChanged
  have hUpdate : (Group.updateQuery u d).doUpdate = true := by
    rw [updateQuery_eq, hChanges]
    rfl
  have hParse : parseSet ((Group.updateQuery u d).clause ++ [.comma, .assign .updatedAt]) =
      some [.username, .updatedAt] := by
    rw [updateQuery_eq, hChanges]
    rfl
  rw [EndsRow, resolveRow_some, if_pos hUpdate]
  refine .update (.opened hSteady m) hParse (by decide) (by decide) (fun e hRefused hAccepted => ?_)
    fun ws w₁ hWrites hInside hNext => ?_
  · obtain ⟨ws, hWrites⟩ : ∃ ws, schema.writes w.db w.next (updateStmt u d) (updateParams u d c.dateTime) = .ok ws :=
      updateGroup_of_fits w.next hReads hTitle hChanged hCompares.id hAccepted.1 (hSteady.valid.foreign .tgGroups)
    cases hWrites.symm.trans hRefused
  · obtain ⟨rfl, hCheck⟩ := updateGroup_writes w.next hReads hTitle hChanged hCompares.id ⟨r, hShows.mem, hShows.id⟩
      hWrites
    have hFits : c.Fits := (fits_iff c).mpr ⟨hCheck, hName ▸ hCompares.nameHolds.check⟩
    -- the `UPDATE` touches none of the columns that the version refers to
    have hDue : Due (schema.applyAll ([] ++ [.update .tgGroups .id (.str (toString k)) (updateSets c c.dateTime)]) w.db)
        d c.dateTime { fresh d c.dateTime with needHistory := true, u := some (shown u) } (shown u)
        (r.set (updateSets c c.dateTime)) k := by
      obtain ⟨_, _, _, hId, hLink, hPhoto, hCount⟩ :=
        result_of_shows (g := { fresh d c.dateTime with u := some (shown u) }) hShows hSteady rfl rfl rfl
      exact ⟨⟨rfl, rfl, rfl, hId, hLink, hPhoto, hCount⟩, rfl, mem_updated hShows.mem hShows.id _, hShows.id⟩
    have hKey : w₁.next .tgGroupHistory = w.next .tgGroupHistory := congrFun hNext _
    refine recordHistory_ends hReads hInside hDue hFits ((accepted_iff hShows).mpr ⟨hFits, hName⟩) fun v w₂ hVersion => ?_
    rw [hKey] at hVersion
    exact .updated hShows.mem hShows.owner hShows.id hName hVersion (result_of_shows hShows hSteady rfl rfl rfl)
      (congrArg some hKey)

end Stored

theorem resolveGroup_cases (hSteady : Steady w) (hReads : c.Reads d) (h : Hashes) (j : Job) :
    (Accepted w c ∧ ∃ a log w', (Group.resolveGroup (fresh d c.dateTime)).eval (serve h j) w = (.ok a, w') ∧ Steady w' ∧
      w'.db = schema.applyAll log w.db ∧ Wrote w c d a log) ∨
    (¬ Accepted w c ∧ ∃ e w', (Group.resolveGroup (fresh d c.dateTime)).eval (serve h j) w = (.error e, w') ∧
      Steady w' ∧ w'.db = w.db) := by
  have hEnds : Ends h j w (Group.groupMutex d) (Group.resolveGroupInternal (fresh d c.dateTime) d)
      (w.opened (Group.groupMutex d)) (Accepted w c) fun a log _ => Wrote w c d a log := by
    rcases fetch_cases h.collate .tgGroups .tgGroupId hSteady rfl (by decide) (Group.groupMutex d) Group.selectCols c.chatId with
      ⟨hFetch, hNew⟩ | ⟨u, r, k, hFetch, hShows⟩
    · exact .of_eval (serve_fetch (hReads.chatId ▸ hFetch)) (ends_new hSteady hReads hNew)
    · refine .of_eval (serve_fetch (hReads.chatId ▸ hFetch)) ?_
      by_cases hName : r .name = c.identity.name
      · by_cases hUsername : r .username = c.identity.username
        · exact ends_same hSteady hReads hShows (congr (congrArg GroupIdentity.mk hUsername) hName)
        · exact ends_username hSteady hReads hShows hUsername hName
      · exact ends_title hSteady hReads hShows hName
  rcases hEnds.inTransaction hSteady with ⟨hAccepted, a, log, _, w', hCall, hSteady', hDb, hWrote⟩ | hFails
  · exact .inl ⟨hAccepted, a, log, w', hCall, hSteady', hDb, hWrote⟩
  · exact .inr hFails

end Call

end TeaBot.Loggers.GroupTitle
