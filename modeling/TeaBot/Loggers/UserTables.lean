import TeaBot.Loggers.Versions
import TeaBot.Loggers.World

/-! # `tg_users` and `tg_user_history`

What the three statements of `resolveUser` write, and the link between the two tables
that its transactions keep.
-/

namespace TeaBot.Loggers

open Foundation Foundation.Sql

/-- The three tracked fields of a user, as the tables hold them. -/
structure Identity where
  username : Value
  firstName : Value
  lastName : Value
  deriving DecidableEq

namespace Identity

def ofRow (row : Row Col) : Identity := ⟨row .username, row .firstName, row .lastName⟩

def ofData (d : Data) : Identity where
  username := (bindParam d.username).text
  firstName := (bindParam d.firstName).text
  lastName := (bindParam d.lastName).text

def set (i : Identity) (sets : List (Col × Value)) : Identity where
  username := (sets.lookup .username).getD i.username
  firstName := (sets.lookup .firstName).getD i.firstName
  lastName := (sets.lookup .lastName).getD i.lastName

theorem ofRow_set (row : Row Col) (sets : List (Col × Value)) :
    ofRow (row.set sets) = (ofRow row).set sets := rfl

structure IsText (i : Identity) : Prop where
  username : i.username.text = i.username
  firstName : i.firstName.text = i.firstName
  lastName : i.lastName.text = i.lastName

theorem text_text (v : Value) : v.text.text = v.text := by
  cases v <;> rfl

theorem isText_ofData (d : Data) : (ofData d).IsText := ⟨text_text _, text_text _, text_text _⟩

end Identity

theorem bindParam_fetchValue {v : Value} (h : v.text = v) : bindParam (fetchValue v) = v := by
  cases v with
  | null => rfl
  | int n => cases h
  | str s => rfl

namespace User

variable {d : Data} {next : Tbl → Nat} {dateTime : String} {view : Tables Tbl Col} {ws : List (Write Tbl Col)}

theorem insertUser_writes {isBot : Php} {n : Int} (hId : d.userId = .int n)
    (h : schema.writes view next (.insert .tgUsers insertCols)
      ([d.userId, d.username, d.firstName, d.lastName, .int 0, .int 0, isBot, .str dateTime].map
        bindParam) = .ok ws) :
    ∃ r, ws = [.insert .tgUsers r] ∧ r .id = .int (next .tgUsers) ∧ r .tgUserId = .int n ∧
      Identity.ofRow r = .ofData d := by
  obtain ⟨rfl, hCells, _⟩ := schema.writes_insert h
  have hCell := fun (d' : Column Col) (hd : d' ∈ (table .tgUsers).columns) => hCells d' hd
  have hKey := hCell { name := .tgUserId, type := .bigint true } (by simp [table]) (by decide)
  have hUsername := hCell { name := .username, type := .varchar 255 .utf8, nullable := true }
    (by simp [table]) (by decide)
  have hFirst := hCell { name := .firstName, type := .varchar 255 .utf8mb4 } (by simp [table]) (by decide)
  have hLast := hCell { name := .lastName, type := .varchar 255 .utf8mb4, nullable := true }
    (by simp [table]) (by decide)
  rw [hId] at hKey
  refine ⟨_, rfl, rfl, ?_, ?_⟩
  · rw [hId]
    exact Column.stored_bigint rfl hKey
  · exact congr (congr (congrArg Identity.mk (Column.stored_varchar rfl hUsername))
      (Column.stored_varchar rfl hFirst)) (Column.stored_varchar rfl hLast)

theorem createUserHistory_writes {photo : Php} {k : Int}
    (h : schema.writes view next (.insert .tgUserHistory historyCols)
      ([.int k, d.username, d.firstName, d.lastName, photo, .str dateTime].map bindParam) = .ok ws) :
    ∃ r, ws = [.insert .tgUserHistory r] ∧ r .id = .int (next .tgUserHistory) ∧ r .userId = .int k ∧
      Identity.ofRow r = .ofData d ∧ ∃ u ∈ view .tgUsers, u .id = .int k := by
  obtain ⟨rfl, hCells, hForeign⟩ := schema.writes_insert h
  have hCell := fun (d' : Column Col) (hd : d' ∈ (table .tgUserHistory).columns) => hCells d' hd
  have hKey := hCell { name := .userId, type := .bigint true } (by simp [table]) (by decide)
  have hUsername := hCell { name := .username, type := .varchar 72 .latin1, nullable := true }
    (by simp [table]) (by decide)
  have hFirst := hCell { name := .firstName, type := .varchar 255 .utf8mb4 } (by simp [table]) (by decide)
  have hLast := hCell { name := .lastName, type := .varchar 255 .utf8mb4, nullable := true }
    (by simp [table]) (by decide)
  have hUser := Column.stored_bigint rfl hKey
  refine ⟨_, rfl, rfl, hUser, ?_, ?_⟩
  · exact congr (congr (congrArg Identity.mk (Column.stored_varchar rfl hUsername))
      (Column.stored_varchar rfl hFirst)) (Column.stored_varchar rfl hLast)
  · have hRef : (Col.userId, Tbl.tgUsers) ∈ (schema.table .tgUserHistory).foreign := by
      simp [schema, table]
    obtain ⟨u, hu, hEq⟩ := schema.exists_parent hForeign hRef fun hNull => nomatch hUser.symm.trans hNull
    exact ⟨u, hu, hEq.trans hUser⟩

def changes (u : Col → Php) (d : Data) : List (Col × Php) :=
  UpdateQuery.change .username (u .username) d.username ++
    UpdateQuery.change .firstName (u .firstName) d.firstName ++
    UpdateQuery.change .lastName (u .lastName) d.lastName

theorem updateQuery_eq (u : Col → Php) (d : Data) :
    updateQuery u d = UpdateQuery.ofChanges (changes u d) := by
  simp [updateQuery, ← UpdateQuery.ofChanges_nil, UpdateQuery.ofChanges_track, changes]

def assigned (u : Col → Php) (d : Data) (dateTime : String) : List (Col × Value) :=
  (changes u d).map UpdateQuery.bound ++ [(.updatedAt, .str dateTime)]

theorem lookup_assigned (u : Col → Php) (d : Data) (dateTime : String) {c : Col} (hc : c ≠ .updatedAt) :
    (assigned u d dateTime).lookup c =
      if c = .username ∧ u .username ≠ d.username then some (bindParam d.username)
      else if c = .firstName ∧ u .firstName ≠ d.firstName then some (bindParam d.firstName)
      else if c = .lastName ∧ u .lastName ≠ d.lastName then some (bindParam d.lastName)
      else none := by
  have hLast : List.lookup c [(Col.updatedAt, Value.str dateTime)] = none := by
    simp [List.lookup_cons, beq_eq_false_iff_ne.mpr hc]
  simp only [assigned, changes, List.map_append, List.lookup_append, UpdateQuery.lookup_change, hLast,
    Option.or_none]
  split_ifs <;> simp_all

def updateSets (u : Col → Php) (d : Data) (dateTime : String) : List (Col × Value) :=
  schema.assignments .tgUsers (assigned u d dateTime)

theorem lookup_updateSets (u : Col → Php) (d : Data) (dateTime : String) {c : Col}
    (hc : c ∉ [Col.username, .firstName, .lastName, .updatedAt]) : (updateSets u d dateTime).lookup c = none := by
  simp only [List.mem_cons, List.not_mem_nil, or_false, not_or] at hc
  rw [updateSets, schema.lookup_assignments, lookup_assigned _ _ _ hc.2.2.2]
  simp [hc.1, hc.2.1, hc.2.2.1]

theorem trackUserUpdate_writes {u : Col → Php} {k : Nat} {i : Identity} (hText : i.IsText)
    (hId : u .id = .str (toString k)) (hUsername : u .username = fetchValue i.username)
    (hFirst : u .firstName = fetchValue i.firstName) (hLast : u .lastName = fetchValue i.lastName)
    (hRow : ∃ row ∈ view .tgUsers, row .id = .int k) (hUpdate : changes u d ≠ []) (h : schema.writes view next
      (.update .tgUsers ((updateQuery u d).clause ++ [.comma, .assign .updatedAt]) .id)
      (((updateQuery u d).params ++ [.str dateTime, u .id]).map bindParam) = .ok ws) :
    ws = [.update .tgUsers .id (.str (toString k)) (updateSets u d dateTime)] ∧
      i.set (updateSets u d dateTime) = .ofData d := by
  rw [updateQuery_eq] at h
  obtain ⟨rfl, hCheck⟩ := schema.writes_update (UpdateQuery.parseSet_ofChanges .updatedAt hUpdate) h
  rw [UpdateQuery.zip_finish, UpdateQuery.getLastD_finish, hId] at hCheck ⊢
  have hChecked := hCheck (by
    obtain ⟨row, hMem, hKey⟩ := hRow
    exact ⟨row, hMem, (matches_id .tgUsers (asInt_toString k) row).mpr hKey⟩)
  -- a field keeps its value when it did not differ, and is stored as checked when it did
  have hField : ∀ (c : Col) (col : Column Col) (old : Value) (new : Php) (length : Nat) (charset : Charset),
      schema.column .tgUsers c = some col → col.type = .varchar length charset →
      (assigned u d dateTime).lookup c = (if fetchValue old = new then none else some (bindParam new)) →
      old.text = old →
      ((schema.assignments .tgUsers (assigned u d dateTime)).lookup c).getD old = (bindParam new).text := by
    intro c col old new length charset hCol hType hChange hOld
    rw [schema.lookup_assignments, hChange]
    split
    · rename_i hSame
      rw [← hSame, bindParam_fetchValue hOld, hOld]
      rfl
    · rename_i hDiff
      have hStored := Column.stored_varchar hType
        (hChecked c (bindParam new) col (hChange.trans (if_neg hDiff)) hCol)
      simp [hCol, hStored]
  refine ⟨rfl, congr (congr (congrArg Identity.mk ?_) ?_) ?_⟩
  · refine hField .username _ _ _ _ _ rfl rfl ?_ hText.username
    rw [lookup_assigned _ _ _ (by decide), hUsername]
    simp
  · refine hField .firstName _ _ _ _ _ rfl rfl ?_ hText.firstName
    rw [lookup_assigned _ _ _ (by decide), hFirst]
    simp
  · refine hField .lastName _ _ _ _ _ rfl rfl ?_ hText.lastName
    rw [lookup_assigned _ _ _ (by decide), hLast]
    simp

end User

/-- The two tables as a store of versioned records. -/
def users : Versioning Identity where
  table := .tgUsers
  history := .tgUserHistory
  owner := .tgUserId
  ref := .userId
  content := .ofRow

abbrev userStore (db : Tables Tbl Col) : Versioned.Store Value Value Identity := users.store db

end TeaBot.Loggers
