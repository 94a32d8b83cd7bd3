import Mathlib.Data.List.Basic
import Mathlib.Data.Option.Basic
import Mathlib.Logic.Function.Basic

/-! # A small relational store

Tables with declared columns, the statement forms a data access layer uses, and
the write log of a transaction. A statement is checked against the schema in the view
of the connection that issues it (unknown columns, parameter count, column types,
`NOT NULL`, unique and foreign keys, as in strict SQL mode) and yields row-level
writes, which reach the tables at once or when the transaction commits.
-/

namespace Foundation.Sql

inductive Value
  | null
  | int (n : Int)
  | str (s : String)
  deriving DecidableEq, Repr

inductive Charset
  | utf8mb4
  | utf8
  | latin1
  deriving DecidableEq

/-- The characters of code page 1252 between `0x80` and `0x9f`. -/
def cp1252 : List Nat :=
  [0x20ac, 0x81, 0x201a, 0x192, 0x201e, 0x2026, 0x2020, 0x2021, 0x2c6, 0x2030, 0x160, 0x2039, 0x152,
    0x8d, 0x17d, 0x8f, 0x90, 0x2018, 0x2019, 0x201c, 0x201d, 0x2022, 0x2013, 0x2014, 0x2dc, 0x2122,
    0x161, 0x203a, 0x153, 0x9d, 0x17e, 0x178]

/-- `utf8` holds the basic multilingual plane only, and `latin1` is code page 1252. -/
def Charset.encodes : Charset → Char → Bool
  | .utf8mb4, _ => true
  | .utf8, c => c.toNat < 0x10000
  | .latin1, c => c.toNat < 0x80 || (0xa0 ≤ c.toNat && c.toNat < 0x100) || c.toNat ∈ cp1252

inductive ColumnType
  | bigint (unsigned : Bool)
  | varchar (length : Nat) (charset : Charset)
  | enum (values : List String)
  /-- Types whose values the store takes as they come (dates, texts, blobs). -/
  | other
  deriving DecidableEq

/-- The integer a number or a string of digits denotes. -/
def Value.asInt : Value → Option Int
  | .int n => some n
  | .str s =>
    if s.toList ≠ [] ∧ s.toList.all Char.isDigit then some (Nat.ofDigitChars 10 s.toList 0 : Nat) else none
  | .null => none

def Value.asText : Value → Option String
  | .int n => some (toString n)
  | .str s => some s
  | .null => none

/-- What a column of the type stores for a value other than `NULL`; `none` when the
value is out of range, too long or not encodable. -/
def ColumnType.store : ColumnType → Value → Option Value
  | .bigint unsigned, v => v.asInt.bind fun n => if unsigned ∧ n < 0 then none else some (.int n)
  | .varchar length charset, v =>
    v.asText.bind fun s =>
      if s.length ≤ length ∧ s.toList.all charset.encodes then some (.str s) else none
  | .enum values, v => v.asText.bind fun s => if s ∈ values then some (.str s) else none
  | .other, v => some v

/-- `column = ?` for the types that compare alike everywhere; `NULL` equals nothing. Texts
compare by a collation. -/
def ColumnType.equal : ColumnType → Value → Value → Bool
  | .bigint _, .int n, v => v.asInt = some n
  | .enum _, .str s, v => v.asText = some s
  | .other, .int n, v => v.asInt = some n
  | .other, .str s, v => v.asText = some s
  | _, _, _ => false

/-- `column = ?`, where two texts are equal if they have one sort key. -/
def ColumnType.selects (collate : String → List Nat) : ColumnType → Value → Value → Bool
  | .varchar _ _, .str s, v => v.asText.map collate = some (collate s)
  | type, a, v => type.equal a v

theorem ColumnType.equal_bigint (unsigned : Bool) (a v : Value) :
    (ColumnType.bigint unsigned).equal a v = true ↔ ∃ n, a = .int n ∧ v.asInt = some n := by
  cases a <;> simp [ColumnType.equal]

structure Column (C : Type) where
  name : C
  type : ColumnType
  nullable : Bool := false
  default : Option Value := none

structure Table (T C : Type) where
  columns : List (Column C)
  unique : List C := []
  /-- Columns that refer to the key of another table. -/
  foreign : List (C × T) := []

inductive Error (C : Type)
  | malformed
  | unknownColumn (c : C)
  | parameterNumber
  | dataError (c : C)
  | nullColumn (c : C)
  | noDefault (c : C)
  | duplicate (c : C)
  | foreignKey (c : C)
  deriving DecidableEq

abbrev Row (C : Type) := C → Value

/-- The text of a `SET` clause, piece by piece: `c = ?` and the commas between. -/
inductive SetToken (C : Type)
  | assign (c : C)
  | comma
  deriving DecidableEq

inductive Stmt (T C : Type)
  /-- `INSERT INTO t (cols) VALUES (?, ..)` -/
  | insert (t : T) (cols : List C)
  /-- `UPDATE t SET clause WHERE key = ?` -/
  | update (t : T) (clause : List (SetToken C)) (key : C)
  /-- `UPDATE a INNER JOIN b ON a.id = b.link SET a.c = ?, b.c = ? WHERE b.id = ?` -/
  | updateJoin (a b : T) (link c : C)
  /-- `DELETE FROM t WHERE key = ?` -/
  | delete (t : T) (key : C)
  /-- `UPDATE t SET c = c + 1 WHERE key = ?` -/
  | increment (t : T) (c key : C)

def Stmt.tables {T C : Type} : Stmt T C → List T
  | .insert t _ | .update t _ _ | .delete t _ | .increment t _ _ => [t]
  | .updateJoin a b _ _ => [a, b]

inductive Write (T C : Type)
  | insert (t : T) (row : Row C)
  | update (t : T) (key : C) (v : Value) (sets : List (C × Value))
  | delete (t : T) (key : C) (v : Value)
  /-- Relative, so that it adds to whatever the row holds when the log is applied. -/
  | increment (t : T) (c key : C) (v : Value)

def Write.table {T C : Type} : Write T C → T
  | .insert t _ | .update t _ _ _ | .delete t _ _ | .increment t _ _ _ => t

section Store

variable {T C : Type} [DecidableEq C]

/-- The declared tables and the name of the auto-increment key. -/
structure Schema (T C : Type) where
  table : T → Table T C
  id : C

abbrev Tables (T C : Type) := T → List (Row C)

def parseRest : List (SetToken C) → Option (List C)
  | [] => some []
  | .comma :: .assign c :: rest => (parseRest rest).map (c :: ·)
  | _ => none

def parseSet : List (SetToken C) → Option (List C)
  | .assign c :: rest => (parseRest rest).map (c :: ·)
  | _ => none

variable (schema : Schema T C)

def Schema.column (t : T) (c : C) : Option (Column C) :=
  (schema.table t).columns.find? fun d => d.name = c

def Schema.type (t : T) (c : C) : ColumnType := ((schema.column t c).map (·.type)).getD .other

/-- `WHERE key = ?` of a statement that writes; no such key is a text. -/
def Schema.matches (t : T) (key : C) (v : Value) (row : Row C) : Bool :=
  (schema.type t key).equal (row key) v

/-- `WHERE key = ?` of a `SELECT`. -/
def Schema.selects (collate : String → List Nat) (t : T) (key : C) (v : Value) (row : Row C) : Bool :=
  (schema.type t key).selects collate (row key) v

variable {t : T} {key : C}

theorem Schema.selects_bigint {unsigned : Bool} (hType : schema.type t key = .bigint unsigned)
    (collate : String → List Nat) (v : Value) : schema.selects collate t key v = schema.matches t key v := by
  funext row
  rw [Schema.selects, Schema.matches, hType]
  rfl

def Column.check (d : Column C) (v : Value) : Option (Error C) :=
  if v = .null then (if d.nullable then none else some (.nullColumn d.name))
  else if (d.type.store v).isSome then none
  else some (.dataError d.name)

def Column.stored (d : Column C) (v : Value) : Value :=
  if v = .null then .null else (d.type.store v).getD .null

def Column.cell (d : Column C) (given : List (C × Value)) : Option (Error C) × Value :=
  match given.lookup d.name with
  | some v => (d.check v, d.stored v)
  | none =>
    match d.default with
    | some v => (none, v)
    | none => if d.nullable then (none, .null) else (some (.noDefault d.name), .null)

def Schema.foreignError (view : Tables T C) (t : T) (row : Row C) : Option (Error C) :=
  (schema.table t).foreign.findSome? fun (c, parent) =>
    if row c = .null ∨ (view parent).any fun r => r schema.id = row c then none
    else some (.foreignKey c)

def Schema.duplicateError (view : Tables T C) (t : T) (row : Row C) : Option (Error C) :=
  (schema.table t).unique.findSome? fun c =>
    if (view t).any fun r => r c = row c then some (.duplicate c) else none

def Schema.newRow (t : T) (given : List (C × Value)) (key : Nat) : Row C := fun c =>
  if c = schema.id then .int key
  else ((schema.column t c).map fun d => (d.cell given).2).getD .null

def Schema.insertError (view : Tables T C) (t : T) (cols : List C) (params : List Value) (key : Nat) :
    Option (Error C) :=
  (cols.findSome? fun c => if (schema.column t c).isSome then none else some (.unknownColumn c)) <|>
  (if cols.length = params.length then none else some .parameterNumber) <|>
  ((schema.table t).columns.findSome? fun d =>
    if d.name = schema.id then none else (d.cell (cols.zip params)).1) <|>
  schema.duplicateError view t (schema.newRow t (cols.zip params) key) <|>
  schema.foreignError view t (schema.newRow t (cols.zip params) key)

/-- `c + 1`; `NULL` stays `NULL`. -/
def Value.succ : Value → Value
  | .int n => .int (n + 1)
  | v => v

def Row.set (row : Row C) (sets : List (C × Value)) : Row C := fun c => (sets.lookup c).getD (row c)

/-- The assignments of an `UPDATE` as the columns store them. -/
def Schema.assignments (t : T) (given : List (C × Value)) : List (C × Value) :=
  given.map fun (c, v) => (c, ((schema.column t c).map fun d => d.stored v).getD .null)

/-- Unique keys are checked on insertion only. -/
def Schema.updateError (view : Tables T C) (t : T) (cols : List C) (key : C) (params : List Value) :
    Option (Error C) :=
  ((cols ++ [key]).findSome? fun c =>
    if (schema.column t c).isSome then none else some (.unknownColumn c)) <|>
  (if params.length = cols.length + 1 then none else some .parameterNumber) <|>
  (if (view t).any (schema.matches t key (params.getLastD .null)) then
    ((cols.zip params).findSome? fun (c, v) => (schema.column t c).bind fun d => d.check v) <|>
    ((view t).filter (schema.matches t key (params.getLastD .null))).findSome? fun row =>
      schema.foreignError view t (row.set (schema.assignments t (cols.zip params)))
  else none)

/-- The writes of a statement in the given view, or why it is refused. -/
def Schema.writes (view : Tables T C) (next : T → Nat) :
    Stmt T C → List Value → Except (Error C) (List (Write T C))
  | .insert t cols, params =>
    match schema.insertError view t cols params (next t) with
    | some e => .error e
    | none => .ok [.insert t (schema.newRow t (cols.zip params) (next t))]
  | .update t clause key, params =>
    match parseSet clause with
    | none => .error .malformed
    | some cols =>
      match schema.updateError view t cols key params with
      | some e => .error e
      | none => .ok [.update t key (params.getLastD .null) (schema.assignments t (cols.zip params))]
  | .updateJoin a b link c, params =>
    match params with
    | [va, vb, v] =>
      match (view b).find? (schema.matches b schema.id v) with
      | none => .ok []
      | some row =>
        match schema.updateError view a [c] schema.id [va, row link] <|>
            schema.updateError view b [c] schema.id [vb, v] with
        | some e => .error e
        | none => .ok [.update a schema.id (row link) (schema.assignments a [(c, va)]),
            .update b schema.id v (schema.assignments b [(c, vb)])]
    | _ => .error .parameterNumber
  | .delete t key, params =>
    match params with
    | [v] => if (schema.column t key).isSome then .ok [.delete t key v] else .error (.unknownColumn key)
    | _ => .error .parameterNumber
  | .increment t c key, params =>
    match params with
    | [v] =>
      if (schema.column t c).isNone then .error (.unknownColumn c)
      else if (schema.column t key).isNone then .error (.unknownColumn key)
      else .ok [.increment t c key v]
    | _ => .error .parameterNumber

/-! ## What an accepted statement does -/

/-- A value as a text column holds it. -/
def Value.text : Value → Value
  | .null => .null
  | .int n => .str (toString n)
  | .str s => .str s

omit [DecidableEq C] in
theorem Column.stored_varchar {d : Column C} {v : Value} {length : Nat} {charset : Charset}
    (hType : d.type = .varchar length charset) (h : d.check v = none) : d.stored v = v.text := by
  cases v with
  | null => rfl
  | int n =>
    simp only [Column.check, Column.stored, hType, ColumnType.store, Value.asText, Value.text] at h ⊢
    by_cases hFit : (toString n).length ≤ length ∧ (toString n).toList.all charset.encodes <;> simp_all
  | str s =>
    simp only [Column.check, Column.stored, hType, ColumnType.store, Value.asText, Value.text] at h ⊢
    by_cases hFit : s.length ≤ length ∧ s.toList.all charset.encodes <;> simp_all

omit [DecidableEq C] in
theorem Column.stored_bigint {d : Column C} {n : Int} {unsigned : Bool}
    (hType : d.type = .bigint unsigned) (h : d.check (.int n) = none) : d.stored (.int n) = .int n := by
  simp only [Column.check, Column.stored, hType, ColumnType.store, Value.asInt] at h ⊢
  by_cases hFit : unsigned = true ∧ n < 0
  · simp [hFit] at h
  · simp [hFit]

variable {next : T → Nat} {cols : List C} {view : Tables T C} {params : List Value} {ws : List (Write T C)} {row : Row C}

omit [DecidableEq C] in
theorem Schema.duplicateError_eq_none_iff : schema.duplicateError view t row = none ↔
    ∀ c ∈ (schema.table t).unique, ∀ r ∈ view t, r c ≠ row c := by
  simp [Schema.duplicateError]

omit [DecidableEq C] in
theorem Schema.foreignError_eq_none_iff : schema.foreignError view t row = none ↔
    ∀ ref ∈ (schema.table t).foreign, row ref.1 = .null ∨ ∃ r ∈ view ref.2, r schema.id = row ref.1 := by
  simp [Schema.foreignError, or_iff_not_imp_left]

theorem Schema.writes_insert (h : schema.writes view next (.insert t cols) params = .ok ws) :
    ws = [.insert t (schema.newRow t (cols.zip params) (next t))] ∧
      (∀ d ∈ (schema.table t).columns, d.name ≠ schema.id → (d.cell (cols.zip params)).1 = none) ∧
      schema.foreignError view t (schema.newRow t (cols.zip params) (next t)) = none := by
  simp only [Schema.writes] at h
  split at h
  · cases h
  · rename_i hError
    simp only [Schema.insertError, Option.orElse_eq_none] at hError
    obtain ⟨_, _, hCells, _, hForeign⟩ := hError
    refine ⟨(Except.ok.inj h).symm, fun d hd hName => ?_, hForeign⟩
    simpa [hName] using List.findSome?_eq_none_iff.mp hCells d hd

theorem Schema.writes_insert_unique (h : schema.writes view next (.insert t cols) params = .ok ws) :
    ∀ c ∈ (schema.table t).unique, ∀ r ∈ view t, r c ≠ schema.newRow t (cols.zip params) (next t) c := by
  simp only [Schema.writes] at h
  split at h
  · cases h
  · rename_i hError
    simp only [Schema.insertError, Option.orElse_eq_none] at hError
    exact schema.duplicateError_eq_none_iff.mp hError.2.2.2.1

variable {clause : List (SetToken C)}

theorem Schema.writes_update (hParse : parseSet clause = some cols)
    (h : schema.writes view next (.update t clause key) params = .ok ws) :
    ws = [.update t key (params.getLastD .null) (schema.assignments t (cols.zip params))] ∧
      ((∃ row ∈ view t, schema.matches t key (params.getLastD .null) row) →
        ∀ c v d, (cols.zip params).lookup c = some v → schema.column t c = some d → d.check v = none) := by
  simp only [Schema.writes, hParse] at h
  split at h
  · cases h
  · rename_i hError
    simp only [Schema.updateError, Option.orElse_eq_none] at hError
    refine ⟨(Except.ok.inj h).symm, fun hRow c v d hv hd => ?_⟩
    rw [if_pos (List.any_eq_true.mpr hRow), Option.orElse_eq_none] at hError
    obtain ⟨l₁, l₂, hSplit, _⟩ := List.lookup_eq_some_iff.mp hv
    have hMem : (c, v) ∈ cols.zip params := by simp [hSplit]
    simpa [hd] using List.findSome?_eq_none_iff.mp hError.2.2.1 (c, v) hMem

theorem Schema.writes_update_foreign (hParse : parseSet clause = some cols)
    (h : schema.writes view next (.update t clause key) params = .ok ws) :
    ∀ row ∈ view t, schema.matches t key (params.getLastD .null) row = true →
      schema.foreignError view t (row.set (schema.assignments t (cols.zip params))) = none := by
  simp only [Schema.writes, hParse] at h
  split at h
  · cases h
  · rename_i hError
    simp only [Schema.updateError, Option.orElse_eq_none] at hError
    intro row hRow hMatch
    rw [if_pos (List.any_eq_true.mpr ⟨row, hRow, hMatch⟩), Option.orElse_eq_none] at hError
    exact List.findSome?_eq_none_iff.mp hError.2.2.2 row (List.mem_filter.mpr ⟨hRow, hMatch⟩)

theorem Schema.writes_tables {stmt : Stmt T C} (h : schema.writes view next stmt params = .ok ws) :
    ∀ w ∈ ws, w.table ∈ stmt.tables := by
  cases stmt with
  | insert t cols =>
    obtain ⟨rfl, _⟩ := schema.writes_insert h
    simp [Write.table, Stmt.tables]
  | update t clause key =>
    simp only [Schema.writes] at h
    split at h
    · cases h
    · split at h
      · cases h
      · cases h
        simp [Write.table, Stmt.tables]
  | updateJoin a b link c =>
    simp only [Schema.writes] at h
    split at h
    · split at h
      · cases h
        exact fun _ hw => absurd hw List.not_mem_nil
      · split at h
        · cases h
        · cases h
          simp [Write.table, Stmt.tables]
    · cases h
  | delete t key =>
    simp only [Schema.writes] at h
    split at h
    · split at h
      · cases h
        simp [Write.table, Stmt.tables]
      · cases h
    · cases h
  | increment t c key =>
    simp only [Schema.writes] at h
    split at h
    · split at h
      · cases h
      · split at h
        · cases h
        · cases h
          simp [Write.table, Stmt.tables]
    · cases h

/-! ## When a statement is accepted -/

theorem Schema.writes_insert_of (hKnown : ∀ c ∈ cols, (schema.column t c).isSome = true)
    (hLength : cols.length = params.length)
    (hCells : ∀ d ∈ (schema.table t).columns, d.name ≠ schema.id → (d.cell (cols.zip params)).1 = none)
    (hUnique : schema.duplicateError view t (schema.newRow t (cols.zip params) (next t)) = none)
    (hForeign : schema.foreignError view t (schema.newRow t (cols.zip params) (next t)) = none) :
    schema.writes view next (.insert t cols) params =
      .ok [.insert t (schema.newRow t (cols.zip params) (next t))] := by
  have hNone : schema.insertError view t cols params (next t) = none := by
    simp only [Schema.insertError, Option.orElse_eq_none]
    refine ⟨List.findSome?_eq_none_iff.mpr fun c hc => if_pos (hKnown c hc), if_pos hLength,
      List.findSome?_eq_none_iff.mpr fun d hd => ?_, hUnique, hForeign⟩
    by_cases hName : d.name = schema.id
    · exact if_pos hName
    · rw [if_neg hName]
      exact hCells d hd hName
  simp only [Schema.writes, hNone]

theorem Schema.updateError_of (hKnown : ∀ c ∈ cols ++ [key], (schema.column t c).isSome = true)
    (hLength : params.length = cols.length + 1)
    (hCheck : ∀ p ∈ cols.zip params, ∀ d, schema.column t p.1 = some d → d.check p.2 = none)
    (hForeign : ∀ row ∈ view t, schema.foreignError view t (row.set (schema.assignments t (cols.zip params))) = none) :
    schema.updateError view t cols key params = none := by
  simp only [Schema.updateError, Option.orElse_eq_none]
  refine ⟨List.findSome?_eq_none_iff.mpr fun c hc => if_pos (hKnown c hc), if_pos hLength, ?_⟩
  split
  · refine (Option.orElse_eq_none _ _).mpr ⟨List.findSome?_eq_none_iff.mpr fun p hp => ?_,
      List.findSome?_eq_none_iff.mpr fun row hRow => hForeign row (List.mem_of_mem_filter hRow)⟩
    cases hCol : schema.column t p.1 with
    | none => rfl
    | some d => exact hCheck p hp d hCol
  · rfl

theorem Schema.writes_update_of (hParse : parseSet clause = some cols)
    (hKnown : ∀ c ∈ cols ++ [key], (schema.column t c).isSome = true) (hLength : params.length = cols.length + 1)
    (hCheck : ∀ p ∈ cols.zip params, ∀ d, schema.column t p.1 = some d → d.check p.2 = none)
    (hForeign : ∀ row ∈ view t, schema.foreignError view t (row.set (schema.assignments t (cols.zip params))) = none) :
    schema.writes view next (.update t clause key) params =
      .ok [.update t key (params.getLastD .null) (schema.assignments t (cols.zip params))] := by
  simp only [Schema.writes, hParse, schema.updateError_of hKnown hLength hCheck hForeign]

variable {c : C}

theorem Schema.writes_updateJoin_of {a b : T} {link : C} {va vb v : Value} {row : Row C}
    (hFind : (view b).find? (schema.matches b schema.id v) = some row)
    (hA : schema.updateError view a [c] schema.id [va, row link] = none)
    (hB : schema.updateError view b [c] schema.id [vb, v] = none) :
    schema.writes view next (.updateJoin a b link c) [va, vb, v] =
      .ok [.update a schema.id (row link) (schema.assignments a [(c, va)]),
        .update b schema.id v (schema.assignments b [(c, vb)])] := by
  simp only [Schema.writes, hFind, hA, hB]
  rfl

/-- One column that the table does not have is enough for the whole statement to be refused. -/
theorem Schema.writes_update_unknown (hParse : parseSet clause = some cols) (hc : c ∈ cols)
    (hUnknown : schema.column t c = none) : ∃ e, schema.writes view next (.update t clause key) params = .error e := by
  simp only [Schema.writes, hParse]
  cases hError : schema.updateError view t cols key params with
  | some e => exact ⟨e, rfl⟩
  | none =>
    simp only [Schema.updateError, Option.orElse_eq_none] at hError
    have hKnown := List.findSome?_eq_none_iff.mp hError.1 c (List.mem_append_left _ hc)
    simp [hUnknown] at hKnown

omit [DecidableEq C] in
theorem Schema.exists_parent {parent : T} (h : schema.foreignError view t row = none)
    (hKey : (c, parent) ∈ (schema.table t).foreign) (hNull : row c ≠ .null) :
    ∃ r ∈ view parent, r schema.id = row c :=
  (schema.foreignError_eq_none_iff.mp h (c, parent) hKey).resolve_left hNull

theorem Schema.lookup_assignments (t : T) (given : List (C × Value)) (c : C) :
    (schema.assignments t given).lookup c =
      (given.lookup c).map fun v => ((schema.column t c).map fun d => d.stored v).getD .null := by
  induction given with
  | nil => rfl
  | cons p given ih =>
    obtain ⟨c', v⟩ := p
    simp only [Schema.assignments, List.map_cons, List.lookup_cons] at ih ⊢
    by_cases hc : c = c'
    · subst hc
      simp
    · simpa [beq_eq_false_iff_ne.mpr hc] using ih

/-! ## Write logs -/

variable [DecidableEq T]

def Schema.apply : Write T C → Tables T C → Tables T C
  | .insert t row, db => Function.update db t (db t ++ [row])
  | .update t key v sets, db =>
    Function.update db t ((db t).map fun row => if schema.matches t key v row then row.set sets else row)
  | .delete t key v, db => Function.update db t ((db t).filter fun row => !schema.matches t key v row)
  | .increment t c key v, db =>
    Function.update db t ((db t).map fun row => if schema.matches t key v row then row.set [(c, (row c).succ)] else row)

def Schema.applyAll (log : List (Write T C)) (db : Tables T C) : Tables T C :=
  log.foldl (fun db w => schema.apply w db) db

@[simp] theorem Schema.applyAll_nil (db : Tables T C) : schema.applyAll [] db = db := rfl

@[simp] theorem Schema.applyAll_cons (w : Write T C) (log : List (Write T C)) (db : Tables T C) :
    schema.applyAll (w :: log) db = schema.applyAll log (schema.apply w db) := rfl

theorem Schema.applyAll_append (log log' : List (Write T C)) (db : Tables T C) :
    schema.applyAll (log ++ log') db = schema.applyAll log' (schema.applyAll log db) := List.foldl_append

theorem Schema.applyAll_of_ne {log : List (Write T C)} (h : ∀ w ∈ log, w.table ≠ t) (db : Tables T C) :
    schema.applyAll log db t = db t := by
  induction log generalizing db with
  | nil => rfl
  | cons w log ih =>
    have hHead : schema.apply w db t = db t := by
      have hNe := (h w List.mem_cons_self).symm
      cases w <;> exact Function.update_of_ne hNe _ _
    rw [applyAll_cons, ih (fun w' hw' => h w' (List.mem_cons_of_mem w hw')), hHead]

theorem Schema.applyAll_inserts (t : T) (rows : List (Row C)) (db : Tables T C) :
    schema.applyAll (rows.map (.insert t)) db = Function.update db t (db t ++ rows) := by
  induction rows generalizing db with
  | nil => simp
  | cons row rows ih => rw [List.map_cons, applyAll_cons, ih, apply, Function.update_idem]; simp

end Store

end Foundation.Sql
