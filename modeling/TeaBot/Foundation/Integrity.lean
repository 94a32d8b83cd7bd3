import Mathlib.Data.List.Nodup
import TeaBot.Foundation.Sql

/-! # Integrity of the tables

Keys, unique columns, cells and references of all rows. Statements that the schema accepts
keep it.
-/

namespace Foundation.Sql

variable {T C : Type}

/-- A value as the column holds it. -/
structure Column.Holds (d : Column C) (v : Value) : Prop where
  check : d.check v = none
  stored : d.stored v = v

variable {v : Value}

variable {v' : Value} {ty : ColumnType}

theorem ColumnType.store_store (h : ty.store v = some v') : ty.store v' = some v' := by
  cases ty with
  | bigint unsigned =>
    obtain ⟨n, _, hn⟩ := Option.bind_eq_some_iff.mp h
    split at hn
    · cases hn
    · rename_i hSign
      cases hn
      simp [ColumnType.store, Value.asInt, hSign]
  | varchar length charset =>
    obtain ⟨s, _, hs⟩ := Option.bind_eq_some_iff.mp h
    split at hs
    · rename_i hFits
      cases hs
      simp only [ColumnType.store, Value.asText, Option.bind_some, if_pos hFits]
    · cases hs
  | enum values =>
    obtain ⟨s, _, hs⟩ := Option.bind_eq_some_iff.mp h
    split at hs
    · rename_i hMem
      cases hs
      simp only [ColumnType.store, Value.asText, Option.bind_some, if_pos hMem]
    · cases hs
  | other => exact (Option.some.inj h) ▸ rfl

theorem ColumnType.store_ne_null (hv : v ≠ .null) (h : ty.store v = some v') : v' ≠ .null := by
  rintro rfl
  cases ty with
  | bigint unsigned =>
    obtain ⟨n, _, hn⟩ := Option.bind_eq_some_iff.mp h
    split at hn <;> cases hn
  | varchar length charset | enum values =>
    obtain ⟨s, _, hs⟩ := Option.bind_eq_some_iff.mp h
    split at hs <;> cases hs
  | other => exact hv (Option.some.inj h)

variable {d : Column C}

theorem Column.holds_stored (h : d.check v = none) : d.Holds (d.stored v) := by
  by_cases hNull : v = .null
  · subst hNull
    exact ⟨h, rfl⟩
  · rw [Column.check, if_neg hNull] at h
    split at h
    · rename_i hStore
      obtain ⟨v', hv'⟩ := Option.isSome_iff_exists.mp hStore
      have hNe := ColumnType.store_ne_null hNull hv'
      have hEq : d.stored v = v' := by rw [Column.stored, if_neg hNull, hv', Option.getD_some]
      have hAgain := ColumnType.store_store hv'
      rw [hEq]
      exact ⟨by rw [Column.check, if_neg hNe, hAgain]; rfl, by rw [Column.stored, if_neg hNe, hAgain]; rfl⟩
    · cases h

/-- The declarations make sense: no column twice, defaults that fit, integer keys. -/
structure Schema.WellFormed (schema : Schema T C) : Prop where
  names : ∀ t, ((schema.table t).columns.map (·.name)).Nodup
  defaults : ∀ t, ∀ d ∈ (schema.table t).columns, ∀ v, d.default = some v → d.Holds v
  key : ∀ t, ∀ d ∈ (schema.table t).columns, d.name = schema.id → ∃ unsigned, d.type = .bigint unsigned

structure Schema.Valid (schema : Schema T C) (db : Tables T C) (next : T → Nat) : Prop where
  key : ∀ t, ∀ row ∈ db t, ∃ k : Nat, row schema.id = .int k ∧ k < next t
  distinct : ∀ t, ((db t).map (· schema.id)).Nodup
  unique : ∀ t, ∀ c ∈ (schema.table t).unique, ((db t).map (· c)).Nodup
  cell : ∀ t, ∀ row ∈ db t, ∀ d ∈ (schema.table t).columns, d.Holds (row d.name)
  foreign : ∀ t, ∀ row ∈ db t, schema.foreignError db t row = none

variable {schema : Schema T C} {db : Tables T C} {next : T → Nat}

variable {t : T} {r : Row C} {c : C}

namespace Schema.Valid

theorem mono (hValid : schema.Valid db next) {next' : T → Nat} (hNext : ∀ t, next t ≤ next' t) :
    schema.Valid db next' where
  key t row hRow := by
    obtain ⟨k, hId, hLt⟩ := hValid.key t row hRow
    exact ⟨k, hId, Nat.lt_of_lt_of_le hLt (hNext t)⟩
  distinct := hValid.distinct
  unique := hValid.unique
  cell := hValid.cell
  foreign := hValid.foreign

variable {r' : Row C}

theorem eq_of_id (hValid : schema.Valid db next) (hr : r ∈ db t) (hr' : r' ∈ db t) (hId : r schema.id = r' schema.id) :
    r = r' := List.inj_on_of_nodup_map (hValid.distinct t) hr hr' hId

theorem eq_of_unique (hValid : schema.Valid db next) (hc : c ∈ (schema.table t).unique) (hr : r ∈ db t)
    (hr' : r' ∈ db t) (hEq : r c = r' c) : r = r' :=
  List.inj_on_of_nodup_map (hValid.unique t c hc) hr hr' hEq

end Schema.Valid

section Columns

variable [DecidableEq C]

theorem Schema.WellFormed.column_eq (hSchema : schema.WellFormed) (hd : d ∈ (schema.table t).columns) :
    schema.column t d.name = some d := by
  cases hFind : schema.column t d.name with
  | none => exact absurd (decide_eq_true rfl) (List.find?_eq_none.mp hFind d hd)
  | some d' =>
    have hName : decide (d'.name = d.name) = true :=
      List.find?_some (p := fun d' : Column C => decide (d'.name = d.name)) hFind
    rw [List.inj_on_of_nodup_map (hSchema.names t) (List.mem_of_find?_eq_some hFind) hd (of_decide_eq_true hName)]

theorem Column.holds_cell {given : List (C × Value)} (hDefault : ∀ v, d.default = some v → d.Holds v)
    (h : (d.cell given).1 = none) : d.Holds (d.cell given).2 := by
  unfold Column.cell at h ⊢
  split at h
  · exact Column.holds_stored h
  · cases hValue : d.default with
    | some v => exact hDefault v hValue
    | none =>
      rw [hValue] at h
      dsimp only at h ⊢
      split at h
      · rename_i hNull
        rw [if_pos hNull]
        exact ⟨by rw [Column.check, if_pos rfl, if_pos hNull], rfl⟩
      · cases h

end Columns

variable {row : Row C}

theorem Schema.foreignError_mono {db' : Tables T C} (hKeys : ∀ t, ∀ r ∈ db t, ∃ r' ∈ db' t, r' schema.id = r schema.id)
    (h : schema.foreignError db t row = none) : schema.foreignError db' t row = none := by
  refine schema.foreignError_eq_none_iff.mpr fun ref hRef => ?_
  refine (schema.foreignError_eq_none_iff.mp h ref hRef).imp_right ?_
  rintro ⟨r, hr, hEq⟩
  obtain ⟨r', hr', hId⟩ := hKeys ref.2 r hr
  exact ⟨r', hr', hId.trans hEq⟩

/-! ## Statements -/

section Statements

variable [DecidableEq C] [DecidableEq T]

variable {t' : T}

theorem mem_apply_insert : row ∈ schema.apply (.insert t r) db t' ↔ row ∈ db t' ∨ (t' = t ∧ row = r) := by
  by_cases ht : t' = t
  · subst ht
    simp [Schema.apply]
  · simp [Schema.apply, ht]

theorem nodup_apply_insert (hOld : ((db t').map (· c)).Nodup) (hNew : t' = t → ∀ row ∈ db t, row c ≠ r c) :
    ((schema.apply (.insert t r) db t').map (· c)).Nodup := by
  by_cases ht : t' = t
  · subst ht
    have hApply : schema.apply (.insert t' r) db t' = db t' ++ [r] := by simp [Schema.apply]
    rw [hApply, List.map_append, List.map_singleton, List.nodup_append]
    refine ⟨hOld, List.nodup_singleton _, fun v hv v' hv' => ?_⟩
    obtain ⟨row, hRow, rfl⟩ := List.mem_map.mp hv
    rw [List.mem_singleton.mp hv']
    exact hNew rfl row hRow
  · have hApply : schema.apply (.insert t r) db t' = db t' := by simp [Schema.apply, ht]
    rwa [hApply]

variable {params : List Value} {ws : List (Write T C)} {cols : List C}

theorem Schema.Valid.insert (hSchema : schema.WellFormed) (hValid : schema.Valid db next)
    (h : schema.writes db next (.insert t cols) params = .ok ws) :
    schema.Valid (schema.applyAll ws db) (Function.update next t (next t + 1)) := by
  obtain ⟨rfl, hCells, hForeign⟩ := schema.writes_insert h
  have hUnique := schema.writes_insert_unique h
  generalize hRow : schema.newRow t (cols.zip params) (next t) = r at hForeign hUnique
  have hId : r schema.id = .int (next t) := by rw [← hRow, Schema.newRow, if_pos rfl]
  have hNext : ∀ t', next t' ≤ Function.update next t (next t + 1) t' := by
    intro t'
    by_cases ht : t' = t
    · subst ht
      simp
    · simp [ht]
  have hKeys : ∀ t', ∀ row ∈ db t', ∃ row' ∈ schema.apply (.insert t r) db t', row' schema.id = row schema.id :=
    fun t' row hMem => ⟨row, mem_apply_insert.mpr (.inl hMem), rfl⟩
  rw [Schema.applyAll_cons, Schema.applyAll_nil]
  refine ⟨fun t' row hMem => ?_, fun t' => ?_, fun t' c hc => ?_, fun t' row hMem d hd => ?_, fun t' row hMem => ?_⟩
  · rcases mem_apply_insert.mp hMem with hOld | ⟨rfl, rfl⟩
    · exact (hValid.mono hNext).key t' row hOld
    · exact ⟨next t', hId, by simp⟩
  · refine nodup_apply_insert (hValid.distinct t') fun ht row hMem hEq => ?_
    obtain ⟨k, hk, hLt⟩ := hValid.key t row hMem
    rw [hk, hId] at hEq
    have hInt : (k : Int) = next t := Value.int.inj hEq
    omega
  · refine nodup_apply_insert (hValid.unique t' c hc) fun ht row hMem => ?_
    subst ht
    exact hUnique c hc row hMem
  · rcases mem_apply_insert.mp hMem with hOld | ⟨rfl, rfl⟩
    · exact hValid.cell t' row hOld d hd
    · by_cases hName : d.name = schema.id
      · obtain ⟨unsigned, hType⟩ := hSchema.key t' d hd hName
        have hCheck : d.check (.int (next t')) = none := by
          simp [Column.check, hType, ColumnType.store, Value.asInt]
        rw [hName, hId]
        exact ⟨hCheck, Column.stored_bigint hType hCheck⟩
      · have hCell := Column.holds_cell (hSchema.defaults t' d hd) (hCells d hd hName)
        rw [← hRow, Schema.newRow, if_neg hName, hSchema.column_eq hd]
        exact hCell
  · rcases mem_apply_insert.mp hMem with hOld | ⟨rfl, rfl⟩
    · exact Schema.foreignError_mono hKeys (hValid.foreign t' row hOld)
    · exact Schema.foreignError_mono hKeys hForeign

variable {key : C}

variable {sets : List (C × Value)}

theorem apply_update :
    schema.apply (.update t key v sets) db t' =
      (db t').map fun row => if t' = t ∧ schema.matches t key v row = true then row.set sets else row := by
  by_cases ht : t' = t
  · subst ht
    simp [Schema.apply]
  · simp [Schema.apply, ht]

theorem map_apply_update (hc : t' = t → sets.lookup c = none) :
    (schema.apply (.update t key v sets) db t').map (· c) = (db t').map (· c) := by
  rw [apply_update, List.map_map]
  refine List.map_congr_left fun row _ => ?_
  by_cases hMatch : t' = t ∧ schema.matches t key v row = true
  · rw [Function.comp_apply, if_pos hMatch, Row.set, hc hMatch.1, Option.getD_none]
  · rw [Function.comp_apply, if_neg hMatch]

/-- An `UPDATE` that leaves keys and unique columns alone. -/
theorem Schema.Valid.update (hSchema : schema.WellFormed) (hValid : schema.Valid db next) {clause : List (SetToken C)}
    (hParse : parseSet clause = some cols) (hId : schema.id ∉ cols) (hCols : ∀ c ∈ (schema.table t).unique, c ∉ cols)
    (h : schema.writes db next (.update t clause key) params = .ok ws) : schema.Valid (schema.applyAll ws db) next := by
  obtain ⟨rfl, hCheck⟩ := schema.writes_update hParse h
  have hForeign := schema.writes_update_foreign hParse h
  generalize hKey : params.getLastD .null = v at hCheck hForeign
  have hLookup : ∀ {c}, c ∉ cols → (schema.assignments t (cols.zip params)).lookup c = none := by
    intro c hc
    rw [schema.lookup_assignments, Option.map_eq_none_iff, List.lookup_eq_none_iff]
    rintro ⟨c', v'⟩ hp
    simp only [bne_iff_ne, ne_eq]
    rintro rfl
    exact hc (List.of_mem_zip hp).1
  rw [Schema.applyAll_cons, Schema.applyAll_nil]
  have hMap : ∀ t', (schema.apply (.update t key v (schema.assignments t (cols.zip params))) db t').map (· schema.id) =
      (db t').map (· schema.id) := fun t' => map_apply_update fun _ => hLookup hId
  have hKeys : ∀ t', ∀ row ∈ db t', ∃ row' ∈ schema.apply (.update t key v (schema.assignments t (cols.zip params))) db t',
      row' schema.id = row schema.id := by
    intro t' row hRow
    have hMem : row schema.id ∈ (db t').map (· schema.id) := List.mem_map_of_mem (f := (· schema.id)) hRow
    rw [← hMap t'] at hMem
    exact List.mem_map.mp hMem
  refine ⟨fun t' row hMem => ?_, fun t' => ?_, fun t' c hc => ?_, fun t' row hMem d hd => ?_, fun t' row hMem => ?_⟩
  · have hIn : row schema.id ∈ (db t').map (· schema.id) :=
      hMap t' ▸ List.mem_map_of_mem (f := (· schema.id)) hMem
    obtain ⟨row', hRow', hEq⟩ := List.mem_map.mp hIn
    obtain ⟨k, hk, hLt⟩ := hValid.key t' row' hRow'
    exact ⟨k, hEq.symm.trans hk, hLt⟩
  · rw [hMap t']
    exact hValid.distinct t'
  · have hSame : t' = t → (schema.assignments t (cols.zip params)).lookup c = none := by
      rintro rfl
      exact hLookup (hCols c hc)
    rw [map_apply_update hSame]
    exact hValid.unique t' c hc
  · rw [apply_update] at hMem
    obtain ⟨row, hRow, rfl⟩ := List.mem_map.mp hMem
    have hOld := hValid.cell t' row hRow d hd
    split
    · rename_i hMatch
      obtain ⟨rfl, hMatch⟩ := hMatch
      rw [Row.set, schema.lookup_assignments]
      cases hGiven : (cols.zip params).lookup d.name with
      | none => exact hOld
      | some x =>
        rw [Option.map_some, hSchema.column_eq hd]
        exact Column.holds_stored (hCheck ⟨row, hRow, hMatch⟩ d.name x d hGiven (hSchema.column_eq hd))
    · exact hOld
  · rw [apply_update] at hMem
    obtain ⟨row, hRow, rfl⟩ := List.mem_map.mp hMem
    split
    · rename_i hMatch
      obtain ⟨rfl, hMatch⟩ := hMatch
      exact Schema.foreignError_mono hKeys (hForeign row hRow hMatch)
    · exact Schema.foreignError_mono hKeys (hValid.foreign t' row hRow)

end Statements

end Foundation.Sql
