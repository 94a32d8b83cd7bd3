import TeaBot.Foundation.Versioned
import TeaBot.Loggers.Statements
import TeaBot.Loggers.World

/-! # A table and its history

`tg_users` with `tg_user_history` and `tg_groups` with `tg_group_history` have the same
shape: rows found by a Telegram id, and history rows that refer to their key.
-/

namespace TeaBot.Loggers

open Foundation Foundation.Sql

theorem asInt_toString (k : Nat) : (Value.str (toString k)).asInt = some (k : Int) := by
  have hDigits := isDecimal_toString k
  simp only [isDecimal, Bool.and_eq_true, decide_eq_true_eq] at hDigits
  rw [Value.asInt, if_pos hDigits, ofDigitChars_toString]

variable {v : Value}

theorem matches_bigint {t : Tbl} {c : Col} {unsigned : Bool} (hType : schema.type t c = .bigint unsigned) {n : Int}
    (hv : v.asInt = some n) (row : Row Col) : schema.matches t c v row = true ↔ row c = .int n := by
  rw [Schema.matches, hType, ColumnType.equal_bigint, hv]
  constructor
  · rintro ⟨m, hm, hEq⟩
    rw [hm, Option.some.inj hEq]
  · exact fun h => ⟨n, h, rfl⟩

theorem selects_bigint {t : Tbl} {c : Col} {unsigned : Bool} (hType : schema.type t c = .bigint unsigned)
    (collate : String → List Nat) {n : Int} (hv : v.asInt = some n) (row : Row Col) :
    schema.selects collate t c v row = true ↔ row c = .int n := by
  rw [schema.selects_bigint hType]
  exact matches_bigint hType hv row

theorem matches_id (t : Tbl) {k : Int} (hv : v.asInt = some k) (row : Row Col) :
    schema.matches t .id v row = true ↔ row .id = .int k :=
  matches_bigint (show schema.type t .id = .bigint true by cases t <;> rfl) hv row

def rowKey (row : Row Col) : Int := (row .id).asInt.getD 0

/-- Which tables and columns, and the fields that both tables hold. -/
structure Versioning (C : Type) where
  table : Tbl
  history : Tbl
  owner : Col
  ref : Col
  content : Row Col → C

namespace Versioning

variable {C : Type} (V : Versioning C)

def record (row : Row Col) : Versioned.Record Value Value C := ⟨row .id, row V.owner, V.content row⟩

def version (row : Row Col) : Versioned.Version Value C := ⟨rowKey row, row V.ref, V.content row⟩

def store (db : Tables Tbl Col) : Versioned.Store Value Value C where
  records := (db V.table).map V.record
  history := (db V.history).map V.version

theorem store_insert (hNe : V.table ≠ V.history) (db : Tables Tbl Col) (r h : Row Col) :
    V.store (schema.applyAll [.insert V.table r, .insert V.history h] db) =
      (V.store db).insert (V.record r) (V.version h) := by
  simp [store, Schema.apply, Versioned.Store.insert, hNe, hNe.symm]

theorem store_update (hNe : V.table ≠ V.history) {db : Tables Tbl Col} {k : Nat}
    {sets : List (Col × Value)} {c : C} (h : Row Col)
    (hId : sets.lookup .id = none) (hOwner : sets.lookup V.owner = none)
    (hSet : ∀ r ∈ db V.table, r .id = .int k → V.content (r.set sets) = c) :
    V.store (schema.applyAll [.update V.table .id (.str (toString k)) sets, .insert V.history h] db) =
      (V.store db).replace (.int k) c (V.version h) := by
  have hRecords : (db V.table).map (fun row => V.record
        (if schema.matches V.table .id (.str (toString k)) row then row.set sets else row)) =
      ((db V.table).map V.record).map
        fun r => if r.id = .int k then { r with content := c } else r := by
    rw [List.map_map]
    refine List.map_congr_left fun row hRow => ?_
    by_cases hKey : row .id = .int k
    · have hContent := hSet row hRow hKey
      rw [if_pos ((matches_id V.table (asInt_toString k) row).mpr hKey)]
      simp only [Function.comp_apply, record, hKey, if_true, hContent]
      simp [Row.set, hId, hOwner, hKey]
    · rw [if_neg fun hMatch => hKey ((matches_id V.table (asInt_toString k) row).mp hMatch)]
      simp only [Function.comp_apply, record, hKey, if_false]
  simp only [Schema.applyAll_cons, Schema.applyAll_nil, Schema.apply, store, Versioned.Store.replace]
  simp [← hRecords, hNe, hNe.symm]

end Versioning

end TeaBot.Loggers
