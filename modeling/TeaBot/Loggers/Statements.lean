import TeaBot.Loggers.Op

/-! # The assembled `UPDATE` statements

Whatever subset of the tracked fields differs, the text put together piece by piece
parses to these columns in order, and its parameters are their new values.
-/

namespace TeaBot.Loggers.UpdateQuery

open Foundation.Sql

def pieces (cs : List (Col × Php)) : List (SetToken Col) := cs.flatMap fun c => [.comma, .assign c.1]

/-- The query that assigns the given columns. -/
def ofChanges (cs : List (Col × Php)) : UpdateQuery where
  clause := (pieces cs).tail
  params := cs.map (·.2)
  doUpdate := !cs.isEmpty

theorem ofChanges_nil : ofChanges [] = {} := rfl

theorem pieces_concat (cs : List (Col × Php)) (c : Col × Php) :
    pieces (cs ++ [c]) = pieces cs ++ [.comma, .assign c.1] := by
  simp [pieces]

theorem ofChanges_add (cs : List (Col × Php)) (c : Col) (v : Php) :
    (ofChanges cs).add c v = ofChanges (cs ++ [(c, v)]) := by
  cases cs with
  | nil => rfl
  | cons b cs => simp [ofChanges, add, pieces]

/-- The change that one field check records. -/
def change (c : Col) (old new : Php) : List (Col × Php) := if old = new then [] else [(c, new)]

theorem ofChanges_track (cs : List (Col × Php)) (c : Col) (old new : Php) :
    (ofChanges cs).track c old new = ofChanges (cs ++ change c old new) := by
  by_cases h : old = new
  · simp [track, change, h]
  · simp [track, change, h, ofChanges_add]

theorem parseRest_pieces (cs : List (Col × Php)) : parseRest (pieces cs) = some (cs.map (·.1)) := by
  induction cs with
  | nil => rfl
  | cons c cs ih =>
    change (parseRest (pieces cs)).map (c.1 :: ·) = _
    rw [ih]
    rfl

theorem parseSet_ofChanges {cs : List (Col × Php)} (c : Col) (h : cs ≠ []) :
    parseSet ((ofChanges cs).clause ++ [.comma, .assign c]) = some (cs.map (·.1) ++ [c]) := by
  cases cs with
  | nil => exact absurd rfl h
  | cons b cs =>
    change (parseRest (pieces cs ++ [.comma, .assign c])).map (b.1 :: ·) = _
    rw [← pieces_concat cs (c, .null), parseRest_pieces]
    simp

def bound (p : Col × Php) : Col × Value := (p.1, bindParam p.2)

theorem lookup_change (c c' : Col) (old new : Php) :
    ((change c old new).map bound).lookup c' =
      if c' = c ∧ old ≠ new then some (bindParam new) else none := by
  by_cases hEq : old = new <;> by_cases hc : c' = c <;> simp [change, bound, hEq, hc]

/-- The assignments of the finished statement: the changes, then `updated_at`. -/
theorem zip_finish (cs : List (Col × Php)) (dateTime : String) (id : Php) :
    List.zip (cs.map (·.1) ++ [Col.updatedAt])
        (((ofChanges cs).params ++ [Php.str dateTime, id]).map bindParam) =
      cs.map bound ++ [(.updatedAt, .str dateTime)] := by
  have hParams : ((ofChanges cs).params ++ [.str dateTime, id]).map bindParam =
      cs.map (fun c => bindParam c.2) ++ [.str dateTime, bindParam id] := by
    simp [ofChanges, bindParam]
  rw [hParams, List.zip_append (by simp), List.zip_map']
  rfl

theorem getLastD_finish (cs : List (Col × Php)) (dateTime : String) (id : Php) :
    (((ofChanges cs).params ++ [.str dateTime, id]).map bindParam).getLastD .null = bindParam id := by
  simp [List.getLastD_eq_getLast?]

end TeaBot.Loggers.UpdateQuery
