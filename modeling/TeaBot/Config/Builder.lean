import Mathlib.Data.Nat.Digits.Defs
import TeaBot.Config.Escape

/-! # `ConfigBuilder::buildData` -/

namespace TeaBot.Config

/-! ## The values of a config fragment -/

def isDigit (c : UInt8) : Bool := '0'.toUInt8 ≤ c && c ≤ '9'.toUInt8

def decimalDigit (c : UInt8) : Option Nat := if isDigit c then some (c.toNat - '0'.toNat) else none

/-- The integer an array makes of a string key: no sign but a minus, no leading zero, and in
the range of an `int`. -/
def integerKey (s : Bytes) : Option Int :=
  let ds := if s.head? = some '-'.toUInt8 then s.tail else s
  let n : Int := numeral 10 (digitsOf decimalDigit ds)
  let n := if s.head? = some '-'.toUInt8 then -n else n
  if ds ≠ [] ∧ ds.all isDigit ∧ (ds.head? ≠ some '0'.toUInt8 ∨ s = ascii "0") ∧ -2 ^ 63 ≤ n ∧ n < 2 ^ 63 then some n
  else none

/-- A string key is never one that counts as an integer. -/
inductive Key
  | int (n : Int)
  | str (s : Bytes) (h : integerKey s = none)
  deriving DecidableEq

def Key.ofString (s : Bytes) : Key :=
  match h : integerKey s with
  | some n => .int n
  | none => .str s h

mutual

/-- `other` is a value of any type `buildData` has no case for. -/
inductive Value
  | null
  | int (n : Int)
  | str (s : Bytes)
  | array (items : Items)
  | other

inductive Items
  | nil
  | cons (k : Key) (v : Value) (rest : Items)

end

def Key.value : Key → Value
  | .int n => .int n
  | .str s _ => .str s

/-! ## The text -/

def comma : UInt8 := ','.toUInt8

def lbracket : UInt8 := '['.toUInt8

def rbracket : UInt8 := ']'.toUInt8

def arrow : Bytes := ascii "=>"

/-- `rtrim($s, $c)` for a single character. -/
def rtrim (s : Bytes) (c : UInt8) : Bytes := (s.reverse.dropWhile (· = c)).reverse

def decimal (n : Int) : Bytes :=
  (if n < 0 then ['-'.toUInt8] else []) ++ (Nat.toDigits 10 n.natAbs).map Char.toUInt8

/-- The cases without an array. -/
def buildScalar : Value → Bytes
  | .str s => literal s
  | .int n => decimal n
  | _ => ascii "null"

mutual

def buildData : Value → Bytes
  | .array items => rtrim (lbracket :: buildItems 0 items) comma ++ [rbracket]
  | v => buildScalar v

def buildItems (i : Nat) : Items → Bytes
  | .nil => []
  | .cons k v rest =>
    (if k ≠ .int i then buildScalar k.value ++ arrow ++ buildData v ++ [comma] else buildData v ++ [comma]) ++
      buildItems (i + 1) rest

end

end TeaBot.Config
