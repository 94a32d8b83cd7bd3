import Mathlib.Algebra.Order.Field.Rat
import Mathlib.Data.Nat.Log

/-! # PHP values

The values that `json_decode(.., true)` and PDO hand to the bot, with the parts of
PHP 7.4's weak typing the code relies on: quiet and plain offset reads, truthiness,
and what an `int` parameter accepts.
-/

namespace TeaBot

inductive Key
  | int (n : Int)
  | str (s : String)
  deriving DecidableEq, Repr

mutual

inductive Php
  | null
  | bool (b : Bool)
  | int (n : Int)
  | float (q : Rat)
  | str (s : String)
  | arr (entries : PhpArray)
  deriving DecidableEq

inductive PhpArray
  | nil
  | cons (key : Key) (value : Php) (rest : PhpArray)
  deriving DecidableEq

end

/-- PHP has two families of throwables: `catch (\Error $e)` does not see an
`Exception` and `catch (Exception $e)` does not see an `Error`. -/
inductive Throwable
  | error (cls msg : String)
  | exception (cls msg : String)
  deriving DecidableEq, Repr

def Throwable.isException : Throwable → Bool
  | .error _ _ => false
  | .exception _ _ => true

def Throwable.getMessage : Throwable → String
  | .error _ msg => msg
  | .exception _ msg => msg

/-- `__toString()` without the place and the stack trace. -/
def Throwable.toText : Throwable → String
  | .error cls msg => cls ++ ": " ++ msg
  | .exception cls msg => cls ++ ": " ++ msg

namespace PhpArray

def lookup : PhpArray → Key → Option Php
  | .nil, _ => none
  | .cons key value rest, k => if key = k then some value else rest.lookup k

def values : PhpArray → List Php
  | .nil => []
  | .cons _ value rest => value :: rest.values

def ofList : List (String × Php) → PhpArray
  | [] => .nil
  | (key, value) :: rest => .cons (.str key) value (ofList rest)

/-- `unset($a[$k])`. -/
def erase : PhpArray → Key → PhpArray
  | .nil, _ => .nil
  | .cons key value rest, k => if key = k then rest.erase k else .cons key value (rest.erase k)

end PhpArray

namespace Php

def obj (entries : List (String × Php)) : Php := .arr (.ofList entries)

def isset (v : Php) : Bool := v ≠ .null

/-- `$v[$k]` under `isset` or `??`: no offset of a scalar is ever set here, since all
the keys the code asks for on possible strings are non-numeric. -/
def get (v : Php) (k : Key) : Php :=
  match v with
  | .arr entries => (entries.lookup k).getD .null
  | _ => .null

/-- A plain read `$v["k"]`. On a string PHP 7.4 warns about the illegal offset and
reads position 0. -/
def read (v : Php) (k : String) : Php :=
  match v with
  | .str s => .str (String.ofList (s.toList.take 1))
  | v => v.get (.str k)

def truthy : Php → Bool
  | .null => false
  | .bool b => b
  | .int n => n ≠ 0
  | .float q => q ≠ 0
  | .str s => s ≠ "" && s ≠ "0"
  | .arr .nil => false
  | .arr (.cons ..) => true

def isInt : Php → Bool
  | .int _ => true
  | _ => false

theorem isInt_iff {v : Php} : v.isInt = true ↔ ∃ n, v = .int n := by
  cases v <;> simp [isInt]

def isArray : Php → Bool
  | .arr _ => true
  | _ => false

def ofOption : Option String → Php
  | none => .null
  | some s => .str s

end Php

/-! ## Numeric strings -/

def isSpace (c : Char) : Bool := c ∈ [' ', '\t', '\n', '\r', '\x0b', '\x0c']

def isDecimal (s : List Char) : Bool := s ≠ [] && s.all Char.isDigit

def takeSign : List Char → Int × List Char
  | '-' :: rest => (-1, rest)
  | '+' :: rest => (1, rest)
  | s => (1, s)

def exponent : List Char → Int
  | c :: rest =>
    if c = 'e' ∨ c = 'E' then
      (takeSign rest).1 * (Nat.ofDigitChars 10 ((takeSign rest).2.takeWhile Char.isDigit) 0 : Nat)
    else 0
  | [] => 0

/-- The value of the longest numeric prefix of a string, if it has one. -/
def numericPrefix (s : List Char) : Option Rat :=
  let (sign, s) := takeSign (s.dropWhile isSpace)
  let whole := s.takeWhile Char.isDigit
  let rest := s.dropWhile Char.isDigit
  let (frac, rest) :=
    match rest with
    | '.' :: r => (r.takeWhile Char.isDigit, r.dropWhile Char.isDigit)
    | r => ([], r)
  if whole = [] ∧ frac = [] then none
  else some (sign * ((Nat.ofDigitChars 10 (whole ++ frac) 0 : Nat) : Rat) *
    (10 : Rat) ^ (exponent rest - frac.length))

def truncate (q : Rat) : Int := Int.tdiv q.num q.den

/-- What a weakly typed `int` parameter receives; `none` is a `TypeError`. -/
def Php.intParam : Php → Option Int
  | .int n => some n
  | .bool b => some (if b then 1 else 0)
  | .float q => some (truncate q)
  | .str s =>
    if isDecimal s.toList then some (Nat.ofDigitChars 10 s.toList 0 : Nat)
    else (numericPrefix s.toList).map truncate
  | .null => none
  | .arr _ => none

/-! ## Conversion to a string -/

/-- The decimal exponent of a positive number: `10 ^ e ≤ q < 10 ^ (e + 1)`. -/
def decimalExponent (q : Rat) : Int :=
  if 1 ≤ q then Nat.log 10 q.floor.toNat else -(Nat.clog 10 q⁻¹.ceil.toNat : Int)

/-- To the nearest integer, to the even one of two. -/
def roundEven (q : Rat) : Nat :=
  let n := q.floor.toNat
  if q - n < 1 / 2 ∨ (q - n = 1 / 2 ∧ n % 2 = 0) then n else n + 1

def stripZeros (s : List Char) : List Char := (s.reverse.dropWhile (· = '0')).reverse

/-- `%.14G` with the given digits, the first of which stands for `10 ^ e`. -/
def gFormat (digits : List Char) (e : Int) : List Char :=
  if e < -4 ∨ 14 < e + 1 then
    digits.take 1 ++ '.' :: (if digits.length = 1 then ['0'] else digits.drop 1) ++
      'E' :: (if e < 0 then '-' else '+') :: (toString e.natAbs).toList
  else if e < 0 then '0' :: '.' :: List.replicate (e.natAbs - 1) '0' ++ digits
  else
    let whole := digits.take (e.toNat + 1)
    let frac := digits.drop (e.toNat + 1)
    whole ++ List.replicate (e.toNat + 1 - whole.length) '0' ++ if frac = [] then [] else '.' :: frac

/-- A float as PHP prints it with its default `precision` of 14. -/
def floatText (q : Rat) : String :=
  if q = 0 then "0"
  else
    let e := decimalExponent |q|
    let n := roundEven (|q| * (10 : Rat) ^ (13 - e))
    let (n, e) := if n = 10 ^ 14 then (10 ^ 13, e + 1) else (n, e)
    String.ofList ((if q < 0 then ['-'] else []) ++ gFormat (stripZeros (toString n).toList) e)

def Php.toStr : Php → String
  | .null => ""
  | .bool b => if b then "1" else ""
  | .int n => toString n
  | .float q => floatText q
  | .str s => s
  | .arr _ => "Array"

theorem isDecimal_toString (n : Nat) : isDecimal (toString n).toList = true := by
  have hList : (toString n).toList = Nat.toDigits 10 n := Nat.toList_repr
  rw [hList, isDecimal, Bool.and_eq_true]
  refine ⟨by simp, List.all_eq_true.mpr fun c hc => ?_⟩
  exact Nat.isDigit_of_mem_toDigits (by decide) (by decide) hc

theorem ofDigitChars_toString (n : Nat) : Nat.ofDigitChars 10 (toString n).toList 0 = n := by
  have hList : (toString n).toList = Nat.toDigits 10 n := Nat.toList_repr
  rw [hList, Nat.ofDigitChars_ten_toDigits]

@[simp] theorem Php.intParam_toString (n : Nat) : Php.intParam (.str (toString n)) = some (n : Int) := by
  simp only [Php.intParam, isDecimal_toString, ofDigitChars_toString, if_true]

/-! ## Strings as bytes -/

abbrev Bytes := List UInt8

/-- A PHP string literal in ASCII. -/
def ascii (s : String) : Bytes := s.toList.map Char.toUInt8

end TeaBot
