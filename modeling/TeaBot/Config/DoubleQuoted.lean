import TeaBot.Php

/-! # Double-quoted literals of PHP

The scanner looks for the closing quote and stops where a variable begins; the text between
the quotes then has its escapes replaced.
-/

namespace TeaBot.Config

def quote : UInt8 := '"'.toUInt8

def backslash : UInt8 := '\\'.toUInt8

def dollar : UInt8 := '$'.toUInt8

def brace : UInt8 := '\x7b'.toUInt8

/-! ## The end of a token -/

/-- The text before the closing quote and what follows it; `escaped` says that the byte
before was an unpaired backslash. -/
def closing (escaped : Bool) : Bytes → Option (Bytes × Bytes)
  | [] => none
  | c :: cs =>
    if !escaped && c = quote then some ([], cs)
    else (closing (!escaped && c = backslash) cs).map fun p => (c :: p.1, p.2)

def labelStart (c : UInt8) : Bool :=
  ('a'.toUInt8 ≤ c && c ≤ 'z'.toUInt8) || ('A'.toUInt8 ≤ c && c ≤ 'Z'.toUInt8) || c = '_'.toUInt8 || 0x80 ≤ c

/-- `$name`, `$` and a brace, or a brace and `$`. -/
def opens (c : UInt8) (cs : Bytes) : Bool :=
  (c = dollar && cs.head?.any fun d => labelStart d || d = brace) || (c = brace && cs.head? = some dollar)

def interpolates (escaped : Bool) : Bytes → Bool
  | [] => false
  | c :: cs => (!escaped && opens c cs) || interpolates (!escaped && c = backslash) cs

/-! ## Escapes -/

inductive Fault
  | unterminated
  | trailing
  | interpolation
  | codepoint
  deriving DecidableEq

def hexDigit (c : UInt8) : Option Nat :=
  if '0'.toUInt8 ≤ c && c ≤ '9'.toUInt8 then some (c.toNat - '0'.toNat)
  else if 'a'.toUInt8 ≤ c && c ≤ 'f'.toUInt8 then some (c.toNat - 'a'.toNat + 10)
  else if 'A'.toUInt8 ≤ c && c ≤ 'F'.toUInt8 then some (c.toNat - 'A'.toNat + 10)
  else none

def octalDigit (c : UInt8) : Option Nat :=
  if '0'.toUInt8 ≤ c && c ≤ '7'.toUInt8 then some (c.toNat - '0'.toNat) else none

def digitsOf (digit : UInt8 → Option Nat) : Bytes → List Nat
  | [] => []
  | c :: cs => match digit c with
    | some d => d :: digitsOf digit cs
    | none => []

def numeral (base : Nat) (digits : List Nat) : Nat := digits.foldl (fun n d => base * n + d) 0

def utf8 (n : Nat) : Bytes :=
  if n < 0x80 then [n.toUInt8]
  else if n ≤ 0x7ff then [(0xc0 + n / 64).toUInt8, (0x80 + n % 64).toUInt8]
  else if n ≤ 0xffff then [(0xe0 + n / 4096).toUInt8, (0x80 + n / 64 % 64).toUInt8, (0x80 + n % 64).toUInt8]
  else [(0xf0 + n / 262144).toUInt8, (0x80 + n / 4096 % 64).toUInt8, (0x80 + n / 64 % 64).toUInt8,
    (0x80 + n % 64).toUInt8]

/-- The bytes a backslash stands for, with the number of bytes after it that are used up. An
unknown escape stands for itself. -/
def escapeSequence : Bytes → Except Fault (Bytes × Nat)
  | [] => .ok ([backslash], 0)
  | c :: cs =>
    if c = 'n'.toUInt8 then .ok ([0x0a], 1)
    else if c = 't'.toUInt8 then .ok ([0x09], 1)
    else if c = 'r'.toUInt8 then .ok ([0x0d], 1)
    else if c = 'f'.toUInt8 then .ok ([0x0c], 1)
    else if c = 'e'.toUInt8 then .ok ([0x1b], 1)
    else if c = 'v'.toUInt8 then .ok ([0x0b], 1)
    else if c = quote ∨ c = backslash ∨ c = dollar then .ok ([c], 1)
    else if c = 'x'.toUInt8 ∨ c = 'X'.toUInt8 then
      match digitsOf hexDigit (cs.take 2) with
      | [] => .ok ([backslash, c], 1)
      | ds => .ok ([(numeral 16 ds).toUInt8], 1 + ds.length)
    else if c = 'u'.toUInt8 then
      if cs.head? = some brace then
        let ds := digitsOf hexDigit cs.tail
        if ds ≠ [] ∧ cs.tail[ds.length]? = some '\x7d'.toUInt8 ∧ numeral 16 ds ≤ 0x10ffff then
          .ok (utf8 (numeral 16 ds), ds.length + 3)
        else .error .codepoint
      else .ok ([backslash, c], 1)
    else match digitsOf octalDigit ((c :: cs).take 3) with
      | [] => .ok ([backslash, c], 1)
      | ds => .ok ([(numeral 8 ds).toUInt8], ds.length)

/-- The first `skip` bytes belong to the escape that was replaced last. -/
def unescape : Nat → Bytes → Except Fault Bytes
  | _, [] => .ok []
  | skip + 1, _ :: cs => unescape skip cs
  | 0, c :: cs =>
    if c = backslash then do
      let (value, used) ← escapeSequence cs
      return value ++ (← unescape used cs)
    else do return c :: (← unescape 0 cs)

/-- The value of a text that has to be one literal, without any variable in it. -/
def evaluate : Bytes → Except Fault Bytes
  | [] => .error .unterminated
  | c :: cs =>
    if c = quote then
      match closing false cs with
      | none => .error .unterminated
      | some (raw, []) => if interpolates false raw then .error .interpolation else unescape 0 raw
      | some (raw, _) => if interpolates false raw then .error .interpolation else .error .trailing
    else .error .unterminated

/-! ## One byte, or one escaped byte, at a time -/

section Steps

variable {c : UInt8} {cs : Bytes}

theorem closing_plain (hQuote : c ≠ quote) (hBackslash : c ≠ backslash) :
    closing false (c :: cs) = (closing false cs).map fun p => (c :: p.1, p.2) := by
  simp [closing, hQuote, hBackslash]

theorem closing_escape : closing false (backslash :: c :: cs) =
    (closing false cs).map fun p => (backslash :: c :: p.1, p.2) := by
  change ((closing false cs).map _).map _ = _
  rw [Option.map_map]
  rfl

theorem interpolates_plain (hBackslash : c ≠ backslash) (hOpens : opens c cs = false) :
    interpolates false (c :: cs) = interpolates false cs := by
  simp [interpolates, hBackslash, hOpens]

theorem interpolates_escape : interpolates false (backslash :: c :: cs) = interpolates false cs := rfl

theorem unescape_plain (hBackslash : c ≠ backslash) : unescape 0 (c :: cs) = (unescape 0 cs).map (c :: ·) := by
  rw [unescape, if_neg hBackslash]
  cases unescape 0 cs <;> rfl

theorem unescape_escape (hc : c = quote ∨ c = backslash ∨ c = dollar) :
    unescape 0 (backslash :: c :: cs) = (unescape 0 cs).map (c :: ·) := by
  have hSequence : escapeSequence (c :: cs) = .ok ([c], 1) := by
    rcases hc with rfl | rfl | rfl <;> rfl
  rw [unescape, if_pos rfl, hSequence]
  change (do return [c] ++ (← unescape 0 cs)) = _
  cases unescape 0 cs <;> rfl

end Steps

theorem closing_append {escaped : Bool} {cs raw rest : Bytes} (hClosing : closing escaped cs = some (raw, rest))
    (more : Bytes) : closing escaped (cs ++ more) = some (raw, rest ++ more) := by
  induction cs generalizing escaped raw with
  | nil => cases hClosing
  | cons c cs ih =>
    rw [closing] at hClosing
    rw [List.cons_append, closing]
    split at hClosing
    · rename_i hEnd
      cases hClosing
      rw [if_pos hEnd]
    · rename_i hEnd
      obtain ⟨⟨raw', rest'⟩, hRest, hEq⟩ := Option.map_eq_some_iff.mp hClosing
      cases hEq
      rw [if_neg hEnd, ih hRest]
      rfl

end TeaBot.Config
