import TeaBot.Foundation.Regex
import TeaBot.Php

/-! # `debug_flag.php`

One run of the script on the text of one file.
-/

namespace TeaBot.DebugFlag

open Foundation.Text

/-- What the script assumes of the functions it packs debug code with. `gzdecode` returns
`false` where it fails, which is the empty string in the text. -/
structure Codec where
  gzencode : Bytes → Bytes
  gzdecode : Bytes → Option Bytes
  base64Encode : Bytes → Bytes
  base64Decode : Bytes → Bytes
  gzdecode_gzencode : ∀ s, gzdecode (gzencode s) = some s
  base64Decode_encode : ∀ s, base64Decode (base64Encode s) = s
  star_notMem : ∀ s, '*'.toUInt8 ∉ base64Encode s

/-! ## The patterns, with the modifiers `s` and `i` -/

def lower (c : UInt8) : UInt8 := if 'A'.toUInt8 ≤ c ∧ c ≤ 'Z'.toUInt8 then c + 32 else c

/-- `\s` -/
def isSpace (c : UInt8) : Bool := c = ' '.toUInt8 || (0x09 ≤ c && c ≤ 0x0d)

/-- `\w`, which has the digits of `\d`. -/
def isWord (c : UInt8) : Bool :=
  ('a'.toUInt8 ≤ lower c && lower c ≤ 'z'.toUInt8) || ('0'.toUInt8 ≤ c && c ≤ '9'.toUInt8) || c = '_'.toUInt8

def caseless (a b : UInt8) : Bool := lower a = lower b

def word (s : String) : Atom UInt8 := .lit caseless (ascii s)

def spaces : Atom UInt8 := .many 0 isSpace

/-- `([\w\d]+)`, or the code as `preg_quote` leaves it: literally. -/
def codeAtom : Option Bytes → Atom UInt8
  | none => .many 1 isWord
  | some code => .lit caseless code

def startMarker (code : Option Bytes) : List (Atom UInt8) :=
  [word "/*", spaces, word "debug", spaces, word ":", spaces, codeAtom code, spaces, word "*/"]

def endMarker : List (Atom UInt8) := [word "/*", spaces, word "end_debug", spaces, word "*/"]

/-- The atoms, and which of them are the subpatterns `$m[1]` and `$m[2]`. -/
structure Pattern where
  atoms : List (Atom UInt8)
  first : Nat
  second : Nat

def offPattern (code : Option Bytes) : Pattern := ⟨startMarker code ++ .any :: endMarker, 6, 9⟩

def onPattern (code : Option Bytes) : Pattern :=
  ⟨[word "/*__debug_code(", codeAtom code, word "):b64:gz:", .any, word "*/"], 1, 3⟩

structure Match where
  all : Bytes
  first : Bytes
  second : Bytes
  deriving DecidableEq

def Pattern.toMatch (p : Pattern) (us : List Bytes) : Match := ⟨us.flatten, us.getD p.first [], us.getD p.second []⟩

def Pattern.hit (p : Pattern) (text : Bytes) : Option (Match × Nat) :=
  (exec p.atoms text).map fun us => (p.toMatch us, us.flatten.length)

def pregMatchAll (p : Pattern) (content : Bytes) : List Match := (scan p.hit 0 content).filterMap Sum.getRight?

/-! ## The two callbacks -/

def comment (C : Codec) (tag body : Bytes) : Bytes :=
  ascii "/*__debug_code(" ++ tag ++ ascii "):b64:gz:" ++ C.base64Encode (C.gzencode body) ++ ascii "*/"

def block (tag body : Bytes) : Bytes := ascii "/* debug:" ++ tag ++ ascii " */" ++ body ++ ascii "/* end_debug */"

def turnOff (C : Codec) (code : Option Bytes) (content : Bytes) : Bytes :=
  replaceEach ((pregMatchAll (offPattern code) content).map fun m => (m.all, comment C m.first m.second)) content

def turnOn (C : Codec) (code : Option Bytes) (content : Bytes) : Bytes :=
  replaceEach ((pregMatchAll (onPattern code) content).map fun m =>
    (m.all, block m.first ((C.gzdecode (C.base64Decode m.second)).getD []))) content

inductive Mode
  | on
  | off
  deriving DecidableEq

structure Command where
  mode : Mode
  code : Option Bytes
  deriving DecidableEq

def isTrimmed (c : UInt8) : Bool := c ∈ ascii " \t\n\r\x00\x0b"

def trim (s : Bytes) : Bytes := ((s.dropWhile isTrimmed).reverse.dropWhile isTrimmed).reverse

/-- `preg_quote` leaves a slash as it is: it ends the pattern, and what comes after it are no
modifiers, so that nothing is matched. -/
def debugFlag (C : Codec) (cmd : Command) (content : Bytes) : Bytes :=
  let code := cmd.code.map trim
  if code.any (·.contains '/'.toUInt8) then content
  else match cmd.mode with
    | .off => turnOff C code content
    | .on => turnOn C code content

def runs (C : Codec) (cmds : List Command) (content : Bytes) : Bytes :=
  cmds.foldl (fun content cmd => debugFlag C cmd content) content

end TeaBot.DebugFlag
