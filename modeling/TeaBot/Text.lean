import TeaBot.Data

/-! # The string functions of the responder

`trim`, `strtolower`, `htmlspecialchars` and pretty-printed JSON. All of them work on
bytes, so only ASCII characters are ever changed.
-/

namespace TeaBot

/-- `trim` strips a shorter list than the pattern class `\s` has: no form feed. -/
def isTrimmed (c : Char) : Bool := c ∈ [' ', '\t', '\n', '\r', '\x00', '\x0b']

def trim (s : List Char) : List Char :=
  ((s.dropWhile isTrimmed).reverse.dropWhile isTrimmed).reverse

def strtolower (s : List Char) : List Char := s.map Char.toLower

/-- `htmlspecialchars($s, ENT_QUOTES, "UTF-8")` of one character. -/
def htmlEscape (c : Char) : List Char :=
  if c = '&' then "&amp;".toList
  else if c = '"' then "&quot;".toList
  else if c = '\'' then "&#039;".toList
  else if c = '<' then "&lt;".toList
  else if c = '>' then "&gt;".toList
  else [c]

def htmlspecialchars (s : String) : String := String.ofList (s.toList.flatMap htmlEscape)

/-! ## `JSON_PRETTY_PRINT` -/

def indent (depth : Nat) : String := String.ofList (List.replicate (4 * depth) ' ')

def prettyBlock (opening closing : String) (depth : Nat) : List String → String
  | [] => opening ++ closing
  | parts =>
    opening ++ "\n" ++ String.intercalate ",\n" (parts.map fun p => indent (depth + 1) ++ p) ++
      "\n" ++ indent depth ++ closing

mutual

def Php.jsonPretty (quote : String → String) (depth : Nat) : Php → String
  | .arr entries =>
    if entries.isList 0 then prettyBlock "[" "]" depth (entries.prettyParts quote (depth + 1) false)
    else prettyBlock "\x7b" "\x7d" depth (entries.prettyParts quote (depth + 1) true)
  | v => v.json quote

def PhpArray.prettyParts (quote : String → String) (depth : Nat) : PhpArray → Bool → List String
  | .nil, _ => []
  | .cons key value rest, keyed =>
    (if keyed then quote key.text ++ ": " ++ value.jsonPretty quote depth
      else value.jsonPretty quote depth) :: rest.prettyParts quote depth keyed

end

end TeaBot
