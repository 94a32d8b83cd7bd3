import TeaBot.Captcha.Runtime
import TeaBot.Responder.Commands

/-! # `Response` and its routes -/

namespace TeaBot.Responder

open Foundation Captcha

/-! ## The command line

`/^(\/|\!|\~|\.)((\w)(?:\S+))(.*)/Ss`: the greedy `\S+` needs one character and ends at
the first white space.
-/

def startChars : List Char := ['/', '!', '~', '.']

def isWord (c : Char) : Bool := c.isAlphanum || c = '_'

structure Command where
  /-- `$m[3]` -/
  index : Char
  /-- `$m[2]` -/
  word : List Char
  /-- `$m[4]` -/
  arg : List Char

def parseCommand : List Char → Option Command
  | c :: i :: rest =>
    if c ∈ startChars ∧ isWord i ∧ rest.takeWhile (fun x => !isSpace x) ≠ [] then
      some ⟨i, i :: rest.takeWhile fun x => !isSpace x, rest.dropWhile fun x => !isSpace x⟩
    else none
  | _ => none

/-- The subject of `preg_match`; an array is refused with a warning. -/
def commandOf : Php → Option Command
  | .arr _ => none
  | text => parseCommand text.toStr.toList

/-! ## The route classes -/

namespace IndexRoutes

variable (SUDOERS : List Int) (d : Data) (cmd arg : String)

def B.execUnMapped : Run Bool := if cmd = "ban" then Restriction.ban SUDOERS d arg else pure false

def D.execUnMapped : Run Bool := if arg = "" ∧ cmd = "debug" then Debug.debug d else pure false

def K.execUnMapped : Run Bool := if cmd = "kick" then Restriction.kick else pure false

def P.execUnMapped : Run Bool := do
  let done ← if cmd = "promote" then Promotion.promote SUDOERS d else pure false
  if done then pure true
  else if cmd = "promote_me" ∨ cmd = "promoteme" then Promotion.promoteMe d
  else pure false

def S.execUnMapped : Run Bool := if arg = "" ∧ cmd = "start" then Start.start d else pure false

def U.execUnMapped : Run Bool := if cmd = "unban" then Restriction.unban SUDOERS d arg else pure false

/-- `$class::exec` for the class named by the letter, if there is one. `execMapped` is
overridden nowhere and answers `false`. -/
def exec (letter : Char) : Run Bool :=
  match letter with
  | 'B' => B.execUnMapped SUDOERS d cmd arg
  | 'D' => D.execUnMapped d cmd arg
  | 'K' => K.execUnMapped cmd
  | 'P' => P.execUnMapped SUDOERS d cmd
  | 'S' => S.execUnMapped d cmd arg
  | 'U' => U.execUnMapped SUDOERS d cmd arg
  | _ => pure false

end IndexRoutes

def execRoutes (SUDOERS : List Int) (d : Data) : Run Bool :=
  if d.isEditedMsg.truthy then pure false
  else
    match commandOf d.text with
    | some m =>
      IndexRoutes.exec SUDOERS d (String.ofList (strtolower m.word)) (String.ofList (trim m.arg))
        m.index.toUpper
    | none => pure false

def Response.run (SUDOERS : List Int) (d : Data) (rounds : Nat) : Run Unit :=
  if d.text.isset then
    withObject do
      let having ← isHavingCaptcha d
      if having then checkAnswer d
      else do
        let _ ← execRoutes SUDOERS d
  else if d.msgType = .str "new_chat_member" then
    withObject do
      let need ← needCaptcha d
      Prog.when need (dropCaptcha d rounds)
  else pure ()

end TeaBot.Responder
