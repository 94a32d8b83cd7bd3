import TeaBot.Captcha.Foundation
import TeaBot.Responder.Commands

/-! # `CaptchaRuntime` and the floating point captcha -/

namespace TeaBot.Captcha

open Foundation Responder

/-! ## The timer -/

/-- The loop of the timer; the answer is `$success`. -/
def awaitAnswer (d : Data) (startTime : Int) : Nat → Run Bool
  | 0 => do
    perform .beyond
    pure true
  | rounds + 1 => do
    let curTime ← perform .time
    perform (.usleep 500000)
    let having ← isHavingCaptcha d
    if having then
      if curTime - startTime ≤ 600 then awaitAnswer d startTime rounds
      else pure false
    else pure true

def timer (d : Data) (rounds : Nat) : Run Unit := do
  let startTime ← perform .time
  let success ← awaitAnswer d startTime rounds
  Prog.when (!success) (captchaFailKick d)

/-! ## The challenge -/

def challengeText : String :=
  "\nPlease solve this captcha problem to make sure you are a human, otherwise you will be kicked in 10 minutes!"

def captchaInfo (d : Data) (msgId : Php) (photo : Option String) (correctAnswer : String) : Php :=
  .obj [("msg_id", msgId), ("chat_id", d.chatId), ("user_id", d.userId), ("photo", .ofOption photo),
    ("est_time", .int 600), ("correct_answer", .str correctAnswer)]

/-- `FloatingPoint::mantissa`, which `run` always takes. -/
def mantissa (d : Data) (rounds : Nat) : Run Unit := do
  let (str, m) ← perform .newFloatingPoint
  let latexImgUrl ← perform (.genLatex str)
  let user ← mention d
  let json ← perform (.exe (.sendPhoto d.chatId latexImgUrl (user ++ challengeText)) true)
  writeCaptchaFile d (captchaInfo d (resultMessageId json) latexImgUrl (toString m))
  perform (.go (.timer d rounds))

def dropCaptcha (d : Data) (rounds : Nat) : Run Unit := do
  fastLock d
  buildDir d
  perform (.touch (captchaFile d))
  fastUnlock d
  lock d
  cleanUpMessages d
  -- the constructor of the captcha class
  buildDir d
  mantissa d rounds
  unlock

/-- The list of groups is empty: its entries are commented out. -/
def captchaGroups : List Int := []

def needCaptcha (d : Data) : Run Bool := do
  fastLock d
  let ret := inArray d.chatId captchaGroups
  fastUnlock d
  pure ret

/-! ## The answer -/

def welcomeText : String := "  has answered the captcha correctly, welcome to the group!"

def answerText (d : Data) : String :=
  match d.text with
  | .arr _ => ""
  | text => String.ofList (strtolower (trim text.toStr.toList))

def accept (d : Data) (json : Php) : Run Unit := do
  perform (.unlink (captchaFile d))
  let user ← mention d
  let ret ← perform (.exe (.sendMessage d.chatId (user ++ welcomeText) .null) true)
  cleanUpMessages d
  let _ ← perform (.exe (.deleteMessage d.chatId (json.read "msg_id")) false)
  Prog.when (resultMessageId ret).isset do
    perform (.sleep 120)
    let _ ← perform (.exe (.deleteMessage d.chatId (resultMessageId ret)) false)
  let _ ← perform (.exe (.deleteMessage d.chatId d.msgId) false)

def refuse (d : Data) : Run Unit := do
  let ret ← perform (.exe (.sendMessage d.chatId "Wrong answer!" d.msgId) true)
  Prog.when (resultMessageId ret).isset (addDeleteMsg d (resultMessageId ret))
  addDeleteMsg d d.msgId

def checkAnswer (d : Data) : Run Unit := do
  fastLock d
  lock d
  let json ← perform (.readJson (captchaFile d))
  Prog.when json.isArray
    (if json.read "correct_answer" = .str (answerText d) then accept d json else refuse d)
  unlock
  fastUnlock d

end TeaBot.Captcha
