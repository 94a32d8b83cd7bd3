import TeaBot.Responder.Op

/-! # `CaptchaFoundation` -/

namespace TeaBot.Captcha

open Foundation Responder

def hexByte (b : UInt8) : List Char := [hexDigit (b.toNat / 16), hexDigit (b.toNat % 16)]

def bin2hex (s : String) : String :=
  String.ofList (s.toList.flatMap fun c => (String.utf8EncodeChar c).flatMap hexByte)

def fixChatId (d : Data) : String :=
  String.ofList (d.chatId.toStr.toList.map fun c => if c = '-' then '_' else c)

def captchaStDir (d : Data) : String := fixChatId d ++ "/" ++ d.userId.toStr

def captchaFile (d : Data) : Path := .captchaFile (captchaStDir d)

def lockFile (d : Data) : Path := .lockFile (captchaStDir d)

def fastLockFile (d : Data) : Path := .fastLockFile (bin2hex (d.chatId.toStr ++ d.userId.toStr))

def buildDir (d : Data) : Run Unit := perform (.buildDir (captchaStDir d))

def lock (d : Data) : Run Unit := do
  perform (.fopen .lockHandle (lockFile d))
  perform (.flock .lockHandle)

def unlock : Run Unit := perform (.unflock .lockHandle)

def fastLock (d : Data) : Run Unit := do
  perform (.fopen .fastLockHandle (fastLockFile d))
  perform (.flock .fastLockHandle)

def fastUnlock (d : Data) : Run Unit := do
  perform (.unflock .fastLockHandle)
  perform (.unlink (fastLockFile d))

/-- The body of a coroutine or function that keeps the object in a local variable. -/
def withObject {α : Type} (body : Run α) : Run α := body.tryFinally (perform .destruct)

def isHavingCaptcha (d : Data) : Run Bool := do
  fastLock d
  let ret ← perform (.fileExists (captchaFile d))
  fastUnlock d
  pure ret

def addDeleteMsg (d : Data) (msgId : Php) : Run Unit := do
  let msgId ← intArg msgId
  perform (.touchMsg (captchaStDir d) (toString msgId))

def writeCaptchaFile (d : Data) (data : Php) : Run Unit :=
  if ["chat_id", "user_id", "msg_id", "correct_answer"].all fun f => (data.get (.str f)).isset then
    perform (.writeJson (captchaFile d) data)
  else .throw (.exception "Exception" "Invalid captcha data!")

def deleteAll (d : Data) : List String → Run Unit
  | [] => pure ()
  | v :: rest => do
    Prog.when (v.toList.head? ≠ some '.') do
      perform (.go (.deleteMessage d.chatId (.str v)))
      perform (.unlinkMsg (captchaStDir d) v)
    deleteAll d rest

def deleteCaptchaMessage (d : Data) : Run Unit := do
  let json ← perform (.readJson (captchaFile d))
  let ccMsgId := json.get (.str "msg_id")
  Prog.when ccMsgId.isset do
    perform (.go (.deleteMessage d.chatId ccMsgId))
    perform (.unlinkMsg (captchaStDir d) ccMsgId.toStr)

def cleanUpMessages (d : Data) : Run Unit := do
  let having ← isHavingCaptcha d
  Prog.when having (deleteCaptchaMessage d)
  let messageIds ← perform (.scandir (captchaStDir d))
  deleteAll d messageIds

/-- The link to the user that all captcha texts begin with. -/
def mention (d : Data) : Run String := do
  let name ← strArg d.fullName
  pure ("<a href=\"tg://user?id=" ++ d.userId.toStr ++ "\">" ++ htmlspecialchars name ++ "</a>" ++
    if d.username.isset then " (@" ++ d.username.toStr ++ ")" else "")

def kickedText : String := " has been kicked from the group due to failed to answer the captcha."

/-- The notice of a kick that worked, and its message id. -/
def reportKick (d : Data) (ret : Php) : Run Php :=
  if apiSucceeded ret then do
    let user ← mention d
    let ret ← perform (.exe (.sendMessage d.chatId (user ++ kickedText) .null) true)
    pure (resultMessageId ret)
  else pure .null

def captchaFailKick (d : Data) : Run Unit := do
  perform .enterFailKick
  fastLock d
  let ret ← perform (.exe (.kickChatMember d.userId d.chatId) true)
  let kickMsgId ← reportKick d ret
  fastUnlock d
  cleanUpMessages d
  perform (.sleep 30)
  let _ ← perform (.exe (.unbanChatMember d.userId d.chatId) false)
  Prog.when kickMsgId.isset do
    perform (.sleep 30)
    let _ ← perform (.exe (.deleteMessage d.chatId kickMsgId) false)
  let _ ← perform (.exe (.deleteMessage d.chatId d.msgId) false)

end TeaBot.Captcha
