import TeaBot.Loggers.Group

/-! # `Logger`, `PrivateLogger` and `GroupLogger` -/

namespace TeaBot.Loggers

open Foundation

/-- `!($count % 10)`. -/
def everyTenth (count : Php) : Bool := (count.intParam.getD 0) % 10 = 0

/-- `new GroupLogger($data)` opens the connection that the user and the group share. -/
def GroupLogger.run (d : Data) (dateTime : String) : Run Unit := do
  perform .connect
  let (user, userII) ← User.resolveUser { data := some d, dateTime := dateTime }
  Prog.when (everyTenth userII.privateMsgCount) (perform (.go (.userTrackPhoto user)))
  let (group, groupII) ← Group.resolveGroup { data := some d, dateTime := dateTime }
  Prog.when (everyTenth groupII.msgCount) do
    perform (.go (.groupTrackPhoto group))
    perform (.go (.trackAdmins group))

/-- `resolveUser` takes no parameters, so the arguments passed here are dropped and the
object has never been given its data. -/
def PrivateLogger.run (dateTime : String) : Run Unit := do
  perform .connect
  let _ ← User.resolveUser { data := none, dateTime := dateTime }
  pure ()

def msgTypeMap : List String := ["text"]

def groupChatMap : List String := ["supergroup"]

def Logger.run (d : Data) (dateTime : String) : Run Unit :=
  if msgTypeMap.any fun m => d.msgType = .str m then
    if d.chatType = .str "private" then PrivateLogger.run dateTime
    else if groupChatMap.any fun m => d.chatType = .str m then GroupLogger.run d dateTime
    else pure ()
  else pure ()

/-- The body of each coroutine. Those that track something get a connection of their own. -/
def code (md5 : String → String) : Job → Run Unit
  | .resolveUser self => (User.resolveUser self).bind fun _ => pure ()
  | .resolveGroup self => (Group.resolveGroup self).bind fun _ => pure ()
  | .userTrackPhoto self => do
    perform .connect
    User.trackPhoto md5 self
  | .groupTrackPhoto self => do
    perform .connect
    Group.trackPhoto md5 self
  | .trackAdmins self => do
    perform .connect
    Group.trackAdmins self
  | .adminUser k v chan dateTime => Group.adminUser md5 k v chan dateTime
  | .resolveFile tgFileId dateTime => (File.resolveFile md5 tgFileId dateTime).bind fun _ => pure ()
  | .groupLogger data dateTime => GroupLogger.run data dateTime

end TeaBot.Loggers
