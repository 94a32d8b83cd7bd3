import TeaBot.Loggers.User

/-! # `LoggerUtils\GroupMessage`

Stores a group message once, with the counters of its sender and its group and, for a
text, its content. `date` is PHP's `date("Y-m-d H:i:s", $timestamp)`.
-/

namespace TeaBot.Loggers.GroupMessage

open Foundation Foundation.Sql

/-- `$x ? 1 : 0` -/
def bit (v : Php) : Php := .int (if v.truthy then 1 else 0)

def insertCols : List Col :=
  [.groupId, .userId, .tgMsgId, .replyToTgMsgId, .msgType, .hasEditedMsg, .isForwardedMsg, .createdAt]

def insertMessage (userId groupId : Int) (d : Data) (dateTime : String) : Run Nat := do
  perform (.execute (.insert .tgGroupMessages insertCols)
    [.int groupId, .int userId, d.msgId, d.replyTo.get (.str "message_id"), d.msgType, bit d.isEditedMsg,
      bit d.isForwardedMsg, .str dateTime])
  perform .lastInsertId

def incrementMsgCounter (userId groupId : Int) : Run Unit := do
  perform (.execute (.increment .tgUsers .groupMsgCount .id) [.int userId])
  perform (.execute (.increment .tgGroups .msgCount .id) [.int groupId])

/-- The new `User` gets no `Data`, and the arguments of `resolveUser` go nowhere; what it
returns would be an array. -/
def saveForwardMsgState (date : Php → Except Throwable String) (msgId : Nat) (d : Data) : Run Unit := do
  perform .connect
  let msg := d.input.read "message"
  let (_, u) ← User.resolveUser { data := none, dateTime := "" }
  let forwardDate := msg.get (.str "forward_date")
  let tgForwardedDate ← if forwardDate.isset then (Prog.ofExcept (date forwardDate)).bind fun s => pure (Php.str s)
    else pure .null
  perform (.execute (.insert .tgGroupMessageFwd [.userId, .msgId, .tgForwardedDate])
    [.obj [("id", u.id)], .int msgId, tgForwardedDate])

/-! ## `GroupMessage\Text` -/

def dataCols : List Col := [.msgId, .text, .textEntities, .file, .isEdited, .tgDate, .createdAt]

def saveData (date : Php → Except Throwable String) (msgId : Nat) (d : Data) (dateTime : String) : Run Nat := do
  let tgDate ← Prog.ofExcept (date d.date)
  perform (.execute (.insert .tgGroupMessageData dataCols)
    [.int msgId, d.text, if d.textEntities.isset then .str d.textEntities.jsonEncode else .null, .null,
      bit d.isEditedMsg, .str tgDate, .str dateTime])
  perform .lastInsertId

/-- `MAP_INSERT_CLASS` has a class for texts only. -/
def insertMessageData (date : Php → Except Throwable String) (msgId : Nat) (d : Data) (dateTime : String) : Run Bool :=
  if d.msgType = .str "text" then do
    let _ ← saveData date msgId d dateTime
    pure true
  else pure false

/-! ## `resolveMessage` -/

def resolveMessageInternal (date : Php → Except Throwable String) (dateTime : String) (userId groupId : Int) (d : Data) :
    Run Unit := do
  let r ← perform (.fetchWhere .tgGroupMessages [.id, .hasEditedMsg] [(.groupId, .int groupId), (.tgMsgId, d.msgId)])
  match r with
  | some _ => pure ()
  | none => do
    let msgId ← insertMessage userId groupId d dateTime
    if d.isForwardedMsg.truthy then saveForwardMsgState date msgId d else pure ()
    incrementMsgCounter userId groupId
    let _ ← insertMessageData date msgId d dateTime
    pure ()

def messageMutex (groupId : Int) (d : Data) : Mutex :=
  Mutex.new "tg_group_messages" (toString groupId ++ "_" ++ d.msgId.toStr)

/-- `new $e`: the class without the message. -/
def renewed : Throwable → Throwable
  | .exception cls _ => .exception cls ""
  | .error cls _ => .error cls ""

def resolveMessage (date : Php → Except Throwable String) (dateTime : String) (userId groupId : Int) (d : Data) :
    Run Unit :=
  (messageMutex groupId d).scoped do
    perform (.lock (messageMutex groupId d))
    let e ← catchException
      (do
        perform .beginTransaction
        resolveMessageInternal date dateTime userId groupId d
        perform .commit
        pure none)
      fun e => do
        perform .rollback
        pure (some e)
    perform (.unlock (messageMutex groupId d))
    match e with
    | none => pure ()
    | some e => .throw (renewed e)

end TeaBot.Loggers.GroupMessage
