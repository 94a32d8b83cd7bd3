import TeaBot.Data

/-! # Calls of the Telegram API

`Exe::m([...])` as the callers see it: one call, whose decoded answer is any PHP value.
The retries inside `Exe::execPost` repeat one and the same call.
-/

namespace TeaBot

inductive Api
  | getUserProfilePhotos (userId : Php)
  | getChat (chatId : Php)
  | getChatAdministrators (chatId : Php)
  | getFile (fileId : String)
  | getChatMember (userId chatId : Int)
  | kickChatMember (userId chatId : Php)
  | unbanChatMember (userId chatId : Php)
  | promoteChatMember (userId chatId : Int)
  | sendMessage (chatId : Php) (text : String) (replyTo : Php)
  /-- `sendMessage` with a text that is cut at bytes and need not be UTF-8. -/
  | sendBytes (chatId : Int) (text : List UInt8) (replyTo : Php)
  | sendPhoto (chatId : Php) (photo : Option String) (caption : String)
  | deleteMessage (chatId messageId : Php)
  deriving DecidableEq

/-- A call that takes effect on a chat member. -/
def Api.isModeration : Api → Bool
  | .kickChatMember .. => true
  | .unbanChatMember .. => true
  | .promoteChatMember .. => true
  | _ => false

/-- `isset($ret["ok"], $ret["result"]) && $ret["ok"] && $ret["result"]`. -/
def apiSucceeded (ret : Php) : Bool :=
  (ret.get (.str "ok")).truthy && (ret.get (.str "result")).truthy

/-- `$ret["result"]["message_id"] ?? null`. -/
def resultMessageId (ret : Php) : Php := (ret.get (.str "result")).get (.str "message_id")

end TeaBot
