import TeaBot.Foundation.Prog
import TeaBot.Php

/-! # `TeaBot\Telegram\Data`

The content table that `Data` builds from an update. A key that the constructor did
not fill reads as `null`, as `offsetGet` makes it, so every field defaults to `null`.
-/

namespace TeaBot

def typeError (what : String) : Throwable := .error "TypeError" what

section Parameters

variable {Op : Type} {Res : Op → Type}

/-- A weakly typed `int` parameter. -/
def intArg (v : Php) : Foundation.Prog Op Res Throwable Int :=
  match v.intParam with
  | some n => .ret n
  | none => .throw (typeError "must be of the type int")

/-- A weakly typed `string` parameter. -/
def strArg : Php → Foundation.Prog Op Res Throwable String
  | .null => .throw (typeError "must be of the type string, null given")
  | .arr _ => .throw (typeError "must be of the type string, array given")
  | v => .ret v.toStr

theorem intArg_uses {P : Op → Prop} (v : Php) : (intArg v : Foundation.Prog Op Res Throwable Int).Uses P := by
  unfold intArg
  split <;> trivial

theorem strArg_uses {P : Op → Prop} (v : Php) : (strArg v : Foundation.Prog Op Res Throwable String).Uses P := by
  unfold strArg
  split <;> trivial

end Parameters

/-! ## `json_encode` -/

def hexDigit (n : Nat) : Char := Nat.digitChar n

def escapeUnit (n : Nat) : List Char :=
  ['\\', 'u', hexDigit (n / 4096 % 16), hexDigit (n / 256 % 16), hexDigit (n / 16 % 16), hexDigit (n % 16)]

/-- Non-ASCII characters are written as UTF-16 escapes. -/
def jsonEscape (c : Char) : List Char :=
  if c = '"' then ['\\', '"']
  else if c = '\\' then ['\\', '\\']
  else if c = '/' then ['\\', '/']
  else if c = '\x08' then ['\\', 'b']
  else if c = '\x0c' then ['\\', 'f']
  else if c = '\n' then ['\\', 'n']
  else if c = '\r' then ['\\', 'r']
  else if c = '\t' then ['\\', 't']
  else if 0x20 ≤ c.toNat ∧ c.toNat < 0x80 then [c]
  else if c.toNat < 0x10000 then escapeUnit c.toNat
  else escapeUnit (0xd800 + (c.toNat - 0x10000) / 0x400) ++ escapeUnit (0xdc00 + (c.toNat - 0x10000) % 0x400)

def jsonString (s : String) : String := "\"" ++ String.ofList (s.toList.flatMap jsonEscape) ++ "\""

/-- With the flag `JSON_UNESCAPED_SLASHES`. -/
def jsonStringSlashes (s : String) : String :=
  "\"" ++ String.ofList (s.toList.flatMap fun c => if c = '/' then ['/'] else jsonEscape c) ++ "\""

/-- Keys `0, 1, 2, ..` in order make a JSON list. -/
def PhpArray.isList : PhpArray → Nat → Bool
  | .nil, _ => true
  | .cons key _ rest, n => key = .int n && rest.isList (n + 1)

def Key.text : Key → String
  | .int n => toString n
  | .str s => s

mutual

/-- `quote` is how the flags make strings be written. -/
def Php.json (quote : String → String) : Php → String
  | .null => "null"
  | .bool b => if b then "true" else "false"
  | .int n => toString n
  | .float q => (Php.float q).toStr
  | .str s => quote s
  | .arr entries =>
    if entries.isList 0 then "[" ++ String.intercalate "," (entries.jsonParts quote false) ++ "]"
    else "\x7b" ++ String.intercalate "," (entries.jsonParts quote true) ++ "\x7d"

def PhpArray.jsonParts (quote : String → String) : PhpArray → Bool → List String
  | .nil, _ => []
  | .cons key value rest, keyed =>
    (if keyed then quote key.text ++ ":" ++ value.json quote else value.json quote) ::
      rest.jsonParts quote keyed

end

def Php.jsonEncode (v : Php) : String := v.json jsonString

structure Data where
  input : Php := .null
  msgType : Php := .null
  text : Php := .null
  textEntities : Php := .null
  chatId : Php := .null
  userId : Php := .null
  isBot : Php := .null
  firstName : Php := .null
  lastName : Php := .null
  msgId : Php := .null
  date : Php := .null
  chatType : Php := .null
  username : Php := .null
  replyTo : Php := .null
  fullName : Php := .null
  chatTitle : Php := .null
  chatUsername : Php := .null
  isForwardedMsg : Php := .null
  isEditedMsg : Php := .null
  deriving DecidableEq

namespace Data

/-- `$a ?? $b`. -/
def coalesce (a b : Php) : Php := if a.isset then a else b

def msgTypeOf (msg : Php) : String :=
  if (msg.get (.str "text")).isset then "text"
  else if (msg.get (.str "photo")).isset then "photo"
  else if (msg.get (.str "sticker")).isset then "sticker"
  else if (msg.get (.str "animation")).isset then "animation"
  else if (msg.get (.str "voice")).isset then "voice"
  else if (msg.get (.str "video")).isset then "video"
  else if (msg.get (.str "new_chat_member")).isset then "new_chat_member"
  else "unknown"

def textOf (msg : Php) : Php :=
  match msgTypeOf msg with
  | "text" => msg.get (.str "text")
  | "sticker" => (msg.get (.str "sticker")).get (.str "emoji")
  | "new_chat_member" => .null
  | "unknown" => .null
  | _ => msg.get (.str "caption")

def textEntitiesOf (msg : Php) : Php :=
  match msgTypeOf msg with
  | "text" => msg.get (.str "entities")
  | "sticker" => .null
  | "new_chat_member" => .null
  | "unknown" => .null
  | _ => msg.get (.str "caption_entities")

def withLastName (first last : Php) : Php :=
  if last.isset then .str (first.toStr ++ " " ++ last.toStr) else first

def fullNameOf (first last : Php) : Php := if first.isset then withLastName first last else .null

def buildGeneralMsg (msg input : Php) : Data :=
  let sender := msg.read "from"
  let chat := msg.read "chat"
  -- the same two parts as `isset` and `??` see them
  let quietSender := msg.get (.str "from")
  let quietChat := msg.get (.str "chat")
  let fullName := fullNameOf (quietSender.get (.str "first_name")) (quietSender.get (.str "last_name"))
  { input := input
    msgType := .str (msgTypeOf msg)
    text := textOf msg
    textEntities := textEntitiesOf msg
    chatId := chat.read "id"
    userId := sender.read "id"
    isBot := coalesce (quietSender.get (.str "is_bot")) (.bool false)
    firstName := sender.read "first_name"
    lastName := quietSender.get (.str "last_name")
    msgId := msg.read "message_id"
    date := msg.get (.str "date")
    chatType := chat.read "type"
    username := quietSender.get (.str "username")
    replyTo := msg.get (.str "reply_to_message")
    fullName := fullName
    chatTitle := coalesce (quietChat.get (.str "title")) fullName
    chatUsername := quietChat.get (.str "username")
    isForwardedMsg := .bool (msg.get (.str "forward_from")).isset
    isEditedMsg := .bool (input.get (.str "edited_message")).isset }

/-- `new Data($in)` for an update. -/
def constructGeneralInput (input : Php) : Data :=
  let message := input.get (.str "message")
  let edited := input.get (.str "edited_message")
  if (input.get (.str "update_id")).isset && (message.isset || edited.isset) then
    buildGeneralMsg (coalesce message edited) input
  else { input := input }

def requiredFields : List String := ["id", "first_name", "is_bot"]

def missingFields (entries : PhpArray) : List String :=
  requiredFields.filter fun f => (entries.lookup (.str f)).isNone

/-- `new Data($in, Data::USER_DATA)`; anything but an array is a `TypeError`. -/
def constructUserData (input : Php) : Except Throwable Data :=
  match input with
  | .arr entries =>
    if missingFields entries = [] then
      .ok
        { input := input
          userId := input.read "id"
          username := input.get (.str "username")
          firstName := input.read "first_name"
          lastName := input.get (.str "last_name")
          fullName := withLastName (input.read "first_name") (input.get (.str "last_name"))
          isBot := input.read "is_bot" }
    else
      .error (.error "Error" ("Missing fields: [" ++
        String.intercalate "," ((missingFields entries).map fun f => "\"" ++ f ++ "\"") ++ "]"))
  | _ => .error (.error "TypeError" "Argument 1 passed to Data::__construct() must be of the type array")

end Data

end TeaBot
