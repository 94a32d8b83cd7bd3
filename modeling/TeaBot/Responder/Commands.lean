import TeaBot.Responder.Op

/-! # The commands of the bot

`Responses\Admin\Restriction`, `Responses\Admin\Promotion`, `Responses\Debug` and
`Responses\Start`. `SUDOERS` is the configured list.
-/

namespace TeaBot.Responder

open Foundation

/-- `$v == $n` for an integer `$n`. -/
def looselyEqual (v : Php) (n : Int) : Bool :=
  match v with
  | .null => n = 0
  | .bool b => b = decide (n ≠ 0)
  | .int m => m = n
  | .float q => q = n
  | .str s => (numericPrefix s.toList).getD 0 = n
  | .arr _ => false

def inArray (v : Php) (list : List Int) : Bool := list.any fun n => looselyEqual v n

@[simp] theorem inArray_int (s : Int) (list : List Int) : inArray (.int s) list = decide (s ∈ list) := by
  simp [inArray, looselyEqual, List.any_eq]

/-- `isset($this->data["reply_to"]["from"]["id"])` reads the same entry as the plain
accesses after it. -/
def repliedTo (d : Data) : Php := (d.replyTo.get (.str "from")).get (.str "id")

def repliedName (d : Data) : String :=
  let sender := d.replyTo.get (.str "from")
  (sender.read "first_name").toStr ++
    if (sender.get (.str "last_name")).isset then " " ++ (sender.get (.str "last_name")).toStr else ""

def userLink (userId : Int) (name : String) : String :=
  "<a href=\"tg://user?id=" ++ toString userId ++ "\">" ++ htmlspecialchars name ++ "</a>"

namespace Restriction

def getUserInfo (userId chatId : Php) : Run Php := do
  let userId ← intArg userId
  let chatId ← intArg chatId
  let ret ← perform (.exe (.getChatMember userId chatId) true)
  match ret.get (.str "result") with
  | .null => pure .null
  | .arr entries => pure (.arr entries)
  | _ => .throw (typeError "Return value of getUserInfo() must be of the type array or null")

/-- The test on the answer of `getUserInfo`. -/
def mayRestrict (info : Php) : Bool :=
  info.truthy &&
    (decide (info.read "status" = .str "creator") || (info.get (.str "can_restrict_members")).truthy)

def hasAbilityToUseBanHammer (SUDOERS : List Int) (d : Data) : Run Bool :=
  if inArray d.userId SUDOERS then pure true
  else do
    let info ← getUserInfo d.userId d.chatId
    pure (mayRestrict info)

def dontHavePermission (d : Data) : Run Unit := do
  let _ ← perform (.exe
    (.sendMessage d.chatId "You don't have permission to use this command!" d.msgId) false)

def banText (userId : Int) (name rtype reason : String) : String :=
  userLink userId name ++ " has been " ++ rtype ++ " from the group!" ++
    if reason = "" then "" else "\n\n<b>Reason</b>: " ++ htmlspecialchars reason

def sendBanMessage (d : Data) (userId : Int) (name rtype reason : String) (ret : Php) : Run Unit := do
  let text := if apiSucceeded ret then banText userId name rtype reason else ret.jsonPretty jsonString 0
  let _ ← perform (.exe (.sendMessage d.chatId text d.msgId) false)

/-- `ban` and `unban` are the same code around two API methods. -/
def restrict (call : Php → Php → Api) (rtype : String) (SUDOERS : List Int) (d : Data) (reason : String) :
    Run Bool := do
  let able ← hasAbilityToUseBanHammer SUDOERS d
  Prog.when (!able) (dontHavePermission d)
  Prog.when (able && d.replyTo.isset && (repliedTo d).isset) do
    let userId ← intArg (repliedTo d)
    let chatId ← intArg d.chatId
    let ret ← perform (.exe (call (.int userId) (.int chatId)) true)
    sendBanMessage d userId (repliedName d) rtype (String.ofList (trim reason.toList)) ret
  pure true

def ban : List Int → Data → String → Run Bool := restrict .kickChatMember "banned"

def unban : List Int → Data → String → Run Bool := restrict .unbanChatMember "unbanned"

/-- `K` routes to a method that the class does not have. -/
def kick : Run Bool := .throw (.error "Error" "Call to undefined method Restriction::kick()")

end Restriction

namespace Promotion

def PROMOTE_ME_ALLOWED_GROUPS : List Int := [-1001226735471, -1001149709623]

/-- The integer key an offset denotes, if it denotes one. -/
def integerKey : Php → Option Int
  | .int n => some n
  | .bool b => some (if b then 1 else 0)
  | .float q => some (truncate q)
  | .str s => ((Php.str s).intParam).filter fun n => toString n = s
  | _ => none

def promoteMeAllowed (chatId : Php) : Bool :=
  (integerKey chatId).any fun n => decide (n ∈ PROMOTE_ME_ALLOWED_GROUPS)

def hasAbilityToPromoteOther (SUDOERS : List Int) (d : Data) : Bool := inArray d.userId SUDOERS

/-- `promoteMember` and the message about it. -/
def promoteAndReport (d : Data) (userId : Php) (name : String) : Run Unit := do
  let userId ← intArg userId
  let chatId ← intArg d.chatId
  let ret ← perform (.exe (.promoteChatMember userId chatId) true)
  let text :=
    if apiSucceeded ret then userLink userId name ++ " has been promoted to be an administrator!"
    else ret.jsonPretty jsonString 0
  let _ ← perform (.exe (.sendMessage d.chatId text d.msgId) false)

def promote (SUDOERS : List Int) (d : Data) : Run Bool := do
  Prog.when (hasAbilityToPromoteOther SUDOERS d && d.replyTo.isset && (repliedTo d).isset)
    (promoteAndReport d (repliedTo d) (repliedName d))
  pure true

def senderName (d : Data) : String :=
  d.firstName.toStr ++ if d.lastName.isset then " " ++ d.lastName.toStr else ""

def promoteMe (d : Data) : Run Bool := do
  Prog.when (promoteMeAllowed d.chatId) (promoteAndReport d d.userId (senderName d))
  pure true

end Promotion

def Debug.debug (d : Data) : Run Bool := do
  let _ ← perform (.exe (.sendMessage d.chatId
    ("<pre>" ++ htmlspecialchars (d.input.jsonPretty jsonStringSlashes 0) ++ "</pre>") d.msgId) false)
  pure true

def Start.start (d : Data) : Run Bool :=
  if d.chatType = .str "private" then do
    let _ ← perform (.exe (.sendMessage d.chatId "Send /help to show the command list!" d.msgId) false)
    pure true
  else do
    let v ← perform (.exe
      (.sendMessage d.chatId "This command can only be used in private message!" d.msgId) true)
    Prog.when (resultMessageId v).isset do
      perform (.sleep 5)
      let _ ← perform (.exe (.deleteMessage d.chatId (resultMessageId v)) false)
    pure true

end TeaBot.Responder
