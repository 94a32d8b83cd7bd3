import TeaBot.Captcha.CriticalSection

/-! # Who is challenged

Directory, challenge and kick are all made from `user_id`, which `Data` takes from the
sender of the message. The new member is another user when somebody has added them.
-/

namespace TeaBot.Captcha.Challenge

open Foundation Responder CriticalSection

/-- An update about a new member of a supergroup. -/
structure Joined (input : Php) : Prop where
  update : (input.get (.str "update_id")).isset = true
  supergroup : ((input.get (.str "message")).read "chat").read "type" = .str "supergroup"
  member : ((input.get (.str "message")).get (.str "new_chat_member")).isset = true

def senderId (input : Php) : Php := ((input.get (.str "message")).read "from").read "id"

def newMemberId (input : Php) : Php := ((input.get (.str "message")).get (.str "new_chat_member")).read "id"

/-- Whom an operation is about, by the text of the id. -/
def Concerns (d : Data) (id : String) : Op → Prop
  | .buildDir dir => dir = fixChatId d ++ "/" ++ id
  | .exe (.sendPhoto _ _ caption) _ => ∃ rest, caption = linkTo id ++ rest
  | .exe (.kickChatMember userId _) _ => userId.toStr = id
  | .go (.timer d' _) => d' = d
  | _ => True

/-- Whatever happens, the captcha and its timer are about one user. -/
structure Challenged (d : Data) (id : String) : Prop where
  asked : ∀ rounds tr out, (dropCaptcha d rounds).Exec tr out → ∀ e ∈ tr, Concerns d id e.op
  kicked : ∀ rounds tr out, (timer d rounds).Exec tr out → ∀ e ∈ tr, Concerns d id e.op

theorem concerns_of_footprint {d : Data} {id : String} (hUser : d.userId.toStr = id) {o : Op} (h : Footprint d o) :
    Concerns d id o := by
  subst hUser
  cases o with
  | buildDir dir => exact h
  | exe call =>
    cases call with
    | sendPhoto => exact h
    | kickChatMember userId chatId => exact congrArg Php.toStr h
    | _ => trivial
  | go task =>
    cases task with
    | timer => exact h
    | deleteMessage => trivial
  | _ => trivial

theorem userId_of_joined {input : Php} (h : Joined input) :
    (Data.constructGeneralInput input).userId = senderId input := by
  have hMessage : (input.get (.str "message")).isset = true := by
    cases hNull : input.get (.str "message") with
    | null =>
      have hMember := h.member
      rw [hNull] at hMember
      cases hMember
    | _ => rfl
  simp [Data.constructGeneralInput, h.update, hMessage, Data.coalesce, Data.buildGeneralMsg, senderId]

/-- The new member is the one challenged exactly if they have sent the message themselves. -/
theorem new_member_challenged_iff {input : Php} (hJoined : Joined input) :
    Challenged (Data.constructGeneralInput input) (newMemberId input).toStr ↔
      (senderId input).toStr = (newMemberId input).toStr := by
  rw [← userId_of_joined hJoined]
  constructor
  · intro hChallenged
    have hExec := Prog.exec_record (answering false .null .null) (dropCaptcha (Data.constructGeneralInput input) 0) 0
    have hBuilt := hChallenged.asked 0 _ _ hExec ⟨.buildDir (captchaStDir (Data.constructGeneralInput input)), .ok ()⟩
      (List.mem_of_getElem? (i := 2) rfl)
    exact String.append_right_inj _ |>.mp hBuilt
  · intro hSame
    exact ⟨fun rounds tr out hExec e he => concerns_of_footprint hSame ((dropCaptcha_footprint rounds).exec hExec e he),
      fun rounds tr out hExec e he => concerns_of_footprint hSame ((timer_footprint rounds).exec hExec e he)⟩

def joinUpdate (sender : Int) : Php :=
  .obj [("update_id", .int 1), ("message", .obj
    [("message_id", .int 5), ("from", .obj [("id", .int sender), ("first_name", .str "A")]),
      ("chat", .obj [("id", .int (-100)), ("type", .str "supergroup"), ("title", .str "G")]),
      ("new_chat_member", .obj [("id", .int 2), ("first_name", .str "B")])])]

theorem member_joining_challenged : Joined (joinUpdate 2) ∧
    Challenged (Data.constructGeneralInput (joinUpdate 2)) (newMemberId (joinUpdate 2)).toStr := by
  have hJoined : Joined (joinUpdate 2) := ⟨rfl, rfl, rfl⟩
  exact ⟨hJoined, (new_member_challenged_iff hJoined).mpr rfl⟩

def sentReply : Php := .obj [("ok", .bool true), ("result", .obj [("message_id", .int 9)])]

/-- User 1 adds user 2, and is challenged and kicked in their place. -/
theorem adder_challenged : Joined (joinUpdate 1) ∧ newMemberId (joinUpdate 1) = .int 2 ∧
    ∃ tr tr' caption r s t, (dropCaptcha (Data.constructGeneralInput (joinUpdate 1)) 1).Exec tr (.ok ()) ∧
      (timer (Data.constructGeneralInput (joinUpdate 1)) 1).Exec tr' (.ok ()) ∧
      ⟨.buildDir "_100/1", r⟩ ∈ tr ∧ ⟨.exe (.sendPhoto (.int (-100)) none (linkTo "1" ++ caption)) true, s⟩ ∈ tr ∧
      ⟨.exe (.kickChatMember (.int 1) (.int (-100))) true, t⟩ ∈ tr' := by
  have hAsked := Prog.exec_record (answering false .null sentReply)
    (dropCaptcha (Data.constructGeneralInput (joinUpdate 1)) 1) 0
  have hKicked := Prog.exec_record (answering true .null sentReply) (timer (Data.constructGeneralInput (joinUpdate 1)) 1) 0
  exact ⟨⟨rfl, rfl, rfl⟩, rfl, _, _, "A</a>" ++ challengeText, .ok (), .ok sentReply, .ok sentReply, hAsked, hKicked,
    List.mem_of_getElem? (i := 2) rfl, List.mem_of_getElem? (i := 17) rfl, List.mem_of_getElem? (i := 11) rfl⟩

end TeaBot.Captcha.Challenge
