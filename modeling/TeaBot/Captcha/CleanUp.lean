import TeaBot.Captcha.Answers

/-! # The messages of a captcha

Wrong answers and the replies to them are remembered as files below `d`; the correct
answer has all of them deleted, along with the captcha, the welcome and itself. As long as
every API call is answered, nothing is forgotten.
-/

namespace TeaBot.Captcha.CleanUp

open Foundation Responder CriticalSection Answers

/-- Every API call is answered, and the ids of sent messages are integers. -/
def regular : Environment
  | .exe (.sendMessage ..) _, .ok v => !(resultMessageId v).isset || (resultMessageId v).isInt
  | _, .ok _ => true
  | _, .error _ => false

def deletedId : Api → Option String
  | .deleteMessage _ messageId => some messageId.toStr
  | _ => none

def taskId : Task → Option String
  | .deleteMessage _ messageId => some messageId.toStr
  | _ => none

def sentId : Api × Except Throwable Php → Option String
  | (.sendMessage .., .ok v) => if (resultMessageId v).isset then some (resultMessageId v).toStr else none
  | _ => none

/-- The ids that have been passed to `deleteMessage`, directly or in a coroutine. -/
def deletedIds (entries : List Entry) : List String :=
  (callsIn entries).filterMap (fun c => deletedId c.1) ++ (tasksIn entries).filterMap taskId

def sentIds (entries : List Entry) : List String := (callsIn entries).filterMap sentId

/-- A message of the user whose captcha is in `dir`. -/
structure Message (dir : String) (d : Data) : Prop where
  folder : captchaStDir d = dir
  id : d.msgId.isInt = true
  name : ∃ s, d.fullName = .str s

theorem mem_filterMap_cons {α β : Type} {g : α → Option β} {a : α} {l : List α} {x : β} :
    x ∈ (a :: l).filterMap g ↔ x ∈ g a ∨ x ∈ l.filterMap g := by
  simp [List.mem_filterMap]

/-! ## The branches -/

section Branches

variable {d : Data} {json : Php} {f f' : Folder} {out : Except Throwable Unit}

theorem regular_error (o : Op) (e : Throwable) : regular o (.error e) = false := by
  cases o with
  | exe call => cases call <;> rfl
  | _ => rfl

theorem answered_then {call : Api} {read : Bool} {k : Php → Run Unit}
    (h : FolderRun regular d ((perform (.exe call read)).bind k) f out f') :
    ∃ v : Php, regular (.exe call read) (.ok v) = true ∧
      FolderRun regular d (k v) { f with calls := (call, .ok v) :: f.calls } out f' := by
  obtain ⟨e, _, _, hE⟩ | hAnswered := exe_then h
  · rw [regular_error] at hE
    cases hE
  · exact hAnswered

theorem addDeleteMsg_run {msgId : Php} (hId : msgId.isInt = true)
    (h : FolderRun regular d (addDeleteMsg d msgId) f out f') : out = .ok () ∧ f' = f.touched msgId.toStr := by
  obtain ⟨n, rfl⟩ := Php.isInt_iff.mp hId
  have hTouch : FolderRun regular d (perform (.touchMsg (captchaStDir d) (toString n))) f out f' := h
  obtain ⟨_, rfl, _, rfl⟩ := sure_last rfl hTouch
  refine ⟨rfl, ?_⟩
  rw [Folder.after, Folder.effect, if_pos rfl, Php.toStr, Folder.touched]
  by_cases hNew : (f.made && !f.messages.contains (toString n)) = true
  · rw [if_pos hNew]
    rfl
  · rw [if_neg hNew]
    rfl

theorem mem_touched {name x : String} (hMade : f.made = true) :
    x ∈ (f.touched name).messages ↔ x ∈ f.messages ∨ x = name := by
  unfold Folder.touched
  split
  · simp
  · rename_i hOld
    have hMem : name ∈ f.messages := by simpa [hMade] using hOld
    exact ⟨.inl, fun h => h.elim id fun hx => hx ▸ hMem⟩

theorem numeral_of_sent {call : Api} {read : Bool} {v : Php} (h : regular (.exe call read) (.ok v) = true) :
    ∀ x ∈ sentId (call, .ok v), ∃ n : Int, x = toString n := by
  intro x hx
  cases call with
  | sendMessage chatId text replyTo =>
    simp only [sentId] at hx
    split at hx
    · rename_i hSet
      obtain ⟨n, hn⟩ := Php.isInt_iff.mp (show (resultMessageId v).isInt = true by simpa [regular, hSet] using h)
      rw [hn] at hx
      exact ⟨n, (Option.some.inj hx).symm⟩
    · cases hx
  | _ => cases hx

/-- What a wrong answer adds to the folder. -/
structure Refused (d : Data) (f f' : Folder) : Prop where
  made : f'.made = f.made
  info : f'.info = f.info
  tasks : f'.tasks = f.tasks
  calls : ∃ reply, f'.calls = reply :: f.calls ∧ deletedId reply.1 = none ∧
    (∀ x, x ∈ f'.messages ↔ x ∈ f.messages ∨ x = d.msgId.toStr ∨ x ∈ sentId reply) ∧
      ∀ x ∈ sentId reply, ∃ n : Int, x = toString n

theorem touched_frame (name : String) : (f.touched name).made = f.made ∧ (f.touched name).info = f.info ∧
    (f.touched name).tasks = f.tasks ∧ (f.touched name).calls = f.calls := by
  unfold Folder.touched
  split <;> exact ⟨rfl, rfl, rfl, rfl⟩

theorem refuse_run (hId : d.msgId.isInt = true) (hMade : f.made = true) (h : FolderRun regular d (refuse d) f out f') :
    out = .ok () ∧ Refused d f f' := by
  obtain ⟨v, hAnswer, h⟩ := answered_then h
  generalize hf₁ : ({ f with calls := (.sendMessage d.chatId "Wrong answer!" d.msgId, .ok v) :: f.calls } : Folder) = f₁ at h
  -- both ways the answer itself is touched last
  have hLast : ∀ f₂ : Folder, FolderRun regular d (addDeleteMsg d d.msgId) f₂ out f' → f₂.made = f₁.made →
      f₂.info = f₁.info → f₂.tasks = f₁.tasks → f₂.calls = f₁.calls →
      (∀ x, x ∈ f₂.messages ↔ x ∈ f.messages ∨ x ∈ sentId (.sendMessage d.chatId "Wrong answer!" d.msgId, .ok v)) →
      out = .ok () ∧ Refused d f f' := by
    intro f₂ h hMade₂ hInfo₂ hTasks₂ hCalls₂ hMem
    obtain ⟨rfl, rfl⟩ := addDeleteMsg_run hId h
    obtain ⟨hMade', hInfo', hTasks', hCalls'⟩ := touched_frame (f := f₂) d.msgId.toStr
    subst hf₁
    refine ⟨rfl, hMade'.trans hMade₂, hInfo'.trans hInfo₂, hTasks'.trans hTasks₂, _, hCalls'.trans hCalls₂, rfl,
      fun x => ?_, numeral_of_sent hAnswer⟩
    rw [mem_touched (hMade₂.trans hMade), hMem, or_assoc, or_comm (a := x ∈ sentId _)]
  cases hSet : (resultMessageId v).isset with
  | false =>
    rw [hSet] at h
    refine hLast f₁ h rfl rfl rfl rfl fun x => ?_
    simp [← hf₁, sentId, hSet]
  | true =>
    have hInt : (resultMessageId v).isInt = true := by simpa [regular, hSet] using hAnswer
    rw [hSet] at h
    obtain ⟨_, _, hReply⟩ | ⟨_, f₂, hReply, h⟩ := h.bind_cases
    · cases (addDeleteMsg_run hInt hReply).1
    obtain ⟨_, rfl⟩ := addDeleteMsg_run hInt hReply
    obtain ⟨hMade', hInfo, hTasks, hCalls⟩ := touched_frame (f := f₁) (resultMessageId v).toStr
    refine hLast _ h hMade' hInfo hTasks hCalls fun x => ?_
    rw [mem_touched (by rw [← hf₁]; exact hMade)]
    simp [← hf₁, sentId, hSet, eq_comm]

/-- What a correct answer leaves. -/
structure Accepted (d : Data) (json : Php) (f f' : Folder) : Prop where
  info : f'.info = none
  messages : f'.messages = f.messages.filter fun v => v ∉ visible f.messages
  tasks : f'.tasks = ((visible f.messages).map fun v => Task.deleteMessage d.chatId (.str v)).reverse ++ f.tasks
  calls : ∃ new, f'.calls = new ++ f.calls ∧
    ∀ x, x ∈ new.filterMap (fun c => deletedId c.1) ↔
      x = (json.read "msg_id").toStr ∨ x = d.msgId.toStr ∨ x ∈ new.filterMap sentId

theorem accept_deletions (text : String) {ret : Php} (h : FolderRun regular d (do
      let _ ← perform (.exe (.deleteMessage d.chatId (json.read "msg_id")) false)
      Prog.when (resultMessageId ret).isset do
        perform (.sleep 120)
        let _ ← perform (.exe (.deleteMessage d.chatId (resultMessageId ret)) false)
      let _ ← perform (.exe (.deleteMessage d.chatId d.msgId) false)) f out f') :
    out = .ok () ∧ ∃ new, f' = { f with calls := new ++ f.calls } ∧ new.filterMap sentId = [] ∧
      ∀ x, x ∈ new.filterMap (fun c => deletedId c.1) ↔ x = (json.read "msg_id").toStr ∨ x = d.msgId.toStr ∨
        x ∈ sentId (.sendMessage d.chatId text .null, .ok ret) := by
  obtain ⟨a, _, h⟩ := answered_then h
  cases hSet : (resultMessageId ret).isset with
  | false =>
    rw [hSet] at h
    obtain ⟨b, _, h⟩ := answered_then h
    cases h
    refine ⟨rfl, [(_, .ok b), (_, .ok a)], rfl, rfl, fun x => ?_⟩
    simp [deletedId, sentId, hSet, or_comm]
  | true =>
    simp only [Prog.when, hSet, if_true, Prog.bind_eq, Prog.bind_assoc] at h
    obtain ⟨_, _, h⟩ := quiet_then rfl h
    obtain ⟨b, _, h⟩ := answered_then h
    obtain ⟨c, _, h⟩ := answered_then h
    cases h
    refine ⟨rfl, [(_, .ok c), (_, .ok b), (_, .ok a)], rfl, rfl, fun x => ?_⟩
    simp only [mem_filterMap_cons, deletedId, sentId, hSet, if_true, List.filterMap_nil, List.not_mem_nil, or_false,
      Option.mem_def, Option.some.injEq, eq_comm (a := x)]
    rw [← or_assoc, or_comm]

theorem accept_run (hName : ∃ s, d.fullName = .str s) (hMade : f.made = true)
    (h : FolderRun regular d (accept d json) f out f') : out = .ok () ∧ Accepted d json f f' := by
  obtain ⟨_, _, h⟩ := sure_then rfl h
  obtain ⟨_, _, _, hNameless⟩ | ⟨user, h⟩ := mention_then h
  · obtain ⟨s, hs⟩ := hName
    exact absurd hs (hNameless s)
  obtain ⟨ret, _, h⟩ := answered_then h
  obtain ⟨_, _, hClean⟩ | ⟨_, f₁, hClean, h⟩ := h.bind_cases
  · cases (cleanUpMessages_run hClean).1
  have hGone := (cleanUpMessages_run hClean).2.answered (by simp [Folder.after, Folder.effect, captchaFile])
    (by simpa [Folder.after, Folder.effect, captchaFile] using hMade)
  obtain ⟨rfl, new, rfl, hSent, hDeleted⟩ := accept_deletions (user ++ welcomeText) h
  subst hGone
  refine ⟨rfl, ?_, ?_, ?_, new ++ [(.sendMessage d.chatId (user ++ welcomeText) .null, .ok ret)], ?_, fun x => ?_⟩
  · simp [Folder.cleared, Folder.after, Folder.effect, captchaFile]
  · simp [Folder.cleared, Folder.after, Folder.effect, captchaFile]
  · simp [Folder.cleared, Folder.after, Folder.effect, captchaFile, taskOf]
  · simp [Folder.cleared, Folder.after, Folder.effect, captchaFile, callOf]
  · have hNone : [(Api.sendMessage d.chatId (user ++ welcomeText) .null, (.ok ret : Except Throwable Php))].filterMap
        (fun c => deletedId c.1) = [] := rfl
    simp only [List.filterMap_append, hSent, hNone, List.nil_append, List.append_nil, hDeleted, mem_filterMap_cons,
      List.filterMap_nil, List.not_mem_nil, or_false]

end Branches

/-! ## All answers to one captcha -/

theorem visible_of_numerals {names : List String} (h : ∀ x ∈ names, ∃ n : Int, x = toString n) : visible names = names := by
  refine List.filter_eq_self.mpr fun x hx => ?_
  obtain ⟨n, rfl⟩ := h x hx
  refine decide_eq_true fun hHead => ?_
  cases n with
  | ofNat m =>
    have hDot : '.' ∈ Nat.toDigits 10 m := by
      have hMem := List.mem_of_mem_head? hHead
      rwa [show toString (Int.ofNat m) = String.ofList (Nat.toDigits 10 m) from Nat.toString_eq_ofList_toDigits,
        String.toList_ofList] at hMem
    obtain ⟨k, hk, hDigit⟩ := mem_toDigits (by omega) hDot
    have hAll : ∀ k < 10, '.' ≠ Nat.digitChar k := by decide
    exact hAll k hk hDigit
  | negSucc m =>
    have hMinus : (toString (Int.negSucc m)).toList = '-' :: (toString (m + 1)).toList := String.toList_append
    rw [hMinus] at hHead
    cases hHead

/-- Some answers have been refused since `f₀`. -/
structure Pending (json : Php) (answers : List Data) (f₀ f : Folder) : Prop where
  made : f.made = true
  info : f.info = some json
  tasks : f.tasks = f₀.tasks
  numerals : ∀ x ∈ f.messages, ∃ n : Int, x = toString n
  calls : ∃ new, f.calls = new ++ f₀.calls ∧ new.filterMap (fun c => deletedId c.1) = [] ∧
    ∀ x, x ∈ f.messages ↔ (∃ d ∈ answers, x = d.msgId.toStr) ∨ x ∈ new.filterMap sentId

/-- The captcha is solved, and all that was sent since `f₀` has been deleted. -/
structure Done (json : Php) (answers : List Data) (f₀ f : Folder) : Prop where
  info : f.info = none
  messages : f.messages = []
  ids : ∃ newCalls newTasks, f.calls = newCalls ++ f₀.calls ∧ f.tasks = newTasks ++ f₀.tasks ∧
    ∀ x, x ∈ newCalls.filterMap (fun c => deletedId c.1) ++ newTasks.filterMap taskId ↔
      x = (json.read "msg_id").toStr ∨ (∃ d ∈ answers, x = d.msgId.toStr) ∨ x ∈ newCalls.filterMap sentId

section Runs

variable {d : Data} {json : Php} {answers : List Data} {f₀ f f' : Folder} {out : Except Throwable Unit}

theorem Pending.refused (hPending : Pending json answers f₀ f) (hId : d.msgId.isInt = true) (h : Refused d f f') :
    Pending json (answers ++ [d]) f₀ f' := by
  obtain ⟨new, hCalls, hDeleted, hMem⟩ := hPending.calls
  obtain ⟨reply, hReply, hNone, hMem', hNumeral⟩ := h.calls
  refine ⟨h.made.trans hPending.made, h.info.trans hPending.info, h.tasks.trans hPending.tasks, fun x hx => ?_,
    reply :: new, by rw [hReply, hCalls]; rfl, ?_, fun x => ?_⟩
  · rcases (hMem' x).mp hx with hOld | rfl | hSent
    · exact hPending.numerals x hOld
    · obtain ⟨n, hn⟩ := Php.isInt_iff.mp hId
      exact ⟨n, by rw [hn]; rfl⟩
    · exact hNumeral x hSent
  · simp [hNone, hDeleted]
  · rw [hMem', hMem, mem_filterMap_cons]
    simp only [List.mem_append, List.mem_singleton, or_and_right, exists_or, exists_eq_left]
    simp only [or_assoc, or_comm, or_left_comm]

theorem Pending.accepted (hPending : Pending json answers f₀ f) (h : Accepted d json f f') :
    Done json (answers ++ [d]) f₀ f' := by
  obtain ⟨new, hCalls, hDeleted, hMem⟩ := hPending.calls
  obtain ⟨new', hCalls', hDeleted'⟩ := h.calls
  have hVisible := visible_of_numerals hPending.numerals
  refine ⟨h.info, ?_, new' ++ new, _, by rw [hCalls', hCalls, List.append_assoc], by rw [h.tasks, hPending.tasks], fun x => ?_⟩
  · rw [h.messages, hVisible]
    simp
  · have hTasks : x ∈ (((visible f.messages).map fun v => Task.deleteMessage d.chatId (.str v)).reverse).filterMap taskId ↔
        x ∈ f.messages := by
      rw [hVisible]
      simp [taskId, Php.toStr]
    simp only [List.filterMap_append, List.mem_append, hDeleted, List.append_nil, hDeleted', hTasks, hMem,
      List.mem_singleton, or_and_right, exists_or, exists_eq_left]
    simp only [or_assoc, or_comm, or_left_comm]

end Runs

section Calls

variable {dir : String} {d : Data} {json : Php} {answers : List Data} {f₀ : Folder} {t : Nat} {w w' : World}
  {out : Except Throwable Unit}

theorem checkAnswer_completes (hMessage : Message dir d) (hBound : Allocated (.captchaFile dir) w)
    (hInfo : (w.folder dir).info = some json) (hArray : json.isArray = true)
    (h : Completes regular t (.checkAnswer d) w out w') :
    FolderRun regular d (if json.read "correct_answer" = .str (answerText d) then accept d json else refuse d)
      (w.folder dir) out (w'.folder dir) ∧ Allocated (.captchaFile dir) w' := by
  obtain rfl := hMessage.folder
  have hUses : (code (.checkAnswer d)).Uses (Footprint d) := .tryFinally checkAnswer_footprint (.perform trivial)
  obtain ⟨hFolder, hBound'⟩ := h.folder hUses hBound
  have hBranch := checkAnswer_run (withObject_run hFolder)
  simp only [hInfo, Option.getD_some, hArray, Prog.when, if_true] at hBranch
  exact ⟨hBranch, hBound'⟩

theorem done_of_inTurn {wrong : List Data} {right : Data} {outs : List (Except Throwable Unit)}
    (hArray : json.isArray = true) (hMessages : ∀ d ∈ wrong ++ [right], Message dir d)
    (hWrong : ∀ d ∈ wrong, json.read "correct_answer" ≠ .str (answerText d))
    (hRight : json.read "correct_answer" = .str (answerText right)) (hBound : Allocated (.captchaFile dir) w)
    (hPending : Pending json answers f₀ (w.folder dir))
    (hRun : InTurn regular ((wrong ++ [right]).map .checkAnswer) w outs w') :
    Done json (answers ++ (wrong ++ [right])) f₀ (w'.folder dir) := by
  induction wrong generalizing w answers outs with
  | nil =>
    obtain ⟨t, out, _, _, hCall, ⟨_, rfl⟩, _⟩ := hRun
    have hMessage := hMessages right (by simp)
    obtain ⟨hBranch, _⟩ := checkAnswer_completes hMessage hBound hPending.info hArray hCall
    rw [if_pos hRight] at hBranch
    exact hPending.accepted (accept_run hMessage.name hPending.made hBranch).2
  | cons d wrong ih =>
    obtain ⟨t, out, w₁, rest, hCall, hRest, _⟩ := hRun
    obtain ⟨hMessage, hMessages⟩ := List.forall_mem_cons.mp hMessages
    obtain ⟨hFirst, hWrong⟩ := List.forall_mem_cons.mp hWrong
    obtain ⟨hBranch, hBound'⟩ := checkAnswer_completes hMessage hBound hPending.info hArray hCall
    rw [if_neg hFirst] at hBranch
    have hNext := hPending.refused hMessage.id (refuse_run hMessage.id hPending.made hBranch).2
    have hDone := ih hMessages hWrong hBound' hNext hRest
    rwa [List.append_assoc] at hDone

end Calls

/-- When wrong answers are followed by a correct one, all messages of the captcha are deleted
and no others, as long as every API call is answered. -/
theorem captcha_messages_deleted {dir : String} {wrong : List Data} {right d₀ : Data} {msgId : Php} {photo : Option String}
    {correctAnswer : String} {w w' : World} {outs : List (Except Throwable Unit)} (hMade : w.dirs dir = true)
    (hEmpty : w.messages dir = []) (hBound : Allocated (.captchaFile dir) w)
    (hInfo : w.json (.captchaFile dir) = captchaInfo d₀ msgId photo correctAnswer)
    (hMessages : ∀ d ∈ wrong ++ [right], Message dir d) (hWrong : ∀ d ∈ wrong, answerText d ≠ correctAnswer)
    (hRight : answerText right = correctAnswer)
    (hRun : InTurn regular ((wrong ++ [right]).map .checkAnswer) w outs w') :
    (∀ x, x ∈ deletedIds (since w w') ↔
      x = msgId.toStr ∨ (∃ d ∈ wrong ++ [right], x = d.msgId.toStr) ∨ x ∈ sentIds (since w w')) ∧
      w'.messages dir = [] ∧ w'.files (.captchaFile dir) = none := by
  have hRead : (captchaInfo d₀ msgId photo correctAnswer).read "correct_answer" = .str correctAnswer := rfl
  have hStart : Pending (captchaInfo d₀ msgId photo correctAnswer) [] (w.folder dir) (w.folder dir) := by
    have hNone : (w.folder dir).messages = [] := hEmpty
    exact ⟨hMade, info_of_json hInfo rfl, rfl, by simp [hNone], [], rfl, rfl, by simp [hNone]⟩
  have hDone := done_of_inTurn rfl hMessages (fun d hd => by rw [hRead, ne_eq, Php.str.injEq]; exact (hWrong d hd).symm)
    (by rw [hRead, hRight]) hBound hStart hRun
  obtain ⟨newCalls, newTasks, hCalls, hTasks, hIds⟩ := hDone.ids
  obtain ⟨hCalls', hTasks'⟩ := calls_since hRun.grows dir
  rw [List.append_cancel_right (hCalls.symm.trans hCalls'), List.append_cancel_right (hTasks.symm.trans hTasks')] at hIds
  exact ⟨hIds, hDone.messages, Option.map_eq_none_iff.mp hDone.info⟩

def messageFrom (id : Int) (text : String) : Data := { answerFrom text with msgId := .int id }

def sentAs (id : Int) : Choice := ⟨0, .answer (.obj [("result", .obj [("message_id", .int id)])])⟩

def answeredTwice : List (Job × List Choice) :=
  [(.checkAnswer (messageFrom 4 "6"), List.replicate 5 ⟨0, .ok⟩ ++ sentAs 8 :: List.replicate 6 ⟨0, .ok⟩),
    (.checkAnswer (messageFrom 5 "5"), List.replicate 6 ⟨0, .ok⟩ ++ sentAs 9 :: List.replicate 10 ⟨0, .ok⟩ ++
      [⟨0, .answer .null⟩, ⟨120000000, .ok⟩, ⟨0, .answer .null⟩, ⟨0, .answer .null⟩] ++ List.replicate 4 ⟨0, .ok⟩)]

theorem message_of (id : Int) (text : String) : Message "_100/7" (messageFrom id text) := by
  have hDir : captchaStDir (answerFrom "") = "_100/7" := by decide
  exact ⟨hDir, rfl, "A", rfl⟩

theorem two_answers_deleted : ∃ outs w', InTurn regular (answeredTwice.map Prod.fst) (issued "5") outs w' ∧
    (∀ x, x ∈ deletedIds (since (issued "5") w') ↔ x = "3" ∨ (x = "4" ∨ x = "5") ∨ x ∈ sentIds (since (issued "5") w')) ∧
      w'.messages "_100/7" = [] := by
  have hRun : (replayed regular answeredTwice (issued "5")).any (fun _ => true) = true := by
    decide +kernel
  obtain ⟨outs, w', hCalls, _⟩ := exists_inTurn hRun
  have hMessages : ∀ d ∈ [messageFrom 4 "6"] ++ [messageFrom 5 "5"], Message "_100/7" d := by
    simp [message_of]
  have hInfo : (issued "5").json (.captchaFile "_100/7") = captchaInfo (answerFrom "") (.int 3) none "5" := rfl
  have hWrong : ∀ d ∈ [messageFrom 4 "6"], answerText d ≠ "5" := by decide
  obtain ⟨hDeleted, hEmpty, _⟩ := captcha_messages_deleted rfl rfl (issued_allocated _ _) hInfo hMessages hWrong (by decide) hCalls
  have hTexts : (Php.int 3).toStr = "3" ∧ (messageFrom 4 "6").msgId.toStr = "4" ∧ (messageFrom 5 "5").msgId.toStr = "5" := by
    decide
  refine ⟨outs, w', hCalls, fun x => (hDeleted x).trans ?_, hEmpty⟩
  simp [hTexts]

/-- The reply cannot be sent: the wrong answer is never deleted. -/
def unanswered : List (Job × List Choice) :=
  [(.checkAnswer (messageFrom 4 "6"), List.replicate 5 ⟨0, .ok⟩ ++
      [⟨0, .fail (.error "Error" "Call to a member function getBody() on null")⟩, ⟨0, .ok⟩]),
    (.checkAnswer (messageFrom 5 "5"), accepting)]

theorem wrong_answer_forgotten : ∃ outs w', InTurn anything (unanswered.map Prod.fst) (issued "5") outs w' ∧
    "4" ∉ deletedIds (since (issued "5") w') ∧ w'.files (.captchaFile "_100/7") = none := by
  have hRun : (replayed anything unanswered (issued "5")).any (fun x =>
      decide ("4" ∉ deletedIds (since (issued "5") x.2)) && decide (x.2.files (.captchaFile "_100/7") = none)) = true := by
    decide +kernel
  obtain ⟨outs, w', hCalls, hEnd⟩ := exists_inTurn hRun
  obtain ⟨hKept, hGone⟩ := Bool.and_eq_true_iff.mp hEnd
  exact ⟨outs, w', hCalls, of_decide_eq_true hKept, of_decide_eq_true hGone⟩

end TeaBot.Captcha.CleanUp
