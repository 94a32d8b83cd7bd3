import TeaBot.Captcha.Footprint
import TeaBot.Captcha.World

/-! # The critical section of `checkAnswer`

`checkAnswer` takes the fast lock at its start and gives it back at its end. The clean-up
after a correct answer asks `isHavingCaptcha` in between, on the same object.
-/

namespace TeaBot.Captcha.CriticalSection

open Foundation Responder

abbrev Trace := List (Event Op Op.Res Throwable)

/-- Where a call stands with its fast lock after what it has done. -/
def gripAfter (tr : Trace) : Grip := tr.foldl (fun g e => g.after .fastLockHandle e.op) .free

/-- From the `fastLock` at the start to the `fastUnlock` at the end the lock is held. -/
def Uninterrupted (d : Data) (tr : Trace) : Prop :=
  ∃ start body finish, tr = start ++ body ++ finish ∧ (fastLock d).Exec start (.ok ()) ∧
    (fastUnlock d).Exec finish (.ok ()) ∧ ∀ before, before <+: body → gripAfter (start ++ before) = .held

/-- What is read from `info.json` is a captcha, and the message answers it. -/
def Solved (d : Data) (json : Php) : Prop :=
  json.isArray = true ∧ json.read "correct_answer" = .str (answerText d)

def keepsFastLock (o : Op) : Prop := Grip.after .fastLockHandle .held o = .held

section Traces

variable {d : Data} {json : Php} {tr : Trace}

theorem fastLock_trace (h : (fastLock d).Exec tr (.ok ())) :
    tr = [⟨.fopen .fastLockHandle (fastLockFile d), .ok ()⟩, ⟨.flock .fastLockHandle, .ok ()⟩] := by
  obtain ⟨_, tr₁, tr₂, rfl, h₁, h₂⟩ := h.bind_ok
  rw [h₁.perform_ok, h₂.perform_ok]
  rfl

theorem fastUnlock_trace (h : (fastUnlock d).Exec tr (.ok ())) :
    tr = [⟨.unflock .fastLockHandle, .ok ()⟩, ⟨.unlink (fastLockFile d), .ok ()⟩] := by
  obtain ⟨_, tr₁, tr₂, rfl, h₁, h₂⟩ := h.bind_ok
  rw [h₁.perform_ok, h₂.perform_ok]
  rfl

theorem lock_trace (h : (lock d).Exec tr (.ok ())) :
    tr = [⟨.fopen .lockHandle (lockFile d), .ok ()⟩, ⟨.flock .lockHandle, .ok ()⟩] := by
  obtain ⟨_, tr₁, tr₂, rfl, h₁, h₂⟩ := h.bind_ok
  rw [h₁.perform_ok, h₂.perform_ok]
  rfl

theorem mention_trace {user : String} (h : (mention d).Exec tr (.ok user)) : tr = [] := by
  unfold mention strArg at h
  cases hName : d.fullName <;> rw [hName] at h <;> cases h <;> rfl

/-- The welcome comes first, then `isHavingCaptcha` opens the lock file anew. -/
theorem accept_trace (h : (accept d json).Exec tr (.ok ())) :
    ∃ text ret rest,
      tr = [⟨.unlink (captchaFile d), .ok ()⟩, ⟨.exe (.sendMessage d.chatId text .null) true, .ok ret⟩,
        ⟨.fopen .fastLockHandle (fastLockFile d), .ok ()⟩] ++ rest := by
  obtain ⟨_, _, _, rfl, hUnlink, h⟩ := h.bind_ok
  obtain ⟨user, _, _, rfl, hUser, h⟩ := h.bind_ok
  obtain ⟨ret, _, _, rfl, hSend, h⟩ := h.bind_ok
  obtain ⟨_, _, tr₁, rfl, hClean, _⟩ := h.bind_ok
  obtain ⟨_, _, tr₂, rfl, hHaving, _⟩ := hClean.bind_ok
  obtain ⟨_, _, tr₃, rfl, hLock, _⟩ := hHaving.bind_ok
  obtain rfl := hUnlink.perform_ok
  obtain rfl := mention_trace hUser
  obtain rfl := hSend.perform_ok
  obtain rfl := fastLock_trace hLock
  exact ⟨user ++ welcomeText, ret, ⟨.flock .fastLockHandle, .ok ()⟩ :: (tr₃ ++ tr₂ ++ tr₁), by simp⟩

theorem held_of_keepsFastLock (h : ∀ e ∈ tr, keepsFastLock e.op) {start : Trace} (hStart : gripAfter start = .held) :
    gripAfter (start ++ tr) = .held := by
  induction tr generalizing start with
  | nil => rwa [List.append_nil]
  | cons e tr ih =>
    obtain ⟨hHead, hTail⟩ := List.forall_mem_cons.mp h
    rw [List.append_cons]
    refine ih hTail ?_
    rw [gripAfter, List.foldl_append]
    exact (congrArg (fun g => Grip.after .fastLockHandle g e.op) hStart).trans hHead

theorem Uninterrupted.held_at (h : Uninterrupted d tr) {n : Nat} (hStart : 2 ≤ n) (hEnd : n + 2 ≤ tr.length) :
    gripAfter (tr.take n) = .held := by
  obtain ⟨start, body, finish, rfl, hLock, hUnlock, hHeld⟩ := h
  obtain rfl := fastLock_trace hLock
  obtain rfl := fastUnlock_trace hUnlock
  obtain ⟨m, rfl⟩ := Nat.exists_eq_add_of_le' hStart
  have hm : m ≤ body.length := by simpa using hEnd
  have hTake := hHeld (body.take m) (List.take_prefix m body)
  rwa [List.append_assoc, List.cons_append, List.cons_append, List.nil_append, List.take_succ_cons, List.take_succ_cons,
    List.take_append_of_le_length hm]

theorem checkAnswer_trace (h : (checkAnswer d).Exec tr (.ok ())) :
    ∃ start json branch finish, (fastLock d).Exec start (.ok ()) ∧ (fastUnlock d).Exec finish (.ok ()) ∧
      (Prog.when json.isArray (if json.read "correct_answer" = .str (answerText d) then accept d json
        else refuse d)).Exec branch (.ok ()) ∧
      tr = start ++ ([⟨.fopen .lockHandle (lockFile d), .ok ()⟩, ⟨.flock .lockHandle, .ok ()⟩,
        ⟨.readJson (captchaFile d), .ok json⟩] ++ branch ++ [⟨.unflock .lockHandle, .ok ()⟩]) ++ finish := by
  obtain ⟨_, start, _, rfl, hStart, h⟩ := h.bind_ok
  obtain ⟨_, _, _, rfl, hLock, h⟩ := h.bind_ok
  obtain ⟨json, _, _, rfl, hRead, h⟩ := h.bind_ok
  obtain ⟨_, branch, _, rfl, hBranch, h⟩ := h.bind_ok
  obtain ⟨_, _, finish, rfl, hUnlock, hFinish⟩ := h.bind_ok
  refine ⟨start, json, branch, finish, hStart, hFinish, hBranch, ?_⟩
  rw [lock_trace hLock, hRead.perform_ok, hUnlock.perform_ok]
  simp

/-- `checkAnswer` keeps its critical section unless the answer is correct. -/
theorem checkAnswer_uninterrupted_iff (hExec : (checkAnswer d).Exec tr (.ok ()))
    (hRead : tr[4]? = some ⟨.readJson (captchaFile d), .ok json⟩) : Uninterrupted d tr ↔ ¬ Solved d json := by
  obtain ⟨start, json', branch, finish, hStart, hFinish, hBranch, rfl⟩ := checkAnswer_trace hExec
  obtain rfl : json' = json := by
    rw [fastLock_trace hStart] at hRead
    simpa using hRead
  constructor
  · rintro hHeld ⟨hArray, hAnswer⟩
    simp only [Prog.when, hArray, hAnswer, if_true] at hBranch
    obtain ⟨text, ret, rest, rfl⟩ := accept_trace hBranch
    obtain rfl := fastLock_trace hStart
    obtain rfl := fastUnlock_trace hFinish
    -- up to where the file is opened a second time
    cases (show Grip.waiting = .held from hHeld.held_at (n := 8) (by omega) (by simp))
  · intro hWrong
    refine ⟨start, _, finish, rfl, hStart, hFinish, fun before hBefore => ?_⟩
    have hQuiet : ∀ e ∈ branch, keepsFastLock e.op := by
      refine Prog.Uses.exec ?_ hBranch
      by_cases hAnswer : json'.read "correct_answer" = .str (answerText d)
      · have hArray : json'.isArray = false := Bool.eq_false_iff.mpr fun hArray => hWrong ⟨hArray, hAnswer⟩
        rw [hArray]
        trivial
      · rw [if_neg hAnswer]
        exact .when (refuse_uses rfl fun _ => rfl)
    refine held_of_keepsFastLock (fun e he => ?_) (by rw [fastLock_trace hStart]; rfl)
    have hMem := hBefore.subset he
    simp only [List.append_assoc, List.mem_append, List.mem_cons, List.not_mem_nil, or_false] at hMem
    rcases hMem with (rfl | rfl | rfl) | hMem | rfl
    · rfl
    · rfl
    · rfl
    · exact hQuiet e hMem
    · rfl

end Traces

/-- Nothing raises, the API answers every call with `reply`, and ten minutes pass between two
looks at the clock. -/
def answering (having : Bool) (json reply : Php) : (o : Op) → Int → Except Throwable o.Res × Int
  | .exe .., now => (.ok reply, now)
  | .fileExists _, now => (.ok having, now)
  | .readJson _, now => (.ok json, now)
  | .scandir _, now => (.ok [".", ".."], now)
  | .newFloatingPoint, now => (.ok ("0.5", 0), now)
  | .genLatex _, now => (.ok none, now)
  | .time, now => (.ok now, now + 601)
  | .buildDir _, now | .fopen .., now | .flock _, now | .unflock _, now | .destruct, now | .touch _, now
  | .writeJson .., now | .unlink _, now | .touchMsg .., now | .unlinkMsg .., now | .usleep _, now
  | .sleep _, now | .enterFailKick, now | .go _, now | .beyond, now => (.ok (), now)

def answerFrom (text : String) : Data where
  chatId := .int (-100)
  userId := .int 7
  msgId := .int 4
  fullName := .str "A"
  text := .str text

def answerTrace (text : String) : Trace :=
  (checkAnswer (answerFrom text)).record
    (answering false (captchaInfo (answerFrom text) (.int 3) none "5") .null) 0

theorem wrong_answer_uninterrupted : Uninterrupted (answerFrom "6") (answerTrace "6") := by
  have hExec : (checkAnswer (answerFrom "6")).Exec (answerTrace "6") (.ok ()) := Prog.exec_record _ _ _
  refine (checkAnswer_uninterrupted_iff hExec rfl).mpr fun hSolved => ?_
  exact absurd hSolved.2 (by decide)

/-- After a correct answer the lock is taken anew in the middle. -/
theorem correct_answer_interrupted :
    (checkAnswer (answerFrom "5")).Exec (answerTrace "5") (.ok ()) ∧ ¬ Uninterrupted (answerFrom "5") (answerTrace "5") := by
  refine ⟨Prog.exec_record _ _ _, fun hHeld => ?_⟩
  cases (show Grip.waiting = .held from hHeld.held_at (n := 8) (by decide) (by decide))

end TeaBot.Captcha.CriticalSection
