import TeaBot.Captcha.FolderRuns

/-! # A challenge that could not be sent

`dropCaptcha` touches `info.json` before it sends the challenge. Without a message id
`writeCaptchaFile` throws, and nothing on the way out removes the file.
-/

namespace TeaBot.Captcha.Unsent

open Foundation Responder

def invalidData : Throwable := .exception "Exception" "Invalid captcha data!"

section Runs

variable {E : Environment} {d : Data} {f f' : Folder} {rounds : Nat} {out : Except Throwable Unit}

/-- The one API call of `mantissa`, and that nothing is written without a message id. -/
inductive Sends (f f' : Folder) : Except Throwable Unit → Prop
  | nothing (e : Throwable) (calls : f'.calls = f.calls) : Sends f f' (.error e)
  | raised (call : Api) (e : Throwable) (calls : f'.calls = (call, .error e) :: f.calls) : Sends f f' (.error e)
  | answered (call : Api) (v : Php) {out : Except Throwable Unit} (calls : f'.calls = (call, .ok v) :: f.calls)
      (unsent : (resultMessageId v).isset = false → out = .error invalidData ∧ f'.info = f.info) : Sends f f' out

theorem mantissa_run (h : FolderRun E d (mantissa d rounds) f out f') : Sends f f' out := by
  rw [mantissa, Prog.bind_eq] at h
  obtain ⟨⟨str, m⟩, _, h⟩ := quiet_then rfl h
  obtain ⟨e, rfl, _, _, rfl⟩ | ⟨url, _, ⟨_, _, rfl⟩, h⟩ := h.perform_bind_cases
  · exact .nothing e rfl
  obtain ⟨e, rfl, rfl, _⟩ | ⟨user, h⟩ := mention_then h
  · exact .nothing e rfl
  obtain ⟨e, rfl, rfl, _⟩ | ⟨v, _, h⟩ := exe_then h
  · exact .raised _ e rfl
  rw [writeCaptchaFile] at h
  split at h
  · rename_i hComplete
    obtain ⟨_, _, h⟩ := sure_then rfl h
    obtain ⟨_, rfl, _, rfl⟩ := sure_last rfl h
    refine .answered (.sendPhoto d.chatId url (user ++ challengeText)) v ?_ fun hUnsent => ?_
    · simp [Folder.after, callOf]
    · have hSet : (resultMessageId v).isset = true := List.all_eq_true.mp hComplete "msg_id" (by simp)
      rw [hUnsent] at hSet
      cases hSet
  · cases h
    exact .answered _ v rfl fun _ => ⟨rfl, rfl⟩

theorem dropCaptcha_run (h : FolderRun E d (dropCaptcha d rounds) f out f') :
    ∃ f₁, f₁.info = some (f.info.getD .null) ∧ f₁.calls = f.calls ∧ Sends f₁ f' out := by
  have h := lock_then (fun h => by cases h) h
  obtain ⟨_, _, h⟩ := sure_then rfl h
  obtain ⟨_, _, h⟩ := sure_then rfl h
  have h := lock_then (fun h => by cases h) (fastUnlock_then h)
  obtain ⟨_, _, hClean⟩ | ⟨_, f₁, hClean, h⟩ := h.bind_cases
  · cases (cleanUpMessages_run hClean).1
  obtain ⟨_, hCleaned⟩ := cleanUpMessages_run hClean
  obtain ⟨_, _, h⟩ := sure_then rfl h
  refine ⟨f₁.after (captchaStDir d) (.buildDir (captchaStDir d)) (.ok ()), ?_, ?_, ?_⟩
  · simp [Folder.after, Folder.effect, hCleaned.info, captchaFile]
  · simp [Folder.after, Folder.effect, callOf, hCleaned.calls]
  obtain ⟨e, rfl, hMantissa⟩ | ⟨_, f₂, hMantissa, h⟩ := h.bind_cases
  · exact mantissa_run hMantissa
  · obtain ⟨_, rfl, _, rfl⟩ := sure_last rfl h
    exact mantissa_run hMantissa

end Runs

/-- Whenever the challenge is not sent, `info.json` is left behind, and it is empty. -/
theorem unsent_challenge_leaves_info {d : Data} {rounds t : Nat} {w w' : World} {out : Except Throwable Unit}
    {chatId v : Php} {photo : Option String} {caption : String} (hAbsent : w.files (captchaFile d) = none)
    (hRun : Completes anything t (.dropCaptcha d rounds) w out w')
    (hCall : (.sendPhoto chatId photo caption, .ok v) ∈ callsIn (since w w'))
    (hUnsent : (resultMessageId v).isset = false) :
    out = .error invalidData ∧ (w'.files (captchaFile d)).isSome = true ∧ w'.json (captchaFile d) = .null := by
  have hBound : Allocated (captchaFile d) w := fun i hi => by
    rw [hAbsent] at hi
    cases hi
  have hUses : (code (.dropCaptcha d rounds)).Uses (Footprint d) :=
    .tryFinally (dropCaptcha_footprint rounds) (.perform trivial)
  obtain ⟨hFolder, _⟩ := hRun.folder hUses hBound
  obtain ⟨f₁, hInfo, hCalls, hSends⟩ := dropCaptcha_run (withObject_run hFolder)
  have hNew := (calls_since hRun.grows (captchaStDir d)).1
  rw [← hCalls] at hNew
  cases hSends with
  | nothing e hSame =>
    rw [List.self_eq_append_left.mp (hSame.symm.trans hNew)] at hCall
    cases hCall
  | raised call e hOne =>
    have hOnly : callsIn (since w w') = [(call, .error e)] := List.append_cancel_right (hNew.symm.trans hOne)
    rw [hOnly] at hCall
    simp at hCall
  | answered call v' hOne hLeft =>
    have hOnly : callsIn (since w w') = [(call, .ok v')] := List.append_cancel_right (hNew.symm.trans hOne)
    rw [hOnly] at hCall
    cases List.mem_singleton.mp hCall
    obtain ⟨hOut, hSame⟩ := hLeft hUnsent
    have hNull : (w'.files (captchaFile d)).map w'.content = some .null := by
      refine hSame.trans (hInfo.trans ?_)
      simp [World.folder, show w.files (.captchaFile (captchaStDir d)) = none from hAbsent]
    obtain ⟨i, hi, hContent⟩ := Option.map_eq_some_iff.mp hNull
    exact ⟨hOut, by rw [hi]; rfl, by rw [World.json, hi]; exact hContent⟩

def joiner : Data where
  chatId := .int (-100)
  userId := .int 7
  msgId := .int 4
  fullName := .str "A"

def refusedChallenge : List Choice :=
  List.replicate 16 ⟨0, .ok⟩ ++ [⟨0, .point "0.5" 0⟩, ⟨0, .latex none⟩, ⟨0, .answer .null⟩, ⟨0, .ok⟩]

def refusedPhoto : Api × Except Throwable Php :=
  (.sendPhoto (.int (-100)) none (linkTo "7" ++ "A</a>" ++ challengeText), .ok .null)

theorem exists_refused : ∃ t out w', Completes anything t (.dropCaptcha joiner 0) .initial out w' ∧
    refusedPhoto ∈ callsIn (since .initial w') ∧ (w'.files (captchaFile joiner)).isSome = true := by
  have hRun : (replayed anything [(.dropCaptcha joiner 0, refusedChallenge)] .initial).any (fun x =>
      decide (refusedPhoto ∈ callsIn (since .initial x.2)) && (x.2.files (captchaFile joiner)).isSome) = true := by
    decide +kernel
  obtain ⟨_, w', ⟨t, out, _, _, hCall, ⟨_, rfl⟩, _⟩, hEnd⟩ := exists_inTurn hRun
  obtain ⟨hPhoto, hFile⟩ := Bool.and_eq_true_iff.mp hEnd
  exact ⟨t, out, _, hCall, of_decide_eq_true hPhoto, hFile⟩

theorem refused_challenge_leaves_info : ∃ t out w', Completes anything t (.dropCaptcha joiner 0) .initial out w' ∧
    out = .error invalidData ∧ w'.json (captchaFile joiner) = .null := by
  obtain ⟨t, out, w', hRun, hPhoto, _⟩ := exists_refused
  obtain ⟨hOut, _, hEmpty⟩ := unsent_challenge_leaves_info rfl hRun hPhoto rfl
  exact ⟨t, out, w', hRun, hOut, hEmpty⟩

/-- There was no `info.json`, the API refuses the challenge, and there is one afterwards. -/
theorem info_left_behind : (World.initial.files (captchaFile joiner)) = none ∧
    ∃ t out w', Completes anything t (.dropCaptcha joiner 0) .initial out w' ∧
      refusedPhoto ∈ callsIn (since .initial w') ∧ (w'.files (captchaFile joiner)).isSome = true :=
  ⟨rfl, exists_refused⟩

end TeaBot.Captcha.Unsent
