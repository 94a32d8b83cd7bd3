import TeaBot.Captcha.Folder
import TeaBot.Captcha.Footprint
import TeaBot.Foundation.Choices

/-! # What a call does to the folder of its user -/

namespace TeaBot.Captcha

open Foundation Responder

/-- A call that runs from its start to its end while nothing else does, with answers that
`E` allows. -/
def Completes (E : Environment) (t : Nat) (j : Job) (w : World) (out : Except Throwable Unit) (w' : World) : Prop :=
  (code j).Runs (fun o w r w' => (∃ ch, exec t j o ch w = some (r, w')) ∧ E o r = true) w out w'

def since (w w' : World) : List Entry := w'.trace.take (w'.trace.length - w.trace.length)

def InTurn (E : Environment) : List Job → World → List (Except Throwable Unit) → World → Prop
  | [], w, outs, w' => outs = [] ∧ w' = w
  | j :: js, w, outs, w' => ∃ t out w₁ rest, Completes E t j w out w₁ ∧ InTurn E js w₁ rest w' ∧ outs = out :: rest

def replayed (E : Environment) : List (Job × List Choice) → World → Option (List (Except Throwable Unit) × World)
  | [], w => some ([], w)
  | (j, choices) :: calls, w =>
    ((code j).replay (fun o ch w => (exec 0 j o ch w).filter fun x => E o x.1) choices ⟨w, []⟩).bind fun x =>
      (replayed E calls x.2.state).map fun y => (x.1 :: y.1, y.2)

variable {calls : List (Job × List Choice)} {E : Environment} {outs : List (Except Throwable Unit)} {w : World}

theorem inTurn_of_replayed {w' : World} (h : replayed E calls w = some (outs, w')) :
    InTurn E (calls.map Prod.fst) w outs w' := by
  induction calls generalizing w outs with
  | nil =>
    cases h
    exact ⟨rfl, rfl⟩
  | cons call calls ih =>
    obtain ⟨j, choices⟩ := call
    obtain ⟨⟨out, s⟩, hCall, hRest⟩ := Option.bind_eq_some_iff.mp h
    obtain ⟨⟨rest, w₂⟩, hTail, hEq⟩ := Option.map_eq_some_iff.mp hRest
    cases hEq
    refine ⟨0, out, s.state, rest, ?_, ih hTail, rfl⟩
    refine (Prog.replay_runs hCall).map Logged.state fun o r s s' hStep => ?_
    obtain ⟨ch, hExec, _⟩ := hStep
    obtain ⟨hExec, hE⟩ := Option.filter_eq_some_iff.mp hExec
    exact ⟨⟨ch, hExec⟩, hE⟩

theorem exists_inTurn {P : List (Except Throwable Unit) × World → Bool} (h : (replayed E calls w).any P = true) :
    ∃ outs w', InTurn E (calls.map Prod.fst) w outs w' ∧ P (outs, w') = true := by
  obtain ⟨⟨outs, w'⟩, hReplayed, hP⟩ := (Option.any_eq_true _ _).mp h
  exact ⟨outs, w', inTurn_of_replayed hReplayed, hP⟩

abbrev FolderRun {α : Type} (E : Environment) (d : Data) (p : Run α) (f : Folder) (out : Except Throwable α)
    (f' : Folder) : Prop :=
  p.Runs (Folder.Step E (captchaStDir d)) f out f'

section World

variable {E : Environment} {t : Nat} {j : Job} {d : Data} {w w' : World} {out : Except Throwable Unit}

theorem Completes.grows (h : Completes E t j w out w') : ∃ new, w'.trace = new ++ w.trace := by
  unfold Completes at h
  generalize code j = p at h
  induction h with
  | ret a w | throw e w => exact ⟨[], rfl⟩
  | op hStep _ ih =>
    obtain ⟨⟨ch, hExec⟩, _⟩ := hStep
    obtain ⟨new, hNew⟩ := ih
    exact ⟨new ++ [_], by rw [hNew, (trace_of_exec hExec).2, List.append_assoc, List.singleton_append]⟩

theorem InTurn.grows {js : List Job} (h : InTurn E js w outs w') : ∃ new, w'.trace = new ++ w.trace := by
  induction js generalizing w outs with
  | nil => exact ⟨[], by rw [h.2]; rfl⟩
  | cons j js ih =>
    obtain ⟨t, out, w₁, rest, hCall, hRest, _⟩ := h
    obtain ⟨new, hNew⟩ := hCall.grows
    obtain ⟨new', hNew'⟩ := ih hRest
    exact ⟨new' ++ new, by rw [hNew', hNew, List.append_assoc]⟩

theorem calls_since (h : ∃ new, w'.trace = new ++ w.trace) (dir : String) :
    (w'.folder dir).calls = callsIn (since w w') ++ (w.folder dir).calls ∧
      (w'.folder dir).tasks = tasksIn (since w w') ++ (w.folder dir).tasks := by
  obtain ⟨new, hNew⟩ := h
  have hSince : since w w' = new := by simp [since, hNew]
  rw [World.folder, hSince, hNew]
  exact ⟨List.filterMap_append, List.filterMap_append⟩

theorem Completes.folder (hUses : (code j).Uses (Footprint d)) (hBound : Allocated (captchaFile d) w)
    (h : Completes E t j w out w') :
    FolderRun E d (code j) (w.folder (captchaStDir d)) out (w'.folder (captchaStDir d)) ∧
      Allocated (captchaFile d) w' := by
  refine h.simulate (World.folder (captchaStDir d)) hUses (fun o r w w' hFoot hStep hBound => ?_) hBound
  obtain ⟨⟨ch, hExec⟩, hE⟩ := hStep
  have hWrite : ∀ p v, o = .writeJson p v → p = .captchaFile (captchaStDir d) := by
    rintro p v rfl
    exact hFoot
  obtain ⟨hAnswers, hAfter, hBound'⟩ := folder_of_exec hWrite hExec hBound
  exact ⟨⟨hAnswers, hE, hAfter⟩, hBound'⟩

end World

/-! ## Operations that do nothing to the folder -/

def quiet (dir : String) : Op → Bool
  | .fopen _ p | .unlink p => p ≠ .captchaFile dir
  | .flock _ | .unflock _ | .destruct | .fileExists _ | .readJson _ | .scandir _ | .newFloatingPoint | .time
  | .usleep _ | .sleep _ | .enterFailKick => true
  | _ => false

variable {o : Op}

theorem quiet_after {dir : String} (h : quiet dir o = true) (f : Folder) :
    (∀ r, f.after dir o r = f) ∧ raises o = false := by
  cases o with
  | fopen h' p | unlink p =>
    have hp : p ≠ .captchaFile dir := of_decide_eq_true h
    exact ⟨fun r => by simp [Folder.after, Folder.effect, callOf, taskOf, hp], rfl⟩
  | buildDir | touch | writeJson | touchMsg | unlinkMsg | genLatex | exe | go | beyond => cases h
  | _ => exact ⟨fun r => rfl, rfl⟩

section Runs

variable {E : Environment} {d : Data} {f f' : Folder} {α : Type} {out : Except Throwable α}

theorem sure_last {r : Except Throwable o.Res} (hSure : raises o = false) (h : FolderRun E d (perform o) f r f') :
    ∃ a, r = .ok a ∧ f.Answers (captchaStDir d) o (.ok a) ∧ f' = f.after (captchaStDir d) o (.ok a) := by
  obtain ⟨hAnswers, _, rfl⟩ := Prog.Runs.perform_iff.mp h
  cases r with
  | ok a => exact ⟨a, rfl, hAnswers, rfl⟩
  | error e =>
    have hRaises : raises o = true := by cases o <;> exact hAnswers
    rw [hSure] at hRaises
    cases hRaises

variable {k : o.Res → Run α}

theorem sure_then (hSure : raises o = false) (h : FolderRun E d ((perform o).bind k) f out f') :
    ∃ a, f.Answers (captchaStDir d) o (.ok a) ∧ FolderRun E d (k a) (f.after (captchaStDir d) o (.ok a)) out f' := by
  rcases h.bind_cases with ⟨e, _, hOp⟩ | ⟨a, f₁, hOp, hRest⟩
  · obtain ⟨_, hEq, _⟩ := sure_last hSure hOp
    cases hEq
  · obtain ⟨_, hEq, hAnswers, rfl⟩ := sure_last hSure hOp
    cases hEq
    exact ⟨a, hAnswers, hRest⟩

theorem quiet_then (hQuiet : quiet (captchaStDir d) o = true) (h : FolderRun E d ((perform o).bind k) f out f') :
    ∃ a, f.Answers (captchaStDir d) o (.ok a) ∧ FolderRun E d (k a) f out f' := by
  obtain ⟨a, hAnswers, hRest⟩ := sure_then (quiet_after hQuiet f).2 h
  rw [(quiet_after hQuiet f).1] at hRest
  exact ⟨a, hAnswers, hRest⟩

theorem exe_then {call : Api} {read : Bool} {k : Php → Run α}
    (h : FolderRun E d ((perform (.exe call read)).bind k) f out f') :
    (∃ e, out = .error e ∧ f' = { f with calls := (call, .error e) :: f.calls } ∧ E (.exe call read) (.error e) = true) ∨
      ∃ v : Php, E (.exe call read) (.ok v) = true ∧ FolderRun E d (k v) { f with calls := (call, .ok v) :: f.calls } out f' := by
  rcases h.perform_bind_cases with ⟨e, hOut, _, hE, rfl⟩ | ⟨v, f₁, ⟨_, hE, rfl⟩, hRest⟩
  · exact .inl ⟨e, hOut, rfl, hE⟩
  · exact .inr ⟨v, hE, hRest⟩

theorem lock_then {h : Handle} {p : Path} {k : Unit → Run α} (hp : p ≠ captchaFile d)
    (hRun : FolderRun E d ((do perform (.fopen h p); perform (.flock h) : Run Unit).bind k) f out f') :
    FolderRun E d (k ()) f out f' := by
  rw [Prog.bind_eq, Prog.bind_assoc] at hRun
  have hQuiet : quiet (captchaStDir d) (.fopen h p) = true := decide_eq_true hp
  obtain ⟨_, _, hRun⟩ := quiet_then hQuiet hRun
  obtain ⟨_, _, hRun⟩ := quiet_then rfl hRun
  exact hRun

theorem fastUnlock_then {k : Unit → Run α} (hRun : FolderRun E d ((fastUnlock d).bind k) f out f') :
    FolderRun E d (k ()) f out f' := by
  rw [fastUnlock, Prog.bind_eq, Prog.bind_assoc] at hRun
  obtain ⟨_, _, hRun⟩ := quiet_then rfl hRun
  obtain ⟨_, _, hRun⟩ := quiet_then rfl hRun
  exact hRun

theorem isHavingCaptcha_then {k : Bool → Run α} (hRun : FolderRun E d ((isHavingCaptcha d).bind k) f out f') :
    FolderRun E d (k f.info.isSome) f out f' := by
  simp only [isHavingCaptcha, Prog.bind_eq, Prog.bind_assoc] at hRun
  have hRun := lock_then (fun h => by cases h) hRun
  obtain ⟨having, hHaving, hRun⟩ := quiet_then rfl hRun
  have hRun := fastUnlock_then hRun
  rwa [hHaving rfl] at hRun

theorem mention_then {k : String → Run α} (h : FolderRun E d ((mention d).bind k) f out f') :
    (∃ e, out = .error e ∧ f' = f ∧ ∀ s, d.fullName ≠ .str s) ∨ ∃ user, FolderRun E d (k user) f out f' := by
  unfold mention strArg at h
  cases hName : d.fullName <;> rw [hName] at h
  case null | arr =>
    cases h
    exact .inl ⟨_, rfl, rfl, by simp⟩
  all_goals exact .inr ⟨_, h⟩

/-! ## Cleaning up -/

def visible (names : List String) : List String := names.filter fun v => v.toList.head? ≠ some '.'

def Folder.cleared (f : Folder) (chatId : Php) (names : List String) : Folder :=
  { f with
    messages := f.messages.filter fun v => v ∉ names
    tasks := (names.map fun v => .deleteMessage chatId (.str v)).reverse ++ f.tasks }

theorem deleteAll_run {names : List String} {out : Except Throwable Unit} (h : FolderRun E d (deleteAll d names) f out f') :
    out = .ok () ∧ f' = f.cleared d.chatId (visible names) := by
  induction names generalizing f with
  | nil =>
    cases h
    exact ⟨rfl, by simp [Folder.cleared, visible]⟩
  | cons v rest ih =>
    rw [deleteAll, Prog.bind_eq] at h
    by_cases hVisible : v.toList.head? ≠ some '.'
    · rw [show decide (v.toList.head? ≠ some '.') = true from decide_eq_true hVisible] at h
      simp only [Prog.when, if_true, Prog.bind_eq, Prog.bind_assoc] at h
      obtain ⟨_, _, h⟩ := sure_then rfl h
      obtain ⟨_, _, h⟩ := sure_then rfl h
      obtain ⟨rfl, rfl⟩ := ih h
      have hNames : visible (v :: rest) = v :: visible rest := List.filter_cons_of_pos (decide_eq_true hVisible)
      refine ⟨rfl, ?_⟩
      simp [hNames, Folder.cleared, Folder.after, Folder.effect, callOf, taskOf, Bool.and_comm]
    · rw [show decide (v.toList.head? ≠ some '.') = false from decide_eq_false hVisible] at h
      obtain ⟨rfl, rfl⟩ := ih h
      have hNames : visible (v :: rest) = visible rest := List.filter_cons_of_neg (by simpa using hVisible)
      rw [hNames]
      exact ⟨rfl, rfl⟩

structure Cleaned (d : Data) (f f' : Folder) : Prop where
  made : f'.made = f.made
  info : f'.info = f.info
  calls : f'.calls = f.calls
  answered : f.info = none → f.made = true → f' = f.cleared d.chatId (visible f.messages)

theorem deleteCaptchaMessage_run {out : Except Throwable Unit} (h : FolderRun E d (deleteCaptchaMessage d) f out f') :
    out = .ok () ∧ f'.made = f.made ∧ f'.info = f.info ∧ f'.calls = f.calls := by
  rw [deleteCaptchaMessage, Prog.bind_eq] at h
  obtain ⟨json, _, h⟩ := quiet_then rfl h
  dsimp only at h
  cases hSet : (json.get (.str "msg_id")).isset with
  | false =>
    rw [hSet] at h
    cases h
    exact ⟨rfl, rfl, rfl, rfl⟩
  | true =>
    rw [hSet] at h
    obtain ⟨_, _, h⟩ := sure_then rfl h
    obtain ⟨_, rfl, _, rfl⟩ := sure_last rfl h
    simp [Folder.after, Folder.effect, callOf, taskOf]

theorem cleanUpMessages_run {out : Except Throwable Unit} (h : FolderRun E d (cleanUpMessages d) f out f') :
    out = .ok () ∧ Cleaned d f f' := by
  rw [cleanUpMessages, Prog.bind_eq] at h
  have hCaptcha : ∀ out₁ f₁, FolderRun E d (Prog.when f.info.isSome (deleteCaptchaMessage d)) f out₁ f₁ →
      out₁ = .ok () ∧ (f₁.made = f.made ∧ f₁.info = f.info ∧ f₁.calls = f.calls) ∧ (f.info = none → f₁ = f) := by
    intro out₁ f₁ hRun
    cases hInfo : f.info with
    | none =>
      rw [hInfo] at hRun
      cases hRun
      exact ⟨rfl, ⟨rfl, hInfo, rfl⟩, fun _ => rfl⟩
    | some v =>
      rw [hInfo] at hRun
      obtain ⟨hOut, hFrame⟩ := deleteCaptchaMessage_run hRun
      exact ⟨hOut, hInfo ▸ hFrame, fun hNone => by cases hNone⟩
  obtain ⟨_, _, hRun⟩ | ⟨_, f₁, hRun, h⟩ := (isHavingCaptcha_then h).bind_cases
  · cases (hCaptcha _ _ hRun).1
  obtain ⟨_, ⟨hMade, hInfo, hCalls⟩, hNone⟩ := hCaptcha _ _ hRun
  obtain ⟨names, hNames, h⟩ := quiet_then rfl h
  obtain ⟨rfl, rfl⟩ := deleteAll_run h
  refine ⟨rfl, hMade, hInfo, hCalls, fun hAbsent hThere => ?_⟩
  obtain rfl := hNone hAbsent
  rw [hNames rfl, if_pos hThere]
  rfl

/-- All that `checkAnswer` does to the folder is done on one of its branches. -/
theorem checkAnswer_run {out : Except Throwable Unit} (h : FolderRun E d (checkAnswer d) f out f') :
    FolderRun E d (Prog.when (f.info.getD .null).isArray (if (f.info.getD .null).read "correct_answer" = .str (answerText d)
      then accept d (f.info.getD .null) else refuse d)) f out f' := by
  have h := lock_then (fun h => by cases h) (lock_then (fun h => by cases h) h)
  obtain ⟨json, hRead, h⟩ := quiet_then rfl h
  obtain rfl := hRead rfl
  obtain ⟨e, rfl, hBranch⟩ | ⟨_, f₁, hBranch, h⟩ := h.bind_cases
  · exact hBranch
  · obtain ⟨_, _, h⟩ := quiet_then rfl h
    rw [← Prog.bind_pure (fastUnlock d)] at h
    cases fastUnlock_then h
    exact hBranch

theorem withObject_run {p : Run Unit} {out : Except Throwable Unit} (h : FolderRun E d (withObject p) f out f') :
    FolderRun E d p f out f' := by
  obtain ⟨out₁, f₁, hBody, ⟨rfl, hEnd⟩ | ⟨e, _, hEnd⟩⟩ := h.tryFinally_cases
  · obtain ⟨_, _, rfl⟩ := Prog.Runs.perform_iff.mp hEnd
    exact hBody
  · obtain ⟨hRaises, _⟩ := Prog.Runs.perform_iff.mp hEnd
    cases hRaises

end Runs

end TeaBot.Captcha
