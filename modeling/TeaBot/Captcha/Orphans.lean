import TeaBot.Captcha.StageRuns

/-! # Captchas that nobody tends

Whoever makes `info.json` passes the duty to wait for its removal on to its timer.
`captchaFailKick` cleans up everything else but leaves this file.
-/

namespace TeaBot.Captcha.Orphans

open Foundation Foundation.System Responder

def pending : Stage → Bool
  | .issuing | .written => true
  | s => s.watching

/-- What ends the wait for an answer. -/
inductive Ends : Stage → (o : Op) → Except Throwable o.Res → Prop
  | start {d : Data} {rounds : Nat} {r : Except Throwable Unit} : Ends .written (.go (.timer d rounds)) r
  | unsent {chatId v : Php} {photo : Option String} {caption : String} {read : Bool} : ¬ (resultMessageId v).isset = true →
      Ends .issuing (.exe (.sendPhoto chatId photo caption) read) (.ok v)
  | failed {o : Op} {e : Throwable} : Ends .issuing o (.error e)
  | solved {s c : Int} {p : Path} : Ends (.polling s c) (.fileExists p) (.ok false)
  | enter {s : Stage} {r : Except Throwable Unit} : Ends s .enterFailKick r

variable {o : Op} {r : Except Throwable o.Res} {ℓ : Local}

theorem pending_of_moves {pr : Pair} {s' : Stage} (hAdmits : Admits True pr ℓ o) (hMoves : ℓ.stage.Moves o r s')
    (h : pending ℓ.stage = true) : pending s' = true ∨ Ends ℓ.stage o r := by
  generalize hStage : ℓ.stage = s at hMoves h
  cases hMoves with
  | stay => exact .inl h
  | write | begin | look | again | expire => exact .inl rfl
  | start => exact .inr .start
  | unsent hUnset => exact .inr (.unsent hUnset)
  | failed hRaises => exact .inr .failed
  | die => exact absurd hStage (hAdmits.2.2 trivial)
  | solved => exact .inr .solved
  | enter => exact .inr .enter
  | _ => cases h

theorem dropping_of_pending {s : Stage} (h : pending s = true) (hNot : ¬ s.watching = true) : s.dropping = true := by
  cases s <;> first | rfl | exact absurd h hNot

/-- As long as there is a file, somebody tends it. -/
def Tended (p : Path) (gs : List (Job × Local)) (w : World) : Prop :=
  (w.files p).isSome = true → ∃ u, pending (locals gs u).stage = true

variable {gs : List (Job × Local)}

theorem lt_length_of_pending {u : Nat} (h : pending (locals gs u).stage = true) : u < gs.length := by
  by_contra hLe
  rw [locals_of_le (by omega)] at h
  cases h

section Step

variable {gs : List (Job × Local)} {w w' : World} {pr : Pair} {t : Nat} {j : Job} {ℓ : Local} {o : Op} {ch : Choice}
  {r : Except Throwable o.Res}

theorem Tended.launch (h : Tended pr.info gs w) (j : Job) : Tended pr.info (gs ++ [(j, j.local)]) w := by
  intro hFile
  obtain ⟨u, hu⟩ := h hFile
  refine ⟨u, ?_⟩
  rw [locals_start, if_neg (lt_length_of_pending hu).ne]
  exact hu

theorem file_before (hAdmits : Admits True pr ℓ o) (hExec : exec t j o ch w = some (r, w'))
    (hFile : (w'.files pr.info).isSome = true) :
    (w.files pr.info).isSome = true ∨ pending (ℓ.stage.after o r) = true := by
  rcases info_of_exec hAdmits hExec with hSame | ⟨rfl, hStage⟩ | ⟨⟨v, rfl⟩, hStage⟩ | ⟨_, _, _, hNone⟩
  · exact .inl (hSame ▸ hFile)
  · rw [hStage]
    exact .inr rfl
  · rw [hStage]
    exact .inr rfl
  · rw [hNone] at hFile
    cases hFile

theorem Tended.step (h : Tended pr.info gs w) (hState : gs[t]? = some (j, ℓ)) (hAdmits : Admits True pr ℓ o)
    (hExec : exec t j o ch w = some (r, w'))
    (hSent : ∀ chatId photo caption read, o = .exe (.sendPhoto chatId photo caption) read → ∀ v, ch.outcome = .answer v → (resultMessageId v).isset = true)
    (hFail : ℓ.stage = .issuing → r.isOk = true) (hEnter : o = .enterFailKick → w.files pr.info = none) :
    Tended pr.info (advanced gs t j ℓ o r) w' := by
  intro hFile
  have hSelf : pending (ℓ.stage.after o r) = true → ∃ u, pending (locals (advanced gs t j ℓ o r) u).stage = true := by
    intro hPending
    refine ⟨t, ?_⟩
    rw [locals_advanced hState, if_pos rfl]
    exact hPending
  rcases file_before hAdmits hExec hFile with hBefore | hPending
  · obtain ⟨u, hu⟩ := h hBefore
    by_cases hut : u = t
    · subst hut
      rw [locals_eq hState] at hu
      rcases pending_of_moves hAdmits (Stage.moves_after ℓ.stage o r) hu with hPending | hEnds
      · exact hSelf hPending
      · generalize hStage : ℓ.stage = s at hEnds
        cases hEnds with
        | @start d rounds r =>
          -- the timer takes over
          cases r with
          | error e => cases (fail_of_exec (j := j) hExec).1
          | ok a =>
            refine ⟨gs.length, ?_⟩
            have hLt := (List.getElem?_eq_some_iff.mp hState).1
            rw [locals_advanced hState, if_neg hLt.ne', if_pos rfl]
            rfl
        | unsent hUnset =>
          rcases exec_eq_some hExec with ⟨e, _, hEq, _⟩ | ⟨a, hRespond, hEq, _⟩
          · cases hEq
          · cases hEq
            cases hOut : ch.outcome <;> simp only [hOut, World.respond, reduceCtorEq] at hRespond
            cases hRespond
            exact absurd (hSent _ _ _ _ rfl _ hOut) hUnset
        | failed => cases hFail hStage
        | solved =>
          obtain ⟨_, _, hPath⟩ := hAdmits
          have hNone := exists_of_exec (j := j) hExec
          rw [hPath, hBefore] at hNone
          cases hNone
        | enter =>
          rw [hEnter rfl] at hBefore
          cases hBefore
    · refine ⟨u, ?_⟩
      rw [locals_advanced hState, if_neg hut, if_neg (lt_length_of_pending hu).ne]
      exact hu
  · exact hSelf hPending

end Step

/-! ## Runs -/

/-- Every `sendPhoto` returns a message id. -/
def delivered (c : Conf) : Label Job Choice → Bool
  | .start _ => true
  | .step t ch =>
    match c.threads[t]?, ch.outcome with
    | some (_, .op (.exe (.sendPhoto ..) _) _), .answer v => (resultMessageId v).isset
    | some (_, .op (.exe (.sendPhoto ..) _) _), _ => false
    | _, _ => true

/-- `captchaFailKick` is called only when the file is gone, and no `dropCaptcha` fails. -/
def tidy (pr : Pair) (c : Conf) : Label Job Choice → Bool
  | .start _ => true
  | .step t ch =>
    match c.threads[t]?, ch.outcome with
    | some (_, .op .enterFailKick _), _ => (c.shared.files pr.info).isNone
    | some (.dropCaptcha .., _), .fail _ => false
    | _, _ => true

def Delivered (pr : Pair) (c : Conf) : Label Job Choice → Prop
  | .start j => j.Of True pr
  | l => delivered c l = true

def Tidy (pr : Pair) (c : Conf) (l : Label Job Choice) : Prop := Delivered pr c l ∧ tidy pr c l = true

def tends : Job → Bool
  | .dropCaptcha .. | .task (.timer ..) => true
  | _ => false

/-- When no `dropCaptcha` and no timer is running there is no captcha. -/
def NoOrphan (pr : Pair) (c : Conf) : Prop :=
  (∀ (t : Nat) (j : Job) (q : Run Unit), c.threads[t]? = some (j, q) → tends j = true → q.finished = true) →
    c.shared.files pr.info = none ∧ ∀ t, c.shared.respond t (.fileExists pr.info) .ok = some false

section Runs

variable {pr : Pair} {s : World} {c : Conf}

theorem isOk_of_tidy {t : Nat} {ch : Choice} {j : Job} {k : Except Throwable o.Res → Run Unit} {w' : World}
    (hRoles : Roles gs) (hOk : tidy pr c (.step t ch) = true) (hThread : c.threads[t]? = some (j, .op o k))
    (hState : gs[t]? = some (j, ℓ)) (hExec : exec t j o ch c.shared = some (r, w')) (hIssuing : ℓ.stage = .issuing) :
    r.isOk = true := by
  obtain ⟨d, rounds, ℓ', hJob⟩ := hRoles.dropping t (by rw [locals_eq hState, hIssuing]; rfl)
  cases hState.symm.trans hJob
  cases r with
  | ok a => rfl
  | error e =>
    obtain ⟨hRaises, hOut⟩ := fail_of_exec hExec
    cases o with
    | exe => simp [tidy, hThread, hOut] at hOk
    | genLatex str => simp [tidy, hThread, hOut] at hOk
    | _ => cases hRaises

theorem tended_reach (hFile : s.files pr.info = none) (hReach : system.Reach (Tidy pr) ⟨s, []⟩ c) :
    ∃ gs, Typed (stages True pr) Finished gs c ∧ Roles gs ∧ Tended pr.info gs c.shared := by
  refine stages_reach ?_ ?_ (.nil s) roles_nil ?_ hReach
  · intro c gs j _ hTended hOk
    exact ⟨hOk.1, hTended.launch j⟩
  · intro c gs t ch j ℓ o k r w' hTyped hRoles hTended hOk hThread hState hAdmits hExec
    refine hTended.step hState hAdmits hExec ?_ (isOk_of_tidy hRoles hOk.2 hThread hState hExec) ?_
    · rintro chatId photo caption read rfl v hOut
      have hDelivered : delivered c (.step t ch) = true := hOk.1
      simpa [delivered, hThread, hOut] using hDelivered
    · rintro rfl
      have hTidy := hOk.2
      simpa [tidy, hThread] using hTidy
  · intro hSome
    rw [hFile] at hSome
    cases hSome

theorem no_orphan (pr : Pair) (s : World) (c : Conf) (hFile : s.files pr.info = none)
    (hReach : system.Reach (Tidy pr) ⟨s, []⟩ c) : NoOrphan pr c := by
  obtain ⟨gs, hTyped, hRoles, hTended⟩ := tended_reach hFile hReach
  intro hEnded
  have hNone : c.shared.files pr.info = none := by
    by_contra hSome
    obtain ⟨u, hu⟩ := hTended (Option.isSome_iff_ne_none.mpr hSome)
    -- whoever tends the file is a `dropCaptcha` or a timer, and not at its end
    obtain ⟨j, ℓ, hState, hTends⟩ : ∃ j ℓ, gs[u]? = some (j, ℓ) ∧ tends j = true := by
      by_cases hWatching : (locals gs u).stage.watching = true
      · obtain ⟨d, rounds, ℓ, hState⟩ := hRoles.watching u hWatching
        exact ⟨_, ℓ, hState, rfl⟩
      · obtain ⟨d, rounds, ℓ, hState⟩ := hRoles.dropping u (dropping_of_pending hu hWatching)
        exact ⟨_, ℓ, hState, rfl⟩
    obtain ⟨q, hThread, hKeeps⟩ := hTyped.thread hState
    rw [locals_eq hState] at hu
    have hFinished := hEnded u j q hThread hTends
    have hSettled := settled_of_finished hKeeps hFinished
    cases hStage : ℓ.stage <;> simp [hStage, pending, Stage.watching, Stage.settled] at hu hSettled
  exact ⟨hNone, fun t => by simp [World.respond, hNone]⟩

end Runs

def ended (c : Conf) : Bool := c.threads.all fun x => !tends x.1 || x.2.finished

/-- The user answers; the timer then finds no captcha. -/
def answered : List (Label Job Choice) :=
  .start (.dropCaptcha newcomer 2) :: issue 0 0 ++ steps 1 1 ++
    .start (.checkAnswer newcomer) :: steps 2 6 ++ [answer 2 .null] ++ steps 2 6 ++ [answer 2 .null, answer 2 .null] ++
    steps 2 4 ++ steps 1 1 ++ [later 1 1] ++ steps 1 6

theorem no_orphan_answered :
    ∃ c, system.runWhile (fun c l => delivered c l && tidy (.of newcomer) c l) ⟨.initial, []⟩ answered = some c ∧
      ended c = true ∧ NoOrphan (.of newcomer) c := by
  have hRun : (system.runWhile (fun c l => delivered c l && tidy (.of newcomer) c l) ⟨.initial, []⟩ answered).any
      ended = true := by
    decide +kernel
  obtain ⟨c, hc, hEnded⟩ := (Option.any_eq_true _ _).mp hRun
  refine ⟨c, hc, hEnded, no_orphan (.of newcomer) .initial c rfl (reach_of_runWhile (fun l hl c hOk => ?_) hc)⟩
  obtain ⟨hDelivered, hTidy⟩ := Bool.and_eq_true_iff.mp hOk
  refine ⟨?_, hTidy⟩
  cases l with
  | start j =>
    have hj : j = .dropCaptcha newcomer 2 ∨ j = .checkAnswer newcomer := by
      simpa [answered, issue, steps, later, answer] using hl
    rcases hj with rfl | rfl
    · exact ⟨rfl, fun _ => newcomer_proper⟩
    · rfl
  | step t ch => exact hDelivered

/-- Nobody answers; the user is kicked, unbanned, and all coroutines end. -/
def kicked : List (Label Job Choice) :=
  .start (.dropCaptcha newcomer 2) :: issue 0 0 ++ steps 1 1 ++ [later 1 601, later 1 1] ++ steps 1 8 ++
    [answer 1 .null] ++ steps 1 11 ++ [later 1 30, answer 1 .null, answer 1 .null] ++ steps 1 1

theorem kicked_leaves_orphan :
    ∃ c, system.Reach (Delivered (.of newcomer)) ⟨.initial, []⟩ c ∧ ¬ NoOrphan (.of newcomer) c := by
  have hRun : (system.runWhile delivered ⟨.initial, []⟩ kicked).any
      (fun c => ended c && (c.shared.files (Pair.of newcomer).info).isSome) = true := by
    decide +kernel
  obtain ⟨c, hc, hLeft⟩ := (Option.any_eq_true _ _).mp hRun
  obtain ⟨hEnded, hFile⟩ := Bool.and_eq_true_iff.mp hLeft
  refine ⟨c, reach_of_runWhile (fun l hl c hOk => ?_) hc, fun hNoOrphan => ?_⟩
  · cases l with
    | start j =>
      have hj : j = .dropCaptcha newcomer 2 := by simpa [kicked, issue, steps, later, answer] using hl
      exact hj ▸ ⟨rfl, fun _ => newcomer_proper⟩
    | step t ch => exact hOk
  · have hNone := (hNoOrphan fun t j q hThread hTends => ?_).1
    · rw [hNone] at hFile
      cases hFile
    · have hAll := List.all_eq_true.mp hEnded _ (List.mem_of_getElem? hThread)
      simpa [hTends] using hAll

end TeaBot.Captcha.Orphans
