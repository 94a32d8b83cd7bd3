import TeaBot.Captcha.StageRuns

/-! # The time to answer

A timer only tests whether some `info.json` is there. If none is still watching when a
captcha is written, every timer that later finds its time used up has begun after that
captcha was written.
-/

namespace TeaBot.Captcha.Deadline

open Foundation Foundation.System Responder

/-! ## The timers -/

def start? : Stage → Option Int
  | .counting s | .polling s _ | .overdue s _ => some s
  | _ => none

def cur? : Stage → Option Int
  | .polling _ c | .overdue _ c => some c
  | _ => none

theorem watching_of_start {stage : Stage} {s : Int} (h : start? stage = some s) : stage.watching = true := by
  cases stage <;> first | rfl | cases h

def reading : (o : Op) → Except Throwable o.Res → Option Int
  | .time, .ok v => some v
  | _, _ => none

variable {o : Op} {x : Int} {r : Except Throwable o.Res}

theorem start_of_moves {s s' : Stage} (hMoves : s.Moves o r s') (h : start? s' = some x) :
    start? s = some x ∨ reading o r = some x := by
  cases hMoves with
  | stay _ | look | again | expire => exact .inl h
  | begin => exact .inr h
  | _ => cases h

theorem cur_of_moves {s s' : Stage} (hMoves : s.Moves o r s') (h : cur? s' = some x) :
    cur? s = some x ∨ reading o r = some x := by
  cases hMoves with
  | stay _ | expire => exact .inl h
  | look => exact .inr h
  | _ => cases h

theorem reading_of_exec {t : Nat} {j : Job} {ch : Choice} {w w' : World} (hExec : exec t j o ch w = some (r, w'))
    (h : reading o r = some x) : x = (w'.now / 1000000 : Nat) := by
  cases o with
  | time =>
    rcases exec_eq_some hExec with ⟨_, hRaises, _⟩ | ⟨a, hRespond, rfl, rfl⟩
    · cases hRaises
    · cases hOut : ch.outcome <;> simp only [hOut, World.respond, reduceCtorEq] at hRespond
      cases hRespond
      cases h
      rfl
  | _ => cases h

/-! ## The trace -/

def writes (p : Path) (e : Entry) : Bool :=
  match e.event.op with
  | .writeJson q _ => q = p
  | _ => false

def entersFailKick (e : Entry) : Bool :=
  match e.event.op with
  | .enterFailKick => true
  | _ => false

/-- No kick is begun within 600 seconds after `info.json` was written; the latest entry
comes first. -/
def InTime (p : Path) (trace : List Entry) : Prop :=
  trace.Pairwise fun later earlier =>
    entersFailKick later = true → writes p earlier = true → earlier.time + 600 * 1000000 ≤ later.time

structure Counted (p : Path) (gs : List (Job × Local)) (w : World) : Prop where
  past : ∀ e ∈ w.trace, e.time ≤ w.now ∧ e.thread < gs.length
  /-- All that has been written was written before the timer began. -/
  start : ∀ u s, start? (locals gs u).stage = some s → ∀ e ∈ w.trace, writes p e = true →
    (e.time : Int) < (s + 1) * 1000000
  cur : ∀ u c, cur? (locals gs u).stage = some c → c * 1000000 ≤ w.now
  watcher : ∀ u, (locals gs u).stage.watching = true → ∀ e ∈ w.trace, e.thread = u → entersFailKick e = false
  inTime : InTime p w.trace

variable {p : Path} {gs : List (Job × Local)} {w w' : World}

theorem start_local (j : Job) : start? j.local.stage = none ∧ cur? j.local.stage = none := by
  cases j with
  | task task => cases task <;> exact ⟨rfl, rfl⟩
  | _ => exact ⟨rfl, rfl⟩

theorem start_spawned (o : Op) (r : Except Throwable o.Res) :
    start? (spawnedLocal o r).stage = none ∧ cur? (spawnedLocal o r).stage = none := by
  rcases spawned_cases o r with ⟨_, hIdle⟩ | ⟨i, _, hLocal⟩
  · rw [hIdle]
    exact ⟨rfl, rfl⟩
  · rw [hLocal]
    exact start_local i

theorem Counted.launch (h : Counted p gs w) (j : Job) : Counted p (gs ++ [(j, j.local)]) w where
  past e he := ⟨(h.past e he).1, by simpa using Nat.lt_succ_of_lt (h.past e he).2⟩
  start u s hs := by
    rw [locals_start] at hs
    split at hs
    · rw [(start_local j).1] at hs
      cases hs
    · exact h.start u s hs
  cur u c hc := by
    rw [locals_start] at hc
    split at hc
    · rw [(start_local j).2] at hc
      cases hc
    · exact h.cur u c hc
  watcher u hu := by
    rw [locals_start] at hu
    split at hu
    · rename_i hLast
      intro e he hThread
      have hLt := (h.past e he).2
      omega
    · exact h.watcher u hu
  inTime := h.inTime

variable {u : Nat}

section Step

variable {strict : Prop} {pr : Pair} {t : Nat} {j : Job} {ℓ : Local} {o : Op} {ch : Choice}
  {r : Except Throwable o.Res}

theorem start_advanced (hState : gs[t]? = some (j, ℓ)) {s : Int}
    (h : start? (locals (advanced gs t j ℓ o r) u).stage = some s) :
    start? (locals gs u).stage = some s ∨ reading o r = some s := by
  rcases locals_advanced_inv hState r u with ⟨rfl, hEq⟩ | ⟨_, _, hEq⟩ | ⟨_, hEq⟩ <;> rw [hEq] at h
  · rw [locals_eq hState]
    exact start_of_moves (Stage.moves_after ℓ.stage o r) h
  · rw [(start_spawned o r).1] at h
    cases h
  · exact .inl h

theorem cur_advanced (hState : gs[t]? = some (j, ℓ)) {c : Int}
    (h : cur? (locals (advanced gs t j ℓ o r) u).stage = some c) :
    cur? (locals gs u).stage = some c ∨ reading o r = some c := by
  rcases locals_advanced_inv hState r u with ⟨rfl, hEq⟩ | ⟨_, _, hEq⟩ | ⟨_, hEq⟩ <;> rw [hEq] at h
  · rw [locals_eq hState]
    exact cur_of_moves (Stage.moves_after ℓ.stage o r) h
  · rw [(start_spawned o r).2] at h
    cases h
  · exact .inl h

theorem eq_writeJson_of_writes {e : Entry} (h : writes p e = true) : ∃ v, e.event.op = .writeJson p v := by
  unfold writes at h
  split at h
  · rename_i q v hOp
    exact ⟨v, by rw [hOp, of_decide_eq_true h]⟩
  · cases h

theorem eq_of_entersFailKick {e : Entry} (h : entersFailKick e = true) : e.event.op = .enterFailKick := by
  unfold entersFailKick at h
  split at h
  · assumption
  · cases h

theorem Counted.step (h : Counted pr.info gs w) (hState : gs[t]? = some (j, ℓ)) (hAdmits : Admits strict pr ℓ o)
    (hWrite : ∀ v, o = .writeJson pr.info v → ∀ u, (locals gs u).stage.watching = false)
    (hExec : exec t j o ch w = some (r, w')) : Counted pr.info (advanced gs t j ℓ o r) w' := by
  obtain ⟨hNow, hTrace⟩ := trace_of_exec hExec
  have hLt := (List.getElem?_eq_some_iff.mp hState).1
  have hLength : gs.length ≤ (advanced gs t j ℓ o r).length := length_le_advanced
  constructor
  case past =>
    rw [hTrace]
    intro e he
    rcases List.mem_cons.mp he with rfl | he
    · exact ⟨le_rfl, hLt.trans_le hLength⟩
    · have hPast := h.past e he
      exact ⟨by omega, by omega⟩
  case start =>
    rw [hTrace]
    intro u s hs e he hWrites
    rcases List.mem_cons.mp he with rfl | he
    · -- no timer is watching while the file is written
      obtain ⟨v, hOp⟩ := eq_writeJson_of_writes hWrites
      rcases watching_advanced hState (watching_of_start hs) with ⟨hBefore, _⟩ | ⟨_, d, rounds, hSpawned⟩
      · exact absurd (hBefore.symm.trans (hWrite v hOp u)) nofun
      · change o = _ at hOp
        subst hOp
        cases hSpawned
    · rcases start_advanced hState hs with hs | hs
      · exact h.start u s hs e he hWrites
      · have hReading := reading_of_exec hExec hs
        have hPast := (h.past e he).1
        omega
  case cur =>
    intro u c hc
    rcases cur_advanced hState hc with hc | hc
    · have hBefore := h.cur u c hc
      omega
    · have hReading := reading_of_exec hExec hc
      omega
  case watcher =>
    rw [hTrace]
    intro u hu
    rcases watching_advanced hState hu with ⟨hBefore, hNe⟩ | ⟨rfl, _⟩
    · intro e he hThread
      rcases List.mem_cons.mp he with rfl | he
      · by_contra hEnters
        exact hNe hThread.symm (eq_of_entersFailKick (Bool.not_eq_false _ ▸ hEnters))
      · exact h.watcher u hBefore e he hThread
    · intro e he hThread
      rcases List.mem_cons.mp he with rfl | he
      · exact absurd hThread hLt.ne
      · have hPast := (h.past e he).2
        omega
  case inTime =>
    rw [hTrace]
    refine List.pairwise_cons.mpr ⟨fun e he hEnters hWrites => ?_, h.inTime⟩
    have hOp := eq_of_entersFailKick hEnters
    change o = _ at hOp
    subst hOp
    obtain ⟨_, _, s, c, hStage, hLate⟩ := hAdmits
    have hStart := h.start t s (by rw [locals_eq hState, hStage]; rfl) e he hWrites
    have hCur := h.cur t c (by rw [locals_eq hState, hStage]; rfl)
    change e.time + 600 * 1000000 ≤ w'.now
    omega

end Step

instance (p : Path) (trace : List Entry) : Decidable (InTime p trace) :=
  inferInstanceAs (Decidable (List.Pairwise _ _))

/-! ## Runs -/

/-- The timer still watches: it has not ended and has not called `captchaFailKick`. -/
def watches (c : Conf) (u : Nat) : Bool :=
  match c.threads[u]? with
  | some (.task (.timer ..), q) =>
    !q.finished && !c.shared.trace.any fun e => e.thread = u && entersFailKick e
  | _ => false

/-- `info.json` is written only when no timer watches. -/
def spaced (c : Conf) : Label Job Choice → Bool
  | .start _ => true
  | .step t _ =>
    match c.threads[t]? with
    | some (_, .op (.writeJson _ _) _) => (List.range c.threads.length).all fun u => !watches c u
    | _ => true

def Spaced (pr : Pair) (c : Conf) : Label Job Choice → Prop
  | .start j => j.Of False pr
  | l => spaced c l = true

theorem watches_of_watching {pr : Pair} {c : Conf} (hTyped : Typed (stages False pr) Finished gs c) (hRoles : Roles gs)
    (h : Counted pr.info gs c.shared) (hu : (locals gs u).stage.watching = true) :
    u < c.threads.length ∧ watches c u = true := by
  obtain ⟨d, rounds, ℓ, hState⟩ := hRoles.watching u hu
  have hNone := h.watcher u hu
  obtain ⟨q, hThread, hKeeps⟩ := hTyped.thread hState
  refine ⟨(List.getElem?_eq_some_iff.mp hThread).1, ?_⟩
  rw [locals_eq hState] at hu
  have hRunning : q.finished = false := by
    by_contra hFinished
    have hSettled := settled_of_finished hKeeps (Bool.not_eq_false _ ▸ hFinished)
    cases hStage : ℓ.stage <;> simp [hStage, Stage.watching, Stage.settled] at hu hSettled
  have hNotEntered : (c.shared.trace.any fun e => e.thread = u && entersFailKick e) = false := by
    rw [List.any_eq_false]
    intro e he
    by_cases hThread : e.thread = u
    · simp [hNone e he hThread]
    · simp [hThread]
  simp [watches, hThread, hRunning, hNotEntered]

theorem counted_reach {pr : Pair} {s : World} {c : Conf} (hTrace : s.trace = [])
    (hReach : system.Reach (Spaced pr) ⟨s, []⟩ c) :
    ∃ gs, Typed (stages False pr) Finished gs c ∧ Roles gs ∧ Counted pr.info gs c.shared := by
  refine stages_reach ?_ ?_ (.nil s) roles_nil ?_ hReach
  · intro c gs j _ hCounted hOk
    exact ⟨hOk, hCounted.launch j⟩
  · intro c gs t ch j ℓ o k r w' hTyped hRoles hCounted hOk hThread hState hAdmits hExec
    refine hCounted.step hState hAdmits ?_ hExec
    rintro v rfl u
    simp only [Spaced, spaced, hThread, List.all_eq_true, List.mem_range, Bool.not_eq_true'] at hOk
    by_contra hWatching
    obtain ⟨hLt, hWatches⟩ := watches_of_watching hTyped hRoles hCounted (Bool.not_eq_false _ ▸ hWatching)
    exact absurd (hWatches.symm.trans (hOk u hLt)) nofun
  · refine ⟨?_, fun _ _ hs => absurd hs nofun, fun _ _ hc => absurd hc nofun, fun _ hu => absurd hu nofun, ?_⟩
    · rw [hTrace]
      exact fun e he => absurd he List.not_mem_nil
    · rw [hTrace]
      exact .nil

theorem full_answering_time (pr : Pair) (s : World) (c : Conf) (hTrace : s.trace = [])
    (hReach : system.Reach (Spaced pr) ⟨s, []⟩ c) : InTime pr.info c.shared.trace := by
  obtain ⟨gs, _, _, hCounted⟩ := counted_reach hTrace hReach
  exact hCounted.inTime

/-- The timer of a captcha that nobody answers. -/
def unanswered : List (Label Job Choice) :=
  .start (.dropCaptcha newcomer 2) :: issue 0 0 ++ steps 1 1 ++ [later 1 601, later 1 1] ++ steps 1 6

theorem full_answering_time_unanswered :
    ∃ c, system.runWhile spaced ⟨.initial, []⟩ unanswered = some c ∧
      (c.shared.trace.any entersFailKick = true ∧ c.shared.trace.any (writes (Pair.of newcomer).info) = true) ∧
      InTime (Pair.of newcomer).info c.shared.trace := by
  have hRun : (system.runWhile spaced ⟨.initial, []⟩ unanswered).any (fun c => c.shared.trace.any entersFailKick &&
      c.shared.trace.any (writes (Pair.of newcomer).info)) = true := by
    decide +kernel
  obtain ⟨c, hc, hTrace⟩ := (Option.any_eq_true _ _).mp hRun
  refine ⟨c, hc, Bool.and_eq_true_iff.mp hTrace, full_answering_time (.of newcomer) .initial c rfl ?_⟩
  refine reach_of_runWhile (fun l hl c hOk => ?_) hc
  cases l with
  | start j =>
    have hj : j = .dropCaptcha newcomer 2 := by simpa [unanswered, issue, steps, later, answer] using hl
    exact hj ▸ ⟨rfl, nofun⟩
  | step t ch => exact hOk

/-- The user joins again after 300 seconds; the first timer runs out 301 seconds later. -/
def rejoined : List (Label Job Choice) :=
  .start (.dropCaptcha newcomer 3) :: issue 0 0 ++ steps 1 2 ++ [later 1 300] ++ steps 1 5 ++
    .start (.dropCaptcha newcomer 3) :: issue 2 2 ++ [later 1 301, later 1 1] ++ steps 1 6

theorem rejoined_too_early :
    ∃ c, system.Reach (JobsOf True (.of newcomer)) ⟨.initial, []⟩ c ∧ ¬ InTime (Pair.of newcomer).info c.shared.trace := by
  have hRun : (system.run ⟨.initial, []⟩ rejoined).any
      (fun c => !decide (InTime (Pair.of newcomer).info c.shared.trace)) = true := by
    decide +kernel
  obtain ⟨c, hc, hTrace⟩ := (Option.any_eq_true _ _).mp hRun
  refine ⟨c, reach_of_run (fun l hl c => ?_) hc, by simpa using hTrace⟩
  cases l with
  | start j =>
    have hj : j = .dropCaptcha newcomer 3 := by simpa [rejoined, issue, steps, later, answer] using hl
    exact hj ▸ ⟨rfl, fun _ => newcomer_proper⟩
  | step t ch => trivial

end TeaBot.Captcha.Deadline
