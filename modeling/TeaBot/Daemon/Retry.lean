import TeaBot.Daemon.Dispatch
import TeaBot.Foundation.Recorded

/-! # Retries

Where a coroutine goes after a failed connect, and whether it ever comes to an end.
-/

namespace TeaBot.Daemon.Dispatch

open Foundation Foundation.System

/-! ## Among other coroutines -/

def begun (x : Nat × Event Op Op.Res Empty) : Option (Nat × Nat) :=
  match x.2.op with
  | .client i => some (x.1, i)
  | _ => none

abbrev Recorded := Config (World × List (Nat × Event Op Op.Res Empty)) Op Op.Res Empty Unit Job

def tries (c : Recorded) : List (Nat × Nat) := c.shared.2.filterMap begun

theorem tries_reach {n : Nat} {c : Recorded}
    (hReach : (system n).recorded.Reach (fun c l => cooperative c.forget l = true) ⟨(.initial, []), []⟩ c) :
    (tries c).map Prod.snd = c.shared.1.attempts := by
  induction hReach with
  | refl => rfl
  | @step c₁ c₂ l _ _ hNext ih =>
    cases l with
    | start j =>
      cases hNext
      exact ih
    | step t ch =>
      obtain ⟨j, o, k, _, _, _, hExec, rfl⟩ := next_step_eq_some hNext
      obtain ⟨⟨r, w'⟩, hPlain, hEq⟩ := Option.map_eq_some_iff.mp hExec
      cases hEq
      have hTries : tries ⟨(w', c₁.shared.2 ++ [(t, ⟨o, r⟩)]),
          c₁.threads.set t (j, k r) ++ ((system n).recorded.spawned o r).map (system n).recorded.fresh⟩ =
          tries c₁ ++ (begun (t, ⟨o, r⟩)).toList := by
        simp only [tries, List.filterMap_append]
        cases hBegun : begun (t, ⟨o, r⟩) <;> simp [hBegun]
      rw [hTries, List.map_append, ih]
      cases o with
      | client i =>
        cases hPlain
        rfl
      | beyond => cases hPlain
      | tableGet =>
        cases hPlain
        exact List.append_nil _
      | tableSet i =>
        cases hPlain
        exact List.append_nil _
      | connected i =>
        cases hPlain
        exact List.append_nil _
      | fwrite rawData =>
        cases hPlain
        exact List.append_nil _
      | fclose =>
        cases hPlain
        exact List.append_nil _

/-- Attempt `q` is the retry of attempt `p`: the next one of the same coroutine. -/
structure Retries (c : Recorded) (t p i q j : Nat) : Prop where
  lt : p < q
  failed : (tries c)[p]? = some (t, i)
  again : (tries c)[q]? = some (t, j)
  between : ∀ m, p < m → m < q → ∀ k, (tries c)[m]? ≠ some (t, k)

theorem dvd_sub_iff_mod_eq {n p q : Nat} (h : p < q) : n ∣ q - p ↔ p % n = q % n :=
  (Nat.modEq_iff_dvd' h.le).symm

/-- A retry goes to another worker exactly when the attempts from the failed one up to the
retry, those of the other coroutines included, are not a multiple of the workers. -/
theorem retry_elsewhere_iff {n : Nat} (hn : 2 ≤ n) {c : Recorded}
    (hReach : (system n).recorded.Reach (fun c l => cooperative c.forget l = true) ⟨(.initial, []), []⟩ c)
    {t p i q j : Nat} (hRetries : Retries c t p i q j) : j ≠ i ↔ ¬ n ∣ q - p := by
  have hPlain : (system n).Reach (fun c l => cooperative c l = true) ⟨.initial, []⟩ c.forget :=
    reach_forget (fun c l => cooperative c l = true) hReach
  obtain ⟨_, _, hFair⟩ := fair_reach (by omega) hPlain
  have hTries := tries_reach hReach
  have hIndex : ∀ m u k, (tries c)[m]? = some (u, k) → k = m % n := by
    intro m u k hm
    have hAttempt : c.shared.1.attempts[m]? = some k := by
      rw [← hTries, List.getElem?_map, hm]
      rfl
    rw [show c.shared.1.attempts = _ from hFair.cyclic, cycle, List.getElem?_map] at hAttempt
    obtain ⟨m', hm', rfl⟩ := Option.map_eq_some_iff.mp hAttempt
    obtain ⟨_, hEq⟩ := List.getElem?_eq_some_iff.mp hm'
    rw [← hEq, List.getElem_range]
  rw [hIndex p t i hRetries.failed, hIndex q t j hRetries.again, dvd_sub_iff_mod_eq hRetries.lt]
  exact not_congr eq_comm

def retried (others : List (Label Job Bool)) : List (Label Job Bool) :=
  [.start ⟨[1], 3⟩, .start ⟨[2], 3⟩] ++ List.replicate 3 (.step 0 true) ++ others ++
    [.step 0 false] ++ List.replicate 3 (.step 0 true)

theorem run_retried (others : List (Label Job Bool)) (expected : List (Nat × Nat))
    (hRun : ((system 2).recorded.runWhile (fun c l => cooperative c.forget l) ⟨(.initial, []), []⟩
      (retried others)).any (fun c => tries c = expected) = true) :
    ∃ c, (system 2).recorded.Reach (fun c l => cooperative c.forget l = true) ⟨(.initial, []), []⟩ c ∧
      tries c = expected := by
  obtain ⟨c, hc, hTries⟩ := (Option.any_eq_true _ _).mp hRun
  exact ⟨c, reach_of_runWhile (fun _ _ _ hOk => hOk) hc, of_decide_eq_true hTries⟩

theorem retry_elsewhere_alone : ∃ c, Retries c 0 0 0 1 1 ∧ (1 ≠ 0 ↔ ¬ 2 ∣ 1 - 0) := by
  obtain ⟨c, hReach, hTries⟩ := run_retried [] [(0, 0), (0, 1)] (by decide +kernel)
  have hRetries : Retries c 0 0 0 1 1 := ⟨by decide, by rw [hTries]; rfl, by rw [hTries]; rfl, by omega⟩
  exact ⟨c, hRetries, retry_elsewhere_iff (by decide) hReach hRetries⟩

/-- While the first connect is under way another coroutine takes the second worker, and
the retry is back at the one that failed. -/
theorem retry_same_worker :
    ∃ c, (system 2).recorded.Reach (fun c l => cooperative c.forget l = true) ⟨(.initial, []), []⟩ c ∧
      Retries c 0 0 0 2 0 := by
  obtain ⟨c, hReach, hTries⟩ := run_retried (List.replicate 3 (.step 1 true))
    [(0, 0), (1, 1), (0, 0)] (by decide +kernel)
  refine ⟨c, hReach, by decide, by rw [hTries]; rfl, by rw [hTries]; rfl, fun m hp hq k => ?_⟩
  obtain rfl : m = 1 := by omega
  rw [hTries]
  simp

/-! ## Alone -/

/-- What one call has done: the attempts, the open connection, and what the workers got. -/
structure Solo where
  i : Nat
  attempts : List Nat := []
  fp : Option Nat := none
  received : List (Nat × Bytes) := []

/-- `up` tells which workers accept connections. -/
def answer (up : Nat → Bool) (s : Solo) : (o : Op) → Option (Except Empty o.Res × Solo)
  | .tableGet => some (.ok s.i, s)
  | .tableSet i => some (.ok (), { s with i := i })
  | .client i => some (.ok (), { s with attempts := s.attempts ++ [i] })
  | .connected i => some (.ok (up i), { s with fp := if up i then some i else none })
  | .fwrite rawData => some (.ok (), { s with received := s.received ++ s.fp.toList.map (·, rawData) })
  | .fclose => some (.ok (), { s with fp := none })
  | .beyond => none

/-- `none` when the call has not returned within its rounds. -/
def runAlone (up : Nat → Bool) : Run Unit → Solo → Option Solo
  | .ret _, s => some s
  | .throw e, _ => nomatch e
  | .op o k, s =>
    match answer up s o with
    | some (r, s') => runAlone up (k r) s'
    | none => none

section Alone

variable {n : Nat} {up : Nat → Bool} {rawData : Bytes}

def wrap (n i : Nat) : Nat := if i ≥ n then 0 else i

theorem runAlone_succ (rounds : Nat) (s : Solo) :
    runAlone up (sendToLogger n rawData (rounds + 1)) s =
      if up (wrap n s.i) then
        some ⟨wrap n s.i + 1, s.attempts ++ [wrap n s.i], none, s.received ++ [(wrap n s.i, rawData)]⟩
      else runAlone up (sendToLogger n rawData rounds)
        ⟨wrap n s.i + 1, s.attempts ++ [wrap n s.i], none, s.received⟩ := by
  change runAlone up (if up (wrap n s.i) then _ else _)
    ⟨wrap n s.i + 1, s.attempts ++ [wrap n s.i], if up (wrap n s.i) then some (wrap n s.i) else none, s.received⟩ = _
  cases hUp : up (wrap n s.i) with
  | true => rfl
  | false => rfl

theorem wrap_lt (hn : 0 < n) (i : Nat) : wrap n i < n := by
  rw [wrap]
  split <;> omega

theorem wrap_succ (hn : 0 < n) (i : Nat) : wrap n (wrap n i + 1) = (wrap n i + 1) % n := by
  have hLt := wrap_lt hn i
  by_cases hEnd : wrap n i + 1 = n
  · rw [hEnd, Nat.mod_self, wrap, if_pos le_rfl]
  · rw [wrap, if_neg (by omega), Nat.mod_eq_of_lt (by omega)]

/-- A worker that is up is found after as many rounds as it is away in the cyclic order. -/
theorem runAlone_finds (rawData : Bytes) (hn : 0 < n) {d : Nat} {s : Solo} (hUp : up ((wrap n s.i + d) % n) = true) :
    ∃ rounds k s', runAlone up (sendToLogger n rawData rounds) s = some s' ∧
      s'.attempts.length ≤ s.attempts.length + (d + 1) ∧ up k = true ∧
      s'.received = s.received ++ [(k, rawData)] := by
  induction d generalizing s with
  | zero =>
    rw [Nat.add_zero, Nat.mod_eq_of_lt (wrap_lt hn s.i)] at hUp
    exact ⟨1, wrap n s.i, _, (runAlone_succ 0 s).trans (if_pos hUp), by simp, hUp, rfl⟩
  | succ d ih =>
    by_cases hHere : up (wrap n s.i) = true
    · refine ⟨1, wrap n s.i, _, (runAlone_succ 0 s).trans (if_pos hHere), ?_, hHere, rfl⟩
      simp only [List.length_append, List.length_singleton]
      omega
    · have hNext : up ((wrap n (wrap n s.i + 1) + d) % n) = true := by
        rwa [wrap_succ hn, Nat.mod_add_mod, Nat.add_assoc, Nat.add_comm 1]
      obtain ⟨rounds, k, s', hRun, hAttempts, hk, hReceived⟩ :=
        ih (s := ⟨wrap n s.i + 1, s.attempts ++ [wrap n s.i], none, s.received⟩) hNext
      refine ⟨rounds + 1, k, s', (runAlone_succ rounds s).trans ((if_neg hHere).trans hRun), ?_, hk, hReceived⟩
      simp only [List.length_append, List.length_singleton] at hAttempts
      omega

theorem runAlone_never (hn : 0 < n) (hDown : ∀ k < n, up k = false) (rounds : Nat) (s : Solo) :
    runAlone up (sendToLogger n rawData rounds) s = none := by
  induction rounds generalizing s with
  | zero => rfl
  | succ rounds ih => rw [runAlone_succ, hDown _ (wrap_lt hn s.i), if_neg Bool.false_ne_true, ih]

end Alone

/-- The call ends as it should: after at most one attempt per worker, and with the data
at one worker if there is any to take it. -/
def Dispatched (n : Nat) (up : Nat → Bool) (rawData : Bytes) (i : Nat) : Prop :=
  ∃ rounds s, runAlone up (sendToLogger n rawData rounds) { i := i } = some s ∧ s.attempts.length ≤ n ∧
    ((∃ k < n, up k = true) → ∃ k, up k = true ∧ s.received = [(k, rawData)]) ∧
    ((∀ k < n, up k = false) → s.received = [])

theorem dispatched_iff {n : Nat} (hn : 1 ≤ n) (up : Nat → Bool) (rawData : Bytes) (i : Nat) :
    Dispatched n up rawData i ↔ ∃ k < n, up k = true := by
  constructor
  · rintro ⟨rounds, s, hRun, _⟩
    by_contra hNone
    have hDown : ∀ k < n, up k = false := fun k hk => Bool.eq_false_iff.mpr fun hUp => hNone ⟨k, hk, hUp⟩
    rw [runAlone_never hn hDown] at hRun
    cases hRun
  · rintro ⟨k, hk, hUp⟩
    -- the distance from where the search begins to worker `k`
    have hAway : (wrap n i + (k + n - wrap n i) % n) % n = k := by
      have hLt := wrap_lt hn i
      rw [Nat.add_mod_mod, show wrap n i + (k + n - wrap n i) = k + n by omega, Nat.add_mod_right, Nat.mod_eq_of_lt hk]
    obtain ⟨rounds, k', s, hRun, hAttempts, hUp', hReceived⟩ :=
      runAlone_finds (s := { i := i }) rawData hn (hAway.symm ▸ hUp)
    refine ⟨rounds, s, hRun, ?_, fun _ => ⟨k', hUp', hReceived⟩, fun hDown => ?_⟩
    · have hMod := Nat.mod_lt (k + n - wrap n i) hn
      simp only [List.length_nil] at hAttempts
      omega
    · rw [hDown k hk] at hUp
      cases hUp

theorem dispatched_second_up : Dispatched 2 (· == 1) [1] 0 ↔ ∃ k < 2, (k == 1) = true :=
  dispatched_iff (by decide) _ _ _

/-- A single worker that is down: the call tries it for ever. -/
theorem dispatch_never_ends (rounds : Nat) : runAlone (fun _ => false) (sendToLogger 1 [1] rounds) { i := 0 } = none :=
  runAlone_never (by decide) (fun _ _ => rfl) rounds _

theorem not_dispatched_down : ¬ Dispatched 1 (fun _ => false) [1] 0 := by
  rintro ⟨rounds, s, hRun, _⟩
  rw [dispatch_never_ends] at hRun
  cases hRun

end TeaBot.Daemon.Dispatch
