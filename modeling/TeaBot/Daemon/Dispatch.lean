import Mathlib.Data.Nat.Count
import Mathlib.Data.Nat.ModEq
import Mathlib.Data.Int.CardIntervalMod
import TeaBot.Daemon.Framing
import TeaBot.Foundation.TypedRuns

/-! # Dispatch to the logger workers

The master's coroutines share one row of a table. They give way only inside
`stream_socket_client` and the writes: what begins with a read of the row and ends with
the beginning of a connect is not interrupted.
-/

namespace TeaBot.Daemon.Dispatch

open Foundation Foundation.System

inductive Op
  /-- `$table["logger"]["i"]`, read and written. -/
  | tableGet
  | tableSet (i : Nat)
  /-- `stream_socket_client` for worker `i` begins, and returns. -/
  | client (i : Nat)
  | connected (i : Nat)
  | fwrite (rawData : Bytes)
  | fclose
  /-- Where the rounds of the loop are used up: there is no answer to it. -/
  | beyond

@[reducible] def Op.Res : Op → Type
  | .tableGet => Nat
  | .connected _ => Bool
  | _ => Unit

abbrev Run (α : Type) := Prog Op Op.Res Empty α

def perform (o : Op) : Run (Op.Res o) := Prog.perform o

/-- `goto send_data` is followed for a number of rounds. -/
def sendToLogger (nlogger : Nat) (rawData : Bytes) : Nat → Run Unit
  | 0 => perform .beyond
  | rounds + 1 => do
    let i ← perform .tableGet
    let i := if i ≥ nlogger then 0 else i
    perform (.tableSet (i + 1))
    perform (.client i)
    let fp ← perform (.connected i)
    if fp then do
      perform (.fwrite rawData)
      perform .fclose
    else sendToLogger nlogger rawData rounds

/-! ## The master -/

structure Job where
  rawData : Bytes
  rounds : Nat
  deriving DecidableEq

structure World where
  i : Nat
  /-- The workers that connects were begun to, in this order. -/
  attempts : List Nat

def World.initial : World := ⟨0, []⟩

def exec (_ : Nat) (_ : Job) (o : Op) (ch : Bool) (w : World) : Option (Except Empty o.Res × World) :=
  match o with
  | .tableGet => some (.ok w.i, w)
  | .tableSet i => some (.ok (), { w with i := i })
  | .client i => some (.ok (), { w with attempts := w.attempts ++ [i] })
  | .connected _ => some (.ok ch, w)
  | .fwrite _ | .fclose => some (.ok (), w)
  | .beyond => none

def system (nlogger : Nat) : System World Op Op.Res Empty Unit Job Bool where
  code j := sendToLogger nlogger j.rawData j.rounds
  exec := exec
  spawned _ _ := []

abbrev Conf := Config World Op Op.Res Empty Unit Job

/-- A coroutine that has to go on before any other does. -/
def busy : Run Unit → Bool
  | .op (.tableSet _) _ | .op (.client _) _ => true
  | _ => false

def cooperative (c : Conf) : Label Job Bool → Bool
  | .start _ => true
  | .step t _ => (List.range c.threads.length).all fun u => u = t || !(c.threads[u]?.any fun x => busy x.2)

/-! ## What a coroutine does with the index -/

inductive Stage
  | idle
  | read (i : Nat)
  | wrote (i : Nat)
  deriving DecidableEq

def Admits : Stage → Op → Prop
  | .read i, o => o = .tableSet (i + 1)
  | .wrote i, o => o = .client i
  | .idle, .tableSet _ | .idle, .client _ => False
  | .idle, _ => True

def after (n : Nat) : Stage → (o : Op) → Except Empty o.Res → Stage
  | _, .tableGet, .ok i => .read (if i ≥ n then 0 else i)
  | .read i, .tableSet _, _ => .wrote i
  | _, _, _ => .idle

def drawing (n : Nat) : Discipline Op Op.Res Empty Stage where
  admits := Admits
  answers o _ := o ≠ .beyond
  after := after n

def ends (_ : Job) (_ : Except Empty Unit) (s : Stage) : Prop := s = .idle

theorem sendToLogger_keeps (n : Nat) (rawData : Bytes) (rounds : Nat) :
    (sendToLogger n rawData rounds).Keeps (drawing n) (fun _ s => s = .idle) .idle := by
  induction rounds with
  | zero => exact ⟨trivial, fun r hr => absurd rfl hr⟩
  | succ rounds ih =>
    refine .perform_then trivial fun i _ => ?_
    refine .perform_then rfl fun _ _ => .perform_then rfl fun _ _ => ?_
    refine .perform_then trivial fun fp _ => ?_
    cases fp with
    | false => exact ih
    | true => exact .perform_then trivial fun _ _ => .perform trivial fun r _ => rfl

variable {n : Nat}

theorem busy_of_stage {j : Job} {q : Run Unit} {s : Stage} (hKeeps : q.Keeps (drawing n) (ends j) s) (hs : s ≠ .idle) :
    busy q = true := by
  cases q with
  | ret a | throw e => exact absurd hKeeps hs
  | op o k =>
    obtain ⟨hAdmits, _⟩ := hKeeps
    cases s with
    | idle => exact absurd rfl hs
    | read i =>
      cases hAdmits
      rfl
    | wrote i =>
      cases hAdmits
      rfl

/-! ## The cyclic order -/

def row (n : Nat) : Nat → Nat
  | 0 => 0
  | k + 1 => k % n + 1

theorem wrap_row (hn : 0 < n) (k : Nat) : (if row n k ≥ n then 0 else row n k) = k % n := by
  cases k with
  | zero => simp [row]
  | succ k =>
    have hLt := Nat.mod_lt k hn
    rw [row, ← Nat.mod_add_mod]
    by_cases hEq : k % n + 1 = n
    · rw [hEq, Nat.mod_self, if_pos le_rfl]
    · rw [if_neg (by omega), Nat.mod_eq_of_lt (by omega : k % n + 1 < n)]

def cycle (n k : Nat) : List Nat := (List.range k).map (· % n)

theorem cycle_succ (n k : Nat) : cycle n (k + 1) = cycle n k ++ [k % n] := by
  rw [cycle, List.range_succ, List.map_append]
  rfl

theorem count_cycle {i : Nat} (hi : i < n) (k : Nat) : (cycle n k).count i = k / n + if i < k % n then 1 else 0 := by
  have hCount : (cycle n k).count i = k.count (· ≡ i [MOD n]) := by
    induction k with
    | zero => rfl
    | succ k ih =>
      rw [cycle_succ, List.count_append, ih, Nat.count_succ, List.count_singleton]
      simp [Nat.ModEq, Nat.mod_eq_of_lt hi]
  rw [hCount, Nat.count_modEq_card k (Nat.zero_lt_of_lt hi), Nat.mod_eq_of_lt hi]

/-! ## Runs -/

def Phase (n : Nat) (w : World) : Stage → Prop
  | .idle => w.i = row n w.attempts.length
  | .read i => i = w.attempts.length % n ∧ w.i = row n w.attempts.length
  | .wrote i => i = w.attempts.length % n ∧ w.i = i + 1

structure Fair (n : Nat) (φ : Nat → Stage) (w : World) : Prop where
  cyclic : w.attempts = cycle n w.attempts.length
  phase : ∃ t, (∀ u, u ≠ t → φ u = .idle) ∧ Phase n w (φ t)

theorem phase_step {s : Stage} {w w' : World} {t : Nat} {j : Job} {o : Op} {ch : Bool} {r : Except Empty o.Res}
    (hn : 0 < n) (hCyclic : w.attempts = cycle n w.attempts.length) (hPhase : Phase n w s) (hAdmits : Admits s o)
    (hExec : exec t j o ch w = some (r, w')) :
    w'.attempts = cycle n w'.attempts.length ∧ Phase n w' (after n s o r) := by
  cases s with
  | idle =>
    cases o with
    | tableGet =>
      cases hExec
      refine ⟨hCyclic, ?_, hPhase⟩
      rw [show w.i = row n w.attempts.length from hPhase]
      exact wrap_row hn _
    | connected i =>
      cases hExec
      exact ⟨hCyclic, hPhase⟩
    | fwrite rawData =>
      cases hExec
      exact ⟨hCyclic, hPhase⟩
    | fclose =>
      cases hExec
      exact ⟨hCyclic, hPhase⟩
    | tableSet i => cases hAdmits
    | client i => cases hAdmits
    | beyond => cases hExec
  | read i =>
    cases hAdmits
    cases hExec
    exact ⟨hCyclic, hPhase.1, rfl⟩
  | wrote i =>
    cases hAdmits
    cases hExec
    obtain ⟨hIndex, hRow⟩ := hPhase
    refine ⟨?_, ?_⟩
    · rw [List.length_append, List.length_singleton, cycle_succ, ← hCyclic, ← hIndex]
    · change w.i = row n (w.attempts ++ [i]).length
      rw [List.length_append, List.length_singleton, row, hRow, hIndex]

section Runs

variable {n : Nat} {gs : List (Job × Stage)} {c : Conf}

theorem idle_of_cooperative (hTyped : Typed (drawing n) ends gs c) {t : Nat} {ch : Bool}
    (hOk : cooperative c (.step t ch) = true) (u : Nat) (hu : u ≠ t) : stateOf .idle gs u = .idle := by
  cases hState : gs[u]? with
  | none => simp [stateOf, hState]
  | some x =>
    obtain ⟨q, hThread, hKeeps⟩ := hTyped.thread hState
    rw [stateOf_eq hState]
    by_contra hActive
    have hBusy := busy_of_stage hKeeps hActive
    have hAll := List.all_eq_true.mp hOk u (List.mem_range.mpr (List.getElem?_eq_some_iff.mp hThread).1)
    simp [hu, hThread, hBusy] at hAll

theorem fair_reach (hn : 0 < n)
    (hReach : (system n).Reach (fun c l => cooperative c l = true) ⟨.initial, []⟩ c) :
    ∃ gs, Typed (drawing n) ends gs c ∧ Fair n (stateOf .idle gs) c.shared := by
  have hCode : ∀ j : Job, True → ((system n).code j).Keeps (drawing n) (ends j) .idle := fun j _ =>
    sendToLogger_keeps n j.rawData j.rounds
  refine Typed.reach (J := fun gs w => Fair n (stateOf .idle gs) w) hCode ?_ ?_ (.nil _) ?_ hReach
  · intro c gs j _ hFair _
    refine ⟨trivial, ?_⟩
    have hSame : stateOf Stage.idle (gs ++ [(j, .idle)]) = stateOf .idle gs := by
      funext u
      rw [stateOf_append]
      split
      · rfl
      · rename_i hu
        have hNone : gs[u]? = none := by simpa using hu
        simp only [stateOf, hNone]
        cases u - gs.length <;> rfl
    rwa [hSame]
  · intro c gs t ch j s o k r w' hTyped hFair hOk hThread hState hAdmits hExec
    refine ⟨?_, fun _ hj => absurd hj List.not_mem_nil, ?_⟩
    · rintro rfl
      cases hExec
    · have hAlone := idle_of_cooperative hTyped hOk
      have hPhase : Phase n c.shared s := by
        obtain ⟨t₀, hOthers, hPhase⟩ := hFair.phase
        by_cases ht : t = t₀
        · rwa [← ht, stateOf_eq hState] at hPhase
        · rw [hAlone t₀ (Ne.symm ht)] at hPhase
          rwa [← stateOf_eq hState, hOthers t ht]
      obtain ⟨hCyclic, hPhase'⟩ := phase_step (t := t) (j := j) hn hFair.cyclic hPhase hAdmits hExec
      change Fair n (stateOf .idle (gs.set t (j, after n s o r) ++ [])) w'
      rw [List.append_nil, stateOf_set hState]
      refine ⟨hCyclic, t, fun u hu => ?_, by rwa [Function.update_self]⟩
      rw [Function.update_of_ne hu, hAlone u hu]
  · exact ⟨rfl, 0, fun _ _ => rfl, rfl⟩

/-- The workers in turn: each attempt in range, the attempts cyclic, and so balanced. -/
theorem round_robin (n : Nat) (hn : 1 ≤ n) (c : Conf)
    (hReach : (system n).Reach (fun c l => cooperative c l = true) ⟨.initial, []⟩ c) :
    (∀ i ∈ c.shared.attempts, i < n) ∧
      (∀ k i, c.shared.attempts[k]? = some i → i = k % n) ∧
      ∀ i j, i < n → j < n → c.shared.attempts.count i ≤ c.shared.attempts.count j + 1 := by
  obtain ⟨gs, _, hFair⟩ := fair_reach hn hReach
  refine ⟨fun i hi => ?_, fun k i hk => ?_, fun i j hi hj => ?_⟩
  · rw [hFair.cyclic, cycle] at hi
    obtain ⟨k, _, rfl⟩ := List.mem_map.mp hi
    exact Nat.mod_lt k hn
  · rw [hFair.cyclic, cycle, List.getElem?_map] at hk
    obtain ⟨k', hk', rfl⟩ := Option.map_eq_some_iff.mp hk
    obtain ⟨_, hEq⟩ := List.getElem?_eq_some_iff.mp hk'
    rw [List.getElem_range] at hEq
    rw [hEq]
  · rw [hFair.cyclic, count_cycle hi, count_cycle hj]
    split <;> split <;> omega

end Runs

/-- Two workers, of which the second does not answer the first time. -/
def relayed : List (Label Job Bool) :=
  [.start ⟨[1], 3⟩, .start ⟨[2], 3⟩] ++ List.replicate 3 (.step 0 true) ++ List.replicate 3 (.step 1 true) ++
    [.step 1 false] ++ List.replicate 6 (.step 1 true) ++ List.replicate 3 (.step 0 true)

theorem round_robin_relayed : ∃ c, (system 2).runWhile cooperative ⟨.initial, []⟩ relayed = some c ∧
    c.shared.attempts = [0, 1, 0] ∧ c.shared.attempts.count 0 ≤ c.shared.attempts.count 1 + 1 := by
  have hRun : ((system 2).runWhile cooperative ⟨.initial, []⟩ relayed).any (fun c => c.shared.attempts = [0, 1, 0]) = true := by
    decide +kernel
  obtain ⟨c, hc, hAttempts⟩ := (Option.any_eq_true _ _).mp hRun
  have hReach : (system 2).Reach (fun c l => cooperative c l = true) ⟨.initial, []⟩ c :=
    reach_of_runWhile (fun _ _ _ hOk => hOk) hc
  refine ⟨c, hc, of_decide_eq_true hAttempts, ?_⟩
  exact (round_robin 2 (by decide) c hReach).2.2 0 1 (by decide) (by decide)

end TeaBot.Daemon.Dispatch
