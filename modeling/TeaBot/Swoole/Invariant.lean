import TeaBot.Loggers.Sync
import TeaBot.Swoole.Phases

/-! # The invariant of the runtime -/

namespace TeaBot.Swoole

open Foundation Loggers

/-! ## What the phase of a coroutine says about locks, flags and channels -/

/-- To a coroutine that is not in a call of the lock manager. -/
def standing (held : List Mutex) (m : Mutex) : LockRole := if m ∈ held then .holds else .out

def flagged (held : List Mutex) (m : Mutex) : Bool := decide (m ∈ held)

namespace Local

def lockRole (d : Local) : Mutex → LockRole :=
  match d.phase with
  | .lock m x _ => Function.update (standing d.held) m x
  | _ => standing d.held

def chanRole (d : Local) : Nat → ChanRole :=
  match d.phase with
  | .chan i x => Function.update (fun _ => .out) i x
  | _ => fun _ => .out

/-- `lock_flag` lags behind while it is about to be set. -/
def flag (d : Local) : Mutex → Bool :=
  match d.phase with
  | .flagging m locked => Function.update (flagged d.held) m (!locked)
  | .lock m (.hands _) _ | .closing m => Function.update (flagged d.held) m true
  | _ => flagged d.held

/-- What is held before the coroutine begins and in the phases of a call on a lock file. -/
def Fits (d : Local) : Prop :=
  match d.phase with
  | .fresh => d.held = []
  | .releasing m | .lock m (.leaves _) _ | .flagging m true => m ∈ d.held
  | .shutting m | .closing m | .lock m _ _ | .flagging m false => m ∉ d.held
  | _ => True

end Local

theorem standing_cons (held : List Mutex) (m : Mutex) :
    standing (m :: held) = Function.update (standing held) m .holds := by
  funext m'
  by_cases hm : m' = m <;> simp [standing, hm]

theorem standing_filter (held : List Mutex) (m : Mutex) :
    standing (held.filter (· ≠ m)) = Function.update (standing held) m .out := by
  funext m'
  by_cases hm : m' = m <;> simp [standing, hm]

theorem flagged_cons (held : List Mutex) (m : Mutex) :
    flagged (m :: held) = Function.update (flagged held) m true := by
  funext m'
  by_cases hm : m' = m <;> simp [flagged, hm]

theorem flagged_filter (held : List Mutex) (m : Mutex) :
    flagged (held.filter (· ≠ m)) = Function.update (flagged held) m false := by
  funext m'
  by_cases hm : m' = m <;> simp [flagged, hm]

theorem standing_cases (held : List Mutex) (m : Mutex) : standing held m = .out ∨ standing held m = .holds := by
  unfold standing
  split
  · exact .inr rfl
  · exact .inl rfl

/-! ## All coroutines together -/

section View

variable {X : Type} {f : Local → X} {x₀ : X} {gs : List (Task × Local)} {t : Nat} {task : Task} {d : Local}

/-- What `f` says of each coroutine; `x₀` of one that does not exist. -/
def view (f : Local → X) (x₀ : X) (gs : List (Task × Local)) (t : Nat) : X := (gs[t]?).elim x₀ fun g => f g.2

theorem view_eq (h : gs[t]? = some (task, d)) : view f x₀ gs t = f d := by
  simp [view, h]

theorem view_length : view f x₀ gs gs.length = x₀ := by
  simp [view]

theorem view_set (h : gs[t]? = some (task, d)) (d' : Local) :
    view f x₀ (gs.set t (task, d')) = Function.update (view f x₀ gs) t (f d') := by
  have hLt := (List.getElem?_eq_some_iff.mp h).1
  funext u
  by_cases hu : u = t
  · subst hu
    simp [view, hLt]
  · simp [view, List.getElem?_set_ne (Ne.symm hu), hu]

theorem view_append (g : Task × Local) :
    view f x₀ (gs ++ [g]) = Function.update (view f x₀ gs) gs.length (f g.2) := by
  funext u
  by_cases hu : u < gs.length
  · simp [view, List.getElem?_append_left hu, Nat.ne_of_lt hu]
  · by_cases hEq : u = gs.length
    · subst hEq
      simp [view]
    · have hLt : gs.length < u := by omega
      have hNone : gs[u]? = none := List.getElem?_eq_none (by omega)
      have hNone' : (gs ++ [g])[u]? = none := List.getElem?_eq_none (by simp; omega)
      simp [view, hNone, hNone', hEq]

theorem view_append_same {g : Task × Local} (hx : f g.2 = x₀) : view f x₀ (gs ++ [g]) = view f x₀ gs := by
  rw [view_append, Function.update_eq_self_iff, view_length, hx]

theorem update_view (h : gs[t]? = some (task, d)) {x : X} (hx : x = f d) :
    Function.update (view f x₀ gs) t x = view f x₀ gs := by
  have hView : view f x₀ gs t = f d := view_eq h
  rw [hx, ← hView, Function.update_eq_self]

end View

abbrev procs (gs : List (Task × Local)) : Nat → Option Nat := view (fun d => some d.proc) none gs

abbrev places (gs : List (Task × Local)) : Nat → Place := view (fun d => d.phase.place) .absent gs

abbrev lockRoles (gs : List (Task × Local)) : Nat → Mutex → LockRole := view Local.lockRole (fun _ => .out) gs

abbrev chanRoles (gs : List (Task × Local)) : Nat → Nat → ChanRole := view Local.chanRole (fun _ => .out) gs

/-- `gs` lists the coroutines of all processes. -/
structure Inv (gs : List (Task × Local)) (s : Procs Runtime) : Prop where
  proc : ∀ g ∈ gs, g.2.proc = g.1.proc
  stacked : Stacked (procs gs) (places gs) s.stack s.dead
  custody : ∃ line, Custody s.dead (procs gs) s.stack (lockRoles gs) s.shared.lockPool s.shared.world.locks line
  channels : ∃ pend, Channels s.dead (procs gs) s.stack (chanRoles gs) s.shared.channels s.shared.world.chans pend
  flags : ∀ t m, s.shared.lockFlag (t, m) = view Local.flag (fun _ => false) gs t m
  home : ∀ t g, gs[t]? = some g → g.2.phase ≠ .fresh → s.home t = some g.2.proc
  fits : ∀ g ∈ gs, g.2.Fits
  keeps : ∀ g ∈ gs, g.2.prog.Keeps conduct (fun out c => Discharged out c.duty) g.2.conduct

namespace Inv

variable {gs : List (Task × Local)} {s s' : Procs Runtime} {t : Nat} {task : Task} {d : Local}

theorem set (h : Inv gs s) (d' : Local) (hGet : gs[t]? = some (task, d)) (hProc : d'.proc = d.proc)
    (hStacked : Stacked (procs gs) (Function.update (places gs) t d'.phase.place) s'.stack s'.dead)
    (hCustody : ∃ line, Custody s'.dead (procs gs) s'.stack (Function.update (lockRoles gs) t d'.lockRole)
      s'.shared.lockPool s'.shared.world.locks line)
    (hChannels : ∃ pend, Channels s'.dead (procs gs) s'.stack (Function.update (chanRoles gs) t d'.chanRole)
      s'.shared.channels s'.shared.world.chans pend)
    (hFlags : ∀ u m, s'.shared.lockFlag (u, m) = if u = t then d'.flag m else s.shared.lockFlag (u, m))
    (hHome : ∀ u, s'.home u = if u = t then some d.proc else s.home u) (hFits : d'.Fits)
    (hKeeps : d'.prog.Keeps conduct (fun out c => Discharged out c.duty) d'.conduct) :
    Inv (gs.set t (task, d')) s' := by
  have hProcs : procs (gs.set t (task, d')) = procs gs := by
    rw [procs, view_set hGet]
    exact update_view hGet (by rw [hProc])
  have hMem : ∀ g ∈ gs.set t (task, d'), g ∈ gs ∨ g = (task, d') := fun g => List.mem_or_eq_of_mem_set
  refine ⟨fun g hg => ?_, ?_, ?_, ?_, fun u m => ?_, fun u g hu hBegun => ?_, fun g hg => ?_, fun g hg => ?_⟩
  · rcases hMem g hg with hOld | rfl
    · exact h.proc g hOld
    · exact hProc.trans (h.proc _ (List.mem_of_getElem? hGet))
  · rw [hProcs, places, view_set hGet]
    exact hStacked
  · rw [hProcs, lockRoles, view_set hGet]
    exact hCustody
  · rw [hProcs, chanRoles, view_set hGet]
    exact hChannels
  · rw [hFlags, view_set hGet]
    by_cases hu : u = t
    · subst hu
      simp
    · rw [if_neg hu, h.flags, Function.update_of_ne hu]
  · rw [hHome]
    by_cases hut : u = t
    · subst hut
      rw [List.getElem?_set_self (List.getElem?_eq_some_iff.mp hGet).1] at hu
      cases hu
      simp [hProc]
    · rw [List.getElem?_set_ne (Ne.symm hut)] at hu
      rw [if_neg hut]
      exact h.home u g hu hBegun
  · rcases hMem g hg with hOld | rfl
    · exact h.fits g hOld
    · exact hFits
  · rcases hMem g hg with hOld | rfl
    · exact h.keeps g hOld
    · exact hKeeps

theorem append (h : Inv gs s) {g : Task × Local} (hProc : g.2.proc = g.1.proc) (hPhase : g.2.phase = .fresh)
    (hHeld : g.2.held = []) (hKeeps : g.2.prog.Keeps conduct (fun out c => Discharged out c.duty) g.2.conduct) :
    Inv (gs ++ [g]) s := by
  have hMem : ∀ g' ∈ gs ++ [g], g' ∈ gs ∨ g' = g := fun g' hg' => by simpa using hg'
  have hAbsent : procs gs gs.length = none := view_length
  have hProcs : procs (gs ++ [g]) = Function.update (procs gs) gs.length (some g.2.proc) := view_append g
  have hLock : lockRoles (gs ++ [g]) = lockRoles gs := by
    refine view_append_same (funext fun m => ?_)
    simp [Local.lockRole, hPhase, standing, hHeld]
  have hChan : chanRoles (gs ++ [g]) = chanRoles gs := view_append_same (by simp [Local.chanRole, hPhase])
  obtain ⟨line, hCustody⟩ := h.custody
  obtain ⟨pend, hChannels⟩ := h.channels
  refine ⟨fun g' hg' => ?_, ?_, ⟨line, ?_⟩, ⟨pend, ?_⟩, fun u m => ?_, fun u g' hu hBegun => ?_, fun g' hg' => ?_,
    fun g' hg' => ?_⟩
  · rcases hMem g' hg' with hOld | rfl
    · exact h.proc g' hOld
    · exact hProc
  · rw [hProcs, places, view_append, hPhase]
    exact h.stacked.append hAbsent
  · rw [hProcs, hLock]
    exact hCustody.append hAbsent fun m => congrFun view_length m
  · rw [hProcs, hChan]
    exact hChannels.append hAbsent fun i => congrFun view_length i
  · rw [h.flags, view_append]
    by_cases hu : u = gs.length
    · subst hu
      have hOff : g.2.flag m = false := by simp [Local.flag, hPhase, flagged, hHeld]
      rw [view_length, Function.update_self, hOff]
    · rw [Function.update_of_ne hu]
  · by_cases hLt : u < gs.length
    · rw [List.getElem?_append_left hLt] at hu
      exact h.home u g' hu hBegun
    · rw [List.getElem?_append_right (by omega)] at hu
      rw [List.mem_singleton.mp (List.mem_of_getElem? hu)] at hBegun
      exact absurd hPhase hBegun
  · rcases hMem g' hg' with hOld | rfl
    · exact h.fits g' hOld
    · simpa [Local.Fits, hPhase] using hHeld
  · rcases hMem g' hg' with hOld | rfl
    · exact h.keeps g' hOld
    · exact hKeeps

end Inv

end TeaBot.Swoole
