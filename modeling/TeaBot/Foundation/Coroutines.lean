import TeaBot.Foundation.TypedRuns

/-! # Coroutines on stacks

A process runs its coroutines on one stack. The running one is on top; under it are those
that resumed or created the one above and go on when that one yields or ends. When the
stack is empty the event loop goes on with a coroutine that sleeps, or a new one begins.
-/

namespace Foundation

inductive Sched (Job Op : Type)
  | begin
  | finish
  | yield
  /-- The event loop goes on with the coroutine. -/
  | wake
  | resume (c : Nat)
  | create (j : Job)
  /-- The process ends. -/
  | exit
  | own (o : Op)

@[reducible] def Sched.Res {Job Op : Type} (R : Op → Type) : Sched Job Op → Type
  | .own o => R o
  | _ => Unit

structure Procs (S : Type) where
  shared : S
  /-- The running coroutine first; `none` is one that is being created. -/
  stack : Nat → List (Option Nat) := fun _ => []
  dead : Nat → Bool := fun _ => false
  /-- The process of every coroutine that has begun. -/
  home : Nat → Option Nat := fun _ => none

namespace Procs

variable {S : Type}

def setStack (s : Procs S) (p : Nat) (l : List (Option Nat)) : Procs S :=
  { s with stack := Function.update s.stack p l }

def register (s : Procs S) (p t : Nat) (l : List (Option Nat)) : Procs S :=
  { s.setStack p l with home := Function.update s.home t (some p) }

/-- What lies under coroutine `t`, provided that it is the running one. -/
def under (s : Procs S) (p t : Nat) : Option (List (Option Nat)) :=
  match s.stack p with
  | some c :: rest => if c = t then some rest else none
  | _ => none

theorem under_eq_some {s : Procs S} {p t : Nat} {rest : List (Option Nat)} :
    s.under p t = some rest ↔ s.stack p = some t :: rest := by
  unfold under
  constructor
  · intro h
    split at h
    · rename_i c l hStack
      split at h
      · rename_i hEq
        rw [hStack, hEq, Option.some.inj h]
      · cases h
    · cases h
  · intro h
    simp [h]

end Procs

structure Kernel (S Op : Type) (R : Op → Type) (ε Job Choice : Type) where
  proc : Job → Nat
  /-- Operations that are carried out elsewhere, while the coroutine is suspended. -/
  remote : Op → Bool
  exec : Nat → Job → (o : Op) → Choice → S → Option (Except ε (R o) × S)
  /-- What the end of a process does to the shared state, given who belongs to which process. -/
  died : Nat → (Nat → Option Nat) → S → S

namespace Kernel

variable {S Op : Type} {R : Op → Type} {ε α Job Choice : Type}

def step (K : Kernel S Op R ε Job Choice) (t : Nat) (j : Job) (o : Sched Job Op) (ch : Choice) (s : Procs S) :
    Option (Except ε (o.Res R) × Procs S) :=
  if s.dead (K.proc j) then none
  else
    match o with
    | .begin =>
      match s.stack (K.proc j) with
      | [] => some (.ok (), s.register (K.proc j) t [some t])
      | none :: rest => some (.ok (), s.register (K.proc j) t (some t :: rest))
      | _ => none
    | .wake => if s.stack (K.proc j) = [] then some (.ok (), s.setStack (K.proc j) [some t]) else none
    | .finish => (s.under (K.proc j) t).map fun rest => (.ok (), s.setStack (K.proc j) rest)
    | .yield => (s.under (K.proc j) t).map fun rest => (.ok (), s.setStack (K.proc j) rest)
    | .resume c =>
      (s.under (K.proc j) t).map fun rest => (.ok (), s.setStack (K.proc j) (some c :: some t :: rest))
    | .create _ =>
      (s.under (K.proc j) t).map fun rest => (.ok (), s.setStack (K.proc j) (none :: some t :: rest))
    | .exit =>
      (s.under (K.proc j) t).map fun _ =>
        (.ok (), { s with
          shared := K.died (K.proc j) s.home s.shared
          stack := Function.update s.stack (K.proc j) []
          dead := Function.update s.dead (K.proc j) true })
    | .own o =>
      if K.remote o || (s.under (K.proc j) t).isSome then
        (K.exec t j o ch s.shared).map fun (r, x) => (r, { s with shared := x })
      else none

def spawned : (o : Sched Job Op) → Except ε (o.Res R) → List Job
  | .create j, .ok _ => [j]
  | _, _ => []

def system (K : Kernel S Op R ε Job Choice) (code : Job → Prog (Sched Job Op) (Sched.Res R) ε α) :
    System (Procs S) (Sched Job Op) (Sched.Res R) ε α Job Choice where
  code := code
  exec := K.step
  spawned := spawned

abbrev Co (Job Op : Type) (R : Op → Type) (ε α : Type) : Type := Prog (Sched Job Op) (Sched.Res R) ε α

def ask (o : Sched Job Op) : Co Job Op R ε (o.Res R) := Prog.perform o

/-- A coroutine from its creation to its end. What leaves `body` uncaught ends the process. -/
def coroutine (body : Co Job Op R ε Unit) : Co Job Op R ε Unit := do
  ask .begin
  body.tryCatch fun e => do
    ask .exit
    .throw e
  ask .finish

section Inversion

variable {K : Kernel S Op R ε Job Choice} {t : Nat} {j : Job} {ch : Choice} {s s' : Procs S}

theorem step_alive {o : Sched Job Op} {r : Except ε (o.Res R)} (h : K.step t j o ch s = some (r, s')) :
    s.dead (K.proc j) = false := by
  unfold step at h
  split at h
  · cases h
  · rename_i hAlive
    simpa using hAlive

variable {r : Except ε Unit}

theorem step_begin (h : K.step t j .begin ch s = some (r, s')) :
    r = .ok () ∧ ∃ rest, (s.stack (K.proc j) = none :: rest ∨ (s.stack (K.proc j) = [] ∧ rest = [])) ∧
      s' = s.register (K.proc j) t (some t :: rest) := by
  have hAlive := step_alive h
  simp only [step, hAlive, Bool.false_eq_true, if_false] at h
  split at h
  · rename_i hStack
    cases h
    exact ⟨rfl, [], .inr ⟨hStack, rfl⟩, rfl⟩
  · rename_i rest hStack
    cases h
    exact ⟨rfl, rest, .inl hStack, rfl⟩
  · cases h

theorem step_wake (h : K.step t j .wake ch s = some (r, s')) :
    r = .ok () ∧ s.stack (K.proc j) = [] ∧ s' = s.setStack (K.proc j) [some t] := by
  have hAlive := step_alive h
  simp only [step, hAlive, Bool.false_eq_true, if_false] at h
  split at h
  · rename_i hStack
    cases h
    exact ⟨rfl, hStack, rfl⟩
  · cases h

theorem map_under {X : Type} {p : Nat} {f : List (Option Nat) → X} {x : X}
    (h : (s.under p t).map f = some x) : ∃ rest, s.stack p = some t :: rest ∧ x = f rest := by
  obtain ⟨rest, hRest, rfl⟩ := Option.map_eq_some_iff.mp h
  exact ⟨rest, Procs.under_eq_some.mp hRest, rfl⟩

theorem step_yield (h : K.step t j .yield ch s = some (r, s')) :
    r = .ok () ∧ ∃ rest, s.stack (K.proc j) = some t :: rest ∧ s' = s.setStack (K.proc j) rest := by
  have hAlive := step_alive h
  simp only [step, hAlive, Bool.false_eq_true, if_false] at h
  obtain ⟨rest, hStack, hEq⟩ := map_under h
  cases hEq
  exact ⟨rfl, rest, hStack, rfl⟩

theorem step_finish (h : K.step t j .finish ch s = some (r, s')) :
    r = .ok () ∧ ∃ rest, s.stack (K.proc j) = some t :: rest ∧ s' = s.setStack (K.proc j) rest := by
  have hAlive := step_alive h
  simp only [step, hAlive, Bool.false_eq_true, if_false] at h
  obtain ⟨rest, hStack, hEq⟩ := map_under h
  cases hEq
  exact ⟨rfl, rest, hStack, rfl⟩

theorem step_resume {c : Nat} (h : K.step t j (.resume c) ch s = some (r, s')) :
    r = .ok () ∧ ∃ rest, s.stack (K.proc j) = some t :: rest ∧
      s' = s.setStack (K.proc j) (some c :: some t :: rest) := by
  have hAlive := step_alive h
  simp only [step, hAlive, Bool.false_eq_true, if_false] at h
  obtain ⟨rest, hStack, hEq⟩ := map_under h
  cases hEq
  exact ⟨rfl, rest, hStack, rfl⟩

theorem step_create {i : Job} (h : K.step t j (.create i) ch s = some (r, s')) :
    r = .ok () ∧ ∃ rest, s.stack (K.proc j) = some t :: rest ∧
      s' = s.setStack (K.proc j) (none :: some t :: rest) := by
  have hAlive := step_alive h
  simp only [step, hAlive, Bool.false_eq_true, if_false] at h
  obtain ⟨rest, hStack, hEq⟩ := map_under h
  cases hEq
  exact ⟨rfl, rest, hStack, rfl⟩

theorem step_exit (h : K.step t j .exit ch s = some (r, s')) :
    r = .ok () ∧ s' = { s with
      shared := K.died (K.proc j) s.home s.shared
      stack := Function.update s.stack (K.proc j) []
      dead := Function.update s.dead (K.proc j) true } := by
  have hAlive := step_alive h
  simp only [step, hAlive, Bool.false_eq_true, if_false] at h
  obtain ⟨rest, _, hEq⟩ := map_under h
  cases hEq
  exact ⟨rfl, rfl⟩

theorem step_own {o : Op} {r : Except ε (R o)} (h : K.step t j (.own o) ch s = some (r, s')) :
    (K.remote o = true ∨ ∃ rest, s.stack (K.proc j) = some t :: rest) ∧
      ∃ x, K.exec t j o ch s.shared = some (r, x) ∧ s' = { s with shared := x } := by
  have hAlive := step_alive h
  simp only [step, hAlive, Bool.false_eq_true, if_false] at h
  split at h
  · rename_i hWhere
    obtain ⟨⟨r', x⟩, hExec, hEq⟩ := Option.map_eq_some_iff.mp h
    cases hEq
    refine ⟨?_, x, hExec, rfl⟩
    rcases (Bool.or_eq_true _ _).mp hWhere with hRemote | hTop
    · exact .inl hRemote
    · obtain ⟨rest, hRest⟩ := Option.isSome_iff_exists.mp hTop
      exact .inr ⟨rest, Procs.under_eq_some.mp hRest⟩
  · cases h

end Inversion

end Kernel

/-! ## What coroutines are to shared things -/

section Become

variable {κ ρ : Type} [DecidableEq κ] {role : Nat → κ → ρ} {t u : Nat} {k k' : κ}

/-- Coroutine `t` becomes `x` to the thing `k`. -/
def become (role : Nat → κ → ρ) (t : Nat) (k : κ) (x : ρ) : Nat → κ → ρ :=
  Function.update role t (Function.update (role t) k x)

theorem become_self (role : Nat → κ → ρ) (t : Nat) (k : κ) (x : ρ) : become role t k x t k = x := by
  simp [become]

theorem become_at (x : ρ) : (fun u => become role t k x u k) = Function.update (fun u => role u k) t x := by
  funext u
  by_cases hu : u = t
  · subst hu
    simp [become]
  · simp [become, hu]

theorem become_other (x : ρ) (hk : k' ≠ k) (u : Nat) : become role t k x u k' = role u k' := by
  by_cases hu : u = t
  · subst hu
    simp [become, hk]
  · simp [become, hu]

theorem become_apart (x : ρ) (hu : u ≠ t) : become role t k x u = role u := by
  simp [become, hu]

end Become

/-! ## Where coroutines are -/

inductive Place
  | absent
  | fresh
  | running
  /-- Suspended until another coroutine resumes it; on the stack again once one has. -/
  | yielded
  /-- Suspended until the event loop goes on with it. -/
  | asleep
  | ended
  deriving DecidableEq

/-- The stacks hold the coroutines that run or have been resumed. -/
structure Stacked (proc : Nat → Option Nat) (place : Nat → Place) (stack : Nat → List (Option Nat))
    (dead : Nat → Bool) : Prop where
  nodup : ∀ p, (stack p).Nodup
  tail : ∀ p, none ∉ (stack p).tail
  mem : ∀ p t, some t ∈ stack p → proc t = some p ∧ (place t = .running ∨ place t = .yielded)
  running : ∀ p t, dead p = false → proc t = some p → place t = .running → some t ∈ stack p
  fresh : ∀ p, none ∈ stack p → ∃ t, proc t = some p ∧ place t = .fresh

namespace Stacked

variable {proc : Nat → Option Nat} {place : Nat → Place} {stack : Nat → List (Option Nat)} {dead : Nat → Bool}
variable {p t : Nat} {rest : List (Option Nat)}

section

variable (h : Stacked proc place stack dead)

include h

theorem notMem_rest (hStack : stack p = some t :: rest) : some t ∉ rest :=
  (List.nodup_cons.mp (hStack ▸ h.nodup p)).1

theorem none_notMem_rest {x : Option Nat} (hStack : stack p = x :: rest) : none ∉ rest := by
  have hTail := h.tail p
  rwa [hStack] at hTail

theorem top (hStack : stack p = some t :: rest) : proc t = some p ∧ (place t = .running ∨ place t = .yielded) :=
  h.mem p t (hStack ▸ List.mem_cons_self)

theorem none_notMem (hStack : stack p = some t :: rest) : none ∉ stack p := by
  rw [hStack]
  exact List.not_mem_cons_of_ne_of_not_mem (by simp) (h.none_notMem_rest hStack)

theorem go (hStack : stack p = some t :: rest) :
    Stacked proc (Function.update place t .running) stack dead where
  nodup := h.nodup
  tail := h.tail
  mem q u hu := by
    by_cases hut : u = t
    · subst hut
      exact ⟨(h.mem q u hu).1, .inl (by simp)⟩
    · simpa [hut] using h.mem q u hu
  running q u hAlive hProc hPlace := by
    by_cases hut : u = t
    · subst hut
      obtain rfl : p = q := Option.some.inj ((h.top hStack).1.symm.trans hProc)
      exact hStack ▸ List.mem_cons_self
    · exact h.running q u hAlive hProc (by simpa [hut] using hPlace)
  fresh q hq := by
    obtain ⟨u, hProc, hPlace⟩ := h.fresh q hq
    refine ⟨u, hProc, ?_⟩
    have hut : u ≠ t := by
      rintro rfl
      rcases (h.top hStack).2 with hTop | hTop <;> rw [hTop] at hPlace <;> cases hPlace
    simpa [hut] using hPlace

end

variable {x : Place}

section

variable (h : Stacked proc place stack dead)

include h

/-- The running coroutine leaves the stack. -/
theorem leave (hStack : stack p = some t :: rest) (hx : x ≠ .running) :
    Stacked proc (Function.update place t x) (Function.update stack p rest) dead where
  nodup q := by
    by_cases hqp : q = p
    · subst hqp
      simpa using (List.nodup_cons.mp (hStack ▸ h.nodup q)).2
    · simpa [hqp] using h.nodup q
  tail q := by
    by_cases hqp : q = p
    · subst hqp
      simpa using fun hMem => h.none_notMem_rest hStack (List.mem_of_mem_tail hMem)
    · simpa [hqp] using h.tail q
  mem q u hu := by
    have hOld : some u ∈ stack q := by
      by_cases hqp : q = p
      · subst hqp
        rw [Function.update_self] at hu
        exact hStack ▸ List.mem_cons_of_mem _ hu
      · rwa [Function.update_of_ne hqp] at hu
    have hut : u ≠ t := by
      rintro rfl
      obtain rfl : p = q := Option.some.inj ((h.top hStack).1.symm.trans (h.mem q u hOld).1)
      rw [Function.update_self] at hu
      exact h.notMem_rest hStack hu
    simpa [hut] using h.mem q u hOld
  running q u hAlive hProc hPlace := by
    have hut : u ≠ t := by
      rintro rfl
      rw [Function.update_self] at hPlace
      exact hx hPlace
    have hOld := h.running q u hAlive hProc (by simpa [hut] using hPlace)
    by_cases hqp : q = p
    · subst hqp
      rw [Function.update_self]
      exact List.mem_of_ne_of_mem (by simpa using hut) (hStack ▸ hOld)
    · rwa [Function.update_of_ne hqp]
  fresh q hq := by
    have hqp : q ≠ p := by
      rintro rfl
      rw [Function.update_self] at hq
      exact h.none_notMem_rest hStack hq
    rw [Function.update_of_ne hqp] at hq
    obtain ⟨u, hProc, hPlace⟩ := h.fresh q hq
    have hut : u ≠ t := by
      rintro rfl
      exact hqp (Option.some.inj (hProc.symm.trans (h.top hStack).1))
    exact ⟨u, hProc, by simpa [hut] using hPlace⟩

/-- A coroutine comes on top: one that was suspended, or one that begins. -/
theorem enter {l : List (Option Nat)} (hl : stack p = none :: l ∨ stack p = l) (hNone : none ∉ l)
    (hProc : proc t = some p) (hNot : some t ∉ stack p) (hx : x = .running ∨ x = .yielded) :
    Stacked proc (Function.update place t x) (Function.update stack p (some t :: l)) dead where
  nodup q := by
    by_cases hqp : q = p
    · subst hqp
      rw [Function.update_self]
      refine List.nodup_cons.mpr ?_
      rcases hl with hl | hl
      · exact ⟨fun hMem => hNot (hl ▸ List.mem_cons_of_mem _ hMem), (List.nodup_cons.mp (hl ▸ h.nodup q)).2⟩
      · exact ⟨hl ▸ hNot, hl ▸ h.nodup q⟩
    · simpa [hqp] using h.nodup q
  tail q := by
    by_cases hqp : q = p
    · subst hqp
      simpa using hNone
    · simpa [hqp] using h.tail q
  mem q u hu := by
    by_cases hut : u = t
    · subst hut
      rw [Function.update_self]
      refine ⟨?_, hx⟩
      by_cases hqp : q = p
      · rw [hqp, hProc]
      · rw [Function.update_of_ne hqp] at hu
        exact (h.mem q u hu).1
    · rw [Function.update_of_ne hut]
      refine h.mem q u ?_
      by_cases hqp : q = p
      · subst hqp
        rw [Function.update_self] at hu
        have hMem : some u ∈ l := List.mem_of_ne_of_mem (by simpa using hut) hu
        rcases hl with hl | hl
        · exact hl ▸ List.mem_cons_of_mem _ hMem
        · exact hl ▸ hMem
      · rwa [Function.update_of_ne hqp] at hu
  running q u hAlive hProcU hPlace := by
    by_cases hqp : q = p
    · subst hqp
      rw [Function.update_self]
      by_cases hut : u = t
      · exact hut ▸ List.mem_cons_self
      · have hOld := h.running q u hAlive hProcU (by simpa [hut] using hPlace)
        refine List.mem_cons_of_mem _ ?_
        rcases hl with hl | hl
        · exact List.mem_of_ne_of_mem (by simp) (hl ▸ hOld)
        · exact hl ▸ hOld
    · have hut : u ≠ t := by
        rintro rfl
        exact hqp (Option.some.inj (hProcU.symm.trans hProc))
      rw [Function.update_of_ne hqp]
      exact h.running q u hAlive hProcU (by simpa [hut] using hPlace)
  fresh q hq := by
    have hqp : q ≠ p := by
      rintro rfl
      rw [Function.update_self] at hq
      exact hNone (List.mem_of_ne_of_mem (by simp) hq)
    rw [Function.update_of_ne hqp] at hq
    obtain ⟨u, hProcU, hPlace⟩ := h.fresh q hq
    have hut : u ≠ t := by
      rintro rfl
      exact hqp (Option.some.inj (hProcU.symm.trans hProc))
    exact ⟨u, hProcU, by simpa [hut] using hPlace⟩

theorem aside (hPlace : place t = .asleep ∨ place t = .ended) (hx : x = .asleep ∨ x = .ended) :
    Stacked proc (Function.update place t x) stack dead where
  nodup := h.nodup
  tail := h.tail
  mem q u hu := by
    have hut : u ≠ t := by
      rintro rfl
      rcases (h.mem q u hu).2 with hOn | hOn <;> rcases hPlace with hOff | hOff <;>
        cases hOn.symm.trans hOff
    simpa [hut] using h.mem q u hu
  running q u hAlive hProc hRunning := by
    have hut : u ≠ t := by
      rintro rfl
      rw [Function.update_self] at hRunning
      rcases hx with rfl | rfl <;> cases hRunning
    exact h.running q u hAlive hProc (by simpa [hut] using hRunning)
  fresh q hq := by
    obtain ⟨u, hProc, hFresh⟩ := h.fresh q hq
    have hut : u ≠ t := by
      rintro rfl
      rcases hPlace with hOff | hOff <;> cases hFresh.symm.trans hOff
    exact ⟨u, hProc, by simpa [hut] using hFresh⟩

theorem append {n : Nat} (hAbsent : proc n = none) :
    Stacked (Function.update proc n (some p)) (Function.update place n .fresh) stack dead where
  nodup := h.nodup
  tail := h.tail
  mem q u hu := by
    have hun : u ≠ n := by
      rintro rfl
      cases hAbsent.symm.trans (h.mem q u hu).1
    simpa [hun] using h.mem q u hu
  running q u hAlive hProc hRunning := by
    have hun : u ≠ n := by
      rintro rfl
      rw [Function.update_self] at hRunning
      cases hRunning
    exact h.running q u hAlive (by simpa [hun] using hProc) (by simpa [hun] using hRunning)
  fresh q hq := by
    obtain ⟨u, hProc, hFresh⟩ := h.fresh q hq
    have hun : u ≠ n := by
      rintro rfl
      cases hAbsent.symm.trans hProc
    exact ⟨u, by simpa [hun] using hProc, by simpa [hun] using hFresh⟩

/-- The running coroutine creates another. -/
theorem create (hStack : stack p = some t :: rest) (hFresh : ∃ u, proc u = some p ∧ place u = .fresh) :
    Stacked proc place (Function.update stack p (none :: some t :: rest)) dead where
  nodup q := by
    by_cases hqp : q = p
    · subst hqp
      rw [Function.update_self, ← hStack]
      exact List.nodup_cons.mpr ⟨h.none_notMem hStack, h.nodup q⟩
    · simpa [hqp] using h.nodup q
  tail q := by
    by_cases hqp : q = p
    · subst hqp
      rw [Function.update_self, List.tail_cons, ← hStack]
      exact h.none_notMem hStack
    · simpa [hqp] using h.tail q
  mem q u hu := by
    refine h.mem q u ?_
    by_cases hqp : q = p
    · subst hqp
      rw [Function.update_self, ← hStack] at hu
      exact List.mem_of_ne_of_mem (by simp) hu
    · rwa [Function.update_of_ne hqp] at hu
  running q u hAlive hProc hRunning := by
    have hOld := h.running q u hAlive hProc hRunning
    by_cases hqp : q = p
    · subst hqp
      rw [Function.update_self, ← hStack]
      exact List.mem_cons_of_mem _ hOld
    · rwa [Function.update_of_ne hqp]
  fresh q hq := by
    by_cases hqp : q = p
    · exact hqp ▸ hFresh
    · rw [Function.update_of_ne hqp] at hq
      exact h.fresh q hq

theorem exit (hProc : proc t = some p) :
    Stacked proc (Function.update place t x) (Function.update stack p []) (Function.update dead p true) where
  nodup q := by
    by_cases hqp : q = p
    · simp [hqp]
    · simpa [hqp] using h.nodup q
  tail q := by
    by_cases hqp : q = p
    · simp [hqp]
    · simpa [hqp] using h.tail q
  mem q u hu := by
    have hqp : q ≠ p := by
      rintro rfl
      simp at hu
    rw [Function.update_of_ne hqp] at hu
    have hut : u ≠ t := by
      rintro rfl
      exact hqp (Option.some.inj ((h.mem q u hu).1.symm.trans hProc))
    simpa [hut] using h.mem q u hu
  running q u hAlive hProcU hRunning := by
    have hqp : q ≠ p := by
      rintro rfl
      simp at hAlive
    have hut : u ≠ t := by
      rintro rfl
      exact hqp (Option.some.inj (hProcU.symm.trans hProc))
    rw [Function.update_of_ne hqp] at hAlive ⊢
    exact h.running q u hAlive hProcU (by simpa [hut] using hRunning)
  fresh q hq := by
    have hqp : q ≠ p := by
      rintro rfl
      simp at hq
    rw [Function.update_of_ne hqp] at hq
    obtain ⟨u, hProcU, hFresh⟩ := h.fresh q hq
    have hut : u ≠ t := by
      rintro rfl
      exact hqp (Option.some.inj (hProcU.symm.trans hProc))
    exact ⟨u, hProcU, by simpa [hut] using hFresh⟩

end

end Stacked

end Foundation
