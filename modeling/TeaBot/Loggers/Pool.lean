import Mathlib.Logic.Relation
import TeaBot.Loggers.Conduct

/-! # The pool of logger processes

Coroutines belong to processes. A lock held in the same process suspends only the
coroutine that asks for it; a lock held by another process is waited for inside
`::flock`, and until it is free no coroutine of the waiting process runs. A throwable
that leaves a coroutine ends its process, which frees the locks of the process.
-/

namespace TeaBot.Loggers

open Foundation

def Job.ofTrackAdmins : Job → Bool
  | .adminUser .. => true
  | _ => false

structure Coroutine where
  proc : Nat
  job : Job
  prog : Run Unit

structure Pool where
  world : World
  threads : List Coroutine := []
  /-- The coroutine of a process that waits inside `::flock`. -/
  blocked : Nat → Option Nat := fun _ => none
  dead : Nat → Bool := fun _ => false

namespace Pool

inductive Label
  /-- A process begins a coroutine. -/
  | start (p : Nat) (j : Job)
  | run (t : Nat) (ch : Choice)
  /-- A coroutine asks for a lock that another process holds. -/
  | block (t : Nat)

def procOf (c : Pool) (t : Nat) : Option Nat := (c.threads[t]?).map Coroutine.proc

def holder (c : Pool) (m : Mutex) : Option Nat := (c.world.locks m).bind c.procOf

def kill (c : Pool) (p : Nat) : Pool :=
  { c with
    world := { c.world with
      locks := fun m => if c.holder m = some p then none else c.world.locks m
      tx := fun t => if c.procOf t = some p then none else c.world.tx t }
    blocked := Function.update c.blocked p none
    dead := Function.update c.dead p true }

def Raised (c : Pool) (p : Nat) : Bool := c.threads.any fun th => th.proc = p && th.prog.thrown.isSome

def settle (c : Pool) (p : Nat) : Pool := if c.Raised p then c.kill p else c

def fresh (h : Hashes) (p : Nat) (j : Job) : Coroutine := ⟨p, j, poolCode h.md5 j⟩

def next (h : Hashes) (c : Pool) : Label → Option Pool
  | .start p j =>
    if c.dead p = false ∧ c.blocked p = none ∧ j.ofTrackAdmins = false then
      some (settle { c with threads := c.threads ++ [fresh h p j] } p)
    else none
  | .run t ch =>
    match c.threads[t]? with
    | some ⟨p, j, .op o k⟩ =>
      if c.dead p = false ∧ (c.blocked p = none ∨ c.blocked p = some t) then
        match exec h t j o ch c.world with
        | some (r, w') =>
          some (settle { c with
            world := w'
            threads := c.threads.set t ⟨p, j, k r⟩ ++ (spawned o r).map (fresh h p)
            blocked := Function.update c.blocked p none } p)
        | none => none
      else none
    | _ => none
  | .block t =>
    match c.threads[t]? with
    | some ⟨p, _, .op (.lock m) _⟩ =>
      match c.holder m with
      | some q =>
        if c.dead p = false ∧ c.blocked p = none ∧ q ≠ p then
          some { c with blocked := Function.update c.blocked p (some t) }
        else none
      | none => none
    | _ => none

inductive Reach (h : Hashes) (ok : Pool → Label → Prop) (c : Pool) : Pool → Prop
  | refl : Reach h ok c c
  | step {c₁ c₂ : Pool} {l : Label} : Reach h ok c c₁ → ok c₁ l → next h c₁ l = some c₂ → Reach h ok c c₂

theorem Reach.trans {h : Hashes} {ok : Pool → Label → Prop} {a b c : Pool} (hab : Reach h ok a b)
    (hbc : Reach h ok b c) : Reach h ok a c := by
  induction hbc with
  | refl => exact hab
  | step _ hOk hNext ih => exact ih.step hOk hNext

def runAll (h : Hashes) (c : Pool) : List Label → Option Pool
  | [] => some c
  | l :: ls => (next h c l).bind fun c' => runAll h c' ls

theorem reach_of_runAll {h : Hashes} {ok : Pool → Label → Prop} {c c' : Pool} {ls : List Label}
    (hOk : ∀ l ∈ ls, ∀ c, ok c l) (hRun : runAll h c ls = some c') : Reach h ok c c' := by
  induction ls generalizing c with
  | nil =>
    cases hRun
    exact .refl
  | cons l ls ih =>
    obtain ⟨c₁, hNext, hRest⟩ := Option.bind_eq_some_iff.mp hRun
    exact (Reach.refl.step (hOk l List.mem_cons_self c) hNext).trans
      (ih (fun l' hl' => hOk l' (List.mem_cons_of_mem l hl')) hRest)

/-- The lock that a process waits for inside `::flock`. -/
def Requests (c : Pool) (p t : Nat) (m : Mutex) : Prop :=
  c.blocked p = some t ∧ ∃ j k, c.threads[t]? = some ⟨p, j, .op (.lock m) k⟩

def WaitsFor (c : Pool) (p q : Nat) : Prop := ∃ t m, c.Requests p t m ∧ c.holder m = some q

/-- A coroutine of a living process that has not returned. -/
def Unfinished (c : Pool) (t : Nat) : Prop :=
  ∃ th, c.threads[t]? = some th ∧ c.dead th.proc = false ∧ ∀ a, th.prog ≠ .ret a

/-- Something is left to do and nobody can go on. -/
def Stuck (h : Hashes) (c : Pool) : Prop :=
  (∃ t, c.Unfinished t) ∧ (∀ t ch, next h c (.run t ch) = none) ∧ ∀ t, next h c (.block t) = none

section Inversion

variable {h : Hashes} {c c' : Pool}

theorem next_start_eq_some {p : Nat} {j : Job} (hNext : next h c (.start p j) = some c') :
    c.dead p = false ∧ c.blocked p = none ∧ j.ofTrackAdmins = false ∧
      c' = settle { c with threads := c.threads ++ [fresh h p j] } p := by
  simp only [next] at hNext
  split at hNext
  · rename_i hAlive
    exact ⟨hAlive.1, hAlive.2.1, hAlive.2.2, (Option.some.inj hNext).symm⟩
  · cases hNext

theorem next_run_eq_some {t : Nat} {ch : Choice} (hNext : next h c (.run t ch) = some c') :
    ∃ p j o k r w', c.threads[t]? = some ⟨p, j, .op o k⟩ ∧ c.dead p = false ∧
      (c.blocked p = none ∨ c.blocked p = some t) ∧ exec h t j o ch c.world = some (r, w') ∧
      c' = settle { c with
        world := w'
        threads := c.threads.set t ⟨p, j, k r⟩ ++ (spawned o r).map (fresh h p)
        blocked := Function.update c.blocked p none } p := by
  simp only [next] at hNext
  split at hNext
  · rename_i p j o k hThread
    split at hNext
    · rename_i hFree
      split at hNext
      · rename_i r w' hExec
        exact ⟨p, j, o, k, r, w', hThread, hFree.1, hFree.2, hExec, (Option.some.inj hNext).symm⟩
      · cases hNext
    · cases hNext
  · cases hNext

theorem next_block_eq_some {t : Nat} (hNext : next h c (.block t) = some c') :
    ∃ p j m k q, c.threads[t]? = some ⟨p, j, .op (.lock m) k⟩ ∧ c.holder m = some q ∧ c.dead p = false ∧
      c.blocked p = none ∧ q ≠ p ∧ c' = { c with blocked := Function.update c.blocked p (some t) } := by
  simp only [next] at hNext
  split at hNext
  · rename_i p j m k hThread
    split at hNext
    · rename_i q hHolder
      split at hNext
      · rename_i hFree
        exact ⟨p, j, m, k, q, hThread, hHolder, hFree.1, hFree.2.1, hFree.2.2, (Option.some.inj hNext).symm⟩
      · cases hNext
    · cases hNext
  · cases hNext

end Inversion

end Pool

end TeaBot.Loggers
