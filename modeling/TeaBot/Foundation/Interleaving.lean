import Mathlib.Data.List.Basic
import TeaBot.Foundation.Prog

/-! # Interleavings of resumption programs over a shared state

Threads are numbered by the order in which they start. One step lets one thread
carry out its next operation; the environment's `Choice` settles what the operation
itself leaves open, such as whether it fails. An operation that cannot be carried
out now (a lock held by another thread) has no step.
-/

namespace Foundation

structure System (S Op : Type) (Res : Op → Type) (ε α Job Choice : Type) where
  code : Job → Prog Op Res ε α
  /-- How the operation of a thread, given by its number and its job, is carried out. -/
  exec : Nat → Job → (o : Op) → Choice → S → Option (Except ε (Res o) × S)
  /-- The threads an operation starts. -/
  spawned : (o : Op) → Except ε (Res o) → List Job

namespace System

variable {S Op : Type} {Res : Op → Type} {ε α Job Choice : Type}

structure Config (S Op : Type) (Res : Op → Type) (ε α Job : Type) where
  shared : S
  threads : List (Job × Prog Op Res ε α)

inductive Label (Job Choice : Type)
  | start (j : Job)
  | step (t : Nat) (ch : Choice)

variable (M : System S Op Res ε α Job Choice)

def fresh (j : Job) : Job × Prog Op Res ε α := (j, M.code j)

def next (c : Config S Op Res ε α Job) : Label Job Choice → Option (Config S Op Res ε α Job)
  | .start j => some ⟨c.shared, c.threads ++ [M.fresh j]⟩
  | .step t ch =>
    match c.threads[t]? with
    | some (j, .op o k) =>
      match M.exec t j o ch c.shared with
      | some (r, s') => some ⟨s', c.threads.set t (j, k r) ++ (M.spawned o r).map M.fresh⟩
      | none => none
    | _ => none

/-- Runs all of whose steps the condition `ok` admits. -/
inductive Reach (ok : Config S Op Res ε α Job → Label Job Choice → Prop)
    (c : Config S Op Res ε α Job) : Config S Op Res ε α Job → Prop
  | refl : Reach ok c c
  | step {c₁ c₂ : Config S Op Res ε α Job} {l : Label Job Choice} :
      Reach ok c c₁ → ok c₁ l → M.next c₁ l = some c₂ → Reach ok c c₂

def run (c : Config S Op Res ε α Job) : List (Label Job Choice) → Option (Config S Op Res ε α Job)
  | [] => some c
  | l :: ls => (M.next c l).bind fun c' => run c' ls

/-- A run that stops at a label which the condition refuses. -/
def runWhile (ok : Config S Op Res ε α Job → Label Job Choice → Bool) (c : Config S Op Res ε α Job) :
    List (Label Job Choice) → Option (Config S Op Res ε α Job)
  | [] => some c
  | l :: ls => if ok c l then (M.next c l).bind fun c' => runWhile ok c' ls else none

variable {M}

variable {c : Config S Op Res ε α Job} {u : Nat}

variable {j : Job} {p : Prog Op Res ε α} {js : List Job}

theorem thread_append (h : (c.threads ++ js.map M.fresh)[u]? = some (j, p)) :
    c.threads[u]? = some (j, p) ∨ (c.threads.length ≤ u ∧ ∃ i, p = M.code i) := by
  by_cases hu : u < c.threads.length
  · rw [List.getElem?_append_left hu] at h
    exact .inl h
  · rw [List.getElem?_append_right (by omega), List.getElem?_map] at h
    obtain ⟨i, _, hi⟩ := Option.map_eq_some_iff.mp h
    cases hi
    exact .inr ⟨by omega, _, rfl⟩

variable {t : Nat}

/-- Where a thread of the new list comes from. -/
theorem thread_set_append {j' : Job} {q p' : Prog Op Res ε α} (hThread : c.threads[t]? = some (j, p))
    (h : (c.threads.set t (j, q) ++ js.map M.fresh)[u]? = some (j', p')) :
    (u = t ∧ j' = j ∧ p' = q) ∨ (u ≠ t ∧ c.threads[u]? = some (j', p')) ∨
      (u ≠ t ∧ c.threads.length ≤ u ∧ ∃ i, p' = M.code i) := by
  have hLt := (List.getElem?_eq_some_iff.mp hThread).1
  rcases thread_append (c := ⟨c.shared, c.threads.set t (j, q)⟩) h with hSet | ⟨hLe, hCode⟩
  · by_cases hu : u = t
    · subst hu
      rw [List.getElem?_set_self hLt] at hSet
      cases hSet
      exact .inl ⟨rfl, rfl, rfl⟩
    · rw [List.getElem?_set_ne (Ne.symm hu)] at hSet
      exact .inr (.inl ⟨hu, hSet⟩)
  · rw [List.length_set] at hLe
    exact .inr (.inr ⟨by omega, hLe, hCode⟩)

variable {c' : Config S Op Res ε α Job}

theorem next_step_eq_some {ch : Choice} (h : M.next c (.step t ch) = some c') :
    ∃ j o k r s', c.threads[t]? = some (j, .op o k) ∧ M.exec t j o ch c.shared = some (r, s') ∧
      c' = ⟨s', c.threads.set t (j, k r) ++ (M.spawned o r).map M.fresh⟩ := by
  simp only [next] at h
  split at h
  · rename_i j o k hThread
    split at h
    · rename_i r s' hExec
      exact ⟨j, o, k, r, s', hThread, hExec, (Option.some.inj h).symm⟩
    · cases h
  · cases h

variable {ok : Config S Op Res ε α Job → Label Job Choice → Prop}

theorem Reach.trans {a b : Config S Op Res ε α Job} (hab : M.Reach ok a b) (hbc : M.Reach ok b c) : M.Reach ok a c := by
  induction hbc with
  | refl => exact hab
  | step _ hOk hNext ih => exact ih.step hOk hNext

variable {ls : List (Label Job Choice)}

theorem reach_of_run (hOk : ∀ l ∈ ls, ∀ c, ok c l) (h : M.run c ls = some c') : M.Reach ok c c' := by
  induction ls generalizing c with
  | nil =>
    cases h
    exact .refl
  | cons l ls ih =>
    obtain ⟨c₁, hNext, hRest⟩ := Option.bind_eq_some_iff.mp h
    exact (Reach.refl.step (hOk l List.mem_cons_self c) hNext).trans
      (ih (fun l' hl' => hOk l' (List.mem_cons_of_mem l hl')) hRest)

theorem reach_of_runWhile {ok : Config S Op Res ε α Job → Label Job Choice → Bool}
    {ok' : Config S Op Res ε α Job → Label Job Choice → Prop} (hOk : ∀ l ∈ ls, ∀ c, ok c l = true → ok' c l)
    (h : M.runWhile ok c ls = some c') : M.Reach ok' c c' := by
  induction ls generalizing c with
  | nil =>
    cases h
    exact .refl
  | cons l ls ih =>
    simp only [runWhile] at h
    split at h
    · rename_i hHere
      obtain ⟨c₁, hNext, hRest⟩ := Option.bind_eq_some_iff.mp h
      exact (Reach.refl.step (hOk l List.mem_cons_self c hHere) hNext).trans
        (ih (fun l' hl' => hOk l' (List.mem_cons_of_mem l hl')) hRest)
    · cases h

/-- Where thread `u` stands after thread `t` has stepped: its successor, the same
program as before, or the code of a thread just started. -/
theorem threads_step {x : Job × Prog Op Res ε α} {new : List (Job × Prog Op Res ε α)} {y : Job × Prog Op Res ε α}
    (hLt : t < c.threads.length) (h : (c.threads.set t x ++ new)[u]? = some y) :
    (u = t ∧ y = x) ∨ (u ≠ t ∧ c.threads[u]? = some y) ∨
      (c.threads.length ≤ u ∧ y ∈ new) := by
  by_cases hu : u < c.threads.length
  · rw [List.getElem?_append_left (by simpa using hu)] at h
    by_cases hEq : u = t
    · subst hEq
      rw [List.getElem?_set_self hLt] at h
      exact .inl ⟨rfl, (Option.some.inj h).symm⟩
    · rw [List.getElem?_set_ne (Ne.symm hEq)] at h
      exact .inr (.inl ⟨hEq, h⟩)
  · rw [List.getElem?_append_right (by simpa using hu)] at h
    exact .inr (.inr ⟨by omega, List.mem_of_getElem? h⟩)

end System

end Foundation
