import Mathlib.Logic.Basic

/-! # Resumption programs with exceptions

A program is a tree: it returns, it throws, or it asks its environment to carry
out one operation and goes on with whatever comes back, a result or an exception
raised by the operation. Scheduling points are exactly the operation nodes.
-/

namespace Foundation

inductive Prog (Op : Type) (Res : Op → Type) (ε : Type) (α : Type) : Type
  | ret (a : α)
  | throw (e : ε)
  | op (o : Op) (k : Except ε (Res o) → Prog Op Res ε α)

namespace Prog

variable {Op : Type} {Res : Op → Type} {ε α β γ : Type}

def bind : Prog Op Res ε α → (α → Prog Op Res ε β) → Prog Op Res ε β
  | .ret a, f => f a
  | .throw e, _ => .throw e
  | .op o k, f => .op o fun r => (k r).bind f

def tryCatch : Prog Op Res ε α → (ε → Prog Op Res ε α) → Prog Op Res ε α
  | .ret a, _ => .ret a
  | .throw e, h => h e
  | .op o k, h => .op o fun r => (k r).tryCatch h

/-- Runs `fin` however `p` ends, then lets the result or the exception of `p` pass. -/
def tryFinally (p : Prog Op Res ε α) (fin : Prog Op Res ε Unit) : Prog Op Res ε α :=
  (p.tryCatch fun e => fin.bind fun _ => .throw e).bind fun a => fin.bind fun _ => .ret a

/-- What an operation answers becomes the program's own result or exception. -/
def ofExcept : Except ε α → Prog Op Res ε α
  | .ok a => .ret a
  | .error e => .throw e

def perform (o : Op) : Prog Op Res ε (Res o) := .op o ofExcept

/-- `if (b) { p }` -/
def when (b : Bool) (p : Prog Op Res ε Unit) : Prog Op Res ε Unit := if b then p else .ret ()

instance : Monad (Prog Op Res ε) where
  pure := .ret
  bind := bind

@[simp] theorem pure_eq (a : α) : (pure a : Prog Op Res ε α) = .ret a := rfl

@[simp] theorem bind_eq (p : Prog Op Res ε α) (f : α → Prog Op Res ε β) : p >>= f = p.bind f := rfl

@[simp] theorem bind_ret (a : α) (f : α → Prog Op Res ε β) : (ret a : Prog Op Res ε α).bind f = f a := rfl

@[simp] theorem bind_throw (e : ε) (f : α → Prog Op Res ε β) :
    (throw e : Prog Op Res ε α).bind f = throw e := rfl

@[simp] theorem bind_op (o : Op) (k : Except ε (Res o) → Prog Op Res ε α) (f : α → Prog Op Res ε β) :
    (op o k).bind f = op o fun r => (k r).bind f := rfl

theorem bind_pure (p : Prog Op Res ε α) : p.bind .ret = p := by
  induction p with
  | ret a => rfl
  | throw e => rfl
  | op o k ih => exact congrArg (op o) (funext ih)

theorem bind_assoc (p : Prog Op Res ε α) (f : α → Prog Op Res ε β) (g : β → Prog Op Res ε γ) :
    (p.bind f).bind g = p.bind fun a => (f a).bind g := by
  induction p with
  | ret a => rfl
  | throw e => rfl
  | op o k ih => exact congrArg (op o) (funext ih)

@[simp] theorem tryCatch_ret (a : α) (h : ε → Prog Op Res ε α) : (ret a).tryCatch h = ret a := rfl

@[simp] theorem tryCatch_throw (e : ε) (h : ε → Prog Op Res ε α) :
    (throw e : Prog Op Res ε α).tryCatch h = h e := rfl

@[simp] theorem tryCatch_op (o : Op) (k : Except ε (Res o) → Prog Op Res ε α)
    (h : ε → Prog Op Res ε α) : (op o k).tryCatch h = op o fun r => (k r).tryCatch h := rfl

@[simp] theorem ofExcept_ok (a : α) : (ofExcept (.ok a) : Prog Op Res ε α) = ret a := rfl

@[simp] theorem ofExcept_error (e : ε) : (ofExcept (.error e) : Prog Op Res ε α) = throw e := rfl

/-- The exception a program has ended with. -/
def thrown : Prog Op Res ε α → Option ε
  | .throw e => some e
  | _ => none

def finished : Prog Op Res ε α → Bool
  | .op .. => false
  | _ => true

variable {p : Prog Op Res ε α} {e : ε}

theorem thrown_eq_some : p.thrown = some e ↔ p = throw e := by
  cases p <;> simp [thrown]

/-- Every operation the program may ever ask for meets `P`. -/
def Uses (P : Op → Prop) : Prog Op Res ε α → Prop
  | .ret _ => True
  | .throw _ => True
  | .op o k => P o ∧ ∀ r, (k r).Uses P

variable {f : ε → Prog Op Res ε α}

namespace Uses

variable {P : Op → Prop}

theorem mono {P' : Op → Prop} (h : p.Uses P) (hP : ∀ o, P o → P' o) : p.Uses P' := by
  induction p with
  | ret a => trivial
  | throw e => trivial
  | op o k ih => exact ⟨hP o h.1, fun r => ih r (h.2 r)⟩

theorem bind {f : α → Prog Op Res ε β} (hp : p.Uses P) (hf : ∀ a, (f a).Uses P) : (p.bind f).Uses P := by
  induction p with
  | ret a => exact hf a
  | throw e => trivial
  | op o k ih => exact ⟨hp.1, fun r => ih r (hp.2 r)⟩

theorem tryCatch (hp : p.Uses P) (hf : ∀ e, (f e).Uses P) : (p.tryCatch f).Uses P := by
  induction p with
  | ret a => trivial
  | throw e => exact hf e
  | op o k ih => exact ⟨hp.1, fun r => ih r (hp.2 r)⟩

theorem ofExcept (r : Except ε α) : (ofExcept r : Prog Op Res ε α).Uses P := by
  cases r with
  | ok a => trivial
  | error e => trivial

theorem perform {o : Op} (h : P o) : (perform o : Prog Op Res ε (Res o)).Uses P := ⟨h, ofExcept⟩

theorem when {b : Bool} {p : Prog Op Res ε Unit} (hp : p.Uses P) : (when b p).Uses P := by
  cases b with
  | true => exact hp
  | false => trivial

theorem tryFinally {fin : Prog Op Res ε Unit} (hp : p.Uses P) (hFin : fin.Uses P) : (p.tryFinally fin).Uses P := by
  refine bind (tryCatch hp fun e => ?_) fun a => ?_
  · exact hFin.bind fun _ => trivial
  · exact hFin.bind fun _ => trivial

end Uses

/-- Runs a program alone, every operation carried out by `exec`. -/
def eval {S : Type} (exec : (o : Op) → S → Except ε (Res o) × S) :
    Prog Op Res ε α → S → Except ε α × S
  | .ret a, s => (.ok a, s)
  | .throw e, s => (.error e, s)
  | .op o k, s => (k (exec o s).1).eval exec (exec o s).2

section Eval

variable {S : Type} (exec : (o : Op) → S → Except ε (Res o) × S)

@[simp] theorem eval_ret (a : α) (s : S) : (ret a : Prog Op Res ε α).eval exec s = (.ok a, s) := rfl

@[simp] theorem eval_throw (e : ε) (s : S) :
    (throw e : Prog Op Res ε α).eval exec s = (.error e, s) := rfl

variable {exec}

variable {s s' : S}

theorem eval_bind_ok {f : α → Prog Op Res ε β} {a : α} (h : p.eval exec s = (.ok a, s')) :
    (p.bind f).eval exec s = (f a).eval exec s' := by
  induction p generalizing s with
  | ret b =>
    cases h
    rfl
  | throw e => cases h
  | op o k ih => exact ih (exec o s).1 h

theorem eval_bind_error {f : α → Prog Op Res ε β} (h : p.eval exec s = (.error e, s')) :
    (p.bind f).eval exec s = (.error e, s') := by
  induction p generalizing s with
  | ret b => cases h
  | throw e' =>
    cases h
    rfl
  | op o k ih => exact ih (exec o s).1 h

theorem eval_tryCatch_ok {a : α} (h : p.eval exec s = (.ok a, s')) : (p.tryCatch f).eval exec s = (.ok a, s') := by
  induction p generalizing s with
  | ret b =>
    cases h
    rfl
  | throw e => cases h
  | op o k ih => exact ih (exec o s).1 h

theorem eval_tryCatch_error (h : p.eval exec s = (.error e, s')) : (p.tryCatch f).eval exec s = (f e).eval exec s' := by
  induction p generalizing s with
  | ret b => cases h
  | throw e' =>
    cases h
    rfl
  | op o k ih => exact ih (exec o s).1 h

variable (exec)

theorem eval_perform (o : Op) (s : S) :
    (perform o : Prog Op Res ε (Res o)).eval exec s = exec o s := by
  change (ofExcept (exec o s).1).eval exec (exec o s).2 = exec o s
  cases h : (exec o s).1 with
  | ok a => rw [ofExcept_ok, eval_ret, ← h]
  | error e => rw [ofExcept_error, eval_throw, ← h]

end Eval

end Prog

end Foundation
