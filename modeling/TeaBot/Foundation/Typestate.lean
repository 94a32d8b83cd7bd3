import TeaBot.Foundation.Prog

/-! # Disciplines

A discipline says which operations a program may ask for in which abstract state, which
answers are reckoned with, and how an answered operation changes the state. `Keeps`
checks a program against it, whatever the answers.
-/

namespace Foundation

structure Discipline (Op : Type) (Res : Op → Type) (ε D : Type) where
  admits : D → Op → Prop
  answers : (o : Op) → Except ε (Res o) → Prop
  after : D → (o : Op) → Except ε (Res o) → D

/-- A family of disciplines as one, whose states tell which member they belong to. -/
def Discipline.family {Op : Type} {Res : Op → Type} {ε D I : Type} (T : I → Discipline Op Res ε D) :
    Discipline Op Res ε (I × D) where
  admits x o := (T x.1).admits x.2 o
  answers o r := ∀ i, (T i).answers o r
  after x o r := (x.1, (T x.1).after x.2 o r)

namespace Prog

variable {Op : Type} {Res : Op → Type} {ε α β D : Type}

/-- `Q` holds of the outcome and the state at the end. -/
def Keeps (T : Discipline Op Res ε D) (Q : Except ε α → D → Prop) : Prog Op Res ε α → D → Prop
  | .ret a, d => Q (.ok a) d
  | .throw e, d => Q (.error e) d
  | .op o k, d => T.admits d o ∧ ∀ r, T.answers o r → Keeps T Q (k r) (T.after d o r)

/-- Nothing is raised, and the state at the end is `m`. -/
def Silent (m : D) (out : Except ε α) (d : D) : Prop := out.isOk = true ∧ d = m

namespace Keeps

variable {T : Discipline Op Res ε D} {Q : Except ε α → D → Prop}

variable {p : Prog Op Res ε α} {d : D} {Q' : Except ε α → D → Prop}

theorem mono (hp : p.Keeps T Q d) (hQ : ∀ out d, Q out d → Q' out d) : p.Keeps T Q' d := by
  induction p generalizing d with
  | ret a | throw e => exact hQ _ _ hp
  | op o k ih => exact ⟨hp.1, fun r hr => ih r (hp.2 r hr)⟩

theorem family {I : Type} {T : I → Discipline Op Res ε D} {i : I} (hp : p.Keeps (T i) Q d) :
    p.Keeps (Discipline.family T) (fun out x => x.1 = i ∧ Q out x.2) (i, d) := by
  induction p generalizing d with
  | ret a | throw e => exact ⟨rfl, hp⟩
  | op o k ih => exact ⟨hp.1, fun r hr => ih r (hp.2 r (hr i))⟩

theorem bind {Q' : Except ε β → D → Prop} {f : α → Prog Op Res ε β} (hp : p.Keeps T Q d)
    (hOk : ∀ a d, Q (.ok a) d → (f a).Keeps T Q' d) (hErr : ∀ e d, Q (.error e) d → Q' (.error e) d) :
    (p.bind f).Keeps T Q' d := by
  induction p generalizing d with
  | ret a => exact hOk a d hp
  | throw e => exact hErr e d hp
  | op o k ih => exact ⟨hp.1, fun r hr => ih r (hp.2 r hr)⟩

theorem tryCatch {f : ε → Prog Op Res ε α} (hp : p.Keeps T Q d) (hOk : ∀ a d, Q (.ok a) d → Q' (.ok a) d)
    (hErr : ∀ e d, Q (.error e) d → (f e).Keeps T Q' d) : (p.tryCatch f).Keeps T Q' d := by
  induction p generalizing d with
  | ret a => exact hOk a d hp
  | throw e => exact hErr e d hp
  | op o k ih => exact ⟨hp.1, fun r hr => ih r (hp.2 r hr)⟩

theorem ofExcept {r : Except ε α} (hQ : Q r d) : (Prog.ofExcept r : Prog Op Res ε α).Keeps T Q d := by
  cases r with
  | ok a => exact hQ
  | error e => exact hQ

variable {o : Op}

theorem perform {Q : Except ε (Res o) → D → Prop} (hA : T.admits d o) (hQ : ∀ r, T.answers o r → Q r (T.after d o r)) :
    (Prog.perform o).Keeps T Q d :=
  ⟨hA, fun r hr => ofExcept (hQ r hr)⟩

theorem perform_bind {f : Res o → Prog Op Res ε α} (hA : T.admits d o)
    (hErr : ∀ e, T.answers o (.error e) → Q (.error e) (T.after d o (.error e)))
    (hOk : ∀ a, T.answers o (.ok a) → (f a).Keeps T Q (T.after d o (.ok a))) :
    ((Prog.perform o).bind f).Keeps T Q d := by
  refine ⟨hA, fun r hr => ?_⟩
  cases r with
  | ok a => exact hOk a hr
  | error e => exact hErr e hr

/-- The same where operations raise nothing. -/
theorem perform_then {T : Discipline Op Res Empty D} {Q : Except Empty α → D → Prop} {f : Res o → Prog Op Res Empty α}
    (hA : T.admits d o) (hOk : ∀ a, T.answers o (.ok a) → (f a).Keeps T Q (T.after d o (.ok a))) :
    ((Prog.perform o).bind f).Keeps T Q d :=
  perform_bind hA (fun e => e.elim) hOk

theorem bind_then {T : Discipline Op Res Empty D} {Q : Except Empty α → D → Prop} {Q' : Except Empty β → D → Prop}
    {p : Prog Op Res Empty α} {f : α → Prog Op Res Empty β} (hp : p.Keeps T Q d)
    (hOk : ∀ a d, Q (.ok a) d → (f a).Keeps T Q' d) : (p.bind f).Keeps T Q' d :=
  hp.bind hOk fun e => e.elim

theorem perform_silent {m : D} (hA : T.admits d o) (hSilent : ∀ e, ¬ T.answers o (.error e))
    (hAfter : ∀ a, T.after d o (.ok a) = m) : (Prog.perform o).Keeps T (Silent m) d := by
  refine perform hA fun r hr => ?_
  cases r with
  | ok a => exact ⟨rfl, hAfter a⟩
  | error e => exact absurd hr (hSilent e)

theorem silent_then {Q : Except ε β → D → Prop} {f : α → Prog Op Res ε β} {m : D} (hp : p.Keeps T (Silent m) d)
    (hf : ∀ a, (f a).Keeps T Q m) : (p.bind f).Keeps T Q d := by
  refine hp.bind ?_ ?_
  · rintro a _ ⟨_, rfl⟩
    exact hf a
  · rintro e _ ⟨hOk, _⟩
    cases hOk

theorem when {b : Bool} {p : Prog Op Res ε Unit} {Q : Except ε Unit → D → Prop} (hp : b = true → p.Keeps T Q d)
    (hQ : Q (.ok ()) d) : (Prog.when b p).Keeps T Q d := by
  cases b with
  | true => exact hp rfl
  | false => exact hQ

/-- A program all of whose operations are admitted as long as the state has kept `P`,
where no such operation breaks `P`. -/
theorem of_uses {P : D → Prop} {H : Op → Prop} (hUses : p.Uses H) (hA : ∀ d o, P d → H o → T.admits d o)
    (hKeep : ∀ d o r, P d → H o → T.answers o r → P (T.after d o r)) (hP : P d) : p.Keeps T (fun _ => P) d := by
  induction p generalizing d with
  | ret a => exact hP
  | throw e => exact hP
  | op o k ih =>
    exact ⟨hA d o hP hUses.1, fun r hr => ih r (hUses.2 r) (hKeep d o r hP hUses.1 hr)⟩

/-- The final program runs after either outcome and raises nothing of its own. -/
theorem tryFinally {fin : Prog Op Res ε Unit} (hp : p.Keeps T Q d)
    (hFin : ∀ out d, Q out d → fin.Keeps T (fun r d' => Q' (r.bind fun _ => out) d') d) 
    : (p.tryFinally fin).Keeps T Q' d := by
  refine bind (Q := fun out d => (∃ a, out = .ok a ∧ Q (.ok a) d) ∨ (out.isOk = false ∧ Q' out d)) ?_ ?_ ?_
  · refine tryCatch hp (fun a d hQ => .inl ⟨a, rfl, hQ⟩) fun e d hQ => ?_
    exact (hFin _ d hQ).bind (fun _ _ hQ' => .inr ⟨rfl, hQ'⟩) fun _ _ hQ' => .inr ⟨rfl, hQ'⟩
  · rintro a d (⟨_, hEq, hQ⟩ | ⟨hNot, _⟩)
    · cases hEq
      exact (hFin _ d hQ).bind (fun _ _ hQ' => hQ') fun _ _ hQ' => hQ'
    · cases hNot
  · rintro e d (⟨_, hEq, _⟩ | ⟨_, hQ'⟩)
    · cases hEq
    · exact hQ'

end Keeps

end Prog

end Foundation
