import TeaBot.Foundation.History

/-! # Runs against a nondeterministic environment

`step o s r s'` says that in state `s` operation `o` may be answered with `r` and leave
`s'`. A run of a program is one way to answer all its operations.
-/

namespace Foundation.Prog

variable {Op : Type} {Res : Op → Type} {ε α β S : Type}

inductive Runs (step : (o : Op) → S → Except ε (Res o) → S → Prop) :
    Prog Op Res ε α → S → Except ε α → S → Prop
  | ret (a : α) (s : S) : Runs step (.ret a) s (.ok a) s
  | throw (e : ε) (s : S) : Runs step (.throw e) s (.error e) s
  | op {o : Op} {k : Except ε (Res o) → Prog Op Res ε α} {r : Except ε (Res o)} {s s₁ s₂ : S} {out : Except ε α}
      (hStep : step o s r s₁) (hRest : Runs step (k r) s₁ out s₂) : Runs step (.op o k) s out s₂

namespace Runs

variable {step : (o : Op) → S → Except ε (Res o) → S → Prop} {p : Prog Op Res ε α} {s s' : S}

variable {f : α → Prog Op Res ε β}

variable {s₁ : S} {a : α}

theorem bind {out : Except ε β} (hp : p.Runs step s (.ok a) s₁) (hf : (f a).Runs step s₁ out s') :
    (p.bind f).Runs step s out s' := by
  induction p generalizing s with
  | ret b =>
    cases hp
    exact hf
  | throw e => cases hp
  | op o k ih =>
    cases hp with
    | op hStep hRest => exact .op hStep (ih _ hRest)

theorem bind_cases {out : Except ε β} (h : (p.bind f).Runs step s out s') :
    (∃ e, out = .error e ∧ p.Runs step s (.error e) s') ∨
      ∃ a s₁, p.Runs step s (.ok a) s₁ ∧ (f a).Runs step s₁ out s' := by
  induction p generalizing s with
  | ret a => exact .inr ⟨a, s, .ret a s, h⟩
  | throw e =>
    cases h
    exact .inl ⟨e, rfl, .throw e _⟩
  | op o k ih =>
    cases h with
    | op hStep hRest =>
      rcases ih _ hRest with ⟨e, rfl, hp⟩ | ⟨a, s₁, hp, hf⟩
      · exact .inl ⟨e, rfl, .op hStep hp⟩
      · exact .inr ⟨a, s₁, .op hStep hp, hf⟩

variable {o : Op}

theorem perform_iff {r : Except ε (Res o)} : (perform o : Prog Op Res ε (Res o)).Runs step s r s' ↔ step o s r s' := by
  constructor
  · intro h
    cases h with
    | @op _ _ r₁ _ _ _ _ hStep hRest =>
      cases r₁ <;> cases hRest <;> exact hStep
  · intro h
    refine .op h ?_
    cases r with
    | ok a => exact .ret a s'
    | error e => exact .throw e s'

theorem perform_bind_cases {f : Res o → Prog Op Res ε β} {out : Except ε β}
    (h : ((perform o).bind f).Runs step s out s') :
    (∃ e, out = .error e ∧ step o s (.error e) s') ∨ ∃ a s₁, step o s (.ok a) s₁ ∧ (f a).Runs step s₁ out s' := by
  rcases bind_cases h with ⟨e, hOut, hOp⟩ | ⟨a, s₁, hOp, hRest⟩
  · exact .inl ⟨e, hOut, perform_iff.mp hOp⟩
  · exact .inr ⟨a, s₁, perform_iff.mp hOp, hRest⟩

variable {out : Except ε α}

theorem tryCatch_cases {f : ε → Prog Op Res ε α} (h : (p.tryCatch f).Runs step s out s') :
    (∃ a, out = .ok a ∧ p.Runs step s (.ok a) s') ∨
      ∃ e s₁, p.Runs step s (.error e) s₁ ∧ (f e).Runs step s₁ out s' := by
  induction p generalizing s with
  | ret a =>
    cases h
    exact .inl ⟨a, rfl, .ret a _⟩
  | throw e => exact .inr ⟨e, s, .throw e s, h⟩
  | op o k ih =>
    cases h with
    | op hStep hRest =>
      rcases ih _ hRest with ⟨a, rfl, hp⟩ | ⟨e, s₁, hp, hf⟩
      · exact .inl ⟨a, rfl, .op hStep hp⟩
      · exact .inr ⟨e, s₁, .op hStep hp, hf⟩

variable {fin : Prog Op Res ε Unit}

theorem tryFinally_cases (h : (p.tryFinally fin).Runs step s out s') :
    ∃ out₁ s₁, p.Runs step s out₁ s₁ ∧
      ((out = out₁ ∧ fin.Runs step s₁ (.ok ()) s') ∨ ∃ e, out = .error e ∧ fin.Runs step s₁ (.error e) s') := by
  rcases bind_cases h with ⟨e, rfl, hBody⟩ | ⟨a, s₁, hBody, hEnd⟩
  · rcases tryCatch_cases hBody with ⟨a, hEq, _⟩ | ⟨e', s₁, hp, hHandler⟩
    · cases hEq
    · rcases bind_cases hHandler with ⟨e, hEq, hFin⟩ | ⟨_, s₂, hFin, hThrow⟩
      · exact ⟨_, s₁, hp, .inr ⟨e, hEq, hFin⟩⟩
      · cases hThrow
        exact ⟨_, s₁, hp, .inl ⟨rfl, hFin⟩⟩
  · rcases tryCatch_cases hBody with ⟨a', hEq, hp⟩ | ⟨e', s₂, hp, hHandler⟩
    · cases hEq
      rcases bind_cases hEnd with ⟨e, rfl, hFin⟩ | ⟨_, s₂, hFin, hRet⟩
      · exact ⟨_, s₁, hp, .inr ⟨e, rfl, hFin⟩⟩
      · cases hRet
        exact ⟨_, s₁, hp, .inl ⟨rfl, hFin⟩⟩
    · rcases bind_cases hHandler with ⟨_, hEq, _⟩ | ⟨_, s₃, _, hThrow⟩
      · cases hEq
      · cases hThrow

theorem tryFinally_bind {out : Except ε β} (hp : p.Runs step s (.ok a) s₁)
    (hf : ((f a).tryFinally fin).Runs step s₁ out s') : ((p.bind f).tryFinally fin).Runs step s out s' := by
  induction p generalizing s with
  | ret b =>
    cases hp
    exact hf
  | throw e => cases hp
  | op o k ih =>
    cases hp with
    | op hStep hRest => exact .op hStep (ih _ hRest)

theorem exec (hRun : p.Runs step s out s') : ∃ tr, p.Exec tr out := by
  induction hRun with
  | ret a s => exact ⟨[], .ret a⟩
  | throw e s => exact ⟨[], .throw e⟩
  | op _ _ ih =>
    obtain ⟨tr, hExec⟩ := ih
    exact ⟨_ :: tr, .op hExec⟩

variable {P : Op → Prop} {I : S → Prop}

/-- What every operation of the program preserves holds at the end. -/
theorem invariant (hUses : p.Uses P) (hStep : ∀ o r s s', P o → step o s r s' → I s → I s')
    (hRun : p.Runs step s out s') (hI : I s) : I s' := by
  induction hRun with
  | ret a s => exact hI
  | throw e s => exact hI
  | op hOp _ ih => exact ih (hUses.2 _) (hStep _ _ _ _ hUses.1 hOp hI)

variable {S' : Type} {step' : (o : Op) → S' → Except ε (Res o) → S' → Prop}

theorem map (view : S → S') (hStep : ∀ o r s s', step o s r s' → step' o (view s) r (view s'))
    (hRun : p.Runs step s out s') : p.Runs step' (view s) out (view s') := by
  induction hRun with
  | ret a s => exact .ret a _
  | throw e s => exact .throw e _
  | op hOp _ ih => exact .op (hStep _ _ _ _ hOp) ih

/-- A view of the states that every operation of the program respects. -/
theorem simulate (view : S → S') (hUses : p.Uses P)
    (hStep : ∀ o r s s', P o → step o s r s' → I s → step' o (view s) r (view s') ∧ I s') (hRun : p.Runs step s out s')
    (hI : I s) : p.Runs step' (view s) out (view s') ∧ I s' := by
  induction hRun with
  | ret a s => exact ⟨.ret a _, hI⟩
  | throw e s => exact ⟨.throw e _, hI⟩
  | op hOp _ ih =>
    obtain ⟨hView, hI₁⟩ := hStep _ _ _ _ hUses.1 hOp hI
    obtain ⟨hRest, hI₂⟩ := ih (hUses.2 _) hI₁
    exact ⟨.op hView hRest, hI₂⟩

end Runs

end Foundation.Prog
