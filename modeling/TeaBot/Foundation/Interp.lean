import TeaBot.Foundation.History

/-! # Carrying out operations by programs

A program over one set of operations is run on top of another: every operation becomes a
program over the operations below, and what that program ends with, a result or an
exception, is the operation's answer.
-/

namespace Foundation

namespace Prog

variable {Op Op' : Type} {Res : Op → Type} {Res' : Op' → Type} {ε α β D : Type}

/-- Goes on with `f` however the program ends. -/
def attempt : Prog Op Res ε α → (Except ε α → Prog Op Res ε β) → Prog Op Res ε β
  | .ret a, f => f (.ok a)
  | .throw e, f => f (.error e)
  | .op o k, f => .op o fun r => (k r).attempt f

def interp (impl : (o : Op) → Prog Op' Res' ε (Res o)) : Prog Op Res ε α → Prog Op' Res' ε α
  | .ret a => .ret a
  | .throw e => .throw e
  | .op o k => (impl o).attempt fun r => (k r).interp impl

theorem attempt_ofExcept (p : Prog Op Res ε α) : p.attempt ofExcept = p := by
  induction p with
  | ret a => rfl
  | throw e => rfl
  | op o k ih => exact congrArg (op o) (funext ih)

theorem attempt_bind {γ : Type} (p : Prog Op Res ε α) (f : Except ε α → Prog Op Res ε β) (g : β → Prog Op Res ε γ) :
    (p.attempt f).bind g = p.attempt fun r => (f r).bind g := by
  induction p with
  | ret a => rfl
  | throw e => rfl
  | op o k ih => exact congrArg (op o) (funext ih)

section Homomorphism

variable (impl : (o : Op) → Prog Op' Res' ε (Res o))

@[simp] theorem interp_perform (o : Op) : (perform o : Prog Op Res ε (Res o)).interp impl = impl o := by
  have hEnd : (fun r => (ofExcept r : Prog Op Res ε (Res o)).interp impl) = ofExcept := by
    funext r
    cases r <;> rfl
  rw [perform, interp, hEnd, attempt_ofExcept]

@[simp] theorem interp_bind (p : Prog Op Res ε α) (f : α → Prog Op Res ε β) :
    (p.bind f).interp impl = (p.interp impl).bind fun a => (f a).interp impl := by
  induction p with
  | ret a => rfl
  | throw e => rfl
  | op o k ih =>
    rw [bind_op, interp, interp, attempt_bind]
    exact congrArg (attempt (impl o)) (funext ih)

end Homomorphism

open Classical in
/-- What is left of a program whose next operation is `o` once that has been answered. -/
noncomputable def answered (p : Prog Op Res ε α) (o : Op) (r : Except ε (Res o)) : Prog Op Res ε α :=
  match p with
  | .op o' k => if h : o = o' then k (h ▸ r) else p
  | p => p

@[simp] theorem answered_op (o : Op) (k : Except ε (Res o) → Prog Op Res ε α) (r : Except ε (Res o)) :
    (op o k).answered o r = k r := by
  simp [answered]

variable {p : Prog Op Res ε α}

theorem Keeps.attempt {T : Discipline Op Res ε D} {Q : Except ε α → D → Prop} {Q' : Except ε β → D → Prop}
    {f : Except ε α → Prog Op Res ε β} {d : D} (hp : p.Keeps T Q d) (hf : ∀ out d, Q out d → (f out).Keeps T Q' d) :
    (p.attempt f).Keeps T Q' d := by
  induction p generalizing d with
  | ret a | throw e => exact hf _ d hp
  | op o k ih => exact ⟨hp.1, fun r hr => ih r (hp.2 r hr)⟩

variable {impl : (o : Op) → Prog Op' Res' ε (Res o)}

/-- `I` relates what is left of the program above to the state below. -/
theorem Keeps.interp {T : Discipline Op' Res' ε D} {I : Prog Op Res ε α → D → Prop} {Q : Except ε α → D → Prop}
    (hOp : ∀ o k d, I (.op o k) d → (impl o).Keeps T (fun r d' => I (k r) d') d)
    (hRet : ∀ a d, I (.ret a) d → Q (.ok a) d) (hThrow : ∀ e d, I (.throw e) d → Q (.error e) d) {d : D} (h : I p d) :
    (p.interp impl).Keeps T Q d := by
  induction p generalizing d with
  | ret a => exact hRet a d h
  | throw e => exact hThrow e d h
  | op o k ih => exact (hOp o k d h).attempt fun r d' hd' => ih r hd'

theorem Exec.attempt_iff {f : Except ε α → Prog Op Res ε β} {tr : List (Event Op Res ε)} {out : Except ε β} :
    (p.attempt f).Exec tr out ↔ ∃ r tr₁ tr₂, tr = tr₁ ++ tr₂ ∧ p.Exec tr₁ r ∧ (f r).Exec tr₂ out := by
  constructor
  · intro h
    induction p generalizing tr with
    | ret a => exact ⟨.ok a, [], tr, rfl, .ret a, h⟩
    | throw e => exact ⟨.error e, [], tr, rfl, .throw e, h⟩
    | op o k ih =>
      cases h with
      | op hRest =>
        obtain ⟨r, tr₁, tr₂, rfl, hp, hf⟩ := ih _ hRest
        exact ⟨r, _ :: tr₁, tr₂, rfl, .op hp, hf⟩
  · rintro ⟨r, tr₁, tr₂, rfl, hp, hf⟩
    induction hp with
    | ret a => exact hf
    | throw e => exact hf
    | op _ ih => exact .op (ih hf)

variable {out : Except ε α}

theorem Exec.ofExcept_iff {r : Except ε α} {tr : List (Event Op Res ε)} :
    (ofExcept r : Prog Op Res ε α).Exec tr out ↔ tr = [] ∧ out = r := by
  constructor
  · intro h
    cases r <;> cases h <;> exact ⟨rfl, rfl⟩
  · rintro ⟨rfl, rfl⟩
    cases out with
    | ok a => exact .ret a
    | error e => exact .throw e

theorem Exec.perform_iff {o : Op} {r : Except ε (Res o)} {tr : List (Event Op Res ε)} :
    (perform o : Prog Op Res ε (Res o)).Exec tr r ↔ tr = [⟨o, r⟩] := by
  constructor
  · intro h
    cases h with
    | op hRest =>
      obtain ⟨rfl, rfl⟩ := Exec.ofExcept_iff.mp hRest
      rfl
  · rintro rfl
    exact .op (Exec.ofExcept_iff.mpr ⟨rfl, rfl⟩)

theorem Exec.perform_bind_iff {o : Op} {f : Res o → Prog Op Res ε α} {tr : List (Event Op Res ε)} :
    ((perform o).bind f).Exec tr out ↔ (∃ e, tr = [⟨o, .error e⟩] ∧ out = .error e) ∨
      ∃ a rest, tr = ⟨o, .ok a⟩ :: rest ∧ (f a).Exec rest out := by
  constructor
  · intro h
    cases h with
    | @op _ _ r _ _ hRest =>
      cases r with
      | error e =>
        cases hRest
        exact .inl ⟨e, rfl, rfl⟩
      | ok a => exact .inr ⟨a, _, rfl, hRest⟩
  · rintro (⟨e, rfl, rfl⟩ | ⟨a, rest, rfl, hRest⟩)
    · exact .op (.throw e)
    · exact .op hRest

/-- The events above, and below them those of the programs that carried them out. -/
inductive Blocks (impl : (o : Op) → Prog Op' Res' ε (Res o)) :
    List (Event Op Res ε) → List (Event Op' Res' ε) → Prop
  | nil : Blocks impl [] []
  | cons {e : Event Op Res ε} {calls : List (Event Op Res ε)} {seg tr : List (Event Op' Res' ε)} :
      (impl e.op).Exec seg e.answer → Blocks impl calls tr → Blocks impl (e :: calls) (seg ++ tr)

variable {tr : List (Event Op' Res' ε)}

theorem Exec.interp_iff : (p.interp impl).Exec tr out ↔ ∃ calls, p.Exec calls out ∧ Blocks impl calls tr := by
  constructor
  · intro h
    induction p generalizing tr with
    | ret a =>
      cases h
      exact ⟨[], .ret a, .nil⟩
    | throw e =>
      cases h
      exact ⟨[], .throw e, .nil⟩
    | op o k ih =>
      obtain ⟨r, seg, rest, rfl, hSeg, hRest⟩ := Exec.attempt_iff.mp h
      obtain ⟨calls, hCalls, hBlocks⟩ := ih r hRest
      exact ⟨⟨o, r⟩ :: calls, .op hCalls, .cons hSeg hBlocks⟩
  · rintro ⟨calls, hCalls, hBlocks⟩
    induction hCalls generalizing tr with
    | ret a =>
      cases hBlocks
      exact .ret a
    | throw e =>
      cases hBlocks
      exact .throw e
    | op _ ih =>
      cases hBlocks with
      | cons hSeg hRest => exact Exec.attempt_iff.mpr ⟨_, _, _, rfl, hSeg, ih hRest⟩

/-- An event below belongs to one of the events above. -/
theorem Blocks.split {calls : List (Event Op Res ε)} {before after : List (Event Op' Res' ε)} {x : Event Op' Res' ε}
    (h : Blocks impl calls tr) (hTr : tr = before ++ x :: after) :
    ∃ calls₁ e calls₂ tr₁ seg₁ seg₂, calls = calls₁ ++ e :: calls₂ ∧ before = tr₁ ++ seg₁ ∧
      Blocks impl calls₁ tr₁ ∧ (impl e.op).Exec (seg₁ ++ x :: seg₂) e.answer := by
  induction h generalizing before with
  | nil => simp at hTr
  | @cons e calls seg tr hSeg hRest ih =>
    have hPlace : (∃ later, before = seg ++ later ∧ tr = later ++ x :: after) ∨ ∃ seg₂, seg = before ++ x :: seg₂ := by
      rcases List.append_eq_append_iff.mp hTr with hLater | ⟨seg', rfl, hEq⟩
      · exact .inl hLater
      · rcases List.cons_eq_append_iff.mp hEq with ⟨rfl, rfl⟩ | ⟨seg₂, rfl, _⟩
        · exact .inl ⟨[], by simp⟩
        · exact .inr ⟨seg₂, rfl⟩
    rcases hPlace with ⟨later, rfl, rfl⟩ | ⟨seg₂, rfl⟩
    · obtain ⟨calls₁, e', calls₂, tr₁, seg₁, seg₂, rfl, rfl, hBefore, hExec⟩ := ih rfl
      exact ⟨e :: calls₁, e', calls₂, seg ++ tr₁, seg₁, seg₂, rfl, by simp, .cons hSeg hBefore, hExec⟩
    · exact ⟨[], e, calls, [], before, seg₂, rfl, rfl, .nil, hSeg⟩

theorem Blocks.countP_le {P : Event Op' Res' ε → Bool} {Q : Event Op Res ε → Bool} {n : Nat}
    {calls : List (Event Op Res ε)}
    (hOne : ∀ e seg, (impl e.op).Exec seg e.answer → seg.countP P ≤ if Q e then n else 0) (h : Blocks impl calls tr) :
    tr.countP P ≤ n * calls.countP Q := by
  induction h with
  | nil => exact Nat.zero_le _
  | @cons e calls seg tr hSeg _ ih =>
    have hHere := hOne e seg hSeg
    rw [List.countP_append, List.countP_cons, Nat.mul_add]
    by_cases he : Q e = true
    · rw [if_pos he] at hHere ⊢
      omega
    · rw [if_neg he] at hHere ⊢
      omega

end Prog

end Foundation
