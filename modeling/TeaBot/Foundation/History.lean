import Mathlib.Data.List.Basic
import TeaBot.Foundation.Typestate

/-! # Executions and histories

An execution of a program is the list of operations it asked for, each with the answer
it got; the answers are arbitrary. `Guarded R A` says that as long as the answers meet
`R`, each operation is asked for only after a history that `A` admits.
-/

namespace Foundation

structure Event (Op : Type) (Res : Op → Type) (ε : Type) where
  op : Op
  answer : Except ε (Res op)

/-- The state of a discipline after a history. -/
def Discipline.stateAfter {Op : Type} {Res : Op → Type} {ε D : Type} (T : Discipline Op Res ε D) (d₀ : D)
    (h : List (Event Op Res ε)) : D :=
  h.foldl (fun d e => T.after d e.op e.answer) d₀

theorem Discipline.stateAfter_snoc {Op : Type} {Res : Op → Type} {ε D : Type} (T : Discipline Op Res ε D) (d₀ : D)
    (h : List (Event Op Res ε)) (e : Event Op Res ε) :
    T.stateAfter d₀ (h ++ [e]) = T.after (T.stateAfter d₀ h) e.op e.answer := by
  simp [stateAfter]

namespace Prog

variable {Op : Type} {Res : Op → Type} {ε α β : Type}

inductive Exec : Prog Op Res ε α → List (Event Op Res ε) → Except ε α → Prop
  | ret (a : α) : Exec (.ret a) [] (.ok a)
  | throw (e : ε) : Exec (.throw e) [] (.error e)
  | op {o : Op} {k : Except ε (Res o) → Prog Op Res ε α} {r : Except ε (Res o)}
      {tr : List (Event Op Res ε)} {out : Except ε α} :
      Exec (k r) tr out → Exec (.op o k) (⟨o, r⟩ :: tr) out

variable {p : Prog Op Res ε α} {tr : List (Event Op Res ε)} {out : Except ε α}

theorem Exec.tryCatch_cases {f : ε → Prog Op Res ε α} (h : (p.tryCatch f).Exec tr out) :
    (∃ a, out = .ok a ∧ p.Exec tr (.ok a)) ∨
      ∃ e tr₁ tr₂, tr = tr₁ ++ tr₂ ∧ p.Exec tr₁ (.error e) ∧ (f e).Exec tr₂ out := by
  induction p generalizing tr with
  | ret a =>
    cases h
    exact .inl ⟨a, rfl, .ret a⟩
  | throw e => exact .inr ⟨e, [], tr, rfl, .throw e, h⟩
  | op o k ih =>
    cases h with
    | op hRest =>
      rcases ih _ hRest with ⟨a, rfl, hp⟩ | ⟨e, tr₁, tr₂, rfl, hp, hf⟩
      · exact .inl ⟨a, rfl, .op hp⟩
      · exact .inr ⟨e, _ :: tr₁, tr₂, rfl, .op hp, hf⟩

variable {f : α → Prog Op Res ε β}

theorem Exec.bind_cases {out : Except ε β} (h : (p.bind f).Exec tr out) :
    (∃ e, out = .error e ∧ p.Exec tr (.error e)) ∨
      ∃ a tr₁ tr₂, tr = tr₁ ++ tr₂ ∧ p.Exec tr₁ (.ok a) ∧ (f a).Exec tr₂ out := by
  induction p generalizing tr with
  | ret a => exact .inr ⟨a, [], tr, rfl, .ret a, h⟩
  | throw e =>
    cases h
    exact .inl ⟨e, rfl, .throw e⟩
  | op o k ih =>
    cases h with
    | op hRest =>
      rcases ih _ hRest with ⟨e, rfl, hp⟩ | ⟨a, tr₁, tr₂, rfl, hp, hf⟩
      · exact .inl ⟨e, rfl, .op hp⟩
      · exact .inr ⟨a, _ :: tr₁, tr₂, rfl, .op hp, hf⟩

theorem Exec.tryFinally_cases {fin : Prog Op Res ε Unit} (h : (p.tryFinally fin).Exec tr out) :
    ∃ out₁ tr₁ tr₂, tr = tr₁ ++ tr₂ ∧ p.Exec tr₁ out₁ ∧
      ((out = out₁ ∧ fin.Exec tr₂ (.ok ())) ∨ ∃ e, out = .error e ∧ fin.Exec tr₂ (.error e)) := by
  rcases h.bind_cases with ⟨e, rfl, hBody⟩ | ⟨a, tr₁, tr₂, rfl, hBody, hEnd⟩
  · rcases hBody.tryCatch_cases with ⟨a, hEq, _⟩ | ⟨e', tr₁, tr₂, rfl, hp, hHandler⟩
    · cases hEq
    · rcases hHandler.bind_cases with ⟨e, hEq, hFin⟩ | ⟨_, tr₃, tr₄, rfl, hFin, hThrow⟩
      · exact ⟨_, tr₁, tr₂, rfl, hp, .inr ⟨e, hEq, hFin⟩⟩
      · cases hThrow
        exact ⟨_, tr₁, _, rfl, hp, .inl ⟨rfl, by rwa [List.append_nil]⟩⟩
  · rcases hBody.tryCatch_cases with ⟨a', hEq, hp⟩ | ⟨e', tr₃, tr₄, rfl, hp, hHandler⟩
    · cases hEq
      rcases hEnd.bind_cases with ⟨e, rfl, hFin⟩ | ⟨_, tr₃, tr₄, rfl, hFin, hRet⟩
      · exact ⟨_, tr₁, tr₂, rfl, hp, .inr ⟨e, rfl, hFin⟩⟩
      · cases hRet
        exact ⟨_, tr₁, _, rfl, hp, .inl ⟨rfl, by rwa [List.append_nil]⟩⟩
    · rcases hHandler.bind_cases with ⟨_, hEq, _⟩ | ⟨_, _, _, _, _, hThrow⟩
      · cases hEq
      · cases hThrow

theorem Exec.tryFinally_bind {fin : Prog Op Res ε Unit} {tr₁ tr₂ : List (Event Op Res ε)} {a : α} {out : Except ε β}
    (hp : p.Exec tr₁ (.ok a)) (hf : ((f a).tryFinally fin).Exec tr₂ out) :
    ((p.bind f).tryFinally fin).Exec (tr₁ ++ tr₂) out := by
  induction p generalizing tr₁ with
  | ret b =>
    cases hp
    exact hf
  | throw e => cases hp
  | op o k ih =>
    cases hp with
    | op hRest => exact .op (ih _ hRest)

/-- An execution that returns goes through all parts of the program. -/
theorem Exec.bind_ok {b : β} (h : (p.bind f).Exec tr (.ok b)) :
    ∃ a tr₁ tr₂, tr = tr₁ ++ tr₂ ∧ p.Exec tr₁ (.ok a) ∧ (f a).Exec tr₂ (.ok b) := by
  rcases h.bind_cases with ⟨_, hEq, _⟩ | hParts
  · cases hEq
  · exact hParts

theorem Exec.perform_ok {o : Op} {a : Res o} (h : (perform o : Prog Op Res ε (Res o)).Exec tr (.ok a)) :
    tr = [⟨o, .ok a⟩] := by
  cases h with
  | @op _ _ r _ _ hRest =>
    cases r <;> cases hRest
    rfl

variable {P : Op → Prop}

theorem Uses.exec (h : p.Uses P) (hExec : p.Exec tr out) : ∀ x ∈ tr, P x.op := by
  induction hExec with
  | ret a => simp
  | throw e => simp
  | op _ ih => exact List.forall_mem_cons.mpr ⟨h.1, ih (h.2 _)⟩

/-- No execution continues another one: the operations tell where a program ends. -/
theorem Exec.unique {tr' rest rest' : List (Event Op Res ε)} {out' : Except ε α} (h : p.Exec tr out)
    (h' : p.Exec tr' out') (hEq : tr ++ rest = tr' ++ rest') : tr = tr' ∧ out = out' := by
  induction h generalizing tr' with
  | ret a | throw e =>
    cases h'
    exact ⟨rfl, rfl⟩
  | op _ ih =>
    cases h' with
    | op hRest =>
      obtain ⟨hHead, hTail⟩ := List.cons.inj hEq
      cases hHead
      obtain ⟨rfl, rfl⟩ := ih hRest hTail
      exact ⟨rfl, rfl⟩

def record {S : Type} (exec : (o : Op) → S → Except ε (Res o) × S) :
    Prog Op Res ε α → S → List (Event Op Res ε)
  | .ret _, _ => []
  | .throw _, _ => []
  | .op o k, s => ⟨o, (exec o s).1⟩ :: (k (exec o s).1).record exec (exec o s).2

theorem exec_record {S : Type} (exec : (o : Op) → S → Except ε (Res o) × S) (p : Prog Op Res ε α) (s : S) :
    p.Exec (p.record exec s) (p.eval exec s).1 := by
  induction p generalizing s with
  | ret a => exact .ret a
  | throw e => exact .throw e
  | op o k ih => exact .op (ih _ _)

section Record

variable {S : Type} {exec : (o : Op) → S → Except ε (Res o) × S}

variable {s : S}

theorem record_bind_ok {s' : S} {a : α} (h : p.eval exec s = (.ok a, s')) :
    (p.bind f).record exec s = p.record exec s ++ (f a).record exec s' := by
  induction p generalizing s with
  | ret b =>
    cases h
    rfl
  | throw e => cases h
  | op o k ih => exact congrArg (List.cons _) (ih (exec o s).1 h)

theorem record_bind_error {s' : S} {e : ε} (h : p.eval exec s = (.error e, s')) :
    (p.bind f).record exec s = p.record exec s := by
  induction p generalizing s with
  | ret b => cases h
  | throw e' => rfl
  | op o k ih => exact congrArg (List.cons _) (ih (exec o s).1 h)

theorem answer_of_mem_record {x : Event Op Res ε} (h : x ∈ p.record exec s) : ∃ s', x.answer = (exec x.op s').1 := by
  induction p generalizing s with
  | ret a => cases h
  | throw e => cases h
  | op o k ih =>
    rcases List.mem_cons.mp h with rfl | hRest
    · exact ⟨s, rfl⟩
    · exact ih _ hRest

theorem Uses.record (h : p.Uses P) (s : S) : ∀ x ∈ p.record exec s, P x.op := by
  induction p generalizing s with
  | ret a => nofun
  | throw e => nofun
  | op o k ih =>
    intro x hx
    rcases List.mem_cons.mp hx with rfl | hx
    · exact h.1
    · exact ih _ (h.2 _) _ x hx

end Record

/-- The discipline of histories. -/
def history (R : Event Op Res ε → Prop) (A : List (Event Op Res ε) → Op → Prop) :
    Discipline Op Res ε (List (Event Op Res ε)) where
  admits := A
  answers o r := R ⟨o, r⟩
  after h o r := h ++ [⟨o, r⟩]

abbrev Guarded (R : Event Op Res ε → Prop) (A : List (Event Op Res ε) → Op → Prop)
    (Q : Except ε α → List (Event Op Res ε) → Prop) (p : Prog Op Res ε α) (h : List (Event Op Res ε)) : Prop :=
  p.Keeps (history R A) Q h

namespace Keeps

variable {R : Event Op Res ε → Prop} {A : List (Event Op Res ε) → Op → Prop}
  {Q : Except ε α → List (Event Op Res ε) → Prop}

variable {h : List (Event Op Res ε)}

theorem post (hp : p.Guarded R A Q h) (hExec : p.Exec tr out) (hR : ∀ e ∈ tr, R e) : Q out (h ++ tr) := by
  induction hExec generalizing h with
  | ret a | throw e => exact (List.append_nil h).symm ▸ hp
  | op _ ih =>
    obtain ⟨hHead, hRest⟩ := List.forall_mem_cons.mp hR
    simpa [history] using ih (hp.2 _ hHead) hRest

theorem event (hp : p.Guarded R A Q h) (hExec : p.Exec tr out) (hR : ∀ e ∈ tr, R e)
    {before after : List (Event Op Res ε)} {e : Event Op Res ε} (hTr : tr = before ++ e :: after) :
    A (h ++ before) e.op := by
  induction hExec generalizing h before with
  | ret a | throw e => simp at hTr
  | @op o k r tr out _ ih =>
    obtain ⟨hHead, hRest⟩ := List.forall_mem_cons.mp hR
    cases before with
    | nil =>
      obtain ⟨rfl, _⟩ := List.cons.inj hTr
      simpa [history] using hp.1
    | cons e' before =>
      obtain ⟨rfl, hTail⟩ := List.cons.inj hTr
      simpa [history] using ih (hp.2 r hHead) hRest hTail

/-- What a program has done by itself when it ends. -/
theorem traced (hUses : p.Uses P) (hA : ∀ tr o, (∀ e ∈ tr, P e.op) → P o → A (h ++ tr) o) :
    p.Guarded R A (fun out h' => ∃ tr, h' = h ++ tr ∧ p.Exec tr out ∧ ∀ e ∈ tr, P e.op) h := by
  induction p generalizing h with
  | ret a => exact ⟨[], (List.append_nil h).symm, .ret a, nofun⟩
  | throw e => exact ⟨[], (List.append_nil h).symm, .throw e, nofun⟩
  | op o k ih =>
    refine ⟨List.append_nil h ▸ hA [] o nofun hUses.1, fun r _ => (ih r (hUses.2 r) fun tr o' hTr ho' => ?_).mono ?_⟩
    · rw [history, List.append_assoc]
      exact hA (⟨o, r⟩ :: tr) o' (List.forall_mem_cons.mpr ⟨hUses.1, hTr⟩) ho'
    · rintro out _ ⟨tr, rfl, hExec, hTr⟩
      exact ⟨⟨o, r⟩ :: tr, List.append_assoc h _ tr, .op hExec, List.forall_mem_cons.mpr ⟨hUses.1, hTr⟩⟩

theorem anything (p : Prog Op Res ε α) (h : List (Event Op Res ε)) :
    p.Guarded R (fun _ _ => True) (fun _ _ => True) h := by
  induction p generalizing h with
  | ret a => trivial
  | throw e => trivial
  | op o k ih => exact ⟨trivial, fun r _ => ih r _⟩

/-- A discipline is kept if it is kept by the state that the history leads to. -/
theorem guarded {D : Type} {T : Discipline Op Res ε D} {d₀ : D} {Q : Except ε α → D → Prop}
    (hp : p.Keeps T Q (T.stateAfter d₀ h)) :
    p.Guarded (fun e => T.answers e.op e.answer) (fun h o => T.admits (T.stateAfter d₀ h) o)
      (fun out h => Q out (T.stateAfter d₀ h)) h := by
  induction p generalizing h with
  | ret a => exact hp
  | throw e => exact hp
  | op o k ih =>
    refine ⟨hp.1, fun r hr => ih r ?_⟩
    rw [history, Discipline.stateAfter_snoc]
    exact hp.2 r hr

end Keeps

end Prog

end Foundation
