import TeaBot.Foundation.Interleaving
import TeaBot.Foundation.Runs

/-! # Runs with the environment's choices written down

`exec o c s` is what operation `o` does in state `s` once the environment has settled on
`c`; it is `none` where the two do not go together. The log of a run lists its operations
with these choices, and determines the run.
-/

namespace Foundation

variable {Op : Type} {Res : Op → Type} {ε α S Choice : Type}

structure Logged (S Op Choice : Type) where
  state : S
  log : List (Op × Choice)

def logged (exec : (o : Op) → Choice → S → Option (Except ε (Res o) × S)) (o : Op) (s : Logged S Op Choice)
    (r : Except ε (Res o)) (s' : Logged S Op Choice) : Prop :=
  ∃ c, exec o c s.state = some (r, s'.state) ∧ s'.log = s.log ++ [(o, c)]

variable {out : Except ε α} {s s' : Logged S Op Choice}

namespace Prog.Runs

variable {exec : (o : Op) → Choice → S → Option (Except ε (Res o) × S)} {p : Prog Op Res ε α}

theorem exists_log (hRun : p.Runs (logged exec) s out s') : ∃ l, s'.log = s.log ++ l := by
  induction hRun with
  | ret a s | throw e s => exact ⟨[], by simp⟩
  | @op o _ _ s _ _ _ hStep _ ih =>
    obtain ⟨c, _, hLog⟩ := hStep
    obtain ⟨l, hl⟩ := ih
    exact ⟨(o, c) :: l, by rw [hl, hLog, List.append_assoc, List.singleton_append]⟩

theorem log_grows (hRun : p.Runs (logged exec) s out s') : s.log <+: s'.log := by
  obtain ⟨l, hl⟩ := hRun.exists_log
  exact ⟨l, hl.symm⟩

/-- Of two runs whose logs continue each other neither is longer. -/
theorem log_unique {s₁ s₂ : Logged S Op Choice} {out₁ out₂ : Except ε α} {rest₁ rest₂ : List (Op × Choice)}
    (h₁ : p.Runs (logged exec) s out₁ s₁) (h₂ : p.Runs (logged exec) s out₂ s₂)
    (hLog : s₁.log ++ rest₁ = s₂.log ++ rest₂) : out₁ = out₂ ∧ s₁ = s₂ := by
  induction h₁ with
  | ret a s | throw e s =>
    cases h₂
    exact ⟨rfl, rfl⟩
  | @op o k r₁ s m₁ s₁ out₁ hStep₁ hRest₁ ih =>
    cases h₂ with
    | @op _ _ r₂ _ m₂ _ _ hStep₂ hRest₂ =>
      obtain ⟨c₁, hExec₁, hLog₁⟩ := hStep₁
      obtain ⟨c₂, hExec₂, hLog₂⟩ := hStep₂
      obtain ⟨l₁, hl₁⟩ := hRest₁.exists_log
      obtain ⟨l₂, hl₂⟩ := hRest₂.exists_log
      have hHeads : (o, c₁) = (o, c₂) := by
        rw [hl₁, hl₂, hLog₁, hLog₂] at hLog
        simp only [List.append_assoc, List.append_cancel_left_eq, List.singleton_append] at hLog
        exact (List.cons.inj hLog).1
      cases hHeads
      rw [hExec₁] at hExec₂
      obtain ⟨rfl, hState⟩ := Prod.mk.inj (Option.some.inj hExec₂)
      have hSame : m₁ = m₂ := by
        cases m₁
        cases m₂
        simp_all
      subst hSame
      exact ih hRest₂ hLog

end Prog.Runs

/-- A run of one thread while the others rest. -/
theorem System.reach_of_runs {Job : Type} {M : System S Op Res ε α Job Choice}
    {ok : System.Config S Op Res ε α Job → System.Label Job Choice → Prop} {P : Op → Choice → Prop} {t : Nat} {j : Job}
    (hOk : ∀ (c : System.Config S Op Res ε α Job) (o : Op) (k : Except ε (Res o) → Prog Op Res ε α) (ch : Choice),
      c.threads[t]? = some (j, .op o k) → P o ch → ok c (.step t ch)) {p : Prog Op Res ε α} {s s' : S}
    (hRun : p.Runs (fun o s r s' => ∃ ch, P o ch ∧ M.exec t j o ch s = some (r, s') ∧ M.spawned o r = []) s out s')
    {threads : List (Job × Prog Op Res ε α)} (hThread : threads[t]? = some (j, p)) :
    M.Reach ok ⟨s, threads⟩ ⟨s', threads.set t (j, .ofExcept out)⟩ := by
  have hDone : ∀ {p : Prog Op Res ε α} {threads : List (Job × Prog Op Res ε α)}, threads[t]? = some (j, p) →
      threads.set t (j, p) = threads := by
    intro p threads hAt
    obtain ⟨hLt, hEq⟩ := List.getElem?_eq_some_iff.mp hAt
    rw [← hEq, List.set_getElem_self]
  induction hRun generalizing threads with
  | ret a s =>
    rw [Prog.ofExcept_ok, hDone hThread]
    exact .refl
  | throw e s =>
    rw [Prog.ofExcept_error, hDone hThread]
    exact .refl
  | @op o k r s s₁ s₂ out hStep hRest ih =>
    obtain ⟨ch, hP, hExec, hSpawned⟩ := hStep
    have hNext : M.next ⟨s, threads⟩ (.step t ch) = some ⟨s₁, threads.set t (j, k r)⟩ := by
      simp [System.next, hThread, hExec, hSpawned]
    have hLt := (List.getElem?_eq_some_iff.mp hThread).1
    have hReach : M.Reach ok ⟨s₁, threads.set t (j, k r)⟩ ⟨s₂, (threads.set t (j, k r)).set t (j, .ofExcept out)⟩ :=
      ih (List.getElem?_set_self hLt)
    rw [List.set_set] at hReach
    exact (System.Reach.refl.step (hOk _ o k ch hThread hP) hNext).trans hReach

/-- The run in which the environment settles on the given choices, if there is one. -/
def Prog.replay (exec : (o : Op) → Choice → S → Option (Except ε (Res o) × S)) :
    Prog Op Res ε α → List Choice → Logged S Op Choice → Option (Except ε α × Logged S Op Choice)
  | .ret a, [], s => some (.ok a, s)
  | .throw e, [], s => some (.error e, s)
  | .op o k, c :: cs, s => (exec o c s.state).bind fun (r, s') => (k r).replay exec cs ⟨s', s.log ++ [(o, c)]⟩
  | _, _, _ => none

theorem Prog.replay_runs {exec : (o : Op) → Choice → S → Option (Except ε (Res o) × S)} {p : Prog Op Res ε α}
    {cs : List Choice} (hReplay : p.replay exec cs s = some (out, s')) : p.Runs (logged exec) s out s' := by
  induction p generalizing cs s with
  | ret a =>
    cases cs with
    | nil =>
      cases hReplay
      exact .ret a _
    | cons => cases hReplay
  | throw e =>
    cases cs with
    | nil =>
      cases hReplay
      exact .throw e _
    | cons => cases hReplay
  | op o k ih =>
    cases cs with
    | nil => cases hReplay
    | cons c cs =>
      obtain ⟨⟨r, s₁⟩, hExec, hRest⟩ := Option.bind_eq_some_iff.mp hReplay
      have hStep : logged exec o s r ⟨s₁, s.log ++ [(o, c)]⟩ := ⟨c, hExec, rfl⟩
      exact .op hStep (ih r hRest)

end Foundation
