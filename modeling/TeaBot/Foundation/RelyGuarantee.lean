import TeaBot.Foundation.Interleaving

/-! # Rely-guarantee proof outlines

`I` is the invariant of the shared state and `G t` what a step of thread `t` may do
to it. An outline attaches to every point of a program an assertion that the steps
of the other threads keep; the soundness theorem then holds for any number of threads
and every interleaving of their steps.
-/

namespace Foundation

namespace System

variable {S Op : Type} {Res : Op → Type} {ε α β Job Choice : Type}

/-- The data of a rely-guarantee argument. `allow` is what the admitted runs promise
about an operation in the state where it is carried out. -/
structure Protocol (S Op Job : Type) where
  I : S → Prop
  G : Nat → S → S → Prop
  allow : Nat → Op → S → Prop
  /-- What is known of a thread number not used so far. -/
  Fresh : Nat → S → Prop
  Pre : Job → S → Prop

variable (exec : Nat → Job → (o : Op) → Choice → S → Option (Except ε (Res o) × S))
variable (spawned : (o : Op) → Except ε (Res o) → List Job)
variable (R : Protocol S Op Job)

def Stable (R : Protocol S Op Job) (t : Nat) (A : S → Prop) : Prop :=
  ∀ u, u ≠ t → ∀ s s', R.I s → R.G u s s' → A s → A s'

def Outline (t : Nat) (j : Job) (Q : Except ε α → S → Prop) : Prog Op Res ε α → (S → Prop) → Prop
  | .ret a, A => ∀ s, R.I s → A s → Q (.ok a) s
  | .throw e, A => ∀ s, R.I s → A s → Q (.error e) s
  | .op o k, A => ∀ s r s' ch, R.I s → A s → R.allow t o s → exec t j o ch s = some (r, s') →
      R.G t s s' ∧ (∀ i ∈ spawned o r, R.Pre i s') ∧
        ∃ B, Stable R t B ∧ B s' ∧ Outline t j Q (k r) B

/-- One operation takes `A` to `B r`, where `r` is what it answers. -/
structure OpSpec (t : Nat) (j : Job) (A : S → Prop) (o : Op) (B : Except ε (Res o) → S → Prop) : Prop where
  stable : ∀ r, Stable R t (B r)
  step : ∀ s r s' ch, R.I s → A s → R.allow t o s → exec t j o ch s = some (r, s') →
    R.G t s s' ∧ (∀ i ∈ spawned o r, R.Pre i s') ∧ B r s'

variable {exec spawned R}

variable {j : Job} {t : Nat}

namespace Outline

variable {A : S → Prop} {p : Prog Op Res ε α} {Q : Except ε α → S → Prop}

theorem weaken {B : S → Prop} (h : Outline exec spawned R t j Q p B) (hAB : ∀ s, R.I s → A s → B s) :
    Outline exec spawned R t j Q p A := by
  cases p with
  | ret a | throw e => exact fun s hI hA => h s hI (hAB s hI hA)
  | op o k => exact fun s r s' ch hI hA => h s r s' ch hI (hAB s hI hA)

theorem exists_intro {ι : Sort*} {A : ι → S → Prop} (h : ∀ i, Outline exec spawned R t j Q p (A i)) :
    Outline exec spawned R t j Q p (fun s => ∃ i, A i s) := by
  cases p with
  | ret a | throw e => exact fun s hI ⟨i, hA⟩ => h i s hI hA
  | op o k => exact fun s r s' ch hI ⟨i, hA⟩ => h i s r s' ch hI hA

theorem and_intro {φ : Prop} (h : φ → Outline exec spawned R t j Q p A) :
    Outline exec spawned R t j Q p (fun s => φ ∧ A s) :=
  (exists_intro h).weaken fun _ _ ⟨hφ, hA⟩ => ⟨hφ, hA⟩

theorem mono {Q' : Except ε α → S → Prop} (h : Outline exec spawned R t j Q p A) (hQ : ∀ r s, R.I s → Q r s → Q' r s) :
    Outline exec spawned R t j Q' p A := by
  induction p generalizing A with
  | ret a | throw e => exact fun s hI hA => hQ _ s hI (h s hI hA)
  | op o k ih =>
    intro s r s' ch hI hA hAllow hExec
    obtain ⟨hG, hPre, B, hStable, hB, hRest⟩ := h s r s' ch hI hA hAllow hExec
    exact ⟨hG, hPre, B, hStable, hB, ih r hRest⟩

theorem bind {Q' : Except ε β → S → Prop} {f : α → Prog Op Res ε β} (hp : Outline exec spawned R t j Q p A)
    (hOk : ∀ a, Outline exec spawned R t j Q' (f a) (Q (.ok a)))
    (hErr : ∀ e s, R.I s → Q (.error e) s → Q' (.error e) s) : Outline exec spawned R t j Q' (p.bind f) A := by
  induction p generalizing A with
  | ret a => exact (hOk a).weaken hp
  | throw e => exact fun s hI hA => hErr e s hI (hp s hI hA)
  | op o k ih =>
    intro s r s' ch hI hA hAllow hExec
    obtain ⟨hG, hPre, B, hStable, hB, hRest⟩ := hp s r s' ch hI hA hAllow hExec
    exact ⟨hG, hPre, B, hStable, hB, ih r hRest⟩

theorem tryCatch {Q' : Except ε α → S → Prop} {f : ε → Prog Op Res ε α} (hp : Outline exec spawned R t j Q p A)
    (hErr : ∀ e, Outline exec spawned R t j Q' (f e) (Q (.error e))) (hOk : ∀ a s, R.I s → Q (.ok a) s → Q' (.ok a) s) :
    Outline exec spawned R t j Q' (p.tryCatch f) A := by
  induction p generalizing A with
  | ret a => exact fun s hI hA => hOk a s hI (hp s hI hA)
  | throw e => exact (hErr e).weaken hp
  | op o k ih =>
    intro s r s' ch hI hA hAllow hExec
    obtain ⟨hG, hPre, B, hStable, hB, hRest⟩ := hp s r s' ch hI hA hAllow hExec
    exact ⟨hG, hPre, B, hStable, hB, ih r hRest⟩

theorem perform {o : Op} {B : Except ε (Res o) → S → Prop} (h : OpSpec exec spawned R t j A o B) :
    Outline exec spawned R t j B (.perform o) A := by
  intro s r s' ch hI hA hAllow hExec
  obtain ⟨hG, hPre, hB⟩ := h.step s r s' ch hI hA hAllow hExec
  refine ⟨hG, hPre, B r, h.stable r, hB, ?_⟩
  cases r with
  | ok a | error e => exact fun _ _ h => h

/-- An assertion that the operations of the program keep holds throughout. -/
theorem of_uses {P : Op → Prop} (hStable : Stable R t A)
    (hStep : ∀ s o r s' ch, P o → R.I s → A s → R.allow t o s → exec t j o ch s = some (r, s') →
      R.G t s s' ∧ (∀ i ∈ spawned o r, R.Pre i s') ∧ A s') (hUses : p.Uses P) :
    Outline exec spawned R t j (fun _ => A) p A := by
  induction p with
  | ret a | throw e => exact fun _ _ h => h
  | op o k ih =>
    intro s r s' ch hI hA hAllow hExec
    obtain ⟨hG, hPre, hA'⟩ := hStep s o r s' ch hUses.1 hI hA hAllow hExec
    exact ⟨hG, hPre, A, hStable, hA', ih r (hUses.2 r)⟩

end Outline

/-- The conditions under which the outlines of single threads are sound together. -/
structure Protocol.Compatible (R : Protocol S Op Job) : Prop where
  inv : ∀ t s s', R.I s → R.G t s s' → R.I s'
  fresh : ∀ t, Stable R t (R.Fresh t)
  pre : ∀ j u s s', R.I s → R.G u s s' → R.Pre j s → R.Pre j s'

variable {M : System S Op Res ε α Job Choice}

structure Proved (M : System S Op Res ε α Job Choice) (R : Protocol S Op Job)
    (Q : Nat → Job → Except ε α → S → Prop) (c : Config S Op Res ε α Job) : Prop where
  inv : R.I c.shared
  fresh : ∀ t, c.threads.length ≤ t → R.Fresh t c.shared
  thread : ∀ t j p, c.threads[t]? = some (j, p) →
    ∃ A, Stable R t A ∧ A c.shared ∧ Outline M.exec M.spawned R t j (Q t j) p A

section Soundness

variable {Q : Nat → Job → Except ε α → S → Prop} {ok : Config S Op Res ε α Job → Label Job Choice → Prop}

variable {c c' : Config S Op Res ε α Job}

section

variable (hR : R.Compatible)
  (hCode : ∀ t j, Outline M.exec M.spawned R t j (Q t j) (M.code j) (fun s => R.Fresh t s ∧ R.Pre j s))

include hR hCode

theorem Proved.start (h : Proved M R Q c) (hPre : R.Pre j c.shared) (hNext : M.next c (.start j) = some c') :
    Proved M R Q c' := by
  cases hNext
  refine ⟨h.inv, fun t ht => h.fresh t ?_, ?_⟩
  · simp only [List.length_append, List.length_singleton] at ht
    omega
  · intro t j' p hThread
    by_cases ht : t < c.threads.length
    · rw [List.getElem?_append_left ht] at hThread
      exact h.thread t j' p hThread
    · rw [List.getElem?_append_right (by omega)] at hThread
      have hEq : (j', p) = (j, M.code j) := List.mem_singleton.mp (List.mem_of_getElem? hThread)
      cases hEq
      refine ⟨_, ?_, ⟨h.fresh t (by omega), hPre⟩, hCode t j⟩
      rintro u hu s s' hI hG ⟨hFresh, hPre⟩
      exact ⟨hR.fresh t u hu s s' hI hG hFresh, hR.pre _ u s s' hI hG hPre⟩

/-- One step of one thread: its own outline gives the next assertion, and the
assertions of all others are stable under what it did. -/
theorem Proved.step {ch : Choice}
    (hAllow : ∀ c t ch j o k, Proved M R Q c → ok c (.step t ch) → c.threads[t]? = some (j, .op o k) →
      R.allow t o c.shared) (h : Proved M R Q c) (hOk : ok c (.step t ch)) (hNext : M.next c (.step t ch) = some c') :
    R.G t c.shared c'.shared ∧ Proved M R Q c' := by
  obtain ⟨j, o, k, r, s', hThread, hExec, rfl⟩ := next_step_eq_some hNext
  have hLt : t < c.threads.length := (List.getElem?_eq_some_iff.mp hThread).1
  obtain ⟨A, hStable, hA, hOutline⟩ := h.thread t j _ hThread
  obtain ⟨hG, hPre, B, hStableB, hB, hRest⟩ :=
    hOutline c.shared r s' ch h.inv hA (hAllow c t ch j o k h hOk hThread) hExec
  have hFresh : ∀ u, c.threads.length ≤ u → R.Fresh u s' := fun u hu =>
    hR.fresh u t (by omega) _ _ h.inv hG (h.fresh u hu)
  refine ⟨hG, hR.inv t _ _ h.inv hG, ?_, ?_⟩
  · intro u hu
    simp only [List.length_append, List.length_set] at hu
    exact hFresh u (by omega)
  · intro u j' p hu
    rcases threads_step hLt hu with ⟨rfl, hEq⟩ | ⟨hNe, hOld⟩ | ⟨hNew, hMem⟩
    · cases hEq
      exact ⟨B, hStableB, hB, hRest⟩
    · obtain ⟨A', hStable', hA', hOutline'⟩ := h.thread u j' p hOld
      exact ⟨A', hStable', hStable' t (Ne.symm hNe) _ _ h.inv hG hA', hOutline'⟩
    · obtain ⟨i, hi, hEq⟩ := List.mem_map.mp hMem
      obtain ⟨rfl, rfl⟩ := Prod.mk.inj hEq
      refine ⟨_, ?_, ⟨hFresh u hNew, hPre i hi⟩, hCode u i⟩
      rintro v hv s s'' hI hG ⟨hFresh, hPre⟩
      exact ⟨hR.fresh u v hv s s'' hI hG hFresh, hR.pre _ v s s'' hI hG hPre⟩

theorem Proved.reach (hAllow : ∀ c t ch j o k, Proved M R Q c → ok c (.step t ch) → c.threads[t]? = some (j, .op o k) →
      R.allow t o c.shared) (hStart : ∀ c j, R.I c.shared → ok c (.start j) → R.Pre j c.shared) (h : Proved M R Q c)
    (hReach : M.Reach ok c c') : Proved M R Q c' := by
  induction hReach with
  | refl => exact h
  | @step c₁ c₂ l _ hOk hNext ih =>
    cases l with
    | start j => exact ih.start hR hCode (hStart c₁ j ih.inv hOk) hNext
    | step t ch => exact (ih.step hR hCode hAllow hOk hNext).2

/-- What no step undoes stays. -/
theorem Proved.keep (hAllow : ∀ c t ch j o k, Proved M R Q c → ok c (.step t ch) → c.threads[t]? = some (j, .op o k) →
      R.allow t o c.shared) (hStart : ∀ c j, R.I c.shared → ok c (.start j) → R.Pre j c.shared) {P : S → Prop}
    (hP : ∀ t s s', R.G t s s' → P s → P s') (h : Proved M R Q c) (hReach : M.Reach ok c c') (hHere : P c.shared) :
    P c'.shared := by
  induction hReach with
  | refl => exact hHere
  | @step c₁ c₂ l hBefore hOk hNext ih =>
    cases l with
    | start j =>
      cases hNext
      exact ih
    | step t ch =>
      have hProved := h.reach hR hCode hAllow hStart hBefore
      exact hP t _ _ (hProved.step hR hCode hAllow hOk hNext).1 ih

end

/-- What the outline of a thread says of its end. -/
theorem Proved.post (h : Proved M R Q c) {r : Except ε α} (hThread : c.threads[t]? = some (j, .ofExcept r)) :
    Q t j r c.shared := by
  obtain ⟨A, _, hA, hOutline⟩ := h.thread t j _ hThread
  cases r with
  | ok a | error e => exact hOutline _ h.inv hA

end Soundness

end System

end Foundation
