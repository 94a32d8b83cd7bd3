import Mathlib.Logic.Function.Basic
import TeaBot.Foundation.Interleaving
import TeaBot.Foundation.Typestate

/-! # Runs of disciplined threads

Every thread keeps a discipline from the state its job begins with. An invariant of the
shared state and the states of all threads then has to be checked against single
admitted operations only; how the programs are put together no longer matters.
-/

namespace Foundation

namespace System

variable {S Op : Type} {Res : Op → Type} {ε α Job Choice D : Type}

/-- `gs` lists the jobs of the threads with the states they are in. -/
structure Typed (T : Discipline Op Res ε D) (Q : Job → Except ε α → D → Prop) (gs : List (Job × D))
    (c : Config S Op Res ε α Job) : Prop where
  jobs : gs.map Prod.fst = c.threads.map Prod.fst
  keeps : ∀ (t : Nat) (j : Job) (p : Prog Op Res ε α) (d : D), c.threads[t]? = some (j, p) →
    gs[t]? = some (j, d) → p.Keeps T (Q j) d

variable {T : Discipline Op Res ε D} {Q : Job → Except ε α → D → Prop} {gs : List (Job × D)}
variable {c : Config S Op Res ε α Job}

variable {j : Job} {t : Nat} {d : D}

namespace Typed

theorem length (h : Typed T Q gs c) : gs.length = c.threads.length := by
  have hLength := congrArg List.length h.jobs
  simpa using hLength

theorem state (h : Typed T Q gs c) {p : Prog Op Res ε α} (hThread : c.threads[t]? = some (j, p)) :
    ∃ d, gs[t]? = some (j, d) ∧ p.Keeps T (Q j) d := by
  have hJob : (gs.map Prod.fst)[t]? = some j := by
    rw [h.jobs, List.getElem?_map, hThread]
    rfl
  obtain ⟨⟨j', d⟩, hd, rfl⟩ := Option.map_eq_some_iff.mp (List.getElem?_map ▸ hJob)
  exact ⟨d, hd, h.keeps t _ p d hThread hd⟩

theorem thread (h : Typed T Q gs c) (hState : gs[t]? = some (j, d)) :
    ∃ p, c.threads[t]? = some (j, p) ∧ p.Keeps T (Q j) d := by
  have hJob : (c.threads.map Prod.fst)[t]? = some j := by
    rw [← h.jobs, List.getElem?_map, hState]
    rfl
  obtain ⟨⟨j', p⟩, hp, rfl⟩ := Option.map_eq_some_iff.mp (List.getElem?_map ▸ hJob)
  exact ⟨p, hp, h.keeps t _ p d hp hState⟩

variable {M : System S Op Res ε α Job Choice} {init : Job → D}

theorem nil (s : S) : Typed T Q [] (⟨s, []⟩ : Config S Op Res ε α Job) :=
  ⟨rfl, fun _ _ _ _ hThread => absurd hThread (by simp)⟩

theorem append (h : Typed T Q gs c) (s : S) (js : List Job)
    (hCode : ∀ j ∈ js, (M.code j).Keeps T (Q j) (init j)) :
    Typed T Q (gs ++ js.map fun j => (j, init j)) ⟨s, c.threads ++ js.map M.fresh⟩ := by
  refine ⟨?_, fun t j p d hThread hState => ?_⟩
  · simp [h.jobs, fresh, Function.comp_def]
  · by_cases ht : t < c.threads.length
    · rw [List.getElem?_append_left ht] at hThread
      rw [List.getElem?_append_left (h.length ▸ ht)] at hState
      exact h.keeps t j p d hThread hState
    · rw [List.getElem?_append_right (by omega)] at hThread
      rw [List.getElem?_append_right (by have := h.length; omega), h.length] at hState
      rw [List.getElem?_map] at hThread hState
      obtain ⟨i, hi, hEq⟩ := Option.map_eq_some_iff.mp hThread
      rw [hi] at hState
      cases hEq
      cases hState
      exact hCode _ (List.mem_of_getElem? hi)

theorem set (h : Typed T Q gs c) (s : S) {p : Prog Op Res ε α} (hThread : c.threads[t]?.map Prod.fst = some j)
    (hKeeps : p.Keeps T (Q j) d) : Typed T Q (gs.set t (j, d)) ⟨s, c.threads.set t (j, p)⟩ := by
  have hLt : t < c.threads.length := by
    obtain ⟨_, hx, _⟩ := Option.map_eq_some_iff.mp hThread
    exact (List.getElem?_eq_some_iff.mp hx).1
  refine ⟨?_, fun u j' p' d' hThread' hState' => ?_⟩
  · simp [List.map_set, h.jobs]
  · by_cases hu : u = t
    · subst hu
      rw [List.getElem?_set_self hLt] at hThread'
      rw [List.getElem?_set_self (h.length ▸ hLt)] at hState'
      cases hThread'
      cases hState'
      exact hKeeps
    · rw [List.getElem?_set_ne (Ne.symm hu)] at hThread' hState'
      exact h.keeps u j' p' d' hThread' hState'

end Typed

/-- The state of each thread; threads that do not exist are in `d₀`. -/
def stateOf (d₀ : D) (gs : List (Job × D)) (t : Nat) : D := (gs[t]?.map Prod.snd).getD d₀

theorem stateOf_eq {d₀ : D} (h : gs[t]? = some (j, d)) : stateOf d₀ gs t = d := by
  rw [stateOf, h]
  rfl

theorem stateOf_set {d₀ : D} (h : gs[t]? = some (j, d)) (d' : D) :
    stateOf d₀ (gs.set t (j, d')) = Function.update (stateOf d₀ gs) t d' := by
  funext u
  by_cases hu : u = t
  · subst hu
    have hLt := (List.getElem?_eq_some_iff.mp h).1
    simp [stateOf, hLt]
  · simp [stateOf, List.getElem?_set_ne (Ne.symm hu), hu]

theorem stateOf_append (d₀ : D) (gs new : List (Job × D)) (t : Nat) :
    stateOf d₀ (gs ++ new) t = if t < gs.length then stateOf d₀ gs t else stateOf d₀ new (t - gs.length) := by
  by_cases ht : t < gs.length
  · simp [stateOf, ht, List.getElem?_append_left ht]
  · simp [stateOf, ht, List.getElem?_append_right (by omega : gs.length ≤ t)]

/-- An invariant `J` of the states and the shared state along a run. -/
theorem Typed.reach {M : System S Op Res ε α Job Choice} {init : Job → D} {Pre : Job → Prop}
    {ok : Config S Op Res ε α Job → Label Job Choice → Prop} {J : List (Job × D) → S → Prop}
    (hCode : ∀ j, Pre j → (M.code j).Keeps T (Q j) (init j))
    (hStart : ∀ c gs j, Typed T Q gs c → J gs c.shared → ok c (.start j) → Pre j ∧ J (gs ++ [(j, init j)]) c.shared)
    (hStep : ∀ c gs t ch j d o k r s', Typed T Q gs c → J gs c.shared → ok c (.step t ch) →
      c.threads[t]? = some (j, .op o k) → gs[t]? = some (j, d) → T.admits d o →
      M.exec t j o ch c.shared = some (r, s') → T.answers o r ∧ (∀ i ∈ M.spawned o r, Pre i) ∧
        J (gs.set t (j, T.after d o r) ++ (M.spawned o r).map fun i => (i, init i)) s') {c₀ : Config S Op Res ε α Job}
    {gs₀ : List (Job × D)} (hTyped : Typed T Q gs₀ c₀) (hJ : J gs₀ c₀.shared) (hReach : M.Reach ok c₀ c) :
    ∃ gs, Typed T Q gs c ∧ J gs c.shared := by
  induction hReach with
  | refl => exact ⟨gs₀, hTyped, hJ⟩
  | @step c₁ c₂ l _ hOk hNext ih =>
    obtain ⟨gs, hTyped, hJ₁⟩ := ih
    cases l with
    | start j =>
      cases hNext
      obtain ⟨hPre, hJ₂⟩ := hStart c₁ gs j hTyped hJ₁ hOk
      refine ⟨_, hTyped.append (M := M) c₁.shared [j] fun i hi => ?_, hJ₂⟩
      exact List.mem_singleton.mp hi ▸ hCode j hPre
    | step t ch =>
      obtain ⟨j, o, k, r, s', hThread, hExec, rfl⟩ := next_step_eq_some hNext
      obtain ⟨d, hState, hAdmits, hKeeps⟩ := hTyped.state hThread
      obtain ⟨hAnswers, hPre, hJ₂⟩ := hStep c₁ gs t ch j d o k r s' hTyped hJ₁ hOk hThread hState hAdmits hExec
      have hSet := hTyped.set (p := k r) s' (by rw [hThread]; rfl) (hKeeps r hAnswers)
      exact ⟨_, hSet.append s' _ fun i hi => hCode i (hPre i hi), hJ₂⟩

end System

end Foundation
