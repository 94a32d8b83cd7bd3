import Mathlib.Data.List.Nodup
import TeaBot.Foundation.History
import TeaBot.Foundation.Interleaving

/-! # Recorded runs

The same system with a record of who was answered what, in the order of the run. The
record is never read, so runs with and without it are the same. The part of it that
concerns one thread is the history of that thread, and an invariant of the record has to
be checked only against operations that a thread may ask for after its own history.
-/

namespace Foundation.System

variable {S Op : Type} {Res : Op → Type} {ε α Job Choice : Type}

def recorded (M : System S Op Res ε α Job Choice) :
    System (S × List (Nat × Event Op Res ε)) Op Res ε α Job Choice where
  code := M.code
  exec t j o ch s := (M.exec t j o ch s.1).map fun x => (x.1, x.2, s.2 ++ [(t, ⟨o, x.1⟩)])
  spawned := M.spawned

def Config.forget (c : Config (S × List (Nat × Event Op Res ε)) Op Res ε α Job) : Config S Op Res ε α Job :=
  ⟨c.shared.1, c.threads⟩

variable {M : System S Op Res ε α Job Choice}

variable {c' c : Config (S × List (Nat × Event Op Res ε)) Op Res ε α Job}

theorem next_forget {l : Label Job Choice} (h : M.recorded.next c l = some c') :
    M.next c.forget l = some c'.forget := by
  cases l with
  | start j =>
    cases h
    rfl
  | step t ch =>
    obtain ⟨j, o, k, _, _, hThread, hExec, rfl⟩ := next_step_eq_some h
    obtain ⟨⟨r, s₁⟩, hPlain, hEq⟩ := Option.map_eq_some_iff.mp hExec
    cases hEq
    have hThread' : c.forget.threads[t]? = some (j, .op o k) := hThread
    have hPlain' : M.exec t j o ch c.forget.shared = some (r, s₁) := hPlain
    simp only [next, hThread', hPlain']
    rfl

theorem reach_forget (ok : Config S Op Res ε α Job → Label Job Choice → Prop)
    (h : M.recorded.Reach (fun c l => ok c.forget l) c c') : M.Reach ok c.forget c'.forget := by
  induction h with
  | refl => exact .refl
  | step _ hOk hNext ih => exact ih.step hOk (next_forget hNext)

/-! ## The history of a thread -/

def eventsOf (t : Nat) (H : List (Nat × Event Op Res ε)) : List (Event Op Res ε) :=
  H.filterMap fun x => if x.1 = t then some x.2 else none

@[simp] theorem eventsOf_nil (t : Nat) : eventsOf t ([] : List (Nat × Event Op Res ε)) = [] := rfl

variable {H : List (Nat × Event Op Res ε)} {t : Nat}

theorem mem_eventsOf {e : Event Op Res ε} : e ∈ eventsOf t H ↔ (t, e) ∈ H := by
  simp [eventsOf]

theorem eventsOf_snoc_self (t : Nat) (H : List (Nat × Event Op Res ε)) (e : Event Op Res ε) :
    eventsOf t (H ++ [(t, e)]) = eventsOf t H ++ [e] := by
  simp [eventsOf]

theorem eventsOf_snoc_of_ne {u : Nat} (h : u ≠ t) (H : List (Nat × Event Op Res ε)) (e : Event Op Res ε) :
    eventsOf t (H ++ [(u, e)]) = eventsOf t H := by
  simp [eventsOf, h]

variable {n : Nat}

theorem eventsOf_eq_nil (hKnown : ∀ x ∈ H, x.1 < n) (h : n ≤ t) : eventsOf t H = [] := by
  refine List.filterMap_eq_nil_iff.mpr fun x hx => if_neg ?_
  have hLt := hKnown x hx
  omega

variable {β : Type}

theorem flatMap_cons_at {ts : List Nat} (hMem : t ∈ ts) (hNodup : ts.Nodup) (b : β) (g : Nat → List β) :
    (ts.flatMap fun u => if t = u then b :: g u else g u).Perm (b :: ts.flatMap g) := by
  obtain ⟨l₁, l₂, rfl⟩ := List.append_of_mem hMem
  obtain ⟨hNot₁, hNot₂⟩ : t ∉ l₁ ∧ t ∉ l₂ := by
    have hMiddle := (List.nodup_middle.mp hNodup).notMem
    exact ⟨fun h => hMiddle (List.mem_append_left _ h), fun h => hMiddle (List.mem_append_right _ h)⟩
  have hElse : ∀ l : List Nat, t ∉ l → (l.flatMap fun u => if t = u then b :: g u else g u) = l.flatMap g := by
    intro l hNot
    refine List.flatMap_congr fun u hu => if_neg ?_
    rintro rfl
    exact hNot hu
  rw [List.flatMap_append, List.flatMap_cons, hElse l₁ hNot₁, hElse l₂ hNot₂, if_pos rfl, List.flatMap_append,
    List.flatMap_cons]
  exact List.perm_middle

/-- What is picked from the record is what is picked from the histories. -/
theorem perm_eventsOf (f : Event Op Res ε → Option β) (hKnown : ∀ x ∈ H, x.1 < n) :
    (H.filterMap fun x => f x.2).Perm ((List.range n).flatMap fun t => (eventsOf t H).filterMap f) := by
  induction H with
  | nil => simp
  | cons x H ih =>
    obtain ⟨hLt, hKnown⟩ := List.forall_mem_cons.mp hKnown
    have hHead : ∀ t, (eventsOf t (x :: H)).filterMap f =
        if x.1 = t then (f x.2).toList ++ (eventsOf t H).filterMap f else (eventsOf t H).filterMap f := by
      intro t
      by_cases ht : x.1 = t
      · cases hf : f x.2 <;> simp [eventsOf, ht, hf]
      · simp [eventsOf, ht]
    simp only [hHead]
    cases hf : f x.2 with
    | none =>
      rw [List.filterMap_cons_none (f := fun x : Nat × Event Op Res ε => f x.2) hf]
      simpa using ih hKnown
    | some b =>
      rw [List.filterMap_cons_some (f := fun x : Nat × Event Op Res ε => f x.2) hf]
      exact ((ih hKnown).cons b).trans
        (flatMap_cons_at (List.mem_range.mpr hLt) List.nodup_range b _).symm

/-! ## Invariants of the record -/

/-- Every thread is guarded after its own history. -/
structure Followed (R : Event Op Res ε → Prop) (A : Job → List (Event Op Res ε) → Op → Prop)
    (Q : Job → Except ε α → List (Event Op Res ε) → Prop)
    (c : Config (S × List (Nat × Event Op Res ε)) Op Res ε α Job) : Prop where
  known : ∀ x ∈ c.shared.2, x.1 < c.threads.length
  guarded : ∀ (t : Nat) (j : Job) (p : Prog Op Res ε α), c.threads[t]? = some (j, p) →
    p.Guarded R (A j) (Q j) (eventsOf t c.shared.2)

section Invariants

variable {R : Event Op Res ε → Prop} {A : Job → List (Event Op Res ε) → Op → Prop}
  {Q : Job → Except ε α → List (Event Op Res ε) → Prop}
  {c c' : Config (S × List (Nat × Event Op Res ε)) Op Res ε α Job}

theorem Followed.start (hCode : ∀ j, (M.code j).Guarded R (A j) (Q j) []) (s : S) (j : Job) :
    Followed R A Q (⟨(s, []), [M.fresh j]⟩ : Config (S × List (Nat × Event Op Res ε)) Op Res ε α Job) := by
  refine ⟨nofun, fun t j' p hThread => ?_⟩
  cases t with
  | zero =>
    obtain ⟨rfl, rfl⟩ := Prod.mk.inj (Option.some.inj hThread)
    exact hCode j
  | succ t => cases hThread

/-- A step of the recorded system asks for what its thread may ask for. -/
theorem Followed.step {ch : Choice} (hCode : ∀ j, (M.code j).Guarded R (A j) (Q j) [])
    (hAnswer : ∀ t j o ch s r s', M.exec t j o ch s = some (r, s') → R ⟨o, r⟩) (h : Followed R A Q c)
    (hNext : M.recorded.next c (.step t ch) = some c') :
    Followed R A Q c' ∧ ∃ j o r, (c.threads.map Prod.fst)[t]? = some j ∧ A j (eventsOf t c.shared.2) o ∧
      M.exec t j o ch c.shared.1 = some (r, c'.shared.1) ∧ c'.shared.2 = c.shared.2 ++ [(t, ⟨o, r⟩)] ∧
      c'.threads.map Prod.fst = c.threads.map Prod.fst ++ M.spawned o r := by
  obtain ⟨j, o, k, r, s', hThread, hExec, rfl⟩ := next_step_eq_some hNext
  obtain ⟨⟨r, s₁⟩, hPlain, hEq⟩ := Option.map_eq_some_iff.mp hExec
  cases hEq
  have hLt : t < c.threads.length := (List.getElem?_eq_some_iff.mp hThread).1
  obtain ⟨hA, hRest⟩ := h.guarded t j _ hThread
  refine ⟨⟨fun x hx => ?_, fun u j' p hu => ?_⟩, j, o, r, ?_, hA, hPlain, rfl, ?_⟩
  · simp only [List.length_append, List.length_set]
    rcases List.mem_append.mp hx with hOld | hNew
    · have hBefore := h.known x hOld
      omega
    · rw [List.mem_singleton.mp hNew]
      exact Nat.lt_add_right _ hLt
  · dsimp only
    rcases threads_step hLt hu with ⟨rfl, hEq⟩ | ⟨hNe, hOld⟩ | ⟨hLe, hNew⟩
    · obtain ⟨rfl, rfl⟩ := Prod.mk.inj hEq
      rw [eventsOf_snoc_self]
      exact hRest r (hAnswer _ _ o ch _ r s₁ hPlain)
    · rw [eventsOf_snoc_of_ne hNe.symm]
      exact h.guarded u j' p hOld
    · obtain ⟨_, _, hEq⟩ := List.mem_map.mp hNew
      obtain ⟨rfl, rfl⟩ := Prod.mk.inj hEq
      rw [eventsOf_snoc_of_ne (by omega), eventsOf_eq_nil h.known hLe]
      exact hCode _
  · rw [List.getElem?_map, hThread]
    rfl
  · simp only [List.map_append, List.map_set, List.map_map]
    congr 1
    · have hSame : (c.threads.map Prod.fst)[t]? = some j := by rw [List.getElem?_map, hThread, Option.map_some]
      obtain ⟨hLt', hSame⟩ := List.getElem?_eq_some_iff.mp hSame
      rw [← hSame, List.set_getElem_self]
    · exact List.map_id _

/-- An invariant of jobs, record and state in runs without new threads from outside. -/
theorem Followed.reach {ok : Config (S × List (Nat × Event Op Res ε)) Op Res ε α Job → Label Job Choice → Prop}
    {J : List Job → List (Nat × Event Op Res ε) → S → Prop} (hOk : ∀ c j, ¬ ok c (.start j))
    (hCode : ∀ j, (M.code j).Guarded R (A j) (Q j) [])
    (hAnswer : ∀ t j o ch s r s', M.exec t j o ch s = some (r, s') → R ⟨o, r⟩)
    (hStep : ∀ jobs H t j o ch s r s', J jobs H s → jobs[t]? = some j → A j (eventsOf t H) o →
      M.exec t j o ch s = some (r, s') → J (jobs ++ M.spawned o r) (H ++ [(t, ⟨o, r⟩)]) s')
    (h : Followed R A Q c) (hJ : J (c.threads.map Prod.fst) c.shared.2 c.shared.1)
    (hReach : M.recorded.Reach ok c c') :
    Followed R A Q c' ∧ J (c'.threads.map Prod.fst) c'.shared.2 c'.shared.1 := by
  induction hReach with
  | refl => exact ⟨h, hJ⟩
  | @step c₁ c₂ l _ hLabel hNext ih =>
    cases l with
    | start j => exact absurd hLabel (hOk c₁ j)
    | step t ch =>
      obtain ⟨hFollowed, j, o, r, hJob, hA, hExec, hRecord, hJobs⟩ := ih.1.step hCode hAnswer hNext
      rw [hRecord, hJobs]
      exact ⟨hFollowed, hStep _ _ t j o ch _ r _ ih.2 hJob hA hExec⟩

end Invariants

end Foundation.System
