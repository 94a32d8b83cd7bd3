import Mathlib.Data.Fintype.EquivFin
import Mathlib.Logic.Relation
import Mathlib.Order.WellFounded

/-! # Wait-for relations

A wait-for relation is kept free of cycles by ranks that fall along it. Ranks survive a
new edge whose end does not wait for its start, and new edges into someone who waits for
nobody.
-/

namespace Foundation

open Relation

variable {α : Type}

def Ranked (W : α → α → Prop) : Prop := ∃ ρ : α → Nat, ∀ p q, W p q → ρ q < ρ p

namespace Ranked

variable {W : α → α → Prop}

theorem mono {W' : α → α → Prop} (h : Ranked W) (hSub : ∀ p q, W' p q → W p q) : Ranked W' := by
  obtain ⟨ρ, hρ⟩ := h
  exact ⟨ρ, fun p q hpq => hρ p q (hSub p q hpq)⟩

/-- Everyone who waits for `p` is lifted above `q`. -/
theorem add_edge (h : Ranked W) {p q : α} (hNo : ¬ ReflTransGen W q p) :
    Ranked fun x y => W x y ∨ x = p ∧ y = q := by
  classical
  obtain ⟨ρ, hρ⟩ := h
  refine ⟨fun x => if ReflTransGen W x p then ρ x + ρ q + 1 else ρ x, ?_⟩
  rintro x y (hxy | ⟨rfl, rfl⟩)
  · have hFall := hρ x y hxy
    by_cases hy : ReflTransGen W y p
    · have hx : ReflTransGen W x p := .head hxy hy
      simp only [hx, hy, if_true]
      omega
    · simp only [hy, if_false]
      split <;> omega
  · simp only [hNo, ReflTransGen.refl, if_true, if_false]
    omega

theorem add_sink (h : Ranked W) {r : α} (hSink : ∀ q, ¬ W r q) :
    Ranked fun x y => W x y ∨ x ≠ r ∧ y = r := by
  classical
  obtain ⟨ρ, hρ⟩ := h
  refine ⟨fun x => if x = r then 0 else ρ x + 1, ?_⟩
  rintro x y (hxy | ⟨hx, rfl⟩)
  · have hx : x ≠ r := by
      rintro rfl
      exact hSink y hxy
    have hFall := hρ x y hxy
    simp only [hx, if_false]
    split <;> omega
  · simp [hx]

/-- Following the relation ends at someone who waits for nobody. -/
theorem exists_sink (h : Ranked W) (p : α) : ∃ q, ReflTransGen W p q ∧ ∀ r, ¬ W q r := by
  obtain ⟨ρ, hρ⟩ := h
  induction hn : ρ p using Nat.strongRecOn generalizing p with
  | ind n ih =>
    by_cases hEnd : ∃ r, W p r
    · obtain ⟨r, hpr⟩ := hEnd
      obtain ⟨q, hrq, hq⟩ := ih (ρ r) (hn ▸ hρ p r hpr) r rfl
      exact ⟨q, .head hpr hrq, hq⟩
    · exact ⟨p, .refl, fun r hpr => hEnd ⟨r, hpr⟩⟩

end Ranked

/-- Finitely many who all wait for one of them have a cycle among them. -/
theorem exists_cycle {W : α → α → Prop} {U : Finset α} (hNonempty : U.Nonempty)
    (hWaits : ∀ p ∈ U, ∃ q ∈ U, W p q) : ∃ p ∈ U, TransGen W p p := by
  by_contra hNone
  let R : U → U → Prop := fun x y => TransGen W y.1 x.1
  have : IsTrans U R := ⟨fun _ _ _ hxy hyz => hyz.trans hxy⟩
  have : Std.Irrefl R := ⟨fun x hx => hNone ⟨x.1, x.2, hx⟩⟩
  obtain ⟨p, hp⟩ := hNonempty
  obtain ⟨x, _, hMin⟩ := (Finite.wellFounded_of_trans_of_irrefl R).has_min Set.univ ⟨⟨p, hp⟩, trivial⟩
  obtain ⟨q, hq, hxq⟩ := hWaits x.1 x.2
  exact hMin ⟨q, hq⟩ trivial (.single hxq)

end Foundation
