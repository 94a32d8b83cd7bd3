import Mathlib.Data.List.Chain
import Mathlib.Data.List.Nodup

/-! # Records with a version history

A store keeps at most one record per owner and, for each record, the versions of its
content in the order of their keys. `Linked` says that the newest version is the
content of the record; under `strict` a version is written only when the content changes.
-/

namespace Foundation.Versioned

structure Record (I N C : Type) where
  id : I
  owner : N
  content : C
  deriving DecidableEq

structure Version (I C : Type) where
  key : Int
  id : I
  content : C
  deriving DecidableEq

structure Store (I N C : Type) where
  records : List (Record I N C)
  history : List (Version I C)

variable {I N C : Type} [DecidableEq I] [DecidableEq N]

variable {r : Record I N C}

namespace Store

def of (s : Store I N C) (n : N) : List (Record I N C) := s.records.filter fun r => r.owner = n

def versions (s : Store I N C) (id : I) : List (Version I C) := s.history.filter fun v => v.id = id

def ids (s : Store I N C) : List I := s.records.map (·.id)

def insert (s : Store I N C) (r : Record I N C) (v : Version I C) : Store I N C :=
  ⟨s.records ++ [r], s.history ++ [v]⟩

def replace (s : Store I N C) (id : I) (c : C) (v : Version I C) : Store I N C :=
  ⟨s.records.map fun r => if r.id = id then { r with content := c } else r, s.history ++ [v]⟩

def confirm (s : Store I N C) (v : Version I C) : Store I N C := ⟨s.records, s.history ++ [v]⟩

omit [DecidableEq I] in
theorem mem_of {s : Store I N C} {n : N} : r ∈ s.of n ↔ r ∈ s.records ∧ r.owner = n := by
  simp [of]

omit [DecidableEq N] in
theorem versions_append (s : Store I N C) (rs : List (Record I N C)) (v : Version I C) (id : I) :
    (⟨rs, s.history ++ [v]⟩ : Store I N C).versions id =
      if v.id = id then s.versions id ++ [v] else s.versions id := by
  by_cases h : v.id = id <;> simp [versions, List.filter_append, h]

omit [DecidableEq I] [DecidableEq N] in
theorem ids_insert (s : Store I N C) (r : Record I N C) (v : Version I C) :
    (s.insert r v).ids = s.ids ++ [r.id] := by
  simp [ids, insert]

omit [DecidableEq I] in
theorem of_insert (s : Store I N C) (r : Record I N C) (v : Version I C) (n : N) :
    (s.insert r v).of n = if r.owner = n then s.of n ++ [r] else s.of n := by
  by_cases h : r.owner = n <;> simp [of, insert, List.filter_append, h]

omit [DecidableEq N] in
theorem ids_replace (s : Store I N C) (id : I) (c : C) (v : Version I C) : (s.replace id c v).ids = s.ids := by
  simp only [Store.ids, Store.replace, List.map_map]
  refine List.map_congr_left fun r _ => ?_
  by_cases h : r.id = id <;> simp [h]

theorem of_replace (s : Store I N C) (id : I) (c : C) (v : Version I C) (n : N) :
    (s.replace id c v).of n = (s.of n).map fun r => if r.id = id then { r with content := c } else r := by
  simp only [Store.of, Store.replace, List.filter_map]
  congr 1
  refine List.filter_congr fun r _ => ?_
  by_cases h : r.id = id <;> simp [h]

end Store

/-- Adjacent versions are in order and, under `strict`, differ. -/
def Follows (strict : Prop) (v w : Version I C) : Prop := v.key < w.key ∧ (strict → v.content ≠ w.content)

structure Linked (strict : Prop) (s : Store I N C) : Prop where
  nodup : s.ids.Nodup
  single : ∀ n, (s.of n).length ≤ 1
  known : ∀ v ∈ s.history, v.id ∈ s.ids
  ordered : ∀ id, (s.versions id).IsChain (Follows strict)
  agrees : ∀ r ∈ s.records, ((s.versions r.id).getLast?).map (·.content) = some r.content

namespace Linked

variable {strict : Prop} {s : Store I N C}

theorem empty : Linked strict (⟨[], []⟩ : Store I N C) :=
  ⟨.nil, fun _ => Nat.zero_le 1, nofun, fun _ => .nil, nofun⟩

theorem versions_eq_nil (h : Linked strict s) {id : I} (hId : id ∉ s.ids) : s.versions id = [] := by
  rw [Store.versions, List.filter_eq_nil_iff]
  intro v hv hEq
  exact hId (of_decide_eq_true hEq ▸ h.known v hv)

theorem eq_of_id (h : Linked strict s) {r' : Record I N C} (hr : r ∈ s.records) (hr' : r' ∈ s.records)
    (hEq : r.id = r'.id) : r = r' := List.inj_on_of_nodup_map h.nodup hr hr' hEq

variable {v : Version I C}

theorem ordered_append (h : Linked strict s) (rs : List (Record I N C))
    (hLast : ∀ w ∈ (s.versions v.id).getLast?, Follows strict w v) (id : I) :
    ((⟨rs, s.history ++ [v]⟩ : Store I N C).versions id).IsChain (Follows strict) := by
  rw [Store.versions_append]
  split
  · rename_i hId
    subst hId
    refine (h.ordered v.id).append (.singleton v) fun w hw y hy => ?_
    rw [← Option.some.inj hy]
    exact hLast w hw
  · exact h.ordered id

theorem insert (h : Linked strict s) (hNew : r.id ∉ s.ids) (hOwner : s.of r.owner = []) (hId : v.id = r.id)
    (hContent : v.content = r.content) : Linked strict (s.insert r v) := by
  have hNone : s.versions v.id = [] := h.versions_eq_nil (hId ▸ hNew)
  refine ⟨?_, ?_, ?_, ?_, ?_⟩
  · rw [Store.ids_insert, List.nodup_append]
    refine ⟨h.nodup, List.nodup_singleton _, fun a ha b hb hEq => ?_⟩
    rw [List.mem_singleton.mp hb] at hEq
    exact hNew (hEq ▸ ha)
  · intro n
    rw [Store.of_insert]
    split
    · rename_i hn
      subst hn
      simp [hOwner]
    · exact h.single n
  · intro w hw
    rw [Store.ids_insert]
    rcases List.mem_append.mp hw with hOld | hNew
    · exact List.mem_append_left _ (h.known w hOld)
    · rw [List.mem_singleton.mp hNew, hId]
      exact List.mem_append_right _ (List.mem_singleton_self _)
  · refine h.ordered_append _ fun w hw => ?_
    simp [hNone] at hw
  · intro r' hr'
    rw [Store.insert, Store.versions_append]
    rcases List.mem_append.mp hr' with hOld | hNew'
    · have hNe : v.id ≠ r'.id := fun hEq =>
        hNew (hId ▸ hEq ▸ List.mem_map_of_mem hOld)
      rw [if_neg hNe]
      exact h.agrees r' hOld
    · rw [List.mem_singleton.mp hNew', if_pos hId, List.getLast?_concat, Option.map_some, hContent]

theorem of_replace_of_ne (h : Linked strict s) (hr : r ∈ s.records) {n : N} (hn : r.owner ≠ n) (c : C)
    (v : Version I C) :
    (s.replace r.id c v).of n = s.of n := by
  rw [Store.of_replace]
  refine (List.map_congr_left fun r' hr' => ?_).trans (List.map_id (s.of n))
  obtain ⟨hMem, hOwner⟩ := Store.mem_of.mp hr'
  have hNe : r'.id ≠ r.id := fun hEq => hn (h.eq_of_id hMem hr hEq ▸ hOwner)
  exact if_neg hNe

theorem replace (h : Linked strict s) {c : C} (hr : r ∈ s.records) (hId : v.id = r.id) (hContent : v.content = c)
    (hKey : ∀ w ∈ s.versions r.id, w.key < v.key) (hChange : strict → r.content ≠ c) :
    Linked strict (s.replace r.id c v) := by
  refine ⟨?_, ?_, ?_, ?_, ?_⟩
  · rw [Store.ids_replace]
    exact h.nodup
  · intro n
    rw [Store.of_replace, List.length_map]
    exact h.single n
  · intro w hw
    rw [Store.ids_replace]
    rcases List.mem_append.mp hw with hOld | hNew
    · exact h.known w hOld
    · rw [List.mem_singleton.mp hNew, hId]
      exact List.mem_map_of_mem hr
  · refine h.ordered_append _ fun w hw => ?_
    rw [hId] at hw
    refine ⟨hKey w (List.mem_of_getLast? hw), fun hStrict hEq => hChange hStrict ?_⟩
    have hLast := h.agrees r hr
    rw [Option.mem_def.mp hw] at hLast
    exact (Option.some.inj hLast).symm.trans (hEq.trans hContent)
  · intro r' hr'
    obtain ⟨r₀, hr₀, rfl⟩ := List.mem_map.mp hr'
    rw [Store.replace, Store.versions_append]
    by_cases hEq : r₀.id = r.id
    · rw [if_pos hEq, if_pos (hId.trans hEq.symm), List.getLast?_concat, Option.map_some, hContent]
    · rw [if_neg hEq, if_neg fun hv => hEq (hv.symm.trans hId)]
      exact h.agrees r₀ hr₀

/-- Repeating the current content is sound only where versions need not differ. -/
theorem confirm (h : Linked strict s) (hStrict : ¬ strict) (hr : r ∈ s.records) (hId : v.id = r.id)
    (hContent : v.content = r.content) (hKey : ∀ w ∈ s.versions r.id, w.key < v.key) : Linked strict (s.confirm v) := by
  refine ⟨h.nodup, h.single, ?_, ?_, ?_⟩
  · intro w hw
    rcases List.mem_append.mp hw with hOld | hNew
    · exact h.known w hOld
    · rw [List.mem_singleton.mp hNew, hId]
      exact List.mem_map_of_mem hr
  · refine h.ordered_append _ fun w hw => ?_
    rw [hId] at hw
    exact ⟨hKey w (List.mem_of_getLast? hw), fun hs => absurd hs hStrict⟩
  · intro r' hr'
    rw [Store.confirm, Store.versions_append]
    by_cases hEq : v.id = r'.id
    · rw [if_pos hEq, List.getLast?_concat, Option.map_some, hContent,
        h.eq_of_id hr hr' (hId.symm.trans hEq)]
    · rw [if_neg hEq]
      exact h.agrees r' hr'

end Linked

end Foundation.Versioned
