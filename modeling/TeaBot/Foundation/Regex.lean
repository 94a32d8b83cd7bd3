import Mathlib.Data.List.Forall2
import TeaBot.Foundation.Scan

/-! # Backtracking regular expressions

An expression is a sequence of atoms. Its matches at the front of a text are listed in the
order in which a backtracking engine tries them, so that the first one is the engine's.
-/

namespace Foundation.Text

variable {α : Type}

inductive Atom (α : Type)
  | lit (same : α → α → Bool) (word : List α)
  /-- Greedy, with a least number of elements. -/
  | many (least : Nat) (ok : α → Bool)
  /-- Lazy, any elements. -/
  | any

def litRun (same : α → α → Bool) : List α → List α → List (List α × List α)
  | [], x => [([], x)]
  | _ :: _, [] => []
  | a :: w, b :: x => if same a b then (litRun same w x).map fun p => (b :: p.1, p.2) else []

/-- The longest first. -/
def manyRun (ok : α → Bool) : List α → List (List α × List α)
  | [] => [([], [])]
  | a :: x => (if ok a then (manyRun ok x).map fun p => (a :: p.1, p.2) else []) ++ [([], a :: x)]

/-- The shortest first. -/
def anyRun : List α → List (List α × List α)
  | [] => [([], [])]
  | a :: x => ([], a :: x) :: (anyRun x).map fun p => (a :: p.1, p.2)

def Atom.run : Atom α → List α → List (List α × List α)
  | .lit same w, x => litRun same w x
  | .many least ok, x => (manyRun ok x).filter fun p => least ≤ p.1.length
  | .any, x => anyRun x

/-- What each atom matched, and what is left. -/
def runAll : List (Atom α) → List α → List (List (List α) × List α)
  | [], x => [([], x)]
  | a :: as, x => (a.run x).flatMap fun p => (runAll as p.2).map fun q => (p.1 :: q.1, q.2)

def exec (as : List (Atom α)) (x : List α) : Option (List (List α)) := (runAll as x).head?.map Prod.fst

/-! ## What is matched -/

def Atom.Accepts : Atom α → List α → Prop
  | .lit same w, u => List.Forall₂ (fun a b => same a b = true) w u
  | .many least ok, u => least ≤ u.length ∧ ∀ a ∈ u, ok a = true
  | .any, _ => True

variable {r u : List α}

theorem mem_map_cons {a : α} {l : List (List α × List α)} :
    (u, r) ∈ l.map (fun p => (a :: p.1, p.2)) ↔ ∃ v, u = a :: v ∧ (v, r) ∈ l := by
  constructor
  · intro hMem
    obtain ⟨⟨v, r'⟩, hv, hEq⟩ := List.mem_map.mp hMem
    cases hEq
    exact ⟨v, rfl, hv⟩
  · rintro ⟨v, rfl, hv⟩
    exact List.mem_map.mpr ⟨(v, r), hv, rfl⟩

variable {x : List α}

variable {w : List α} {same : α → α → Bool}

theorem mem_litRun : (u, r) ∈ litRun same w x ↔ x = u ++ r ∧ List.Forall₂ (fun a b => same a b = true) w u := by
  induction w generalizing x u with
  | nil =>
    rw [litRun, List.mem_singleton, Prod.mk.injEq, List.forall₂_nil_left_iff]
    constructor
    · rintro ⟨rfl, rfl⟩
      exact ⟨rfl, rfl⟩
    · rintro ⟨rfl, rfl⟩
      exact ⟨rfl, rfl⟩
  | cons a w ih =>
    rw [List.forall₂_cons_left_iff]
    cases x with
    | nil =>
      refine ⟨nofun, ?_⟩
      rintro ⟨hNil, b, v, _, _, rfl⟩
      cases hNil
    | cons b x =>
      rw [litRun]
      constructor
      · intro hMem
        split at hMem
        · rename_i hSame
          obtain ⟨v, rfl, hv⟩ := mem_map_cons.mp hMem
          obtain ⟨rfl, hw⟩ := ih.mp hv
          exact ⟨rfl, b, v, hSame, hw, rfl⟩
        · cases hMem
      · rintro ⟨hEq, b', v, hSame, hw, rfl⟩
        cases hEq
        rw [if_pos hSame]
        exact mem_map_cons.mpr ⟨v, rfl, ih.mpr ⟨rfl, hw⟩⟩

variable {ok : α → Bool}

theorem mem_manyRun : (u, r) ∈ manyRun ok x ↔ x = u ++ r ∧ ∀ a ∈ u, ok a = true := by
  induction x generalizing u with
  | nil =>
    rw [manyRun, List.mem_singleton, Prod.mk.injEq, eq_comm (a := []) (b := u ++ r), List.append_eq_nil_iff]
    constructor
    · rintro ⟨rfl, rfl⟩
      exact ⟨⟨rfl, rfl⟩, nofun⟩
    · rintro ⟨⟨rfl, rfl⟩, _⟩
      exact ⟨rfl, rfl⟩
  | cons a x ih =>
    rw [manyRun, List.mem_append, List.mem_singleton, Prod.mk.injEq]
    constructor
    · rintro (hMem | ⟨rfl, rfl⟩)
      · split at hMem
        · rename_i hOk
          obtain ⟨v, rfl, hv⟩ := mem_map_cons.mp hMem
          obtain ⟨rfl, hAll⟩ := ih.mp hv
          exact ⟨rfl, List.forall_mem_cons.mpr ⟨hOk, hAll⟩⟩
        · cases hMem
      · exact ⟨rfl, nofun⟩
    · rintro ⟨hEq, hAll⟩
      cases u with
      | nil => exact .inr ⟨rfl, hEq.symm⟩
      | cons b v =>
        cases hEq
        obtain ⟨hOk, hAll⟩ := List.forall_mem_cons.mp hAll
        rw [if_pos hOk]
        exact .inl (mem_map_cons.mpr ⟨v, rfl, ih.mpr ⟨rfl, hAll⟩⟩)

theorem mem_anyRun : (u, r) ∈ anyRun x ↔ x = u ++ r := by
  induction x generalizing u with
  | nil =>
    rw [anyRun, List.mem_singleton, Prod.mk.injEq, eq_comm (a := []), List.append_eq_nil_iff]
  | cons a x ih =>
    rw [anyRun, List.mem_cons, Prod.mk.injEq, mem_map_cons]
    constructor
    · rintro (⟨rfl, rfl⟩ | ⟨v, rfl, hv⟩)
      · rfl
      · rw [ih.mp hv]
        rfl
    · intro hEq
      cases u with
      | nil => exact .inl ⟨rfl, hEq.symm⟩
      | cons b v =>
        cases hEq
        exact .inr ⟨v, rfl, ih.mpr rfl⟩

variable {a : Atom α}

theorem Atom.mem_run : (u, r) ∈ a.run x ↔ x = u ++ r ∧ a.Accepts u := by
  cases a with
  | lit same w => exact mem_litRun
  | many least ok =>
    rw [Atom.run, List.mem_filter, mem_manyRun, decide_eq_true_iff, and_assoc, and_comm (a := ∀ a ∈ u, ok a = true)]
    rfl
  | any => exact mem_anyRun.trans (and_iff_left trivial).symm

variable {as : List (Atom α)} {us : List (List α)}

theorem mem_runAll : (us, r) ∈ runAll as x ↔ x = us.flatten ++ r ∧ List.Forall₂ Atom.Accepts as us := by
  induction as generalizing x us with
  | nil =>
    rw [runAll, List.mem_singleton, Prod.mk.injEq, List.forall₂_nil_left_iff]
    constructor
    · rintro ⟨rfl, rfl⟩
      exact ⟨rfl, rfl⟩
    · rintro ⟨rfl, rfl⟩
      exact ⟨rfl, rfl⟩
  | cons a as ih =>
    rw [runAll, List.mem_flatMap, List.forall₂_cons_left_iff]
    constructor
    · rintro ⟨⟨u, y⟩, hu, hMem⟩
      obtain ⟨⟨vs, r'⟩, hvs, hEq⟩ := List.mem_map.mp hMem
      cases hEq
      obtain ⟨rfl, hAccepts⟩ := Atom.mem_run.mp hu
      obtain ⟨hy, hAll⟩ := ih.mp hvs
      refine ⟨?_, u, vs, hAccepts, hAll, rfl⟩
      rw [List.flatten_cons, List.append_assoc, ← hy]
    · rintro ⟨hx, u, vs, hAccepts, hAll, rfl⟩
      rw [List.flatten_cons, List.append_assoc] at hx
      exact ⟨(u, vs.flatten ++ r), Atom.mem_run.mpr ⟨hx, hAccepts⟩,
        List.mem_map.mpr ⟨(vs, r), ih.mpr ⟨rfl, hAll⟩, rfl⟩⟩

theorem accepts_append (as bs : List (Atom α)) :
    List.Forall₂ Atom.Accepts (as ++ bs) us ↔
      ∃ vs ws, us = vs ++ ws ∧ List.Forall₂ Atom.Accepts as vs ∧ List.Forall₂ Atom.Accepts bs ws := by
  constructor
  · intro hAll
    refine ⟨us.take as.length, us.drop as.length, (List.take_append_drop _ us).symm, ?_, ?_⟩
    · simpa using List.forall₂_take as.length hAll
    · simpa using List.forall₂_drop as.length hAll
  · rintro ⟨vs, ws, rfl, hvs, hws⟩
    exact List.rel_append hvs hws

/-- There is a match at the front. -/
def Hits (as : List (Atom α)) (x : List α) : Prop :=
  ∃ us r, x = us.flatten ++ r ∧ List.Forall₂ Atom.Accepts as us

theorem runAll_eq_nil : runAll as x = [] ↔ ¬ Hits as x := by
  constructor
  · rintro hNil ⟨us, r, hx, hAll⟩
    have hMem := mem_runAll.mpr ⟨hx, hAll⟩
    rw [hNil] at hMem
    cases hMem
  · intro hNot
    refine List.eq_nil_iff_forall_not_mem.mpr fun p hp => ?_
    exact hNot ⟨p.1, p.2, mem_runAll.mp hp⟩

theorem exec_eq_none : exec as x = none ↔ ¬ Hits as x := by
  rw [exec, Option.map_eq_none_iff, List.head?_eq_none_iff, runAll_eq_nil]

/-! ## The first match -/

def First (as : List (Atom α)) (x : List α) (us : List (List α)) (r : List α) : Prop :=
  (runAll as x).head? = some (us, r)

theorem First.nil (x : List α) : First [] x [] x := rfl

theorem First.exec_eq (hFirst : First as x us r) : exec as x = some us := by
  rw [exec, hFirst]
  rfl

theorem First.accepts (hFirst : First as x us r) : x = us.flatten ++ r ∧ List.Forall₂ Atom.Accepts as us :=
  mem_runAll.mp (List.mem_of_head? hFirst)

variable {β γ : Type} {l : List β} {c : γ}

theorem head_flatMap {f : β → List γ} {b : β} (hb : l.head? = some b) (hc : (f b).head? = some c) :
    (l.flatMap f).head? = some c := by
  obtain ⟨t, rfl⟩ := List.head?_eq_some_iff.mp hb
  obtain ⟨t', ht'⟩ := List.head?_eq_some_iff.mp hc
  rw [List.flatMap_cons, ht']
  rfl

variable {y : List α}

theorem First.cons (ha : (a.run x).head? = some (u, y)) (has : First as y us r) : First (a :: as) x (u :: us) r := by
  refine head_flatMap ha ?_
  rw [List.head?_map, has]
  rfl

theorem runAll_append (as bs : List (Atom α)) (x : List α) :
    runAll (as ++ bs) x = (runAll as x).flatMap fun p => (runAll bs p.2).map fun q => (p.1 ++ q.1, q.2) := by
  induction as generalizing x with
  | nil => simp [runAll]
  | cons a as ih =>
    simp only [List.cons_append, runAll, ih, List.map_flatMap, List.flatMap_assoc, List.flatMap_map, List.map_map]
    rfl

theorem First.append {bs : List (Atom α)} {vs : List (List α)} (has : First as x us y) (hbs : First bs y vs r) :
    First (as ++ bs) x (us ++ vs) r := by
  rw [First, runAll_append]
  refine head_flatMap has ?_
  rw [List.head?_map, hbs]
  rfl

theorem Hits.exists_first (hHits : Hits as x) : ∃ us r, First as x us r := by
  cases hRun : runAll as x with
  | nil => exact absurd hHits (runAll_eq_nil.mp hRun)
  | cons p ps => exact ⟨p.1, p.2, by rw [First, hRun]; rfl⟩

theorem First.lit (hu : List.Forall₂ (fun a b => same a b = true) w u) (has : First as y us r) :
    First (.lit same w :: as) (u ++ y) (u :: us) r := by
  refine First.cons ?_ has
  induction hu with
  | nil => rfl
  | cons hSame _ ih =>
    rw [Atom.run, List.cons_append, litRun, if_pos hSame, List.head?_map]
    exact congrArg (Option.map _) ih

theorem First.many {least : Nat} (hLeast : least ≤ u.length) (hu : ∀ a ∈ u, ok a = true)
    (hy : ∀ a, y.head? = some a → ok a = false) (has : First as y us r) :
    First (.many least ok :: as) (u ++ y) (u :: us) r := by
  refine First.cons ?_ has
  have hLongest : (manyRun ok (u ++ y)).head? = some (u, y) := by
    clear hLeast
    induction u with
    | nil =>
      cases y with
      | nil => rfl
      | cons a y =>
        rw [List.nil_append, manyRun, if_neg (by simp [hy a rfl])]
        rfl
    | cons a u ih =>
      obtain ⟨ha, hu⟩ := List.forall_mem_cons.mp hu
      rw [List.cons_append, manyRun, if_pos ha, List.head?_append, List.head?_map, ih hu]
      rfl
  obtain ⟨t, ht⟩ := List.head?_eq_some_iff.mp hLongest
  rw [Atom.run, ht, List.filter_cons, if_pos (decide_eq_true hLeast)]
  rfl

theorem runAll_any_cons (as : List (Atom α)) (a : α) (x : List α) :
    runAll (.any :: as) (a :: x) = (runAll as (a :: x)).map (fun q => ([] :: q.1, q.2)) ++
      (runAll (.any :: as) x).map fun q => (q.1.modifyHead (a :: ·), q.2) := by
  simp only [runAll, Atom.run, anyRun, List.flatMap_cons, List.flatMap_map, List.map_flatMap, List.map_map]
  rfl

theorem First.any (hu : ∀ s, s ≠ [] → s <:+ u → ¬ Hits as (s ++ y)) (has : First as y us r) :
    First (.any :: as) (u ++ y) (u :: us) r := by
  induction u with
  | nil =>
    refine First.cons (a := .any) ?_ has
    cases y <;> rfl
  | cons a u ih =>
    have hNil := runAll_eq_nil.mpr (hu (a :: u) (List.cons_ne_nil a u) List.suffix_rfl)
    have hRest := ih fun s hs hSuffix => hu s hs (hSuffix.trans (List.suffix_cons a u))
    rw [List.cons_append] at hNil
    rw [First, List.cons_append, runAll_any_cons, hNil, List.map_nil, List.nil_append, List.head?_map, hRest]
    rfl

/-- A lazy match is the shortest. -/
theorem First.not_hits (hFirst : First (.any :: as) (u ++ y) (u :: us) r) {s : List α} (hs : s ≠ [])
    (hSuffix : s <:+ u) :
    ¬ Hits as (s ++ y) := by
  induction u with
  | nil => exact absurd (List.suffix_nil.mp hSuffix) hs
  | cons a u ih =>
    rw [First, List.cons_append, runAll_any_cons, List.head?_append] at hFirst
    cases hRun : runAll as (a :: (u ++ y)) with
    | cons q qs =>
      rw [hRun] at hFirst
      cases hFirst
    | nil =>
      rcases List.suffix_cons_iff.mp hSuffix with rfl | hSuffix
      · exact runAll_eq_nil.mp hRun
      · rw [hRun, List.map_nil, List.head?_nil, Option.none_or, List.head?_map] at hFirst
        obtain ⟨⟨vs, r'⟩, hRest, hEq⟩ := Option.map_eq_some_iff.mp hFirst
        have hAll := (mem_runAll.mp (List.mem_of_head? hRest)).2
        obtain ⟨v, vs', _, _, rfl⟩ := List.forall₂_cons_left_iff.mp hAll
        cases hEq
        exact ih hRest hSuffix

/-! ## Elements an expression never matches -/

theorem exists_of_forall₂ {R : β → γ → Prop} {m : List γ} (hAll : List.Forall₂ R l m) (hc : c ∈ m) :
    ∃ b ∈ l, R b c := by
  induction hAll with
  | nil => cases hc
  | cons hR _ ih =>
    rcases List.mem_cons.mp hc with rfl | hc
    · exact ⟨_, List.mem_cons_self, hR⟩
    · obtain ⟨b, hb, hRb⟩ := ih hc
      exact ⟨b, List.mem_cons_of_mem _ hb, hRb⟩

def Atom.rejects (c : α) : Atom α → Bool
  | .lit same w => w.all fun a => !same a c
  | .many _ ok => !ok c
  | .any => false

theorem Atom.Accepts.notMem {c : α} (hAccepts : a.Accepts u) (hRejects : a.rejects c = true) : c ∉ u := by
  intro hc
  cases a with
  | lit same w =>
    obtain ⟨a, ha, hSame⟩ := exists_of_forall₂ hAccepts hc
    have hNot := List.all_eq_true.mp hRejects a ha
    simp [hSame] at hNot
  | many least ok =>
    have hOk := hAccepts.2 c hc
    simp [Atom.rejects, hOk] at hRejects
  | any => cases hRejects

theorem notMem_flatten {c : α} (hAll : List.Forall₂ Atom.Accepts as us) (hRejects : as.all (Atom.rejects c) = true) :
    c ∉ us.flatten := by
  induction hAll with
  | nil => nofun
  | cons hAccepts _ ih =>
    rw [List.all_cons, Bool.and_eq_true] at hRejects
    rw [List.flatten_cons, List.mem_append]
    exact not_or.mpr ⟨hAccepts.notMem hRejects.1, ih hRejects.2⟩

end Foundation.Text
