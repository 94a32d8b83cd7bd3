import Mathlib.Data.List.Basic

/-! # Scanning a text from left to right

The hits of a test, none of them inside the one before, and what is done with them.
-/

namespace Foundation.Text

variable {α γ : Type}

/-- The elements between the hits, and the hits. The first `skip` elements belong to the
hit before; a hit says how long it is. -/
def scan (hit : List α → Option (γ × Nat)) : Nat → List α → List (α ⊕ γ)
  | _, [] => []
  | skip + 1, _ :: text => scan hit skip text
  | 0, a :: text => match hit (a :: text) with
    | some (m, n) => .inr m :: scan hit (n - 1) text
    | none => .inl a :: scan hit 0 text

section Scan

variable {hit : List α → Option (γ × Nat)} {s y : List α}

/-- No hit begins inside `s` when `y` follows it. -/
def Quiet (hit : List α → Option (γ × Nat)) (s y : List α) : Prop := ∀ s', s' ≠ [] → s' <:+ s → hit (s' ++ y) = none

theorem scan_skip (s y : List α) : scan hit s.length (s ++ y) = scan hit 0 y := by
  induction s with
  | nil => rfl
  | cons a s ih => exact ih

theorem scan_quiet (hQuiet : Quiet hit s y) : scan hit 0 (s ++ y) = s.map .inl ++ scan hit 0 y := by
  induction s with
  | nil => rfl
  | cons a s ih =>
    have hNone : hit (a :: (s ++ y)) = none := hQuiet (a :: s) (List.cons_ne_nil a s) List.suffix_rfl
    rw [List.cons_append, scan, hNone, List.map_cons, List.cons_append]
    exact congrArg (.inl a :: ·) (ih fun s' hs' hSuffix => hQuiet s' hs' (hSuffix.trans (List.suffix_cons a s)))

theorem scan_hit {m : γ} (hs : s ≠ []) (hHit : hit (s ++ y) = some (m, s.length)) :
    scan hit 0 (s ++ y) = .inr m :: scan hit 0 y := by
  obtain ⟨a, s, rfl⟩ := List.exists_cons_of_ne_nil hs
  rw [List.cons_append] at hHit ⊢
  rw [scan, hHit]
  exact congrArg (.inr m :: ·) (scan_skip s y)

theorem hit_of_scan {m : γ} {ts : List (α ⊕ γ)} (hScan : scan hit 0 y = .inr m :: ts) : ∃ n, hit y = some (m, n) := by
  cases y with
  | nil => cases hScan
  | cons a y =>
    rw [scan] at hScan
    split at hScan
    · rename_i m' n hHit
      cases hScan
      exact ⟨n, hHit⟩
    · cases hScan

/-- Pieces of a text, with the hit that each of them is, if it is one. -/
def Tiled (hit : List α → Option (γ × Nat)) : List (List α × Option γ) → Prop
  | [] => True
  | (s, none) :: ps => Quiet hit s (ps.flatMap Prod.fst) ∧ Tiled hit ps
  | (s, some m) :: ps => (s ≠ [] ∧ hit (s ++ ps.flatMap Prod.fst) = some (m, s.length)) ∧ Tiled hit ps

theorem scan_tiled {ps : List (List α × Option γ)} (hTiled : Tiled hit ps) :
    scan hit 0 (ps.flatMap Prod.fst) = ps.flatMap fun p => p.2.elim (p.1.map .inl) fun m => [.inr m] := by
  induction ps with
  | nil => rfl
  | cons p ps ih =>
    obtain ⟨s, m⟩ := p
    rw [List.flatMap_cons, List.flatMap_cons, ← ih]
    · cases m with
      | none => exact scan_quiet hTiled.1
      | some m => exact scan_hit hTiled.1.1 hTiled.1.2
    · cases m with
      | none => exact hTiled.2
      | some m => exact hTiled.2

theorem filterMap_scan {ps : List (List α × Option γ)} (hTiled : Tiled hit ps) :
    (scan hit 0 (ps.flatMap Prod.fst)).filterMap Sum.getRight? = ps.filterMap Prod.snd := by
  have hNil : ∀ s : List α, (s.map (Sum.inl (β := γ))).filterMap Sum.getRight? = [] := by
    intro s
    induction s with
    | nil => rfl
    | cons a s ih => exact ih
  rw [scan_tiled hTiled]
  clear hTiled
  induction ps with
  | nil => rfl
  | cons p ps ih =>
    obtain ⟨s, m⟩ := p
    rw [List.flatMap_cons, List.filterMap_append, ih]
    cases m with
    | none => rw [Option.elim_none, hNil]; rfl
    | some m => rfl

end Scan

/-! ## Maximal runs -/

section Runs

variable {p : α → Bool} {s r : List α}

theorem takeWhile_append_of_head (hs : ∀ a ∈ s, p a = true) (hr : ∀ a, r.head? = some a → p a = false) :
    (s ++ r).takeWhile p = s := by
  rw [List.takeWhile_append_of_pos hs]
  cases r with
  | nil => simp
  | cons a r => simp [hr a rfl]

theorem dropWhile_append_of_head (hs : ∀ a ∈ s, p a = true) (hr : ∀ a, r.head? = some a → p a = false) :
    (s ++ r).dropWhile p = r := by
  rw [List.dropWhile_append_of_pos hs]
  cases r with
  | nil => rfl
  | cons a r => simp [hr a rfl]

theorem dropWhile_append_stop {stop : List α} (hNe : stop ≠ []) (hStop : ∀ a ∈ stop, p a = false) :
    (s ++ stop ++ r).dropWhile p = s.dropWhile p ++ stop ++ r := by
  obtain ⟨a, rest, rfl⟩ := List.exists_cons_of_ne_nil hNe
  have ha : ¬ p a = true := by simp [hStop a List.mem_cons_self]
  rw [List.append_assoc, List.append_assoc, List.dropWhile_append, List.cons_append, List.dropWhile_cons_of_neg ha]
  split
  · rename_i hEmpty
    rw [List.isEmpty_iff.mp hEmpty, List.nil_append]
  · rfl

/-- A separator that is not in the first field marks its end. -/
theorem append_sep_inj {a : α} {s' r' : List α} (hs : a ∉ s) (hs' : a ∉ s') (h : s ++ a :: r = s' ++ a :: r') :
    s = s' ∧ r = r' := by
  rcases List.append_eq_append_iff.mp h with ⟨m, rfl, hRest⟩ | ⟨m, rfl, hRest⟩
  · cases m with
    | nil => exact ⟨by rw [List.append_nil], (List.cons.inj hRest).2⟩
    | cons b m =>
      obtain ⟨rfl, _⟩ := List.cons.inj hRest
      exact absurd (List.mem_append_right s List.mem_cons_self) hs'
  · cases m with
    | nil => exact ⟨by rw [List.append_nil], (List.cons.inj hRest).2.symm⟩
    | cons b m =>
      obtain ⟨rfl, _⟩ := List.cons.inj hRest
      exact absurd (List.mem_append_right s' List.mem_cons_self) hs

end Runs

/-! ## Replacement -/

variable [DecidableEq α]

def occurs (old text : List α) : Option (Unit × Nat) := if old.isPrefixOf text then some ((), old.length) else none

/-- There is no occurrence of the empty list. -/
def replace (old new text : List α) : List α :=
  if old = [] then text else (scan (occurs old) 0 text).flatMap (Sum.elim ([·]) fun _ => new)

/-- One replacement after the other, each in the result of those before. -/
def replaceEach (pairs : List (List α × List α)) (text : List α) : List α :=
  pairs.foldl (fun text p => replace p.1 p.2 text) text

theorem replace_singleton (a : α) (new text : List α) :
    replace [a] new text = text.flatMap fun b => if b = a then new else [b] := by
  rw [replace, if_neg (List.cons_ne_nil a [])]
  induction text with
  | nil => rfl
  | cons b text ih =>
    rw [List.flatMap_cons, ← ih]
    by_cases hb : b = a
    · have hOccurs : occurs [a] (b :: text) = some ((), 1) := by simp [occurs, hb]
      rw [scan, hOccurs, if_pos hb]
      rfl
    · have hOccurs : occurs [a] (b :: text) = none := by simp [occurs, Ne.symm hb]
      rw [scan, hOccurs, if_neg hb]
      rfl

theorem occurs_eq_none {old text : List α} : occurs old text = none ↔ ¬ old <+: text := by
  simp [occurs]

theorem occurs_append (old text : List α) : occurs old (old ++ text) = some ((), old.length) := by
  simp [occurs]

theorem replace_tiled {old : List α} (new : List α) {ps : List (List α × Option Unit)} (hOld : old ≠ [])
    (hTiled : Tiled (occurs old) ps) :
    replace old new (ps.flatMap Prod.fst) = ps.flatMap fun p => p.2.elim p.1 fun _ => new := by
  rw [replace, if_neg hOld, scan_tiled hTiled, List.flatMap_assoc]
  congr 1
  funext p
  obtain ⟨s, m⟩ := p
  cases m with
  | none => simp [List.flatMap_map]
  | some m => simp

end Foundation.Text
