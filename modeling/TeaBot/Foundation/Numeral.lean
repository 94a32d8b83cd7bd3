import Mathlib.Data.Int.Order.Basic
import Mathlib.Data.List.Induction
import Mathlib.Tactic.Ring

/-! # Decimal numerals

Numerals as lists of digits: which ones are equal, what two of them one after the other
denote, and where one can be cut in two.
-/

namespace Foundation.Numeral

def digits (n : Nat) : List Char := Nat.toDigits 10 n

def width (n : Nat) : Nat := (digits n).length

variable {n : Nat}

theorem digits_small (h : n < 10) : digits n = [Nat.digitChar n] := Nat.toDigits_of_lt_base h

theorem digits_large (h : 10 ≤ n) : digits n = digits (n / 10) ++ [Nat.digitChar (n % 10)] :=
  Nat.toDigits_of_base_le (by decide) h

theorem width_small (h : n < 10) : width n = 1 := by rw [width, digits_small h, List.length_singleton]

theorem width_large (h : 10 ≤ n) : width n = width (n / 10) + 1 := by
  rw [width, digits_large h, List.length_append, List.length_singleton, width]

theorem isDigit_of_mem {c : Char} (h : c ∈ digits n) : c.isDigit = true :=
  Nat.isDigit_of_mem_toDigits (by decide) (by decide) h

theorem digits_injective {m : Nat} (h : digits m = digits n) : m = n := by
  have hValue := congrArg (fun s => Nat.ofDigitChars 10 s 0) h
  simpa only [digits, Nat.ofDigitChars_ten_toDigits] using hValue

def numeral (n : Int) : List Char := (if n < 0 then ['-'] else []) ++ digits n.natAbs

theorem toList_nat (n : Nat) : (toString n).toList = digits n := Nat.toList_repr

theorem toList_int (n : Int) : (toString n).toList = numeral n := by
  cases n with
  | ofNat n => exact Nat.toList_repr
  | negSucc n =>
    have hText : toString (Int.negSucc n) = "-" ++ toString (n + 1) := rfl
    rw [hText, String.toList_append, toList_nat, numeral, if_pos (Int.negSucc_lt_zero n)]
    rfl

theorem numeral_of_nonneg {n : Int} (h : 0 ≤ n) : numeral n = digits n.natAbs := by
  rw [numeral, if_neg (not_lt.mpr h), List.nil_append]

theorem numeral_of_neg {n : Int} (h : n < 0) : numeral n = '-' :: digits n.natAbs := by
  rw [numeral, if_pos h, List.singleton_append]

theorem numeral_natCast (n : Nat) : numeral n = digits n := by
  rw [numeral_of_nonneg (Int.natCast_nonneg n), Int.natAbs_natCast]

theorem numeral_neg_natCast (h : 0 < n) : numeral (-n) = '-' :: digits n := by
  rw [numeral_of_neg (by omega), Int.natAbs_neg, Int.natAbs_natCast]

theorem minus_not_mem (n : Nat) : '-' ∉ digits n := fun h => absurd (isDigit_of_mem h) (by decide)

theorem numeral_injective {m n : Int} (h : numeral m = numeral n) : m = n := by
  -- the sign can be seen at the head
  have hSign : ∀ {m n : Int}, m < 0 → 0 ≤ n → numeral m ≠ numeral n := by
    intro m n hm hn h
    rw [numeral_of_neg hm, numeral_of_nonneg hn] at h
    exact minus_not_mem n.natAbs (h ▸ List.mem_cons_self)
  rcases lt_or_ge m 0 with hm | hm <;> rcases lt_or_ge n 0 with hn | hn
  · rw [numeral_of_neg hm, numeral_of_neg hn, List.cons.injEq] at h
    have hAbs := digits_injective h.2
    omega
  · exact absurd h (hSign hm hn)
  · exact absurd h.symm (hSign hn hm)
  · rw [numeral_of_nonneg hm, numeral_of_nonneg hn] at h
    have hAbs := digits_injective h
    omega

/-! ## Two numerals one after the other -/

theorem digits_push {d : Nat} (hn : 0 < n) (hd : d < 10) : digits n ++ [Nat.digitChar d] = digits (10 * n + d) := by
  rw [← digits_small hd]
  exact Nat.toDigits_append_toDigits (by decide) hn hd

theorem digits_append (hn : 0 < n) (r : Nat) : digits n ++ digits r = digits (n * 10 ^ width r + r) := by
  induction r using Nat.strongRecOn with
  | ind r ih =>
    rcases Nat.lt_or_ge r 10 with hSmall | hLarge
    · rw [digits_small hSmall, digits_push hn hSmall, width_small hSmall, Nat.pow_one, Nat.mul_comm]
    · have hSum : n * 10 ^ width r + r = 10 * (n * 10 ^ width (r / 10) + r / 10) + r % 10 := by
        have hAssoc := Nat.mul_assoc n (10 ^ width (r / 10)) 10
        rw [width_large hLarge, Nat.pow_succ]
        omega
      have hPos : 0 < n * 10 ^ width (r / 10) + r / 10 := Nat.add_pos_right _ (Nat.div_pos hLarge (by decide))
      calc
        digits n ++ digits r = digits n ++ digits (r / 10) ++ [Nat.digitChar (r % 10)] := by
          rw [digits_large hLarge, List.append_assoc]
        _ = digits (n * 10 ^ width (r / 10) + r / 10) ++ [Nat.digitChar (r % 10)] := by rw [ih (r / 10) (by omega)]
        _ = digits (n * 10 ^ width r + r) := by rw [digits_push hPos (Nat.mod_lt r (by decide)), hSum]

/-- What a positive numeral begins with is one itself. -/
theorem digits_front (hn : 0 < n) {s t : List Char} (hs : s ≠ []) (h : digits n = s ++ t) :
    ∃ r, 0 < r ∧ s = digits r := by
  induction t using List.reverseRecOn generalizing n with
  | nil => exact ⟨n, hn, by rw [h, List.append_nil]⟩
  | append_singleton t c ih =>
    have hLarge : 10 ≤ n := by
      by_contra hSmall
      rw [digits_small (by omega)] at h
      have hLength := congrArg List.length h
      have hPos := List.length_pos_iff.mpr hs
      simp only [List.length_append, List.length_singleton] at hLength
      omega
    rw [digits_large hLarge, ← List.append_assoc] at h
    exact ih (Nat.div_pos hLarge (by decide)) (List.append_inj' h rfl).1

theorem numeral_append {n : Int} (hn : n ≠ 0) (r : Nat) :
    numeral n ++ digits r = numeral (n * 10 ^ width r + n.sign * r) := by
  obtain ⟨m, rfl | rfl⟩ := Int.eq_nat_or_neg n
  · have hm : 0 < m := by omega
    have hValue : (m : Int) * 10 ^ width r + (m : Int).sign * r = ((m * 10 ^ width r + r : Nat) : Int) := by
      rw [Int.sign_eq_one_of_pos (by omega)]
      push_cast
      ring
    rw [hValue, numeral_natCast, numeral_natCast, digits_append hm]
  · have hm : 0 < m := by omega
    have hValue : -(m : Int) * 10 ^ width r + (-(m : Int)).sign * r = -((m * 10 ^ width r + r : Nat) : Int) := by
      rw [Int.sign_eq_neg_one_of_neg (by omega)]
      push_cast
      ring
    have hSum : 0 < m * 10 ^ width r + r := Nat.add_pos_left (Nat.mul_pos hm (Nat.pow_pos (by decide))) r
    rw [hValue, numeral_neg_natCast hm, numeral_neg_natCast hSum, List.cons_append, digits_append hm]

theorem numeral_zero_append (r : Nat) (n : Int) : numeral 0 ++ digits r ≠ numeral n := by
  have hZero : numeral 0 = digits 0 := rfl
  rw [hZero]
  intro h
  rcases lt_or_ge n 0 with hNeg | hNonneg
  · rw [numeral_of_neg hNeg] at h
    cases h
  · rw [numeral_of_nonneg hNonneg] at h
    have hPos : 0 < n.natAbs := by
      by_contra hNot
      have hLength := congrArg List.length h
      have hTail : 0 < (digits r).length := Nat.length_toDigits_pos
      rw [Nat.eq_zero_of_not_pos hNot, List.length_append] at hLength
      omega
    obtain ⟨m, hm, hFront⟩ := digits_front hPos (by decide) h.symm
    exact hm.ne (digits_injective hFront)

theorem numeral_append_eq_iff {m n : Int} {r : Nat} :
    numeral m ++ digits r = numeral n ↔ m ≠ 0 ∧ n = m * 10 ^ width r + m.sign * r := by
  constructor
  · intro h
    have hm : m ≠ 0 := by
      rintro rfl
      exact numeral_zero_append r n h
    rw [numeral_append hm] at h
    exact ⟨hm, (numeral_injective h).symm⟩
  · rintro ⟨hm, rfl⟩
    exact numeral_append hm r

end Foundation.Numeral
