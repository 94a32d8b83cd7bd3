import Mathlib.Data.List.Basic

/-! # Text as bytes

The UTF-8 encoding on lists, and where the bytes of a text can be cut so that both halves
are texts again.
-/

namespace Foundation.Utf8

def encode (s : List Char) : List UInt8 := s.flatMap String.utf8EncodeChar

theorem encode_append (s t : List Char) : encode (s ++ t) = encode s ++ encode t := List.flatMap_append

theorem encode_injective {s t : List Char} (h : encode s = encode t) : s = t := by
  have hBytes : s.utf8Encode = t.utf8Encode := congrArg List.toByteArray h
  have hDecoded := congrArg ByteArray.utf8Decode? hBytes
  rw [List.utf8Decode?_utf8Encode, List.utf8Decode?_utf8Encode] at hDecoded
  simpa using hDecoded

def Valid (b : List UInt8) : Prop := ∃ s, b = encode s

theorem Valid.append {b c : List UInt8} (hb : Valid b) (hc : Valid c) : Valid (b ++ c) := by
  obtain ⟨s, rfl⟩ := hb
  obtain ⟨t, rfl⟩ := hc
  exact ⟨s ++ t, (encode_append s t).symm⟩

theorem Valid.flatten {bs : List (List UInt8)} (h : ∀ b ∈ bs, Valid b) : Valid bs.flatten := by
  induction bs with
  | nil => exact ⟨[], rfl⟩
  | cons b bs ih =>
    rw [List.flatten_cons]
    exact (h b List.mem_cons_self).append (ih fun c hc => h c (List.mem_cons_of_mem b hc))

/-! ## Cuts between characters -/

/-- A character of `s` ends at byte `n`, or `n` is zero. -/
def Boundary (s : List Char) (n : Nat) : Prop := ∃ front back, s = front ++ back ∧ (encode front).length = n

theorem boundary_zero (s : List Char) : Boundary s 0 := ⟨[], s, rfl, rfl⟩

theorem boundary_length (s : List Char) : Boundary s (encode s).length := ⟨s, [], (List.append_nil s).symm, rfl⟩

/-- A text can be cut exactly at its boundaries. -/
theorem valid_cut_iff {s : List Char} {n : Nat} (hn : n ≤ (encode s).length) :
    Valid ((encode s).take n) ∧ Valid ((encode s).drop n) ↔ Boundary s n := by
  constructor
  · rintro ⟨⟨front, hFront⟩, ⟨back, hBack⟩⟩
    refine ⟨front, back, encode_injective ?_, ?_⟩
    · rw [encode_append, ← hFront, ← hBack, List.take_append_drop]
    · rw [← hFront, List.length_take, Nat.min_eq_left hn]
  · rintro ⟨front, back, rfl, rfl⟩
    rw [encode_append]
    exact ⟨⟨front, List.take_left⟩, ⟨back, List.drop_left⟩⟩

theorem boundary_append_iff {front back : List Char} {n : Nat} :
    Boundary (front ++ back) ((encode front).length + n) ↔ Boundary back n := by
  constructor
  · rintro ⟨f, b, hSplit, hLength⟩
    rcases List.append_eq_append_iff.mp hSplit with ⟨m, rfl, rfl⟩ | ⟨m, rfl, rfl⟩
    · rw [encode_append, List.length_append] at hLength
      exact ⟨m, b, rfl, by omega⟩
    · -- the cut is not behind `front`, so it is at its end
      rw [encode_append, List.length_append] at hLength
      obtain rfl : n = 0 := by omega
      exact boundary_zero back
  · rintro ⟨f, b, rfl, rfl⟩
    exact ⟨front ++ f, b, (List.append_assoc front f b).symm, by rw [encode_append, List.length_append]⟩

end Foundation.Utf8
