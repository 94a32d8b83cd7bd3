import Mathlib.Data.List.Basic

/-! # Reading from a stream in pieces

A connection is the list of the reads it will yield; once they are used up every
further read is empty. `readUntil` reads on while its buffer is shorter than `n`, and
spins on empty reads when the stream ends before.
-/

namespace Foundation.Stream

variable {α : Type}

def fread : List (List α) → List α × List (List α)
  | [] => ([], [])
  | c :: cs => (c, cs)

theorem fread_flatten (conn : List (List α)) : (fread conn).1 ++ (fread conn).2.flatten = conn.flatten := by
  cases conn <;> rfl

/-- A stream arrives as the given non-empty reads of bounded size. -/
structure Cut (limit : Nat) (cs : List (List α)) (data : List α) : Prop where
  flatten : cs.flatten = data
  nonempty : ∀ c ∈ cs, c ≠ []
  bounded : ∀ c ∈ cs, c.length ≤ limit

/-- Every stream can arrive in bounded reads of which the first and the last are not too short. -/
theorem exists_cut {limit : Nat} (hLimit : 4 ≤ limit) {data : List α} (hData : 2 ≤ data.length) :
    ∃ cs, Cut limit cs data ∧ 2 ≤ (cs.headD []).length ∧ (cs.length = 1 ∨ 3 ≤ (cs.getLastD []).length) := by
  induction hLength : data.length using Nat.strongRecOn generalizing data with
  | ind l ih =>
    rcases Nat.lt_or_ge limit data.length with hLong | hShort
    · -- the last three elements are one read
      have hFront : (data.take (data.length - 3)).length = data.length - 3 := by
        rw [List.length_take]
        omega
      obtain ⟨cs, hCut, hFirst, _⟩ := ih (data.length - 3) (by omega) (by omega) hFront
      have hNonempty : cs ≠ [] := by
        rintro rfl
        simp at hFirst
      obtain ⟨c, rest, rfl⟩ := List.exists_cons_of_ne_nil hNonempty
      have hLast : (data.drop (data.length - 3)).length = 3 := by
        rw [List.length_drop]
        omega
      refine ⟨c :: rest ++ [data.drop (data.length - 3)], ⟨?_, ?_, ?_⟩, hFirst, .inr ?_⟩
      · rw [List.flatten_append, hCut.flatten, List.flatten_singleton, List.take_append_drop]
      · intro x hx
        rcases List.mem_append.mp hx with hOld | hNew
        · exact hCut.nonempty x hOld
        · rw [List.mem_singleton.mp hNew]
          exact List.ne_nil_of_length_pos (by omega)
      · intro x hx
        rcases List.mem_append.mp hx with hOld | hNew
        · exact hCut.bounded x hOld
        · rw [List.mem_singleton.mp hNew]
          omega
      · rw [List.getLastD_concat]
        exact Nat.le_of_eq hLast.symm
    · refine ⟨[data], ⟨List.flatten_singleton, ?_, ?_⟩, hData, .inl rfl⟩
      · intro x hx
        rw [List.mem_singleton.mp hx]
        exact List.ne_nil_of_length_pos (by omega)
      · intro x hx
        rwa [List.mem_singleton.mp hx]

theorem length_flatten_take_le (k : Nat) (cs : List (List α)) :
    (cs.take k).flatten.length ≤ cs.flatten.length := by
  conv_rhs => rw [← List.take_append_drop k cs, List.flatten_append, List.length_append]
  omega

def readUntil (n : Nat) : Nat → List α → List (List α) → Option (List α)
  | 0, _, _ => none
  | fuel + 1, buf, conn =>
    if buf.length < n then readUntil n fuel (buf ++ (fread conn).1) (fread conn).2 else some buf

variable {n : Nat} {buf : List α}

theorem readUntil_of_le (h : n ≤ buf.length) (fuel : Nat) (conn : List (List α)) :
    readUntil n (fuel + 1) buf conn = some buf := by
  rw [readUntil, if_neg (by omega)]

variable {conn : List (List α)}

/-- It stops at the first boundary between two reads where the buffer is long enough. -/
theorem readUntil_ends (h : n ≤ buf.length + conn.flatten.length) :
    ∃ fuel k, readUntil n fuel buf conn = some (buf ++ (conn.take k).flatten) ∧ k ≤ conn.length ∧
      n ≤ (buf ++ (conn.take k).flatten).length ∧
      ∀ i < k, (buf ++ (conn.take i).flatten).length < n := by
  induction conn generalizing buf with
  | nil =>
    refine ⟨1, 0, ?_, Nat.le_refl _, by simpa using h, nofun⟩
    rw [readUntil_of_le (by simpa using h)]
    simp
  | cons c conn ih =>
    by_cases hEnough : n ≤ buf.length
    · refine ⟨1, 0, ?_, Nat.zero_le _, by simpa using hEnough, nofun⟩
      rw [readUntil_of_le hEnough]
      simp
    · have hRest : n ≤ (buf ++ c).length + conn.flatten.length := by
        simp only [List.flatten_cons, List.length_append] at h ⊢
        omega
      obtain ⟨fuel, k, hRead, hk, hLong, hShort⟩ := ih hRest
      refine ⟨fuel + 1, k + 1, ?_, by simpa using hk, by simpa using hLong, ?_⟩
      · rw [readUntil, if_pos (by omega)]
        simpa [fread] using hRead
      · intro i hi
        cases i with
        | zero => simpa using hEnough
        | succ i => simpa using hShort i (by omega)

theorem readUntil_spec {fuel : Nat} {out : List α} (h : readUntil n fuel buf conn = some out) :
    out <+: buf ++ conn.flatten ∧ n ≤ out.length := by
  induction fuel generalizing buf conn with
  | zero => cases h
  | succ fuel ih =>
    rw [readUntil] at h
    split at h
    · obtain ⟨hPrefix, hEnough⟩ := ih h
      rw [List.append_assoc, fread_flatten] at hPrefix
      exact ⟨hPrefix, hEnough⟩
    · cases h
      exact ⟨List.prefix_append _ _, by omega⟩

theorem readUntil_length {fuel : Nat} {out : List α} (h : readUntil n fuel buf conn = some out) :
    out.length ≤ buf.length + conn.flatten.length := by
  rw [← List.length_append]
  exact (readUntil_spec h).1.length_le

theorem readUntil_never (h : buf.length + conn.flatten.length < n) (fuel : Nat) : readUntil n fuel buf conn = none := by
  cases hRead : readUntil n fuel buf conn with
  | none => rfl
  | some out =>
    have hEnough := (readUntil_spec hRead).2
    have hLe := readUntil_length hRead
    omega

theorem readUntil_returns_iff :
    (∃ fuel out, readUntil n fuel buf conn = some out) ↔ n ≤ buf.length + conn.flatten.length := by
  constructor
  · rintro ⟨fuel, out, hRead⟩
    by_contra hShort
    rw [readUntil_never (by omega)] at hRead
    cases hRead
  · intro hEnough
    obtain ⟨fuel, k, hRead, _⟩ := readUntil_ends hEnough
    exact ⟨fuel, _, hRead⟩

end Foundation.Stream
