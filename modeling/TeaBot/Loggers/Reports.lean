import Mathlib.Algebra.Order.BigOperators.Group.List
import TeaBot.Foundation.History
import TeaBot.Foundation.Utf8
import TeaBot.Loggers.Handler

/-! # The parts of an error report

`send_error_log_to_telegram` cuts its message into parts of 4096 bytes, wherever the
characters end, and posts one after the other.
-/

namespace TeaBot.Loggers.Reports

open Foundation Foundation.Utf8

/-! ## `str_split` -/

section Split

variable {n : Nat} {s : List UInt8}

theorem strSplit_short (h : s.length ≤ n) : strSplit n s = [s] := by
  rw [strSplit, dif_pos (.inr h)]

theorem strSplit_long (hn : 0 < n) (h : n < s.length) : strSplit n s = s.take n :: strSplit n (s.drop n) := by
  rw [strSplit, dif_neg (by omega)]

theorem flatten_strSplit (n : Nat) (s : List UInt8) : (strSplit n s).flatten = s := by
  fun_induction strSplit n s with
  | case1 s h => exact List.flatten_singleton
  | case2 s h ih => rw [List.flatten_cons, ih, List.take_append_drop]

theorem length_of_mem_strSplit (hn : 0 < n) {part : List UInt8} (h : part ∈ strSplit n s) : part.length ≤ n := by
  fun_induction strSplit n s with
  | case1 s hShort =>
    rw [List.mem_singleton.mp h]
    omega
  | case2 s hLong ih =>
    rcases List.mem_cons.mp h with rfl | hMem
    · exact List.length_take_le n s
    · exact ih hMem

theorem length_strSplit_le_iff (hn : 0 < n) (k : Nat) : (strSplit n s).length ≤ k + 1 ↔ s.length ≤ n * (k + 1) := by
  induction k generalizing s with
  | zero =>
    rcases Nat.lt_or_ge n s.length with hLong | hShort
    · have hSecond : 0 < (strSplit n (s.drop n)).length := by
        rw [strSplit]
        split <;> simp
      rw [strSplit_long hn hLong, List.length_cons]
      omega
    · rw [strSplit_short hShort, List.length_singleton]
      omega
  | succ k ih =>
    have hMul : n * (k + 1 + 1) = n * (k + 1) + n := Nat.mul_succ n (k + 1)
    rcases Nat.lt_or_ge n s.length with hLong | hShort
    · rw [strSplit_long hn hLong, List.length_cons, Nat.add_le_add_iff_right, ih, List.length_drop]
      omega
    · rw [strSplit_short hShort, List.length_singleton]
      omega

end Split

/-- Each multiple of `n` inside the text is between two characters. -/
def Aligned (n : Nat) (s : List Char) : Prop := ∀ k, n * k ≤ (encode s).length → Boundary s (n * k)

variable {n : Nat}

theorem aligned_append_iff {front back : List Char} (hFront : (encode front).length = n) :
    Aligned n (front ++ back) ↔ Aligned n back := by
  subst hFront
  constructor
  · intro h k hk
    have hNext := h (k + 1) (by rw [encode_append, List.length_append, Nat.mul_succ]; omega)
    rw [Nat.mul_succ, Nat.add_comm] at hNext
    exact boundary_append_iff.mp hNext
  · intro h k hk
    cases k with
    | zero => exact boundary_zero _
    | succ k =>
      rw [Nat.mul_succ, Nat.add_comm] at hk ⊢
      rw [encode_append, List.length_append] at hk
      exact boundary_append_iff.mpr (h k (by omega))

theorem aligned_of_short {s : List Char} (h : (encode s).length ≤ n) : Aligned n s := by
  intro k hk
  rcases Nat.eq_zero_or_pos k with rfl | hPos
  · exact boundary_zero s
  · -- there is only room for one part, and it ends where the text ends
    have hMul := Nat.le_mul_of_pos_right n hPos
    have hAll : n * k = (encode s).length := by omega
    rw [hAll]
    exact boundary_length s

theorem valid_strSplit_iff (hn : 0 < n) (s : List Char) :
    (∀ part ∈ strSplit n (encode s), Valid part) ↔ Aligned n s := by
  induction hLength : (encode s).length using Nat.strongRecOn generalizing s with
  | ind l ih =>
    rcases Nat.lt_or_ge n (encode s).length with hLong | hShort
    · rw [strSplit_long hn hLong, List.forall_mem_cons]
      -- both sides put a boundary at `n`
      have hCut : ∀ {front back}, s = front ++ back → (encode front).length = n →
          (encode s).drop n = encode back ∧
            ((∀ part ∈ strSplit n (encode back), Valid part) ↔ Aligned n back) ∧
            (Aligned n s ↔ Aligned n back) := by
        rintro front back rfl hFront
        have hDrop : (encode (front ++ back)).drop n = encode back := by
          rw [encode_append, List.drop_left' hFront]
        rw [encode_append, List.length_append] at hLength
        exact ⟨hDrop, ih _ (by omega) back rfl, aligned_append_iff hFront⟩
      constructor
      · rintro ⟨hFirst, hRest⟩
        have hDrop : Valid ((encode s).drop n) := by
          rw [← flatten_strSplit n ((encode s).drop n)]
          exact Valid.flatten hRest
        obtain ⟨front, back, hSplit, hFront⟩ := (valid_cut_iff hLong.le).mp ⟨hFirst, hDrop⟩
        obtain ⟨hBack, hParts, hAligned⟩ := hCut hSplit hFront
        rw [hBack] at hRest
        exact hAligned.mpr (hParts.mp hRest)
      · intro h
        have hBoundary : Boundary s n := by
          have hOne := h 1 (by omega)
          rwa [Nat.mul_one] at hOne
        obtain ⟨front, back, hSplit, hFront⟩ := hBoundary
        obtain ⟨hBack, hParts, hAligned⟩ := hCut hSplit hFront
        rw [hBack]
        exact ⟨((valid_cut_iff hLong.le).mpr ⟨front, back, hSplit, hFront⟩).1, hParts.mpr (hAligned.mp h)⟩
    · rw [strSplit_short hShort]
      exact iff_of_true (by simpa using ⟨s, rfl⟩) (aligned_of_short hShort)

/-! ## What is posted -/

structure Post where
  text : List UInt8
  replyTo : Php
  answer : Except Throwable Php

abbrev Answered := Event Op Op.Res Throwable

def postOf : Answered → Option Post
  | ⟨.exe (.sendBytes _ text replyTo), answer⟩ => some ⟨text, replyTo, answer⟩
  | _ => none

def posts (tr : List Answered) : List Post := tr.filterMap postOf

/-- Posts of the parts in order, each in reply to the answer to the one before, until one
raises. `j` is the answer before the first. -/
inductive InOrder : List (List UInt8) → Php → List Post → Prop
  | done (j : Php) : InOrder [] j []
  | raised (part : List UInt8) (rest : List (List UInt8)) (j : Php) (e : Throwable) :
      InOrder (part :: rest) j [⟨part, resultMessageId j, .error e⟩]
  | sent {part : List UInt8} {rest : List (List UInt8)} {j v : Php} {ps : List Post} :
      InOrder rest v ps → InOrder (part :: rest) j (⟨part, resultMessageId j, .ok v⟩ :: ps)

theorem inOrder_of_exec {chatId : Int} {parts : List (List UInt8)} {j : Php} {tr : List Answered}
    {out : Except Throwable Unit} (h : (sendParts chatId parts j).Exec tr out) : InOrder parts j (posts tr) := by
  induction parts generalizing j tr with
  | nil =>
    cases h
    exact .done j
  | cons part rest ih =>
    cases h with
    | @op _ _ r _ _ hRest =>
      cases r with
      | ok v => exact .sent (ih hRest)
      | error e =>
        cases hRest
        exact .raised part rest j e

variable {p : Post}

namespace InOrder

variable {parts : List (List UInt8)} {j : Php} {ps : List Post}

theorem isPrefix (h : InOrder parts j ps) : ps.map (·.text) <+: parts := by
  induction h with
  | done j => exact List.prefix_rfl
  | raised part rest j e => exact ⟨rest, rfl⟩
  | sent _ ih => exact List.prefix_cons_inj _ |>.mpr ih

theorem complete (h : InOrder parts j ps)
    (hRaised : ∀ i p e, ps[i]? = some p → p.answer = .error e → parts.length ≤ i + 1) :
    ps.map (·.text) = parts := by
  induction h with
  | done j => rfl
  | raised part rest j e =>
    have hLength : rest.length + 1 ≤ 0 + 1 := hRaised 0 _ e rfl rfl
    obtain rfl : rest = [] := List.length_eq_zero_iff.mp (by omega)
    rfl
  | sent _ ih =>
    refine congrArg (_ :: ·) (ih fun i p e hAt hError => ?_)
    exact Nat.le_of_succ_le_succ (hRaised (i + 1) p e hAt hError)

theorem length_of_raised (h : InOrder parts j ps) {i : Nat} {e : Throwable} (hAt : ps[i]? = some p)
    (hError : p.answer = .error e) : ps.length = i + 1 := by
  induction h generalizing i with
  | done j => cases hAt
  | raised part rest j e' =>
    cases i with
    | zero => rfl
    | succ i => cases hAt
  | sent _ ih =>
    cases i with
    | zero =>
      cases hAt
      cases hError
    | succ i => exact congrArg (· + 1) (ih hAt)

theorem head_replyTo (h : InOrder parts j ps) (hAt : ps[0]? = some p) : p.replyTo = resultMessageId j := by
  cases h with
  | done => cases hAt
  | raised | sent =>
    cases hAt
    rfl

theorem chained (h : InOrder parts j ps) {i : Nat} {q : Post} {v : Php} (hAt : ps[i]? = some p)
    (hNext : ps[i + 1]? = some q) (hAnswer : p.answer = .ok v) : q.replyTo = resultMessageId v := by
  induction h generalizing i with
  | done j => cases hAt
  | raised part rest j e => cases hNext
  | sent hRest ih =>
    cases i with
    | zero =>
      cases hAt
      cases hAnswer
      exact hRest.head_replyTo hNext
    | succ i => exact ih hAt hNext

end InOrder

/-- What a report in parts should be. -/
structure Survives (text : String) (ps : List Post) : Prop where
  valid : ∀ p ∈ ps, Valid p.text
  short : ∀ p ∈ ps, p.text.length ≤ 4096
  whole : (ps.map (·.text)).flatten = bytes text
  chained : ∀ i p q v, ps[i]? = some p → ps[i + 1]? = some q → p.answer = .ok v →
    (resultMessageId v).isset = true → q.replyTo = resultMessageId v

/-- No post raises while there is text after it. -/
def Uninterrupted (text : String) (ps : List Post) : Prop :=
  ∀ i p e, ps[i]? = some p → p.answer = .error e → (bytes text).length ≤ 4096 * (i + 1)

section Report

variable {text : String} {ps : List Post}

section

variable (h : InOrder (strSplit 4096 (bytes text)) .null ps)

include h

theorem short_of_inOrder (hMem : p ∈ ps) : p.text.length ≤ 4096 :=
  length_of_mem_strSplit (by decide) (h.isPrefix.subset (List.mem_map_of_mem hMem))

theorem uninterrupted_of_whole (hWhole : (ps.map (·.text)).flatten = bytes text) : Uninterrupted text ps := by
  intro i p e hAt hError
  have hBound : ∀ t ∈ ps.map (·.text), t.length ≤ 4096 := by
    intro t ht
    obtain ⟨q, hq, rfl⟩ := List.mem_map.mp ht
    exact short_of_inOrder h hq
  have hSum := List.sum_le_card_nsmul ((ps.map (·.text)).map List.length) 4096 (by simpa using hBound)
  rw [← List.length_flatten, hWhole, List.length_map, List.length_map, h.length_of_raised hAt hError] at hSum
  rw [Nat.mul_comm]
  exact hSum

theorem texts_of_uninterrupted (hRaised : Uninterrupted text ps) : ps.map (·.text) = strSplit 4096 (bytes text) :=
  h.complete fun i p e hAt hError => (length_strSplit_le_iff (by decide) i).mpr (hRaised i p e hAt hError)

theorem survives_iff_of_inOrder : Survives text ps ↔ Aligned 4096 text.toList ∧ Uninterrupted text ps := by
  constructor
  · intro hSurvives
    have hRaised := uninterrupted_of_whole h hSurvives.whole
    refine ⟨(valid_strSplit_iff (by decide) text.toList).mp fun part hPart => ?_, hRaised⟩
    have hMem : part ∈ ps.map (·.text) := (texts_of_uninterrupted h hRaised).symm ▸ hPart
    obtain ⟨p, hp, rfl⟩ := List.mem_map.mp hMem
    exact hSurvives.valid p hp
  · rintro ⟨hAligned, hRaised⟩
    have hTexts := texts_of_uninterrupted h hRaised
    refine ⟨fun p hp => ?_, fun p hp => short_of_inOrder h hp, ?_, ?_⟩
    · exact (valid_strSplit_iff (by decide) text.toList).mpr hAligned p.text
        (hTexts ▸ List.mem_map_of_mem hp : p.text ∈ strSplit 4096 (bytes text))
    · rw [hTexts]
      exact flatten_strSplit _ _
    · exact fun i p q v hAt hNext hAnswer _ => h.chained hAt hNext hAnswer

end

end Report

/-- A report survives its splitting exactly if no character straddles a multiple of 4096
and no post fails before the last. -/
theorem report_survives_iff {chatId : Int} {text : String} {tr : List Answered} {out : Except Throwable Unit}
    (h : (sendErrorLogToTelegram chatId text).Exec tr out) :
    Survives text (posts tr) ↔ Aligned 4096 text.toList ∧ Uninterrupted text (posts tr) :=
  survives_iff_of_inOrder (inOrder_of_exec h)

theorem exists_answered (chatId : Int) (parts : List (List UInt8)) (j : Php) :
    ∃ tr, (sendParts chatId parts j).Exec tr (.ok ()) ∧ ∀ p ∈ posts tr, p.answer = .ok .null := by
  induction parts generalizing j with
  | nil => exact ⟨[], .ret (), by simp [posts]⟩
  | cons part rest ih =>
    obtain ⟨tr, hExec, hAnswers⟩ := ih .null
    refine ⟨⟨.exe (.sendBytes chatId part (resultMessageId j)), .ok .null⟩ :: tr, .op hExec, ?_⟩
    intro p hp
    rcases List.mem_cons.mp hp with rfl | hp
    · rfl
    · exact hAnswers p hp

theorem uninterrupted_of_answered (text : String) {ps : List Post} (h : ∀ p ∈ ps, p.answer = .ok .null) :
    Uninterrupted text ps := by
  intro i p e hAt hError
  rw [h p (List.mem_of_getElem? hAt)] at hError
  cases hError

def straddling (n : Nat) : String := String.ofList (List.replicate n 'a' ++ ['é'])

theorem length_encode_replicate (n : Nat) : (encode (List.replicate n 'a')).length = n := by
  have hByte : String.utf8EncodeChar 'a' = [97] := by decide
  rw [encode, List.flatMap_replicate, hByte]
  simp

theorem length_encode_wide : (encode ['é']).length = 2 := by decide

theorem length_straddling (n : Nat) : (bytes (straddling n)).length = n + 2 := by
  change (encode (straddling n).toList).length = n + 2
  rw [straddling, String.toList_ofList, encode_append, List.length_append, length_encode_replicate, length_encode_wide]

theorem straddling_aligned (hn : 2 ≤ n) : Aligned n (straddling n).toList := by
  rw [straddling, String.toList_ofList, aligned_append_iff (length_encode_replicate n)]
  exact aligned_of_short (length_encode_wide ▸ hn)

theorem report_survives_two_parts : ∃ tr, (sendErrorLogToTelegram 7 (straddling 4096)).Exec tr (.ok ()) ∧
    (posts tr).length = 2 ∧ Survives (straddling 4096) (posts tr) := by
  obtain ⟨tr, hExec, hAnswers⟩ := exists_answered 7 (strSplit 4096 (bytes (straddling 4096))) .null
  have hUninterrupted := uninterrupted_of_answered (straddling 4096) hAnswers
  refine ⟨tr, hExec, ?_, (report_survives_iff hExec).mpr ⟨straddling_aligned (by decide), hUninterrupted⟩⟩
  have hTexts := texts_of_uninterrupted (inOrder_of_exec hExec) hUninterrupted
  have hUpper : (strSplit 4096 (bytes (straddling 4096))).length ≤ 2 := by
    rw [length_strSplit_le_iff (by decide) 1, length_straddling]
    decide
  have hLower : ¬ (strSplit 4096 (bytes (straddling 4096))).length ≤ 1 := by
    rw [length_strSplit_le_iff (by decide) 0, length_straddling]
    decide
  rw [← List.length_map (·.text), hTexts]
  omega

theorem straddling_not_aligned (n : Nat) : ¬ Aligned (n + 1) (straddling n).toList := by
  intro h
  rw [straddling, String.toList_ofList] at h
  have hBoundary := h 1 (by rw [encode_append, List.length_append, length_encode_replicate, length_encode_wide]; omega)
  rw [Nat.mul_one] at hBoundary
  -- one byte into the last character
  obtain ⟨front, back, hSplit, hLength⟩ : Boundary ['é'] 1 := by
    refine boundary_append_iff.mp (?_ : Boundary (List.replicate n 'a' ++ ['é']) (_ + 1))
    rwa [length_encode_replicate]
  cases front with
  | nil => cases hLength
  | cons c front =>
    obtain ⟨rfl, hRest⟩ := List.cons.inj hSplit
    obtain ⟨rfl, _⟩ := List.append_eq_nil_iff.mp hRest.symm
    rw [length_encode_wide] at hLength
    cases hLength

/-- All posts are answered, but one of them begins or ends inside a character. -/
theorem report_torn : ∃ tr, (sendErrorLogToTelegram 7 (straddling 4095)).Exec tr (.ok ()) ∧
    ∃ p ∈ posts tr, ¬ Valid p.text := by
  obtain ⟨tr, hExec, hAnswers⟩ := exists_answered 7 (strSplit 4096 (bytes (straddling 4095))) .null
  refine ⟨tr, hExec, ?_⟩
  by_contra hNone
  have hValid : ∀ p ∈ posts tr, Valid p.text := fun p hp => by_contra fun hTorn => hNone ⟨p, hp, hTorn⟩
  have hTexts := texts_of_uninterrupted (inOrder_of_exec hExec) (uninterrupted_of_answered _ hAnswers)
  refine straddling_not_aligned 4095 ((valid_strSplit_iff (by decide) _).mp fun part hPart => ?_)
  obtain ⟨p, hp, rfl⟩ := List.mem_map.mp (hTexts.symm ▸ hPart : part ∈ (posts tr).map (·.text))
  exact hValid p hp

end TeaBot.Loggers.Reports
