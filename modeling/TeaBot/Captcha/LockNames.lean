import Mathlib.Tactic.Positivity
import TeaBot.Captcha.Foundation
import TeaBot.Foundation.Numeral
import TeaBot.Foundation.Utf8

/-! # The names of the fast locks

The chat and the user of a captcha are written one after the other, and nothing marks where
the second numeral begins.
-/

namespace TeaBot.Captcha.LockNames

open Foundation Foundation.Numeral Responder

/-! ## Hexadecimal -/

theorem hexByte_injective {a b : UInt8} (h : hexByte a = hexByte b) : a = b := by
  have hDigit : ∀ m < 16, ∀ n < 16, hexDigit m = hexDigit n → m = n := by decide
  have ha := a.toNat_lt
  have hb := b.toNat_lt
  simp only [hexByte, List.cons.injEq, and_true] at h
  have hHigh := hDigit _ (by omega) _ (by omega) h.1
  have hLow := hDigit _ (by omega) _ (by omega) h.2
  exact UInt8.toNat_inj.mp (by omega)

theorem flatMap_hexByte_injective {s t : List UInt8} (h : s.flatMap hexByte = t.flatMap hexByte) : s = t := by
  induction s generalizing t with
  | nil =>
    cases t with
    | nil => rfl
    | cons b t => cases h
  | cons a s ih =>
    cases t with
    | nil => cases h
    | cons b t =>
      rw [List.flatMap_cons, List.flatMap_cons] at h
      obtain ⟨hByte, hRest⟩ := List.append_inj h rfl
      rw [hexByte_injective hByte, ih hRest]

theorem bin2hex_injective {s t : String} (h : bin2hex s = bin2hex t) : s = t := by
  have hHex : ∀ s : String, (bin2hex s).toList = (Utf8.encode s.toList).flatMap hexByte := by
    intro s
    rw [bin2hex, String.toList_ofList, Utf8.encode, List.flatMap_assoc]
  have hList := congrArg String.toList h
  rw [hHex, hHex] at hList
  exact String.toList_inj.mp (Utf8.encode_injective (flatMap_hexByte_injective hList))

/-! ## Two numerals without a separator -/

/-- The digits of `r` are the end of one chat id and the beginning of the other user id. -/
def Shifted (chat user chat' user' : Int) : Prop :=
  ∃ r : Nat, 0 < r ∧ chat ≠ 0 ∧ chat' = chat * 10 ^ width r + chat.sign * r ∧
    user = r * 10 ^ width user'.natAbs + user'

theorem shifted_iff {chat user chat' user' : Int} (hUser : 0 < user) (hUser' : 0 < user') :
    Shifted chat user chat' user' ↔
      ∃ s, s ≠ [] ∧ numeral chat' = numeral chat ++ s ∧ numeral user = s ++ numeral user' := by
  have hPositive : numeral user' = digits user'.natAbs := numeral_of_nonneg hUser'.le
  have hSum : ∀ {r : Nat}, 0 < r →
      (numeral user = digits r ++ numeral user' ↔ user = r * 10 ^ width user'.natAbs + user') := by
    intro r hr
    have hValue : ((r * 10 ^ width user'.natAbs + user'.natAbs : Nat) : Int) =
        r * 10 ^ width user'.natAbs + user' := by
      push_cast
      rw [abs_of_pos hUser']
    have hDigits : numeral (r * 10 ^ width user'.natAbs + user') = digits r ++ numeral user' := by
      rw [← hValue, numeral_of_nonneg (Int.natCast_nonneg _), hPositive, digits_append hr, Int.natAbs_natCast]
    rw [← hDigits]
    exact ⟨numeral_injective, congrArg numeral⟩
  constructor
  · rintro ⟨r, hr, hChat, hChat', hUserEq⟩
    refine ⟨digits r, Nat.toDigits_ne_nil, ?_, (hSum hr).mpr hUserEq⟩
    exact (numeral_append_eq_iff.mpr ⟨hChat, hChat'⟩).symm
  · rintro ⟨s, hs, hChat', hUserEq⟩
    rw [numeral_of_nonneg hUser.le] at hUserEq
    obtain ⟨r, hr, rfl⟩ := digits_front (Int.natAbs_pos.mpr hUser.ne') hs hUserEq
    rw [← numeral_of_nonneg hUser.le] at hUserEq
    obtain ⟨hChat, hSame⟩ := numeral_append_eq_iff.mp hChat'.symm
    exact ⟨r, hr, hChat, hSame, (hSum hr).mp hUserEq⟩

theorem numerals_eq_iff {chat user chat' user' : Int} (hUser : 0 < user) (hUser' : 0 < user') :
    numeral chat ++ numeral user = numeral chat' ++ numeral user' ↔
      (chat = chat' ∧ user = user') ∨ Shifted chat user chat' user' ∨ Shifted chat' user' chat user := by
  rw [shifted_iff hUser hUser', shifted_iff hUser' hUser]
  constructor
  · intro h
    rcases List.append_eq_append_iff.mp h with ⟨s, hChat, hUserEq⟩ | ⟨s, hChat, hUserEq⟩
    · by_cases hs : s = []
      · subst hs
        rw [List.append_nil] at hChat
        exact .inl ⟨(numeral_injective hChat).symm, numeral_injective hUserEq⟩
      · exact .inr (.inl ⟨s, hs, hChat, hUserEq⟩)
    · by_cases hs : s = []
      · subst hs
        rw [List.append_nil] at hChat
        exact .inl ⟨numeral_injective hChat, (numeral_injective hUserEq).symm⟩
      · exact .inr (.inr ⟨s, hs, hChat, hUserEq⟩)
  · rintro (⟨rfl, rfl⟩ | ⟨s, _, hChat, hUserEq⟩ | ⟨s, _, hChat, hUserEq⟩)
    · rfl
    · rw [hChat, hUserEq, List.append_assoc]
    · rw [hChat, hUserEq, List.append_assoc]

section Names

variable {d d' : Data} {chat user chat' user' : Int}

theorem fastLockFile_eq_iff (hChat : d.chatId = .int chat) (hUser : d.userId = .int user)
    (hChat' : d'.chatId = .int chat') (hUser' : d'.userId = .int user') :
    fastLockFile d = fastLockFile d' ↔ numeral chat ++ numeral user = numeral chat' ++ numeral user' := by
  have hText : ∀ c u : Int, ((Php.int c).toStr ++ (Php.int u).toStr).toList = numeral c ++ numeral u := by
    intro c u
    rw [String.toList_append]
    exact congrArg₂ _ (toList_int c) (toList_int u)
  rw [fastLockFile, fastLockFile, Path.fastLockFile.injEq, hChat, hUser, hChat', hUser', ← hText, ← hText,
    String.toList_inj]
  exact ⟨bin2hex_injective, congrArg bin2hex⟩

/-- The name of a fast lock tells two pairs apart unless one comes from the other by moving
the first digits of the user id to the end of the chat id. -/
theorem fastLockFile_unique_iff (hChat : d.chatId = .int chat) (hUser : d.userId = .int user)
    (hChat' : d'.chatId = .int chat') (hUser' : d'.userId = .int user') (hPos : 0 < user) (hPos' : 0 < user') :
    (fastLockFile d = fastLockFile d' → chat = chat' ∧ user = user') ↔
      ¬ Shifted chat user chat' user' ∧ ¬ Shifted chat' user' chat user := by
  rw [fastLockFile_eq_iff hChat hUser hChat' hUser', numerals_eq_iff hPos hPos']
  have hApart : ∀ {c u c' u' : Int}, Shifted c u c' u' → 0 < u' → u ≠ u' := by
    rintro c u c' u' ⟨r, hr, _, _, hSum⟩ hu' rfl
    have hProd : 0 < (r : Int) * 10 ^ width u.natAbs := by positivity
    omega
  constructor
  · intro hOnly
    refine ⟨fun h => ?_, fun h => ?_⟩
    · exact hApart h hPos' (hOnly (.inr (.inl h))).2
    · exact hApart h hPos (hOnly (.inr (.inr h))).2.symm
  · rintro ⟨hNot, hNot'⟩ (hSame | h | h)
    · exact hSame
    · exact absurd h hNot
    · exact absurd h hNot'

end Names

def memberOf (chat user : Int) : Data := { chatId := .int chat, userId := .int user }

theorem fastLockFile_unique_members :
    (fastLockFile (memberOf (-100) 7) = fastLockFile (memberOf (-200) 8) → (-100 : Int) = -200 ∧ (7 : Int) = 8) ↔
      ¬ Shifted (-100) 7 (-200) 8 ∧ ¬ Shifted (-200) 8 (-100) 7 :=
  fastLockFile_unique_iff rfl rfl rfl rfl (by decide) (by decide)

/-- Both names are the hexadecimal form of `-123`, so user 3 of the other chat waits for and
unlinks the lock of user 23. -/
theorem fastLockFile_shared :
    fastLockFile (memberOf (-1) 23) = fastLockFile (memberOf (-12) 3) ∧
      fastLock (memberOf (-1) 23) = fastLock (memberOf (-12) 3) ∧
      fastUnlock (memberOf (-1) 23) = fastUnlock (memberOf (-12) 3) ∧
      ¬ ((-1 : Int) = -12 ∧ (23 : Int) = 3) := by
  have hSame : fastLockFile (memberOf (-1) 23) = fastLockFile (memberOf (-12) 3) :=
    (fastLockFile_eq_iff rfl rfl rfl rfl).mpr (by decide)
  refine ⟨hSame, ?_, ?_, by decide⟩
  · rw [fastLock, fastLock, hSame]
  · rw [fastUnlock, fastUnlock, hSame]

end TeaBot.Captcha.LockNames
