import Mathlib.Data.List.TakeWhile
import TeaBot.Captcha.CriticalSection
import TeaBot.Captcha.FolderRuns
import TeaBot.Foundation.Scan

/-! # The answer that is asked for

The challenge asks for the mantissa in hexadecimal, and `info.json` keeps it in decimal.
An answer is trimmed and lower-cased and then compared with what is kept.
-/

namespace TeaBot.Captcha.Answers

open Foundation Responder CriticalSection

/-! ## Numerals in two bases -/

variable {c : Char} {m b : Nat}

theorem mem_toDigits (hb : 1 < b) (h : c ∈ Nat.toDigits b m) : ∃ k < b, c = Nat.digitChar k := by
  induction m using Nat.strongRecOn with
  | _ m ih =>
    rcases Nat.lt_or_ge m b with hLt | hLe
    · rw [Nat.toDigits_of_lt_base hLt, List.mem_singleton] at h
      exact ⟨m, hLt, h⟩
    · rw [Nat.toDigits_of_base_le hb hLe, List.mem_append, List.mem_singleton] at h
      rcases h with hFront | rfl
      · exact ih (m / b) (Nat.div_lt_self (by omega) hb) hFront
      · exact ⟨m % b, Nat.mod_lt m (by omega), rfl⟩

variable {a : Nat}

theorem digitChar_injective (ha : a < 16) (hb : b < 16) (h : Nat.digitChar a = Nat.digitChar b) : a = b := by
  have hAll : ∀ a < 16, ∀ b < 16, Nat.digitChar a = Nat.digitChar b → a = b := by decide
  exact hAll a ha b hb h

theorem toDigits_front (hb : 10 ≤ b) (h : Nat.toDigits 16 a = Nat.toDigits 10 b) :
    16 ≤ a ∧ Nat.toDigits 16 (a / 16) = Nat.toDigits 10 (b / 10) ∧ a % 16 = b % 10 := by
  rw [Nat.toDigits_of_base_le (by omega) hb] at h
  rcases Nat.lt_or_ge a 16 with ha | ha
  · rw [Nat.toDigits_of_lt_base ha, ← List.nil_append [Nat.digitChar a]] at h
    exact absurd (List.append_inj' h rfl).1.symm Nat.toDigits_ne_nil
  · rw [Nat.toDigits_of_base_le (by omega) ha] at h
    obtain ⟨hFront, hLast⟩ := List.append_inj' h rfl
    exact ⟨ha, hFront, digitChar_injective (by omega) (by omega) (List.singleton_inj.mp hLast)⟩

theorem le_of_toDigits_eq (h : Nat.toDigits 16 a = Nat.toDigits 10 b) : b ≤ a := by
  induction a using Nat.strongRecOn generalizing b with
  | _ a ih =>
    rcases Nat.lt_or_ge b 10 with hb | hb
    · rcases Nat.lt_or_ge a 16 with ha | ha
      · rw [Nat.toDigits_of_lt_base ha, Nat.toDigits_of_lt_base hb, List.singleton_inj] at h
        exact (digitChar_injective ha (by omega) h).ge
      · omega
    · obtain ⟨ha, hFront, hLast⟩ := toDigits_front hb h
      have hLe := ih (a / 16) (by omega) hFront
      omega

theorem toDigits_eq_iff (m : Nat) : Nat.toDigits 16 m = Nat.toDigits 10 m ↔ m < 10 := by
  constructor
  · intro h
    by_contra hm
    obtain ⟨hLe, hFront, hLast⟩ := toDigits_front (by omega) h
    have hLe := le_of_toDigits_eq hFront
    omega
  · intro hm
    rw [Nat.toDigits_of_lt_base (by omega), Nat.toDigits_of_lt_base hm]

/-! ## What is left of an answer -/

/-- White space, whether or not `trim` strips it. -/
def isBlank (c : Char) : Bool := isSpace c || isTrimmed c

theorem isBlank_cases (h : isBlank c = true) : c ∈ [' ', '\t', '\n', '\r', '\x0b', '\x0c', '\x00'] := by
  simp only [isBlank, isSpace, isTrimmed, Bool.or_eq_true, decide_eq_true_eq, List.mem_cons, List.not_mem_nil,
    or_false] at h ⊢
  tauto

theorem isBlank_eq_false (hb : 1 < b) (hb' : b ≤ 16) {s : List Char} (hs : strtolower s = Nat.toDigits b m)
    (hc : c ∈ s) :
    isBlank c = false := by
  have hDigits : ([' ', '\t', '\n', '\r', '\x0b', '\x0c', '\x00'].all fun c =>
      (List.range 16).all fun k => c.toLower != Nat.digitChar k) = true := by
    decide
  have hLower : c.toLower ∈ strtolower s := List.mem_map_of_mem hc
  obtain ⟨k, hk, hDigit⟩ := mem_toDigits hb (hs ▸ hLower)
  by_contra hBlank
  have hRow := List.all_eq_true.mp hDigits c (isBlank_cases (Bool.of_not_eq_false hBlank))
  exact bne_iff_ne.mp (List.all_eq_true.mp hRow k (List.mem_range.mpr (by omega))) hDigit

theorem trim_append {before numeral rest : List Char} (hNe : numeral ≠ [])
    (hDigits : ∀ c ∈ numeral, isTrimmed c = false) :
    trim (before ++ numeral ++ rest) =
      before.dropWhile isTrimmed ++ numeral ++ (rest.reverse.dropWhile isTrimmed).reverse := by
  have hReverse : ∀ c ∈ numeral.reverse, isTrimmed c = false := fun c hc => hDigits c (List.mem_reverse.mp hc)
  rw [trim, Text.dropWhile_append_stop hNe hDigits, List.reverse_append, List.reverse_append, ← List.append_assoc,
    Text.dropWhile_append_stop (by simpa using hNe) hReverse]
  simp

theorem answer_eq_iff {before numeral rest : List Char} (hNumeral : strtolower numeral = Nat.toDigits 16 m)
    (hBefore : ∀ c ∈ before, isBlank c = true) (hRest : ∀ c ∈ rest, isBlank c = true) :
    strtolower (trim (before ++ numeral ++ rest)) = Nat.toDigits 10 m ↔
      m < 10 ∧ ∀ c ∈ before ++ rest, isTrimmed c = true := by
  have hNe : numeral ≠ [] := by
    rintro rfl
    exact Nat.toDigits_ne_nil hNumeral.symm
  have hDigits : ∀ c ∈ numeral, isTrimmed c = false := by
    intro c hc
    exact (Bool.or_eq_false_iff.mp (isBlank_eq_false (by omega) le_rfl hNumeral hc)).2
  -- white space that is left over is in no numeral
  have hLeft : strtolower (trim (before ++ numeral ++ rest)) = Nat.toDigits 10 m →
      before.dropWhile isTrimmed = [] ∧ rest.reverse.dropWhile isTrimmed = [] := by
    intro hEq
    rw [trim_append hNe hDigits] at hEq
    constructor
    · refine List.eq_nil_iff_forall_not_mem.mpr fun c hc => ?_
      have hFalse : isBlank c = false := isBlank_eq_false (by omega) (by omega) hEq (by simp [hc])
      rw [hBefore c ((List.dropWhile_sublist _).subset hc)] at hFalse
      cases hFalse
    · refine List.eq_nil_iff_forall_not_mem.mpr fun c hc => ?_
      have hFalse : isBlank c = false := isBlank_eq_false (by omega) (by omega) hEq (by simp [hc])
      rw [hRest c (List.mem_reverse.mp ((List.dropWhile_sublist _).subset hc))] at hFalse
      cases hFalse
  have hAll : (∀ c ∈ before ++ rest, isTrimmed c = true) ↔
      before.dropWhile isTrimmed = [] ∧ rest.reverse.dropWhile isTrimmed = [] := by
    simp only [List.dropWhile_eq_nil_iff, List.mem_append, List.mem_reverse, or_imp, forall_and]
  rw [hAll, ← toDigits_eq_iff]
  constructor
  · intro hEq
    obtain ⟨hPre, hPost⟩ := hLeft hEq
    rw [trim_append hNe hDigits, hPre, hPost, List.reverse_nil, List.nil_append, List.append_nil, hNumeral] at hEq
    exact ⟨hEq, hPre, hPost⟩
  · rintro ⟨hEq, hPre, hPost⟩
    rw [trim_append hNe hDigits, hPre, hPost, List.reverse_nil, List.nil_append, List.append_nil, hNumeral, hEq]

/-! ## The branches of `checkAnswer` -/

section Runs

variable {E : Environment} {d : Data} {json : Php} {f f' : Folder} {out : Except Throwable Unit}

def leavesInfo : Op → Bool
  | .exe .. | .sleep _ | .touchMsg .. => true
  | _ => false

theorem info_of_leavesInfo {p : Run Unit} (hUses : p.Uses fun o => leavesInfo o = true) (h : FolderRun E d p f out f') :
    f'.info = f.info := by
  refine Prog.Runs.invariant hUses (I := fun f' => f'.info = f.info) (fun o r f₁ f₂ hLeaves hStep hInfo => ?_) h rfl
  obtain ⟨_, _, rfl⟩ := hStep
  cases o with
  | exe | sleep => exact hInfo
  | touchMsg dir name =>
    simp only [Folder.after, Folder.effect, Folder.touched]
    split
    · split <;> exact hInfo
    · exact hInfo
  | _ => cases hLeaves

theorem accept_info (h : FolderRun E d (accept d json) f out f') : f'.info = none := by
  obtain ⟨_, _, h⟩ := sure_then rfl h
  have hGone : (f.after (captchaStDir d) (.unlink (captchaFile d)) (.ok ())).info = none := by
    simp [Folder.after, Folder.effect, captchaFile]
  generalize f.after (captchaStDir d) (.unlink (captchaFile d)) (.ok ()) = f₀ at h hGone
  obtain ⟨_, _, rfl, _⟩ | ⟨user, h⟩ := mention_then h
  · exact hGone
  obtain ⟨_, _, rfl, _⟩ | ⟨ret, _, h⟩ := exe_then h
  · exact hGone
  obtain ⟨_, _, hClean⟩ | ⟨_, f₁, hClean, h⟩ := h.bind_cases
  · cases (cleanUpMessages_run hClean).1
  refine (info_of_leavesInfo ?_ h).trans ((cleanUpMessages_run hClean).2.info.trans hGone)
  refine .bind (.perform rfl) fun _ => .bind (.when ?_) fun _ => .bind (.perform rfl) fun _ => trivial
  exact .bind (.perform rfl) fun _ => .bind (.perform rfl) fun _ => trivial

end Runs

theorem checkAnswer_info {E : Environment} {d : Data} {json : Php} {f f' : Folder} {out : Except Throwable Unit}
    (hInfo : f.info = some json) (hArray : json.isArray = true) (h : FolderRun E d (checkAnswer d) f out f') :
    f'.info = none ↔ Solved d json := by
  have h := checkAnswer_run h
  rw [hInfo, Option.getD_some, hArray] at h
  by_cases hAnswer : json.read "correct_answer" = .str (answerText d)
  · simp only [Prog.when, if_pos hAnswer, if_true] at h
    exact iff_of_true (accept_info h) ⟨hArray, hAnswer⟩
  · simp only [Prog.when, if_neg hAnswer, if_true] at h
    refine iff_of_false (fun hNone => ?_) fun hSolved => hAnswer hSolved.2
    rw [info_of_leavesInfo (refuse_uses rfl fun _ => rfl) h, hInfo] at hNone
    cases hNone

/-- The hexadecimal numeral of the mantissa, in any letter case and with white space around
it, is accepted exactly if it has one decimal digit and `trim` strips that white space. -/
theorem hexadecimal_accepted_iff {m t : Nat} {before numeral rest : List Char} {d d₀ : Data} {msgId : Php}
    {photo : Option String} {w w' : World} {out : Except Throwable Unit}
    (hNumeral : strtolower numeral = Nat.toDigits 16 m) (hBefore : ∀ c ∈ before, isBlank c = true)
    (hRest : ∀ c ∈ rest, isBlank c = true) (hText : d.text = .str (String.ofList (before ++ numeral ++ rest)))
    (hBound : Allocated (captchaFile d) w)
    (hInfo : w.json (captchaFile d) = captchaInfo d₀ msgId photo (toString (m : Int)))
    (hRun : Completes anything t (.checkAnswer d) w out w') :
    w'.files (captchaFile d) = none ↔ m < 10 ∧ ∀ c ∈ before ++ rest, isTrimmed c = true := by
  have hUses : (code (.checkAnswer d)).Uses (Footprint d) := .tryFinally checkAnswer_footprint (.perform trivial)
  obtain ⟨hFolder, _⟩ := hRun.folder hUses hBound
  have hThere := info_of_json hInfo rfl
  have hText : answerText d = String.ofList (strtolower (trim (before ++ numeral ++ rest))) := by
    simp [answerText, hText, Php.toStr]
  have hSolved : Solved d (captchaInfo d₀ msgId photo (toString (m : Int))) ↔
      strtolower (trim (before ++ numeral ++ rest)) = Nat.toDigits 10 m := by
    have hKept : toString (m : Int) = String.ofList (Nat.toDigits 10 m) := Nat.toString_eq_ofList_toDigits
    have hRead : (captchaInfo d₀ msgId photo (toString (m : Int))).read "correct_answer" = .str (toString (m : Int)) := rfl
    rw [Solved, hRead, hText, hKept, Php.str.injEq, String.ofList_inj]
    exact (and_iff_right rfl).trans eq_comm
  have hGone := checkAnswer_info hThere rfl (withObject_run hFolder)
  rw [hSolved, answer_eq_iff hNumeral hBefore hRest] at hGone
  exact Option.map_eq_none_iff.symm.trans hGone

/-! ## Two challenges -/

def issued (correctAnswer : String) : World :=
  { World.initial with
    dirs := fun _ => true
    files := fun p => if p = captchaFile (answerFrom "") then some 0 else none
    content := fun _ => captchaInfo (answerFrom "") (.int 3) none correctAnswer
    inodes := 1 }

theorem issued_allocated (correctAnswer : String) (p : Path) : Allocated p (issued correctAnswer) := by
  intro i hi
  simp only [issued] at hi
  split at hi
  · cases hi
    exact Nat.one_pos
  · cases hi

def accepting : List Choice :=
  List.replicate 6 ⟨0, .ok⟩ ++ ⟨0, .answer .null⟩ :: List.replicate 6 ⟨0, .ok⟩ ++
    [⟨0, .answer .null⟩, ⟨0, .answer .null⟩] ++ List.replicate 4 ⟨0, .ok⟩

def refusing : List Choice :=
  List.replicate 5 ⟨0, .ok⟩ ++ ⟨0, .answer .null⟩ :: List.replicate 5 ⟨0, .ok⟩

theorem one_digit_accepted : ∃ t out w', Completes anything t (.checkAnswer (answerFrom " 5\n")) (issued "5") out w' ∧
    w'.files (captchaFile (answerFrom " 5\n")) = none := by
  have hRun : (replayed anything [(.checkAnswer (answerFrom " 5\n"), accepting)] (issued "5")).any (fun _ => true) = true := by
    decide +kernel
  obtain ⟨_, w', ⟨t, out, _, _, hCall, ⟨_, rfl⟩, _⟩, _⟩ := exists_inTurn hRun
  have hNumeral : strtolower ['5'] = Nat.toDigits 16 5 := by decide
  have hBefore : ∀ c ∈ [' '], isBlank c = true := by simp [isBlank, isSpace]
  have hRest : ∀ c ∈ ['\n'], isBlank c = true := by simp [isBlank, isSpace]
  have hInfo : (issued "5").json (captchaFile (answerFrom " 5\n")) =
      captchaInfo (answerFrom "") (.int 3) none (toString ((5 : Nat) : Int)) := rfl
  have hIff := hexadecimal_accepted_iff hNumeral hBefore hRest rfl (issued_allocated _ _) hInfo hCall
  exact ⟨t, out, _, hCall, hIff.mpr (by simp [isTrimmed])⟩

/-- The mantissa is ten, and the answer "A" is refused. -/
theorem hexadecimal_refused : ∃ t out w', Completes anything t (.checkAnswer (answerFrom "A"))
    (issued (toString (10 : Int))) out w' ∧ (w'.files (captchaFile (answerFrom "A"))).isSome = true := by
  have hRun : (replayed anything [(.checkAnswer (answerFrom "A"), refusing)] (issued (toString (10 : Int)))).any (fun x =>
      (x.2.files (captchaFile (answerFrom "A"))).isSome) = true := by
    decide +kernel
  obtain ⟨_, w', ⟨t, out, _, _, hCall, ⟨_, rfl⟩, _⟩, hFile⟩ := exists_inTurn hRun
  exact ⟨t, out, _, hCall, hFile⟩

end TeaBot.Captcha.Answers
