import TeaBot.Foundation.Scan
import TeaBot.Config.DoubleQuoted

/-! # `ConfigBuilder::strEscape`

The three replacements run one after the other: the backslash put before a dollar is doubled
by the next one, and then no longer escapes it.
-/

namespace TeaBot.Config

open Foundation.Text

def strEscape (str : Bytes) : Bytes :=
  replaceEach
    [([dollar], [backslash, dollar]), ([backslash], [backslash, backslash]), ([quote], [backslash, quote])] str

def escaped (c : UInt8) : Bytes :=
  if c = dollar then [backslash, backslash, dollar]
  else if c = backslash then [backslash, backslash]
  else if c = quote then [backslash, quote]
  else [c]

theorem strEscape_eq (s : Bytes) : strEscape s = s.flatMap escaped := by
  simp only [strEscape, replaceEach, List.foldl_cons, List.foldl_nil, replace_singleton, List.flatMap_assoc]
  congr 1
  funext c
  by_cases hDollar : c = dollar
  · rw [hDollar]
    decide
  · by_cases hBackslash : c = backslash
    · rw [hBackslash]
      decide
    · simp [escaped, hDollar, hBackslash]

theorem escaped_cases (c : UInt8) :
    (c = dollar ∧ escaped c = [backslash, backslash, dollar]) ∨ (c = backslash ∧ escaped c = [backslash, backslash]) ∨
      (c = quote ∧ escaped c = [backslash, quote]) ∨
        (c ≠ dollar ∧ c ≠ backslash ∧ c ≠ quote ∧ escaped c = [c]) := by
  by_cases hDollar : c = dollar
  · exact .inl ⟨hDollar, by rw [hDollar]; rfl⟩
  · by_cases hBackslash : c = backslash
    · exact .inr (.inl ⟨hBackslash, by rw [hBackslash]; rfl⟩)
    · by_cases hQuote : c = quote
      · exact .inr (.inr (.inl ⟨hQuote, by rw [hQuote]; rfl⟩))
      · exact .inr (.inr (.inr ⟨hDollar, hBackslash, hQuote, by simp [escaped, hDollar, hBackslash, hQuote]⟩))

/-- No string ends its token early. -/
theorem closing_strEscape (s rest : Bytes) : closing false (strEscape s ++ quote :: rest) = some (strEscape s, rest) := by
  rw [strEscape_eq]
  induction s with
  | nil => rfl
  | cons c s ih =>
    rw [List.flatMap_cons, List.append_assoc]
    obtain ⟨_, hEscaped⟩ | ⟨_, hEscaped⟩ | ⟨_, hEscaped⟩ | ⟨_, hBackslash, hQuote, hEscaped⟩ := escaped_cases c
    · rw [hEscaped, List.cons_append, List.cons_append, closing_escape, List.singleton_append,
        closing_plain (by decide) (by decide), ih]
      rfl
    · rw [hEscaped, List.cons_append, List.singleton_append, closing_escape, ih]
      rfl
    · rw [hEscaped, List.cons_append, List.singleton_append, closing_escape, ih]
      rfl
    · rw [hEscaped, List.singleton_append, closing_plain hQuote hBackslash, ih]
      rfl

theorem head_escaped (s : Bytes) : (s.flatMap escaped).head? ≠ some dollar := by
  cases s with
  | nil => nofun
  | cons c s =>
    rw [List.flatMap_cons]
    obtain ⟨_, hEscaped⟩ | ⟨_, hEscaped⟩ | ⟨_, hEscaped⟩ | ⟨hDollar, _, _, hEscaped⟩ := escaped_cases c <;>
      rw [hEscaped]
    on_goal 4 => exact fun h => hDollar (Option.some.inj h)
    all_goals exact fun h => absurd (Option.some.inj h) (by decide)

variable {s : Bytes}

theorem interpolates_strEscape (hs : dollar ∉ s) : interpolates false (strEscape s) = false := by
  rw [strEscape_eq]
  induction s with
  | nil => rfl
  | cons c s ih =>
    obtain ⟨hc, hs⟩ := not_or.mp fun h => hs (List.mem_cons.mpr h)
    rw [List.flatMap_cons]
    obtain ⟨hDollar, _⟩ | ⟨_, hEscaped⟩ | ⟨_, hEscaped⟩ | ⟨hDollar, hBackslash, _, hEscaped⟩ := escaped_cases c
    · exact absurd hDollar.symm hc
    · rw [hEscaped, List.cons_append, List.singleton_append, interpolates_escape, ih hs]
    · rw [hEscaped, List.cons_append, List.singleton_append, interpolates_escape, ih hs]
    · have hOpens : opens c (s.flatMap escaped) = false := by simp [opens, hDollar, head_escaped s]
      rw [hEscaped, List.singleton_append, interpolates_plain hBackslash hOpens, ih hs]

/-- A dollar comes back with a backslash before it. -/
def reread (c : UInt8) : Bytes := if c = dollar then [backslash, dollar] else [c]

theorem unescape_strEscape (s : Bytes) : unescape 0 (strEscape s) = .ok (s.flatMap reread) := by
  rw [strEscape_eq]
  induction s with
  | nil => rfl
  | cons c s ih =>
    rw [List.flatMap_cons, List.flatMap_cons]
    obtain ⟨rfl, hEscaped⟩ | ⟨rfl, hEscaped⟩ | ⟨rfl, hEscaped⟩ | ⟨hDollar, hBackslash, _, hEscaped⟩ := escaped_cases c
    · rw [hEscaped, List.cons_append, List.cons_append, unescape_escape (.inr (.inl rfl)), List.singleton_append,
        unescape_plain (by decide), ih]
      rfl
    · rw [hEscaped, List.cons_append, List.singleton_append, unescape_escape (.inr (.inl rfl)), ih]
      rfl
    · rw [hEscaped, List.cons_append, List.singleton_append, unescape_escape (.inl rfl), ih]
      rfl
    · rw [hEscaped, List.singleton_append, unescape_plain hBackslash, ih, reread, if_neg hDollar]
      rfl

theorem length_reread (s : Bytes) : (s.flatMap reread).length = s.length + s.count dollar := by
  induction s with
  | nil => rfl
  | cons c s ih =>
    rw [List.flatMap_cons, List.length_append, ih, List.length_cons, List.count_cons, reread]
    by_cases hc : c = dollar
    · simp [hc]
      omega
    · simp [hc]
      omega

theorem flatMap_reread (hs : dollar ∉ s) : s.flatMap reread = s := by
  have hId : ∀ c ∈ s, reread c = [c] := by
    intro c hc
    refine if_neg ?_
    rintro rfl
    exact hs hc
  rw [List.flatMap_congr hId]
  simp

def literal (s : Bytes) : Bytes := quote :: (strEscape s ++ [quote])

theorem evaluate_literal (s : Bytes) :
    evaluate (literal s) =
      if interpolates false (strEscape s) then .error .interpolation else .ok (s.flatMap reread) := by
  rw [← unescape_strEscape, literal, evaluate, if_pos rfl, closing_strEscape]

theorem evaluate_literal_eq (hs : dollar ∉ s) : evaluate (literal s) = .ok s := by
  rw [evaluate_literal, interpolates_strEscape hs, if_neg Bool.false_ne_true, flatMap_reread hs]

theorem dollar_notMem_of_evaluate (hValue : evaluate (literal s) = .ok s) : dollar ∉ s := by
  intro hDollar
  rw [evaluate_literal] at hValue
  split at hValue
  · cases hValue
  · have hLength := congrArg List.length (Except.ok.inj hValue)
    rw [length_reread] at hLength
    have hCount := List.count_pos_iff.mpr hDollar
    omega

theorem evaluate_literal_iff (s : Bytes) : evaluate (literal s) = .ok s ↔ dollar ∉ s :=
  ⟨dollar_notMem_of_evaluate, evaluate_literal_eq⟩

/-- A dollar before a name begins a variable, any other keeps the backslash. -/
theorem dollar_not_evaluated : evaluate (literal (ascii "$pass")) = .error .interpolation ∧
    evaluate (literal (ascii "5$")) = .ok (ascii "5\\$") := by
  decide +kernel

end TeaBot.Config
