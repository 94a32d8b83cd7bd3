import TeaBot.DebugFlag.Markers

/-! # The comments that stand for blocks -/

namespace TeaBot.DebugFlag

open Foundation.Text

def opening : Bytes := ascii "/*__debug_code("

def packed (C : Codec) (body : Bytes) : Bytes := C.base64Encode (C.gzencode body)

theorem unpack (C : Codec) (body : Bytes) : (C.gzdecode (C.base64Decode (packed C body))).getD [] = body := by
  rw [packed, C.base64Decode_encode, C.gzdecode_gzencode, Option.getD_some]

def parts (C : Codec) (tag body : Bytes) : List Bytes :=
  [opening, tag, ascii "):b64:gz:", packed C body, ascii "*/"]

theorem comment_eq (C : Codec) (tag body z : Bytes) :
    comment C tag body ++ z = opening ++ (tag ++ (ascii "):b64:gz:" ++ (packed C body ++ (ascii "*/" ++ z)))) := by
  simp [comment, opening, packed]

theorem comment_ne_nil (C : Codec) (tag body : Bytes) : comment C tag body ≠ [] := by
  simp [comment, ascii]

section Match

variable {C : Codec} (code : Option Bytes) {tag body : Bytes}

theorem first_comment (hTag : IsWord tag) (hApplies : applies code tag = true) (z : Bytes) :
    First (onPattern code).atoms (comment C tag body ++ z) (parts C tag body) z := by
  rw [comment_eq, onPattern, parts]
  refine first_word "/*__debug_code(" (first_code hTag hApplies (head_ascii (by decide)) (first_word "):b64:gz:" ?_))
  refine First.any (fun s hs hSuffix hHits => ?_) (first_word "*/" (First.nil z))
  obtain ⟨us, r, hText, hAll⟩ := hHits
  obtain ⟨u, _, hu, hNil, rfl⟩ := List.forall₂_cons_left_iff.mp hAll
  cases hNil
  obtain rfl : u = ascii "*/" := eq_of_forall₂_caseless (forall_mem_of_all (by decide)) hu
  obtain ⟨c, s, rfl⟩ := List.exists_cons_of_ne_nil hs
  obtain rfl : c = star := (List.cons.inj hText).1
  exact C.star_notMem _ (hSuffix.subset List.mem_cons_self)

theorem hit_comment (hTag : IsWord tag) (hApplies : applies code tag = true) (z : Bytes) :
    (onPattern code).hit (comment C tag body ++ z) =
      some (⟨comment C tag body, tag, packed C body⟩, (comment C tag body).length) := by
  have hAll : (parts C tag body).flatten = comment C tag body := by
    have hEq := comment_eq C tag body []
    simpa [parts] using hEq.symm
  rw [Pattern.hit, (first_comment code hTag hApplies z).exec_eq, Option.map_some, Pattern.toMatch, hAll]
  rfl

theorem not_hits_comment {code : Option Bytes} (hCode : Proper code) (hTag : IsWord tag) (hNot : applies code tag = false) (z : Bytes) :
    ¬ Hits (onPattern code).atoms (comment C tag body ++ z) := by
  rintro ⟨us, r, hText, hAll⟩
  obtain ⟨vs, tag', ws, rfl, ⟨hTag', hApplies⟩, hvs, hws⟩ := accepts_code [word "/*__debug_code("]
    [word "):b64:gz:", .any, word "*/"] hCode hAll
  obtain ⟨u, _, hu, hNil, rfl⟩ := List.forall₂_cons_left_iff.mp hvs
  cases hNil
  rw [comment_eq] at hText
  have hRest : tag ++ (ascii "):b64:gz:" ++ (packed C body ++ (ascii "*/" ++ z))) = tag' ++ (ws.flatten ++ r) := by
    have hLength : opening.length = u.length := hu.length_eq
    refine (List.append_inj ?_ hLength).2
    rw [hText]
    simp
  have hHead : ∀ c, (ws.flatten ++ r).head? = some c → isWord c = false := by
    obtain ⟨w, ws, hw, _, rfl⟩ := List.forall₂_cons_left_iff.mp hws
    obtain ⟨d, w, hd, _, rfl⟩ := List.forall₂_cons_left_iff.mp hw
    intro c hc
    obtain rfl := Option.some.inj hc
    rw [eq_of_caseless (by decide) hd]
    decide
  have hSame := congrArg (List.takeWhile isWord) hRest
  rw [takeWhile_append_of_head hTag.2 (head_ascii (by decide)), takeWhile_append_of_head hTag'.2 hHead] at hSame
  rw [← hSame, hNot] at hApplies
  cases hApplies

end Match

/-! ## Where a match can begin in a comment -/

/-- The beginning all patterns share, up to the third byte. -/
def Leads (p : UInt8 → Bool) (w : Bytes) : Prop := ∃ c t, w = slash :: star :: c :: t ∧ p c = true

def startThird (c : UInt8) : Bool := isSpace c || caseless 'd'.toUInt8 c

theorem leads_startMarker {us : List Bytes} (hAll : List.Forall₂ Atom.Accepts (startMarker none) us) :
    Leads startThird us.flatten := by
  obtain ⟨vs, hFlatten, hvs⟩ := framed_accepts (startMarker_eq none ▸ hAll)
  obtain ⟨v, ws, hv, hws, rfl⟩ := List.forall₂_cons_left_iff.mp hvs
  obtain ⟨w, ws, hw, _, rfl⟩ := List.forall₂_cons_left_iff.mp hws
  cases v with
  | cons c v => exact ⟨c, _, hFlatten, by simp [startThird, hv.2 c List.mem_cons_self]⟩
  | nil =>
    obtain ⟨d, w, hd, _, rfl⟩ := List.forall₂_cons_left_iff.mp hw
    exact ⟨d, _, hFlatten, Bool.or_eq_true_iff.mpr (.inr hd)⟩

def underscore : UInt8 := '_'.toUInt8

theorem underscore_unique : ∀ c, caseless underscore c = true → c = underscore := forall_byte (by decide +kernel)

theorem opening_accepts {u : Bytes} (hu : (word "/*__debug_code(").Accepts u) : Leads (· = underscore) u ∧ Single u := by
  obtain ⟨a, v, ha, hv, rfl⟩ := List.forall₂_cons_left_iff.mp hu
  have hSlash : slash ∉ v := Atom.Accepts.notMem (a := .lit caseless (ascii "*__debug_code(")) hv (by decide)
  obtain ⟨b, w, hb, hw, rfl⟩ := List.forall₂_cons_left_iff.mp hv
  obtain ⟨c, t, hc, _, rfl⟩ := List.forall₂_cons_left_iff.mp hw
  obtain rfl : a = slash := eq_of_caseless (by decide) ha
  obtain rfl : b = star := eq_of_caseless (by decide) hb
  refine ⟨⟨c, t, rfl, ?_⟩, star :: c :: t, rfl, fun hMem => hSlash (List.dropLast_subset _ hMem)⟩
  exact decide_eq_true (underscore_unique c hc)

theorem suffix_leads {p : UInt8 → Bool} (hp : p slash = false) {mid s z : Bytes} (hMid : star ∉ mid) (hs : s ≠ [])
    (hSuffix : s <:+ mid ++ [star, slash]) (hLeads : ∃ w, Leads p w ∧ w <+: s ++ z) : s = [slash] := by
  obtain ⟨_, ⟨c, t, rfl, hc⟩, r, hr⟩ := hLeads
  induction mid with
  | nil =>
    rcases List.suffix_cons_iff.mp hSuffix with rfl | hSuffix
    · exact absurd (List.cons.inj hr).1 (by decide)
    · rcases List.suffix_cons_iff.mp hSuffix with rfl | hSuffix
      · rfl
      · exact absurd (List.suffix_nil.mp hSuffix) hs
  | cons a mid ih =>
    obtain ⟨_, hMid'⟩ := not_or.mp fun h => hMid (List.mem_cons.mpr h)
    rcases List.suffix_cons_iff.mp hSuffix with rfl | hSuffix
    · cases mid with
      | nil =>
        have hThird : c = slash := (List.cons.inj (List.cons.inj (List.cons.inj hr).2).2).1
        rw [hThird, hp] at hc
        cases hc
      | cons b mid => exact absurd (List.mem_cons_self) ((List.cons.inj (List.cons.inj hr).2).1 ▸ hMid')
    · exact ih hMid' hSuffix

theorem comment_frame (C : Codec) {tag : Bytes} (hTag : IsWord tag) (body : Bytes) :
    ∃ mid, comment C tag body = slash :: star :: (underscore :: mid ++ [star, slash]) ∧ star ∉ underscore :: mid := by
  refine ⟨ascii "_debug_code(" ++ tag ++ ascii "):b64:gz:" ++ packed C body, ?_, ?_⟩
  · simp [comment, packed, ascii, slash, star, underscore]
  · simp only [List.mem_cons, List.mem_append, not_or]
    refine ⟨by decide, ⟨⟨by decide, fun hMem => ?_⟩, by decide⟩, C.star_notMem _⟩
    exact absurd (hTag.2 star hMem) (by decide)

/-- In a comment a match begins at the front, or at the closing slash. -/
theorem comment_suffix {p : UInt8 → Bool} (hp : p slash = false) {C : Codec} {tag body s z : Bytes} (hTag : IsWord tag)
    (hs : s ≠ []) (hSuffix : s <:+ comment C tag body) (hLeads : ∃ w, Leads p w ∧ w <+: s ++ z) :
    (s = comment C tag body ∧ p underscore = true) ∨ s = [slash] := by
  obtain ⟨mid, hComment, hMid⟩ := comment_frame C hTag body
  rw [hComment] at hSuffix ⊢
  rcases List.suffix_cons_iff.mp hSuffix with rfl | hSuffix
  · obtain ⟨_, ⟨c, t, rfl, hc⟩, r, hr⟩ := hLeads
    obtain rfl : c = underscore := (List.cons.inj (List.cons.inj (List.cons.inj hr).2).2).1
    exact .inl ⟨rfl, hc⟩
  · rcases List.suffix_cons_iff.mp hSuffix with rfl | hSuffix
    · obtain ⟨_, ⟨c, t, rfl, _⟩, r, hr⟩ := hLeads
      exact absurd (List.cons.inj hr).1 (by decide)
    · exact .inr (suffix_leads hp hMid hs hSuffix hLeads)

end TeaBot.DebugFlag
