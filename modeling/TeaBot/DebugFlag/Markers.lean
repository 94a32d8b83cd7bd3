import TeaBot.DebugFlag.Script

/-! # Where the patterns match

A marker has a slash at both ends and none between. Whether one begins at a place is thus
settled by the text up to the next slash.
-/

namespace TeaBot.DebugFlag

open Foundation.Text

def slash : UInt8 := '/'.toUInt8

def star : UInt8 := '*'.toUInt8

def IsWord (s : Bytes) : Prop := s ≠ [] ∧ ∀ c ∈ s, isWord c = true

/-- A run with this code is about blocks. -/
def Proper : Option Bytes → Prop
  | none => True
  | some code => IsWord code

/-- A run with this code is about the blocks with this tag. -/
def applies (code : Option Bytes) (tag : Bytes) : Bool := code.all fun code => code.map lower = tag.map lower

/-! ## Bytes -/

/-- A fact about every byte is one about 256 numbers. -/
theorem forall_byte {P : UInt8 → Prop} (h : ∀ n : Fin 256, P (.ofFin n)) (c : UInt8) : P c := h c.toFin

variable {p : UInt8 → Bool} {s : Bytes}

theorem forall_mem_of_all {b : Bool} (h : s.all (fun c => p c == b) = true) :
    ∀ c ∈ s, p c = b := fun c hc => eq_of_beq (List.all_eq_true.mp h c hc)

theorem isWord_lower : ∀ c, isWord (lower c) = isWord c := forall_byte (by decide +kernel)

theorem isSpace_of_isWord : ∀ c, isWord c = true → isSpace c = false := forall_byte (by decide +kernel)

theorem isWord_of_isSpace {c : UInt8} (hc : isSpace c = true) : isWord c = false := by
  cases hWord : isWord c with
  | false => rfl
  | true =>
    rw [isSpace_of_isWord c hWord] at hc
    cases hc

theorem lower_of_not_isWord : ∀ c, isWord c = false → lower c = c := forall_byte (by decide +kernel)

theorem eq_of_caseless {a c : UInt8} (ha : isWord a = false) (hSame : caseless a c = true) : c = a := by
  have hLower : lower a = lower c := of_decide_eq_true hSame
  have hc : isWord c = false := by rw [← isWord_lower, ← hLower, isWord_lower, ha]
  rw [← lower_of_not_isWord c hc, ← hLower, lower_of_not_isWord a ha]

variable {t : Bytes}

theorem forall₂_caseless : List.Forall₂ (fun a b => caseless a b = true) s t ↔ s.map lower = t.map lower := by
  induction s generalizing t with
  | nil => cases t <;> simp
  | cons a s ih =>
    cases t with
    | nil => simp
    | cons b t => rw [List.forall₂_cons, ih, List.map_cons, List.map_cons, List.cons.injEq, caseless, decide_eq_true_iff]

theorem eq_of_forall₂_caseless (hs : ∀ c ∈ s, isWord c = false)
    (hAll : List.Forall₂ (fun a b => caseless a b = true) s t) : t = s := by
  induction hAll with
  | nil => rfl
  | cons hSame _ ih =>
    obtain ⟨ha, hs⟩ := List.forall_mem_cons.mp hs
    rw [eq_of_caseless ha hSame, ih hs]

theorem caseless_refl (s : Bytes) : List.Forall₂ (fun a b => caseless a b = true) s s := forall₂_caseless.mpr rfl

theorem isWord_of_caseless (hs : IsWord s) (hSame : s.map lower = t.map lower) : IsWord t := by
  refine ⟨?_, fun c hc => ?_⟩
  · rintro rfl
    exact hs.1 (List.map_eq_nil_iff.mp hSame)
  · have hMem : lower c ∈ s.map lower := hSame ▸ List.mem_map_of_mem hc
    obtain ⟨d, hd, hLower⟩ := List.mem_map.mp hMem
    rw [← isWord_lower, ← hLower, isWord_lower]
    exact hs.2 d hd

/-! ## Markers -/

/-- An expression between the ends of a comment. -/
def framed (mid : List (Atom UInt8)) : List (Atom UInt8) := word "/*" :: (mid ++ [word "*/"])

variable {us : List Bytes}

theorem framed_accepts {mid : List (Atom UInt8)} (hAll : List.Forall₂ Atom.Accepts (framed mid) us) :
    ∃ vs, us.flatten = slash :: star :: (vs.flatten ++ [star, slash]) ∧ List.Forall₂ Atom.Accepts mid vs := by
  obtain ⟨u, us, hu, hRest, rfl⟩ := List.forall₂_cons_left_iff.mp hAll
  obtain ⟨vs, ws, rfl, hvs, hws⟩ := (accepts_append _ _).mp hRest
  obtain ⟨w, ws, hw, hNil, rfl⟩ := List.forall₂_cons_left_iff.mp hws
  cases hNil
  have hOpen : u = ascii "/*" := eq_of_forall₂_caseless (forall_mem_of_all (by decide)) hu
  have hClose : w = ascii "*/" := eq_of_forall₂_caseless (forall_mem_of_all (by decide)) hw
  refine ⟨vs, ?_, hvs⟩
  rw [hOpen, hClose, List.flatten_cons, List.flatten_append]
  rfl

/-- The text begins with a slash, and has another one at most at its end. -/
def Single (w : Bytes) : Prop := ∃ m, w = slash :: m ∧ slash ∉ m.dropLast

variable {z : Bytes}

theorem Single.transfer {w u : Bytes} (hw : Single w) (hu : u ≠ []) (hPrefix : w <+: u ++ slash :: z) (z' : Bytes) :
    w <+: u ++ slash :: z' := by
  obtain ⟨m, rfl, hm⟩ := hw
  obtain ⟨c, u, rfl⟩ := List.exists_cons_of_ne_nil hu
  have hSplit : ∀ z, c :: u ++ slash :: z = (c :: u ++ [slash]) ++ z := fun z => by simp
  rw [hSplit] at hPrefix ⊢
  rcases List.prefix_or_prefix_of_prefix hPrefix (List.prefix_append _ z) with hShort | ⟨t, ht⟩
  · exact hShort.trans (List.prefix_append _ z')
  · -- a longer text has the slash of `u` before its end
    rcases t.eq_nil_or_concat' with rfl | ⟨t, d, rfl⟩
    · rw [List.append_nil] at ht
      rw [← ht]
      exact List.prefix_append _ z'
    · have hMid : m = u ++ slash :: t ++ [d] := by simpa using (List.cons.inj ht).2.symm
      rw [hMid, List.dropLast_concat] at hm
      exact absurd (List.mem_append_right u List.mem_cons_self) hm

theorem framed_single (mid : List (Atom UInt8)) (hAll : List.Forall₂ Atom.Accepts (framed mid) us)
    (hMid : mid.all (Atom.rejects slash) = true) : Single us.flatten := by
  obtain ⟨vs, hFlatten, hvs⟩ := framed_accepts hAll
  refine ⟨star :: (vs.flatten ++ [star, slash]), hFlatten, ?_⟩
  have hDrop : (star :: (vs.flatten ++ [star, slash])).dropLast = star :: (vs.flatten ++ [star]) := by
    rw [show star :: (vs.flatten ++ [star, slash]) = (star :: (vs.flatten ++ [star])) ++ [slash] by simp,
      List.dropLast_concat]
  rw [hDrop, List.mem_cons, List.mem_append, List.mem_singleton]
  rintro (hEq | hMem | hEq)
  · exact absurd hEq (by decide)
  · exact notMem_flatten hvs hMid hMem
  · exact absurd hEq (by decide)

def startMid (code : Option Bytes) : List (Atom UInt8) :=
  [spaces, word "debug", spaces, word ":", spaces, codeAtom code, spaces]

theorem startMarker_eq (code : Option Bytes) : startMarker code = framed (startMid code) := rfl

def endMid : List (Atom UInt8) := [spaces, word "end_debug", spaces]

variable {code : Option Bytes}

theorem codeAtom_accepts (hCode : Proper code) {u : Bytes} (hu : (codeAtom code).Accepts u) :
    IsWord u ∧ applies code u = true := by
  cases code with
  | none => exact ⟨⟨List.ne_nil_of_length_pos hu.1, hu.2⟩, rfl⟩
  | some code =>
    have hSame := forall₂_caseless.mp hu
    exact ⟨isWord_of_caseless hCode hSame, decide_eq_true hSame⟩

variable {tag : Bytes}

theorem codeAtom_accepts_of_applies (hTag : IsWord tag) (hApplies : applies code tag = true) :
    (codeAtom code).Accepts tag := by
  cases code with
  | none => exact ⟨List.length_pos_iff.mpr hTag.1, hTag.2⟩
  | some code => exact forall₂_caseless.mpr (of_decide_eq_true hApplies)

theorem accepts_code (as bs : List (Atom UInt8)) (hCode : Proper code)
    (hAll : List.Forall₂ Atom.Accepts (as ++ codeAtom code :: bs) us) :
    ∃ vs tag ws, us = vs ++ tag :: ws ∧ (IsWord tag ∧ applies code tag = true) ∧ List.Forall₂ Atom.Accepts as vs ∧
      List.Forall₂ Atom.Accepts bs ws := by
  obtain ⟨vs, rest, rfl, hvs, hRest⟩ := (accepts_append _ _).mp hAll
  obtain ⟨tag, ws, hTag, hws, rfl⟩ := List.forall₂_cons_left_iff.mp hRest
  exact ⟨vs, tag, ws, rfl, codeAtom_accepts hCode hTag, hvs, hws⟩

theorem accepts_none (as bs : List (Atom UInt8)) (hCode : Proper code)
    (hAll : List.Forall₂ Atom.Accepts (as ++ codeAtom code :: bs) us) :
    List.Forall₂ Atom.Accepts (as ++ codeAtom none :: bs) us := by
  obtain ⟨vs, tag, ws, rfl, hTag, hvs, hws⟩ := accepts_code _ _ hCode hAll
  exact List.rel_append hvs (.cons (codeAtom_accepts_of_applies hTag.1 rfl) hws)

/-! ## The markers of a block -/

def startPre : List (Atom UInt8) := [word "/*", spaces, word "debug", spaces, word ":", spaces]

def startPost : List (Atom UInt8) := [spaces, word "*/"]

theorem startMarker_split (code : Option Bytes) : startMarker code = startPre ++ codeAtom code :: startPost := rfl

theorem head_startPost {ws : List Bytes} (hws : List.Forall₂ Atom.Accepts startPost ws) (r : Bytes) (c : UInt8)
    (hc : (ws.flatten ++ r).head? = some c) : isWord c = false := by
  obtain ⟨u, rest, hu, hRest, rfl⟩ := List.forall₂_cons_left_iff.mp hws
  obtain ⟨w, _, hw, hNil, rfl⟩ := List.forall₂_cons_left_iff.mp hRest
  cases hNil
  obtain rfl : w = ascii "*/" := eq_of_forall₂_caseless (forall_mem_of_all (by decide)) hw
  cases u with
  | nil =>
    obtain rfl := Option.some.inj hc
    decide
  | cons d u =>
    obtain rfl := Option.some.inj hc
    exact isWord_of_isSpace (hu.2 d List.mem_cons_self)

theorem IsWord.head {r : Bytes} (hs : IsWord s) (hp : ∀ c, isWord c = true → p c = false) (c : UInt8)
    (hc : (s ++ r).head? = some c) : p c = false := by
  obtain ⟨d, s, rfl⟩ := List.exists_cons_of_ne_nil hs.1
  obtain rfl := Option.some.inj hc
  exact hp d (hs.2 d List.mem_cons_self)

def colon : UInt8 := ':'.toUInt8

/-- A start marker has one colon, and blanks only after it. -/
theorem startPre_colon {vs : List Bytes} (hvs : List.Forall₂ Atom.Accepts startPre vs) :
    ∃ a sp, vs.flatten = a ++ colon :: sp ∧ colon ∉ a ∧ ∀ c ∈ sp, isSpace c = true := by
  obtain ⟨as, rest, rfl, has, hRest⟩ :=
    (accepts_append [word "/*", spaces, word "debug", spaces] [word ":", spaces]).mp hvs
  obtain ⟨u, rest, hu, hRest', rfl⟩ := List.forall₂_cons_left_iff.mp hRest
  obtain ⟨sp, _, hsp, hNil, rfl⟩ := List.forall₂_cons_left_iff.mp hRest'
  cases hNil
  obtain rfl : u = ascii ":" := eq_of_forall₂_caseless (forall_mem_of_all (by decide)) hu
  exact ⟨as.flatten, sp, by simp [ascii, colon], notMem_flatten has (by decide), hsp.2⟩

variable {y : Bytes}

/-- A start marker as the script writes it is one with its tag only. -/
theorem tag_unique {vs ws : List Bytes} {tag' r : Bytes} (hTag : IsWord tag) (hTag' : IsWord tag')
    (hvs : List.Forall₂ Atom.Accepts startPre vs) (hws : List.Forall₂ Atom.Accepts startPost ws)
    (hText : vs.flatten ++ (tag' ++ (ws.flatten ++ r)) = ascii "/* debug:" ++ (tag ++ (ascii " */" ++ y))) :
    tag' = tag := by
  obtain ⟨a, sp, hFlatten, ha, hsp⟩ := startPre_colon hvs
  have hRest : sp ++ (tag' ++ (ws.flatten ++ r)) = tag ++ (ascii " */" ++ y) := by
    have hCut : a ++ colon :: (sp ++ (tag' ++ (ws.flatten ++ r))) =
        ascii "/* debug" ++ colon :: (tag ++ (ascii " */" ++ y)) := by
      rw [hFlatten, List.append_assoc] at hText
      exact hText
    have hDrop := congrArg (List.dropWhile (· != colon)) hCut
    rw [dropWhile_append_of_head (by simpa using fun c hc => ne_of_mem_of_not_mem hc ha) (by simp),
      dropWhile_append_of_head (forall_mem_of_all (by decide)) (by simp)] at hDrop
    exact (List.cons.inj hDrop).2
  have hWords := congrArg (List.dropWhile isSpace) hRest
  rw [dropWhile_append_of_head hsp (hTag'.head isSpace_of_isWord), ← List.nil_append (tag ++ _),
    dropWhile_append_of_head (fun _ h => absurd h List.not_mem_nil) (hTag.head isSpace_of_isWord)] at hWords
  have hTags := congrArg (List.takeWhile isWord) hWords
  have hBlank : ∀ c, (ascii " */" ++ y).head? = some c → isWord c = false := by
    intro c hc
    obtain rfl := Option.some.inj hc
    decide
  rwa [takeWhile_append_of_head hTag'.2 (head_startPost hws r), takeWhile_append_of_head hTag.2 hBlank] at hTags

/-! ## The match of a block -/

def starts (tag : Bytes) : List Bytes :=
  [ascii "/*", ascii " ", ascii "debug", [], ascii ":", [], tag, ascii " ", ascii "*/"]

def ends : List Bytes := [ascii "/*", ascii " ", ascii "end_debug", ascii " ", ascii "*/"]

theorem starts_flatten (tag y : Bytes) : (starts tag).flatten ++ y = ascii "/* debug:" ++ (tag ++ (ascii " */" ++ y)) := by
  simp [starts, ascii]

theorem block_eq (tag body z : Bytes) :
    block tag body ++ z = (starts tag).flatten ++ (body ++ (ends.flatten ++ z)) := by
  simp [block, starts, ends, ascii]

section First

variable {as : List (Atom UInt8)} {us : List Bytes} {u y r : Bytes}

theorem first_word (s : String) (has : First as y us r) : First (word s :: as) (ascii s ++ y) (ascii s :: us) r :=
  First.lit (caseless_refl _) has

theorem first_spaces (hu : ∀ c ∈ u, isSpace c = true) (hy : ∀ c, y.head? = some c → isSpace c = false)
    (has : First as y us r) : First (spaces :: as) (u ++ y) (u :: us) r :=
  First.many (Nat.zero_le _) hu hy has

theorem first_code (hTag : IsWord tag) (hApplies : applies code tag = true)
    (hy : ∀ c, y.head? = some c → isWord c = false) (has : First as y us r) :
    First (codeAtom code :: as) (tag ++ y) (tag :: us) r := by
  cases code with
  | none => exact First.many (List.length_pos_iff.mpr hTag.1) hTag.2 hy has
  | some code => exact First.lit (forall₂_caseless.mpr (of_decide_eq_true hApplies)) has

theorem head_ascii {s : String} (hs : (ascii s).head?.any (fun c => !p c) = true) (c : UInt8)
    (hc : (ascii s ++ y).head? = some c) : p c = false := by
  obtain ⟨d, hd, hp⟩ := (Option.any_eq_true _ _).mp hs
  rw [List.head?_append, hd] at hc
  obtain rfl := Option.some.inj hc
  simpa using hp

end First

theorem block_ne_nil (tag body : Bytes) : block tag body ≠ [] := by
  simp [block, ascii]

theorem first_starts (code : Option Bytes) (hTag : IsWord tag) (hApplies : applies code tag = true) (y : Bytes) :
    First (startMarker code) ((starts tag).flatten ++ y) (starts tag) y := by
  have hText : (starts tag).flatten ++ y = ascii "/*" ++ (ascii " " ++ (ascii "debug" ++ ([] ++ (ascii ":" ++
      ([] ++ (tag ++ (ascii " " ++ (ascii "*/" ++ y)))))))) := by simp [starts]
  rw [hText, startMarker, starts]
  refine first_word "/*" (first_spaces (forall_mem_of_all (by decide)) (head_ascii (by decide)) ?_)
  refine first_word "debug" (first_spaces nofun (head_ascii (by decide)) ?_)
  refine first_word ":" (first_spaces nofun (hTag.head isSpace_of_isWord) ?_)
  refine first_code hTag hApplies (head_ascii (by decide)) ?_
  refine first_spaces (forall_mem_of_all (by decide)) (head_ascii (by decide)) ?_
  exact first_word "*/" (First.nil y)

theorem first_ends (z : Bytes) : First endMarker (ends.flatten ++ z) ends z := by
  have hText : ends.flatten ++ z = ascii "/*" ++ (ascii " " ++ (ascii "end_debug" ++ (ascii " " ++ (ascii "*/" ++ z)))) := by
    simp [ends]
  rw [hText, endMarker, ends]
  refine first_word "/*" (first_spaces (forall_mem_of_all (by decide)) (head_ascii (by decide)) ?_)
  refine first_word "end_debug" (first_spaces (forall_mem_of_all (by decide)) (head_ascii (by decide)) ?_)
  exact first_word "*/" (First.nil z)

theorem Hits.transfer {as : List (Atom UInt8)} (has : ∀ us, List.Forall₂ Atom.Accepts as us → Single us.flatten)
    (hs : s ≠ []) (hHits : Hits as (s ++ slash :: z)) (z' : Bytes) : Hits as (s ++ slash :: z') := by
  obtain ⟨us, r, hText, hAll⟩ := hHits
  obtain ⟨r', hr'⟩ := (has us hAll).transfer hs ⟨r, hText.symm⟩ z'
  exact ⟨us, r', hr'.symm, hAll⟩

theorem endMarker_single (hAll : List.Forall₂ Atom.Accepts endMarker us) : Single us.flatten :=
  framed_single endMid hAll (by decide)

/-- No end marker begins in the body. -/
def Closed (body : Bytes) : Prop := ∀ s, s ≠ [] → s <:+ body → ¬ Hits endMarker (s ++ [slash])

theorem ends_eq (z : Bytes) : ends.flatten ++ z = slash :: (ascii "* end_debug */" ++ z) := by
  simp [ends, ascii, slash]

variable {body : Bytes}

theorem Closed.not_hits (hClosed : Closed body) (z s : Bytes) (hs : s ≠ []) (hSuffix : s <:+ body) :
    ¬ Hits endMarker (s ++ (ends.flatten ++ z)) := by
  intro hHits
  rw [ends_eq] at hHits
  exact hClosed s hs hSuffix (Hits.transfer (fun _ => endMarker_single) hs hHits [])

theorem hit_eq_none {p : Pattern} : p.hit y = none ↔ ¬ Hits p.atoms y := by
  rw [Pattern.hit, Option.map_eq_none_iff, exec_eq_none]

theorem hits_of_hit {p : Pattern} {r : Match × Nat} (hHit : p.hit y = some r) : Hits p.atoms y := by
  by_contra hNot
  rw [hit_eq_none.mpr hNot] at hHit
  cases hHit

theorem hit_length {p : Pattern} {m : Match} {n : Nat} (hHit : p.hit y = some (m, n)) : n = m.all.length := by
  obtain ⟨us, _, hEq⟩ := Option.map_eq_some_iff.mp hHit
  cases hEq
  rfl

theorem first_block (hTag : IsWord tag) (hApplies : applies code tag = true) (hClosed : Closed body) (z : Bytes) :
    First (offPattern code).atoms (block tag body ++ z) (starts tag ++ body :: ends) z := by
  rw [block_eq]
  exact (first_starts code hTag hApplies _).append (First.any (hClosed.not_hits z) (first_ends z))

theorem hit_block (code : Option Bytes) (hTag : IsWord tag) (hApplies : applies code tag = true) (hClosed : Closed body)
    (z : Bytes) :
    (offPattern code).hit (block tag body ++ z) = some (⟨block tag body, tag, body⟩, (block tag body).length) := by
  have hAll : (starts tag ++ body :: ends).flatten = block tag body := by
    have hEq := block_eq tag body []
    simpa using hEq.symm
  rw [Pattern.hit, (first_block hTag hApplies hClosed z).exec_eq, Option.map_some, Pattern.toMatch, hAll]
  rfl

theorem closed_of_hit {n : Nat} (hTag : IsWord tag)
    (hHit : (offPattern none).hit (block tag body ++ z) = some (⟨block tag body, tag, body⟩, n)) : Closed body := by
  have hStart := first_starts none hTag rfl (body ++ (ends.flatten ++ z))
  have hSome : Hits (.any :: endMarker) (body ++ (ends.flatten ++ z)) :=
    ⟨body :: ends, z, by simp, .cons trivial (first_ends z).accepts.2⟩
  obtain ⟨vs, r, hFirst⟩ := hSome.exists_first
  obtain ⟨v, ws, _, _, rfl⟩ := List.forall₂_cons_left_iff.mp hFirst.accepts.2
  rw [block_eq, Pattern.hit, show (offPattern none).atoms = startMarker none ++ .any :: endMarker from rfl,
    (hStart.append hFirst).exec_eq, Option.map_some, Option.some.injEq, Prod.mk.injEq] at hHit
  obtain rfl : v = body := congrArg Match.second hHit.1
  intro s hs hSuffix hHits
  refine hFirst.not_hits hs hSuffix ?_
  rw [ends_eq]
  exact Hits.transfer (fun _ => endMarker_single) hs hHits _

/-- A code matches the blocks with its own tag only. -/
theorem not_hits_block (hCode : Proper code) (hTag : IsWord tag) (hNot : applies code tag = false) (z : Bytes) :
    ¬ Hits (offPattern code).atoms (block tag body ++ z) := by
  rintro ⟨us, r, hText, hAll⟩
  obtain ⟨ss, rest, rfl, hss, _⟩ := (accepts_append (startMarker code) _).mp hAll
  obtain ⟨vs, tag', ws, rfl, ⟨hTag', hApplies⟩, hvs, hws⟩ := accepts_code _ _ hCode (startMarker_split code ▸ hss)
  rw [block_eq, starts_flatten] at hText
  have hSame : tag' = tag := by
    refine tag_unique (r := rest.flatten ++ r) (y := body ++ (ends.flatten ++ z)) hTag hTag' hvs hws ?_
    rw [hText]
    simp
  rw [hSame, hNot] at hApplies
  cases hApplies

end TeaBot.DebugFlag
