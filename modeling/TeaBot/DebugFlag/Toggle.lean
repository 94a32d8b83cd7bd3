import Mathlib.Data.List.Induction
import TeaBot.DebugFlag.File

/-! # Turning debug code off and on -/

namespace TeaBot.DebugFlag

open Foundation.Text

namespace File

variable {f : File} {C : Codec} {off : Bytes → Bytes → Bool} {code : Option Bytes} {tag body : Bytes}

/-! ## What is matched, and what is replaced -/

/-- A block in one of its two states; `true` is that of a comment. -/
def shown (C : Codec) (state : Bool) (tag body : Bytes) : Bytes :=
  if state then comment C tag body else block tag body

/-- What ends the state is the run that looks for this. -/
def patternOf (code : Option Bytes) (state : Bool) : Pattern := if state then onPattern code else offPattern code

def matchOf (C : Codec) (state : Bool) (p : Bytes × Bytes) : Match :=
  ⟨shown C state p.1 p.2, p.1, if state then packed C p.2 else p.2⟩

theorem matchOf_injective {state : Bool} {p q : Bytes × Bytes} (h : matchOf C state p = matchOf C state q) : p = q := by
  refine Prod.ext (congrArg Match.first h) ?_
  have hSecond := congrArg Match.second h
  cases state with
  | false => exact hSecond
  | true => rw [← unpack C p.2, ← unpack C q.2, show packed C p.2 = packed C q.2 from hSecond]

section Separate

variable (hSep : Separate f.items)

include hSep

theorem place {state : Bool} {it : Item} {rest : List Item} {s : Bytes} (hSuffix : it :: rest <:+ f.items)
    (hCode : Proper code) (hs : s ≠ []) (hIn : s <:+ it.text C off)
    (hHits : Hits (patternOf code state).atoms (s ++ text C off rest)) :
    ∃ tag body, it = .debug tag body ∧ off tag body = state ∧ s = shown C state tag body := by
  cases state with
  | false => exact off_place hSep hSuffix hCode hs hIn hHits
  | true => exact on_place hSuffix hs hIn hHits

theorem hit_shown (hMem : .debug tag body ∈ f.items) (hApplies : applies code tag = true) (state : Bool) (z : Bytes) :
    shown C state tag body ≠ [] ∧ (patternOf code state).hit (shown C state tag body ++ z) =
      some (matchOf C state (tag, body), (shown C state tag body).length) := by
  have hTag := f.isWord tag body hMem
  cases state with
  | false => exact ⟨block_ne_nil tag body, hit_block code hTag hApplies (closed hSep hMem) z⟩
  | true => exact ⟨comment_ne_nil C tag body, hit_comment code hTag hApplies z⟩

theorem tiled (hCode : Proper code) (state : Bool) :
    Tiled (patternOf code state).hit (f.items.map fun it => (it.text C off,
      (it.selected fun tag body => off tag body == state && applies code tag).map (matchOf C state))) := by
  refine tiled_of_places f.items fun it rest hSuffix => ?_
  have hQuiet : (∀ tag body, it = .debug tag body → off tag body = state → applies code tag = false) →
      Quiet (patternOf code state).hit (it.text C off) (text C off rest) := by
    intro hNot s hs hIn
    refine hit_eq_none.mpr fun hHits => ?_
    obtain ⟨tag, body, rfl, hOff, rfl⟩ := place hSep hSuffix hCode hs hIn hHits
    have hTag := f.isWord tag body (mem_of_suffix hSuffix)
    cases state with
    | false => exact not_hits_block hCode hTag (hNot tag body rfl hOff) _ hHits
    | true => exact not_hits_comment hCode hTag (hNot tag body rfl hOff) _ hHits
  cases it with
  | plain p => exact hQuiet fun _ _ hEq => (by cases hEq)
  | debug tag body =>
    by_cases hSel : off tag body = state ∧ applies code tag = true
    · obtain ⟨rfl, hApplies⟩ := hSel
      simp only [Item.selected, beq_self_eq_true, hApplies, Bool.and_self, if_true, Option.map_some]
      exact hit_shown hSep (mem_of_suffix hSuffix) hApplies (off tag body) _
    · have hNone : Item.selected (fun tag body => off tag body == state && applies code tag) (.debug tag body) = none := by
        simpa [Item.selected] using hSel
      rw [hNone]
      refine hQuiet fun _ _ hEq hOff => ?_
      cases hEq
      exact Bool.eq_false_iff.mpr fun hApplies => hSel ⟨hOff, hApplies⟩

theorem replace_shown (hMem : .debug tag body ∈ f.items) (state : Bool) :
    replace (shown C state tag body) (shown C (!state) tag body) (text C off f.items) =
      text C (fun t b => if (t, b) = (tag, body) then !state else off t b) f.items := by
  have hHit := fun z => hit_shown (C := C) hSep hMem (rfl : applies none tag = true) state z
  have hTiled : Tiled (occurs (shown C state tag body)) (f.items.map fun it => (it.text C off,
      if it = .debug tag body ∧ off tag body = state then some () else none)) := by
    refine tiled_of_places f.items fun it rest hSuffix => ?_
    by_cases hIt : it = .debug tag body ∧ off tag body = state
    · obtain ⟨rfl, rfl⟩ := hIt
      rw [if_pos ⟨rfl, rfl⟩]
      exact ⟨(hHit []).1, occurs_append _ _⟩
    · rw [if_neg hIt]
      refine fun s hs hIn => occurs_eq_none.mpr ?_
      rintro ⟨z, hz⟩
      -- an occurrence is a match, and a match tells which block it is
      have hFound := (hHit z).2
      rw [hz] at hFound
      obtain ⟨tag', body', rfl, hOff, rfl⟩ := place hSep hSuffix proper_none hs hIn (hits_of_hit hFound)
      rw [(hit_shown hSep (mem_of_suffix hSuffix) rfl state _).2] at hFound
      cases matchOf_injective (Prod.mk.inj (Option.some.inj hFound)).1
      exact hIt ⟨rfl, hOff⟩
  have hReplace := replace_tiled (shown C (!state) tag body) (hHit []).1 hTiled
  rw [List.flatMap_map, List.flatMap_map] at hReplace
  refine hReplace.trans (List.flatMap_congr fun it _ => ?_)
  by_cases hIt : it = .debug tag body ∧ off tag body = state
  · obtain ⟨rfl, hOff⟩ := hIt
    simp [hOff, Item.text, shown]
  · rw [if_neg hIt]
    cases it with
    | plain p => rfl
    | debug t b =>
      by_cases hEq : (t, b) = (tag, body)
      · cases hEq
        have hOff : off tag body = !state := by simpa [Bool.eq_not] using hIt
        simp [Item.text, hOff]
      · simp [Item.text, hEq]

theorem replaceEach_shown (state : Bool) (ps : List (Bytes × Bytes)) (off : Bytes → Bytes → Bool)
    (hps : ∀ p ∈ ps, .debug p.1 p.2 ∈ f.items) :
    replaceEach (ps.map fun p => (shown C state p.1 p.2, shown C (!state) p.1 p.2)) (text C off f.items) =
      text C (fun t b => if (t, b) ∈ ps then !state else off t b) f.items := by
  induction ps generalizing off with
  | nil => simp [replaceEach]
  | cons p ps ih =>
    obtain ⟨tag, body⟩ := p
    obtain ⟨hp, hps⟩ := List.forall_mem_cons.mp hps
    change replaceEach _ (replace (shown C state tag body) (shown C (!state) tag body) (text C off f.items)) = _
    rw [replace_shown hSep hp, ih _ hps]
    refine text_congr fun t b _ => ?_
    by_cases hEq : (t, b) = (tag, body) <;> simp [hEq]

end Separate

/-! ## Runs -/

theorem mem_selected {sel : Bytes → Bytes → Bool} {items : List Item} :
    (tag, body) ∈ items.filterMap (Item.selected sel) ↔ .debug tag body ∈ items ∧ sel tag body = true := by
  rw [List.mem_filterMap]
  constructor
  · rintro ⟨it, hIt, hEq⟩
    cases it with
    | plain p => cases hEq
    | debug t b =>
      rw [Item.selected] at hEq
      split at hEq
      · rename_i hSel
        cases hEq
        exact ⟨hIt, hSel⟩
      · cases hEq
  · rintro ⟨hMem, hSel⟩
    exact ⟨_, hMem, by rw [Item.selected, if_pos hSel]⟩

theorem pregMatchAll_items {p : Pattern} {sel : Bytes → Bytes → Bool} {m : Bytes × Bytes → Match}
    (hTiled : Tiled p.hit (f.items.map fun it => (it.text C off, (it.selected sel).map m))) :
    pregMatchAll p (text C off f.items) = (f.items.filterMap (Item.selected sel)).map m := by
  have hMatches := filterMap_scan hTiled
  rw [List.flatMap_map, List.filterMap_map] at hMatches
  rw [List.map_filterMap]
  exact hMatches

theorem turnOff_text (hSep : Separate f.items) (hCode : Proper code) :
    turnOff C code (text C off f.items) = text C (fun t b => off t b || applies code t) f.items := by
  rw [turnOff, show offPattern code = patternOf code false from rfl, pregMatchAll_items (tiled hSep hCode false),
    List.map_map]
  refine (replaceEach_shown hSep false _ off fun p hp => (mem_selected.mp hp).1).trans (text_congr fun t b hMem => ?_)
  simp only [mem_selected, hMem, true_and]
  cases off t b <;> simp

theorem turnOn_text (hSep : Separate f.items) (hCode : Proper code) :
    turnOn C code (text C off f.items) = text C (fun t b => off t b && !applies code t) f.items := by
  rw [turnOn, show onPattern code = patternOf code true from rfl, pregMatchAll_items (tiled hSep hCode true),
    List.map_map]
  simp only [Function.comp_def, matchOf, if_true, unpack]
  refine (replaceEach_shown hSep true _ off fun p hp => (mem_selected.mp hp).1).trans (text_congr fun t b hMem => ?_)
  simp only [mem_selected, hMem, true_and]
  cases off t b <;> simp

end File

theorem isTrimmed_of_isWord : ∀ c, isWord c = true → isTrimmed c = false := forall_byte (by decide +kernel)

theorem trim_word {s : Bytes} (hs : IsWord s) : trim s = s := by
  have hKeep : ∀ {t : Bytes}, (∀ c ∈ t, isWord c = true) → t.dropWhile isTrimmed = t := by
    intro t ht
    cases t with
    | nil => rfl
    | cons c t => rw [List.dropWhile_cons, if_neg (by simp [isTrimmed_of_isWord c (ht c List.mem_cons_self)])]
  rw [trim, hKeep hs.2, hKeep (fun c hc => hs.2 c (List.mem_reverse.mp hc)), List.reverse_reverse]

/-- What one run does to the state of the blocks. -/
def Command.after (cmd : Command) (off : Bytes → Bytes → Bool) (tag body : Bytes) : Bool :=
  if applies cmd.code tag then decide (cmd.mode = .off) else off tag body

theorem debugFlag_text {f : File} (hSep : Separate f.items) {C : Codec} {cmd : Command} (hCode : Proper cmd.code)
    (off : Bytes → Bytes → Bool) :
    debugFlag C cmd (text C off f.items) = text C (cmd.after off) f.items := by
  obtain ⟨mode, code⟩ := cmd
  have hTrim : code.map trim = code := by
    cases code with
    | none => rfl
    | some code => exact congrArg some (trim_word hCode)
  have hSlash : code.any (·.contains '/'.toUInt8) = false := by
    cases code with
    | none => rfl
    | some code =>
      rw [Option.any_some, List.contains_eq_mem, decide_eq_false_iff_not]
      exact fun hMem => absurd (hCode.2 _ hMem) (by decide)
  rw [debugFlag]
  simp only [hTrim, hSlash, Bool.false_eq_true, if_false]
  cases mode with
  | off =>
    refine (File.turnOff_text hSep hCode).trans (text_congr fun t b _ => ?_)
    cases hApplies : applies code t <;> simp [Command.after, hApplies]
  | on =>
    refine (File.turnOn_text hSep hCode).trans (text_congr fun t b _ => ?_)
    cases hApplies : applies code t <;> simp [Command.after, hApplies]

/-- The last run about a tag was `off`. -/
def disabled (cmds : List Command) (tag : Bytes) : Bool :=
  (cmds.reverse.find? fun cmd => applies cmd.code tag).any fun cmd => cmd.mode = .off

theorem disabled_append (cmds : List Command) (cmd : Command) (tag : Bytes) :
    disabled (cmds ++ [cmd]) tag = if applies cmd.code tag then decide (cmd.mode = .off) else disabled cmds tag := by
  rw [disabled, List.reverse_append, List.reverse_singleton, List.singleton_append, List.find?_cons]
  cases applies cmd.code tag <;> rfl

theorem runs_text {f : File} (hSep : Separate f.items) (C : Codec) (cmds : List Command)
    (hCodes : ∀ cmd ∈ cmds, Proper cmd.code) :
    runs C cmds (source f.items) = text C (fun tag _ => disabled cmds tag) f.items := by
  induction cmds using List.reverseRecOn with
  | nil => exact (text_false C f.items).symm
  | append_singleton cmds cmd ih =>
    rw [List.forall_mem_append] at hCodes
    rw [runs, List.foldl_append]
    change debugFlag C cmd (runs C cmds (source f.items)) = _
    rw [ih hCodes.1, debugFlag_text hSep (hCodes.2 cmd List.mem_cons_self)]
    exact text_congr fun tag body _ => (disabled_append cmds cmd tag).symm

/-- Each block is a comment exactly if the last run about it was `off`, and `on` without a
code brings back the file. -/
theorem toggling (C : Codec) (f : File) (cmds : List Command) (hSep : Separate f.items)
    (hCodes : ∀ cmd ∈ cmds, Proper cmd.code) :
    runs C cmds (source f.items) = text C (fun tag _ => disabled cmds tag) f.items ∧
      runs C (cmds ++ [⟨.on, none⟩]) (source f.items) = source f.items := by
  refine ⟨runs_text hSep C cmds hCodes, ?_⟩
  have hCodes' : ∀ cmd ∈ cmds ++ [⟨.on, none⟩], Proper cmd.code := by
    rw [List.forall_mem_append]
    exact ⟨hCodes, by simp [Proper]⟩
  rw [runs_text hSep C _ hCodes', ← text_false C f.items]
  refine text_congr fun tag body _ => ?_
  rw [disabled_append]
  rfl

/-! ## Two files -/

def starEscape (c : UInt8) : Bytes := if c = star then ascii "xy" else if c = 'x'.toUInt8 then ascii "xx" else [c]

def starUnescape : Bytes → Bytes
  | [] => []
  | [c] => [c]
  | c :: d :: cs =>
    if c = 'x'.toUInt8 then (if d = 'y'.toUInt8 then star else d) :: starUnescape cs else c :: starUnescape (d :: cs)

theorem starUnescape_escape (c : UInt8) (t : Bytes) : starUnescape (starEscape c ++ t) = c :: starUnescape t := by
  by_cases hStar : c = star
  · subst hStar
    rfl
  · by_cases hx : c = 'x'.toUInt8
    · subst hx
      rfl
    · rw [starEscape, if_neg hStar, if_neg hx]
      cases t with
      | nil => rfl
      | cons d t => rw [List.singleton_append, starUnescape, if_neg hx]

def plainCodec : Codec where
  gzencode := id
  gzdecode := some
  base64Encode s := s.flatMap starEscape
  base64Decode := starUnescape
  gzdecode_gzencode _ := rfl
  base64Decode_encode s := by
    induction s with
    | nil => rfl
    | cons c s ih => rw [List.flatMap_cons, starUnescape_escape, ih]
  star_notMem s := by
    intro hMem
    obtain ⟨c, _, hc⟩ := List.mem_flatMap.mp hMem
    rw [starEscape] at hc
    split at hc
    · exact absurd hc (by decide)
    · rename_i hStar
      split at hc
      · exact absurd hc (by decide)
      · exact hStar (List.mem_singleton.mp hc).symm

def spaced : File where
  items := [.debug (ascii "a") (ascii "X"), .plain (ascii " b "), .debug (ascii "c") (ascii "Y")]
  isWord tag body hMem := by
    simp only [List.mem_cons, List.not_mem_nil, Item.debug.injEq, reduceCtorEq, or_false, false_or] at hMem
    rcases hMem with ⟨rfl, rfl⟩ | ⟨rfl, rfl⟩ <;> exact ⟨by decide, forall_mem_of_all (by decide)⟩
  free tag body hMem := by
    simp only [List.mem_cons, List.not_mem_nil, Item.debug.injEq, reduceCtorEq, or_false, false_or] at hMem
    rcases hMem with ⟨rfl, rfl⟩ | ⟨rfl, rfl⟩ <;> decide +kernel
  exact := by decide +kernel
  fresh := by decide +kernel

theorem toggling_spaced :
    runs plainCodec [⟨.off, none⟩, ⟨.on, some (ascii "C")⟩] (source spaced.items) =
      comment plainCodec (ascii "a") (ascii "X") ++ ascii " b " ++ block (ascii "c") (ascii "Y") := by
  have hSep : Separate spaced.items := ⟨by decide +kernel, by decide +kernel, by decide +kernel, trivial⟩
  have hCodes : ∀ cmd ∈ [(⟨.off, none⟩ : Command), ⟨.on, some (ascii "C")⟩], Proper cmd.code := by
    simp only [List.forall_mem_cons, List.not_mem_nil, false_implies, implies_true, and_true]
    exact ⟨trivial, by decide, forall_mem_of_all (by decide)⟩
  rw [(toggling plainCodec spaced _ hSep hCodes).1]
  decide +kernel

/-- A segment that takes the end of the block before it for the beginning of a marker. -/
def glued : File where
  items := [.debug (ascii "a") (ascii "X"), .plain (ascii "* debug:a */Y/* end_debug */")]
  isWord tag body hMem := by
    simp only [List.mem_cons, List.not_mem_nil, Item.debug.injEq, reduceCtorEq, or_false] at hMem
    obtain ⟨rfl, rfl⟩ := hMem
    exact ⟨by decide, forall_mem_of_all (by decide)⟩
  free tag body hMem := by
    simp only [List.mem_cons, List.not_mem_nil, Item.debug.injEq, reduceCtorEq, or_false] at hMem
    obtain ⟨rfl, rfl⟩ := hMem
    decide +kernel
  exact := by decide +kernel
  fresh := by decide +kernel

/-- The second `off` packs part of the segment, and one `on` does not bring it back. -/
theorem glued_not_restored :
    runs plainCodec [⟨.off, none⟩, ⟨.off, none⟩, ⟨.on, none⟩] (source glued.items) =
        ascii "/* debug:a */X/* end_debug */*__debug_code(a):b64:gz:Y*/" ∧
      runs plainCodec [⟨.off, none⟩, ⟨.off, none⟩, ⟨.on, none⟩] (source glued.items) ≠ source glued.items := by
  have hRuns : runs plainCodec [⟨.off, none⟩, ⟨.off, none⟩, ⟨.on, none⟩] (source glued.items) =
      ascii "/* debug:a */X/* end_debug */*__debug_code(a):b64:gz:Y*/" := by
    decide +kernel
  refine ⟨hRuns, ?_⟩
  rw [hRuns]
  decide

end TeaBot.DebugFlag
