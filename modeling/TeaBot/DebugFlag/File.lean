import Mathlib.Data.List.Infix
import TeaBot.DebugFlag.Comments

/-! # Files with debug code

A file is given as its plain segments and blocks. In whatever state the blocks are, the
patterns match where the blocks are and nowhere else.
-/

namespace TeaBot.DebugFlag

open Foundation.Text

inductive Item
  | plain (s : Bytes)
  | debug (tag body : Bytes)
  deriving DecidableEq

def Item.source : Item → Bytes
  | .plain s => s
  | .debug tag body => block tag body

def source (items : List Item) : Bytes := items.flatMap Item.source

def Item.tokens : Item → List (UInt8 ⊕ Match)
  | .plain s => s.map .inl
  | .debug tag body => [.inr ⟨block tag body, tag, body⟩]

/-- No marker begins at the front. -/
def unmarked (y : Bytes) : Bool :=
  (exec (startMarker none) y).isNone && (exec endMarker y).isNone && (exec [word "/*__debug_code("] y).isNone

/-- A text of plain segments and blocks, the blocks being what the pattern `off` matches. -/
structure File where
  items : List Item
  isWord : ∀ tag body, .debug tag body ∈ items → IsWord tag
  free : ∀ tag body, .debug tag body ∈ items → ∀ y ∈ body.tails, unmarked y = true
  exact : scan (offPattern none).hit 0 (source items) = items.flatMap Item.tokens
  fresh : ∀ y ∈ (source items).tails, (exec [word "/*__debug_code("] y).isNone = true

/-- The places in an item where no block begins. -/
def Item.inner : Item → List Bytes
  | .plain s => s.tails.filter (· ≠ [])
  | .debug tag body => (block tag body).tails.filter fun s => s ≠ [] ∧ s ≠ block tag body

/-- The pattern `off` matches where blocks begin and nowhere else, not even inside a match. -/
def Separate : List Item → Prop
  | [] => True
  | it :: rest => (∀ s ∈ it.inner, ((offPattern none).hit (s ++ source rest)).isNone = true) ∧ Separate rest

def Item.selected (sel : Bytes → Bytes → Bool) : Item → Option (Bytes × Bytes)
  | .plain _ => none
  | .debug tag body => if sel tag body then some (tag, body) else none

/-- The text in which `off` says which blocks are comments. -/
def Item.text (C : Codec) (off : Bytes → Bytes → Bool) : Item → Bytes
  | .plain s => s
  | .debug tag body => if off tag body then comment C tag body else block tag body

def text (C : Codec) (off : Bytes → Bytes → Bool) (items : List Item) : Bytes := items.flatMap (Item.text C off)

variable {items : List Item}

theorem text_congr {C : Codec} {off off' : Bytes → Bytes → Bool}
    (hSame : ∀ tag body, .debug tag body ∈ items → off tag body = off' tag body) :
    text C off items = text C off' items := by
  refine List.flatMap_congr fun it hit => ?_
  cases it with
  | plain s => rfl
  | debug tag body => rw [Item.text, Item.text, hSame tag body hit]

theorem text_false (C : Codec) (items : List Item) : text C (fun _ _ => false) items = source items := by
  refine List.flatMap_congr fun it _ => ?_
  cases it <;> rfl

/-! ## The text after a place -/

theorem text_cases (items : List Item) :
    (∀ C off, text C off items = source items) ∨
      ∃ q tail after, source items = q ++ slash :: (tail ++ (ends.flatten ++ after)) ∧
        ∀ C off, ∃ z, text C off items = q ++ slash :: z := by
  induction items with
  | nil => exact .inl fun _ _ => rfl
  | cons it items ih =>
    cases it with
    | plain s =>
      rcases ih with hSame | ⟨q, tail, after, hSource, hText⟩
      · exact .inl fun C off => congrArg (s ++ ·) (hSame C off)
      · refine .inr ⟨s ++ q, tail, after, ?_, fun C off => ?_⟩
        · rw [List.append_assoc, ← hSource]
          rfl
        · obtain ⟨z, hz⟩ := hText C off
          refine ⟨z, ?_⟩
          rw [List.append_assoc, ← hz]
          rfl
    | debug tag body =>
      refine .inr ⟨[], ascii "* debug:" ++ (tag ++ (ascii " */" ++ body)), source items, ?_, fun C off => ?_⟩
      · rw [source, List.flatMap_cons, Item.source, block_eq, starts_flatten]
        simp [ascii, slash, source]
      cases hOff : off tag body with
      | true => exact ⟨_, by simp only [text, List.flatMap_cons, Item.text, hOff, if_true]; rfl⟩
      | false => exact ⟨_, by simp only [text, List.flatMap_cons, Item.text, hOff]; rfl⟩

theorem startMarker_single {us : List Bytes} (hAll : List.Forall₂ Atom.Accepts (startMarker none) us) :
    Single us.flatten :=
  framed_single (startMid none) hAll (by decide)

section Places

variable {C : Codec} {off : Bytes → Bytes → Bool} {code : Option Bytes} {items : List Item} {s : Bytes}

theorem hits_source (hCode : Proper code) (hs : s ≠ []) (hHits : Hits (offPattern code).atoms (s ++ text C off items)) :
    Hits (offPattern none).atoms (s ++ source items) := by
  obtain ⟨us, r, hText, hAll⟩ := hHits
  have hNone : List.Forall₂ Atom.Accepts (offPattern none).atoms us :=
    accepts_none startPre (startPost ++ .any :: endMarker) hCode hAll
  rcases text_cases items with hSame | ⟨q, tail, after, hSource, hSlash⟩
  · exact ⟨us, r, hSame C off ▸ hText, hNone⟩
  · -- the start marker ends at the first slash, and the block has an end marker
    obtain ⟨z, hz⟩ := hSlash C off
    obtain ⟨ss, rest, rfl, hss, _⟩ := (accepts_append (startMarker none) _).mp hNone
    have hPrefix : ss.flatten <+: (s ++ q) ++ slash :: z := by
      refine ⟨rest.flatten ++ r, ?_⟩
      rw [List.append_assoc, ← hz, hText]
      simp
    obtain ⟨r', hr'⟩ := (startMarker_single hss).transfer (List.append_ne_nil_of_left_ne_nil hs q) hPrefix []
    refine ⟨ss ++ (r' ++ tail) :: ends, after, ?_, List.rel_append hss (.cons trivial (first_ends after).accepts.2)⟩
    calc s ++ source items = ((s ++ q) ++ [slash]) ++ (tail ++ (ends.flatten ++ after)) := by simp [hSource]
      _ = (ss.flatten ++ r') ++ (tail ++ (ends.flatten ++ after)) := by rw [hr']
      _ = (ss ++ (r' ++ tail) :: ends).flatten ++ after := by simp

theorem opening_source (hs : s ≠ []) (hHits : Hits (onPattern code).atoms (s ++ text C off items)) :
    Hits [word "/*__debug_code("] (s ++ source items) := by
  obtain ⟨us, r, hText, hAll⟩ := hHits
  obtain ⟨u, us, hu, _, rfl⟩ := List.forall₂_cons_left_iff.mp hAll
  have hFound : ∀ {y : Bytes}, u <+: y → Hits [word "/*__debug_code("] y := by
    rintro y ⟨t, rfl⟩
    exact ⟨[u], t, by simp, .cons hu .nil⟩
  have hPrefix : u <+: s ++ text C off items := ⟨us.flatten ++ r, by rw [hText]; simp⟩
  rcases text_cases items with hSame | ⟨q, tail, after, hSource, hSlash⟩
  · exact hFound (hSame C off ▸ hPrefix)
  · obtain ⟨z, hz⟩ := hSlash C off
    rw [hz, ← List.append_assoc] at hPrefix
    rw [hSource, ← List.append_assoc]
    exact hFound ((opening_accepts hu).2.transfer (List.append_ne_nil_of_left_ne_nil hs q) hPrefix _)

end Places

/-! ## Where runs find something -/

theorem Separate.inner {rest : List Item} {it : Item} (hSep : Separate items) (hSuffix : it :: rest <:+ items) :
    ∀ s ∈ it.inner, ¬ Hits (offPattern none).atoms (s ++ source rest) := by
  induction items with
  | nil => exact absurd (List.suffix_nil.mp hSuffix) (List.cons_ne_nil _ _)
  | cons it' items ih =>
    rcases List.suffix_cons_iff.mp hSuffix with hEq | hSuffix
    · cases hEq
      intro s hs
      exact hit_eq_none.mp (Option.isNone_iff_eq_none.mp (hSep.1 s hs))
    · exact ih hSep.2 hSuffix

theorem slash_suffix_block (tag body : Bytes) : [slash] <:+ block tag body :=
  ⟨ascii "/* debug:" ++ tag ++ ascii " */" ++ body ++ ascii "/* end_debug *", by simp [block, ascii, slash]⟩

theorem block_ne_slash (tag body : Bytes) : [slash] ≠ block tag body := by
  intro hEq
  cases hEq

theorem proper_none : Proper none := trivial

namespace File

variable {f : File} {C : Codec} {off : Bytes → Bytes → Bool} {code : Option Bytes} {it : Item} {rest : List Item}
  {s tag body : Bytes}

theorem mem_of_suffix (hSuffix : it :: rest <:+ f.items) : it ∈ f.items := hSuffix.subset List.mem_cons_self

theorem off_place (hSep : Separate f.items) (hSuffix : it :: rest <:+ f.items) (hCode : Proper code) (hs : s ≠ [])
    (hIn : s <:+ it.text C off) (hHits : Hits (offPattern code).atoms (s ++ text C off rest)) :
    ∃ tag body, it = .debug tag body ∧ off tag body = false ∧ s = block tag body := by
  have hNot := hSep.inner hSuffix
  have hSource := hits_source hCode hs hHits
  cases it with
  | plain p => exact absurd hSource (hNot s (by simpa [Item.inner, hs, Item.text] using hIn))
  | debug tag body =>
    have hTag := f.isWord tag body (mem_of_suffix hSuffix)
    cases hOff : off tag body with
    | false =>
      rw [Item.text, hOff] at hIn
      by_cases hEq : s = block tag body
      · exact ⟨tag, body, rfl, hOff, hEq⟩
      · exact absurd hSource (hNot s (by simpa [Item.inner, hs, hEq] using hIn))
    | true =>
      rw [Item.text, hOff, if_pos rfl] at hIn
      obtain ⟨us, r, hText, hAll⟩ := hHits
      obtain ⟨ss, rs, rfl, hss, _⟩ := (accepts_append (startMarker none) _).mp
        (accepts_none startPre (startPost ++ .any :: endMarker) hCode hAll)
      have hLeads : ∃ w, Leads startThird w ∧ w <+: s ++ text C off rest :=
        ⟨ss.flatten, leads_startMarker hss, rs.flatten ++ r, by rw [hText]; simp⟩
      rcases comment_suffix (by decide) hTag hs hIn hLeads with ⟨_, hThird⟩ | rfl
      · exact absurd hThird (by decide)
      · refine absurd hSource (hNot [slash] ?_)
        simpa [Item.inner, block_ne_slash] using slash_suffix_block tag body

theorem not_opening (f : File) {y : Bytes} (hy : y <:+ source f.items) : ¬ Hits [word "/*__debug_code("] y :=
  exec_eq_none.mp (Option.isNone_iff_eq_none.mp (f.fresh y ((List.mem_tails y _).mpr hy)))

theorem source_suffix (hSuffix : it :: rest <:+ f.items) (hs : s <:+ it.source) :
    s ++ source rest <:+ source f.items := by
  obtain ⟨before, hBefore⟩ := hSuffix
  obtain ⟨p, hp⟩ := hs
  refine ⟨source before ++ p, ?_⟩
  rw [← hBefore]
  simp [source, ← hp]

theorem on_place (hSuffix : it :: rest <:+ f.items) (hs : s ≠ []) (hIn : s <:+ it.text C off)
    (hHits : Hits (onPattern code).atoms (s ++ text C off rest)) :
    ∃ tag body, it = .debug tag body ∧ off tag body = true ∧ s = comment C tag body := by
  have hOpening := opening_source hs hHits
  cases it with
  | plain p => exact absurd hOpening (f.not_opening (source_suffix hSuffix hIn))
  | debug tag body =>
    have hTag := f.isWord tag body (mem_of_suffix hSuffix)
    cases hOff : off tag body with
    | false =>
      rw [Item.text, hOff] at hIn
      exact absurd hOpening (f.not_opening (source_suffix hSuffix hIn))
    | true =>
      rw [Item.text, hOff, if_pos rfl] at hIn
      obtain ⟨us, r, hText, hAll⟩ := hHits
      obtain ⟨u, us, hu, _, rfl⟩ := List.forall₂_cons_left_iff.mp hAll
      have hLeads : ∃ w, Leads (· = underscore) w ∧ w <+: s ++ text C off rest :=
        ⟨u, (opening_accepts hu).1, us.flatten ++ r, by rw [hText]; simp⟩
      rcases comment_suffix (by decide) hTag hs hIn hLeads with ⟨hEq, _⟩ | rfl
      · exact ⟨tag, body, rfl, hOff, hEq⟩
      · exact absurd hOpening (f.not_opening (source_suffix hSuffix (slash_suffix_block tag body)))

theorem closed_of_scan (hWord : ∀ tag body, .debug tag body ∈ items → IsWord tag) (hSep : Separate items)
    (hScan : scan (offPattern none).hit 0 (source items) = items.flatMap Item.tokens) (hMem : .debug tag body ∈ items) :
    Closed body := by
  induction items with
  | nil => cases hMem
  | cons it items ih =>
    have hWord' : ∀ tag body, .debug tag body ∈ items → IsWord tag := fun tag body h =>
      hWord tag body (List.mem_cons_of_mem it h)
    rw [source, List.flatMap_cons, List.flatMap_cons] at hScan
    cases it with
    | plain p =>
      have hQuiet : Quiet (offPattern none).hit p (source items) := by
        intro s hs hSuffix
        refine Option.isNone_iff_eq_none.mp (hSep.1 s ?_)
        simpa [Item.inner, hs] using hSuffix
      rw [Item.source, show items.flatMap Item.source = source items from rfl, scan_quiet hQuiet] at hScan
      rcases List.mem_cons.mp hMem with hEq | hMem
      · cases hEq
      · exact ih hWord' hSep.2 (List.append_cancel_left hScan) hMem
    | debug tag' body' =>
      have hTag := hWord tag' body' List.mem_cons_self
      rw [Item.source, Item.tokens, show items.flatMap Item.source = source items from rfl, List.singleton_append] at hScan
      obtain ⟨n, hHit⟩ := hit_of_scan hScan
      rw [hit_length hHit] at hHit
      rw [scan_hit (block_ne_nil _ _) hHit] at hScan
      rcases List.mem_cons.mp hMem with hEq | hMem
      · cases hEq
        exact closed_of_hit hTag hHit
      · exact ih hWord' hSep.2 (List.cons.inj hScan).2 hMem

/-- Pieces of a text that are hits exactly where one is expected. -/
theorem tiled_of_places {γ : Type} {hit : Bytes → Option (γ × Nat)} {expect : Item → Option γ} (items : List Item)
    (hPlaces : ∀ it rest, it :: rest <:+ items → match expect it with
      | none => Quiet hit (it.text C off) (text C off rest)
      | some m => it.text C off ≠ [] ∧ hit (it.text C off ++ text C off rest) = some (m, (it.text C off).length)) :
    Tiled hit (items.map fun it => (it.text C off, expect it)) := by
  induction items with
  | nil => trivial
  | cons it items ih =>
    have hRest : (items.map fun it => (it.text C off, expect it)).flatMap Prod.fst = text C off items := by
      rw [List.flatMap_map]
      rfl
    have hHere := hPlaces it items List.suffix_rfl
    have hBelow := ih fun it' rest hSuffix => hPlaces it' rest (hSuffix.trans (List.suffix_cons it items))
    rw [List.map_cons]
    cases hExpect : expect it with
    | none =>
      rw [hExpect] at hHere
      exact ⟨hRest ▸ hHere, hBelow⟩
    | some m =>
      rw [hExpect] at hHere
      exact ⟨hRest ▸ hHere, hBelow⟩

theorem closed (hSep : Separate f.items) (hMem : .debug tag body ∈ f.items) : Closed body :=
  closed_of_scan f.isWord hSep f.exact hMem

end File

end TeaBot.DebugFlag
