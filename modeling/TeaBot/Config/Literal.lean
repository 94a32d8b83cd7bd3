import TeaBot.Config.Builder

/-! # The grammar of the generated literals

A tree of the grammar has one text; no two trees have the same one, and what `buildData`
writes for a value is the text of a tree of the value's shape.
-/

namespace TeaBot.Config

open Foundation.Text

structure IntToken where
  negative : Bool
  digits : Bytes
  nonempty : digits ≠ []
  isDigit : ∀ c ∈ digits, isDigit c = true

def minus : UInt8 := '-'.toUInt8

def IntToken.text (t : IntToken) : Bytes := (if t.negative then [minus] else []) ++ t.digits

/-- A token ended by the first quote without an unpaired backslash before it. -/
structure QuotedToken where
  raw : Bytes
  closed : closing false (raw ++ [quote]) = some (raw, [])

def QuotedToken.text (t : QuotedToken) : Bytes := quote :: (t.raw ++ [quote])

mutual

inductive Lit
  | null
  | int (t : IntToken)
  | quoted (t : QuotedToken)
  | array (elements : Elements)

inductive Elements
  | nil
  | value (v : Lit) (rest : Elements)
  | pair (k v : Lit) (rest : Elements)

end

mutual

def Lit.text : Lit → Bytes
  | .null => ascii "null"
  | .int t => t.text
  | .quoted t => t.text
  | .array es => lbracket :: (es.text [] ++ [rbracket])

/-- The elements, with `sep` before the first and a comma before each of the others. -/
def Elements.text (sep : Bytes) : Elements → Bytes
  | .nil => []
  | .value v rest => sep ++ (v.text ++ rest.text [comma])
  | .pair k v rest => sep ++ (k.text ++ (arrow ++ (v.text ++ rest.text [comma])))

end

/-! ## No two trees have one text -/

/-- No integer goes on into `r`. -/
def Apart (r : Bytes) : Prop := ∀ c, r.head? = some c → isDigit c = false

theorem IntToken.text_append_inj {t t' : IntToken} {r r' : Bytes} (hr : Apart r) (hr' : Apart r')
    (hText : t.text ++ r = t'.text ++ r') : t = t' ∧ r = r' := by
  obtain ⟨negative, digits, nonempty, hDigits⟩ := t
  obtain ⟨negative', digits', nonempty', hDigits'⟩ := t'
  have hMinus : ∀ {s r : Bytes}, s ≠ [] → (∀ c ∈ s, Config.isDigit c = true) → (s ++ r).head? ≠ some minus := by
    intro s r hs hAll hHead
    obtain ⟨c, s, rfl⟩ := List.exists_cons_of_ne_nil hs
    have hc := hAll c List.mem_cons_self
    rw [Option.some.inj hHead] at hc
    exact absurd hc (by decide)
  have hDone : digits ++ r = digits' ++ r' → digits = digits' ∧ r = r' := by
    intro hEq
    have hSpan := congrArg (List.takeWhile Config.isDigit) hEq
    rw [takeWhile_append_of_head hDigits hr, takeWhile_append_of_head hDigits' hr'] at hSpan
    subst hSpan
    exact ⟨rfl, List.append_cancel_left hEq⟩
  cases negative <;> cases negative'
  · obtain ⟨rfl, rfl⟩ := hDone hText
    exact ⟨rfl, rfl⟩
  · exact absurd (congrArg List.head? hText) (hMinus nonempty hDigits)
  · exact absurd (congrArg List.head? hText).symm (hMinus nonempty' hDigits')
  · obtain ⟨rfl, rfl⟩ := hDone (List.cons.inj hText).2
    exact ⟨rfl, rfl⟩

theorem QuotedToken.text_append_inj {t t' : QuotedToken} {r r' : Bytes} (hText : t.text ++ r = t'.text ++ r') :
    t = t' ∧ r = r' := by
  obtain ⟨raw, closed⟩ := t
  obtain ⟨raw', closed'⟩ := t'
  have hEq : raw ++ [quote] ++ r = raw' ++ [quote] ++ r' := (List.cons.inj hText).2
  have hClosing := closing_append closed r
  rw [hEq, closing_append closed' r'] at hClosing
  cases hClosing
  exact ⟨rfl, rfl⟩

def lead (c : UInt8) : Nat :=
  if c = 'n'.toUInt8 then 0 else if c = quote then 2 else if c = lbracket then 3 else 1

def Lit.lead : Lit → Nat
  | .null => 0
  | .int _ => 1
  | .quoted _ => 2
  | .array _ => 3

theorem Lit.head_text (t : Lit) (r : Bytes) : ∃ c s, t.text ++ r = c :: s ∧ Config.lead c = t.lead ∧ c ≠ rbracket := by
  cases t with
  | null | quoted t | array es => exact ⟨_, _, rfl, rfl, by decide⟩
  | int t =>
    obtain ⟨negative, digits, nonempty, hDigits⟩ := t
    cases negative with
    | true => exact ⟨_, _, rfl, rfl, by decide⟩
    | false =>
      obtain ⟨c, s, rfl⟩ := List.exists_cons_of_ne_nil nonempty
      have hc := hDigits c List.mem_cons_self
      have hOther : ∀ d, Config.isDigit d = false → c ≠ d := by
        rintro d hd rfl
        rw [hd] at hc
        cases hc
      refine ⟨c, _, rfl, ?_, hOther _ (by decide)⟩
      rw [Config.lead, if_neg (hOther _ (by decide)), if_neg (hOther _ (by decide)), if_neg (hOther _ (by decide))]
      rfl

theorem Lit.lead_eq {t t' : Lit} {r r' : Bytes} (hText : t.text ++ r = t'.text ++ r') : t.lead = t'.lead := by
  obtain ⟨c, s, hc, hLead, _⟩ := t.head_text r
  obtain ⟨c', s', hc', hLead', _⟩ := t'.head_text r'
  rw [hc, hc'] at hText
  cases hText
  rw [← hLead, hLead']

theorem apart_cons {c : UInt8} {r : Bytes} (hc : isDigit c = false) : Apart (c :: r) := by
  intro d hd
  cases hd
  exact hc

theorem apart_elements (es : Elements) (r : Bytes) : Apart (es.text [comma] ++ rbracket :: r) := by
  cases es with
  | nil | value v rest | pair k v rest => exact apart_cons (by decide)

theorem apart_arrow (s : Bytes) : Apart (arrow ++ s) := apart_cons (by decide)

theorem elements_ne_arrow (es : Elements) (r s : Bytes) : es.text [comma] ++ rbracket :: r ≠ arrow ++ s := by
  intro hEq
  cases es with
  | nil | value v rest | pair k v rest => exact absurd (List.cons.inj hEq).1 (by decide)

theorem element_ne_rbracket {sep : Bytes} (hSep : sep = [] ∨ sep = [comma]) (t : Lit) (s r : Bytes) :
    sep ++ (t.text ++ s) ≠ rbracket :: r := by
  intro hEq
  rcases hSep with rfl | rfl
  · obtain ⟨c, s', hc, _, hNot⟩ := t.head_text s
    rw [List.nil_append, hc] at hEq
    exact hNot (List.cons.inj hEq).1
  · exact absurd (List.cons.inj hEq).1 (by decide)

mutual

theorem Lit.text_append_inj (t t' : Lit) {r r' : Bytes} (hr : Apart r) (hr' : Apart r')
    (hText : t.text ++ r = t'.text ++ r') : t = t' ∧ r = r' := by
  have hLead := Lit.lead_eq hText
  cases t with
  | null =>
    cases t' <;> cases hLead
    exact ⟨rfl, List.append_cancel_left hText⟩
  | int t =>
    cases t' <;> cases hLead
    obtain ⟨rfl, rfl⟩ := IntToken.text_append_inj hr hr' hText
    exact ⟨rfl, rfl⟩
  | quoted t =>
    cases t' <;> cases hLead
    obtain ⟨rfl, rfl⟩ := QuotedToken.text_append_inj hText
    exact ⟨rfl, rfl⟩
  | array es =>
    cases t' with
    | array es' =>
      have hInner : es.text [] ++ [rbracket] ++ r = es'.text [] ++ [rbracket] ++ r' := (List.cons.inj hText).2
      rw [List.append_assoc, List.append_assoc] at hInner
      obtain ⟨rfl, rfl⟩ := Elements.text_append_inj es es' (.inl rfl) hInner
      exact ⟨rfl, rfl⟩
    | null | int t | quoted t => cases hLead

theorem Elements.text_append_inj (es es' : Elements) {sep r r' : Bytes} (hSep : sep = [] ∨ sep = [comma])
    (hText : es.text sep ++ rbracket :: r = es'.text sep ++ rbracket :: r') : es = es' ∧ r = r' := by
  cases es with
  | nil =>
    cases es' with
    | nil => exact ⟨rfl, (List.cons.inj hText).2⟩
    | value v' rest' =>
      simp only [Elements.text, List.append_assoc, List.nil_append] at hText
      exact absurd hText.symm (element_ne_rbracket hSep v' _ r)
    | pair k' v' rest' =>
      simp only [Elements.text, List.append_assoc, List.nil_append] at hText
      exact absurd hText.symm (element_ne_rbracket hSep k' _ r)
  | value v rest =>
    cases es' with
    | nil =>
      simp only [Elements.text, List.append_assoc, List.nil_append] at hText
      exact absurd hText (element_ne_rbracket hSep v _ r')
    | value v' rest' =>
      simp only [Elements.text, List.append_assoc] at hText
      obtain ⟨rfl, hRest⟩ := Lit.text_append_inj v v' (apart_elements rest r) (apart_elements rest' r')
        (List.append_cancel_left hText)
      obtain ⟨rfl, rfl⟩ := Elements.text_append_inj rest rest' (.inr rfl) hRest
      exact ⟨rfl, rfl⟩
    | pair k' v' rest' =>
      simp only [Elements.text, List.append_assoc] at hText
      obtain ⟨_, hRest⟩ := Lit.text_append_inj v k' (apart_elements rest r) (apart_arrow _)
        (List.append_cancel_left hText)
      exact absurd hRest (elements_ne_arrow rest r _)
  | pair k v rest =>
    cases es' with
    | nil =>
      simp only [Elements.text, List.append_assoc, List.nil_append] at hText
      exact absurd hText (element_ne_rbracket hSep k _ r')
    | value v' rest' =>
      simp only [Elements.text, List.append_assoc] at hText
      obtain ⟨_, hRest⟩ := Lit.text_append_inj k v' (apart_arrow _) (apart_elements rest' r')
        (List.append_cancel_left hText)
      exact absurd hRest.symm (elements_ne_arrow rest' r' _)
    | pair k' v' rest' =>
      simp only [Elements.text, List.append_assoc] at hText
      obtain ⟨rfl, hValue⟩ := Lit.text_append_inj k k' (apart_arrow _) (apart_arrow _)
        (List.append_cancel_left hText)
      obtain ⟨rfl, hRest⟩ := Lit.text_append_inj v v' (apart_elements rest r) (apart_elements rest' r')
        (List.append_cancel_left hValue)
      obtain ⟨rfl, rfl⟩ := Elements.text_append_inj rest rest' (.inr rfl) hRest
      exact ⟨rfl, rfl⟩

end

theorem apart_nil : Apart [] := nofun

theorem Lit.text_injective : Function.Injective Lit.text := by
  intro t t' hText
  refine (Lit.text_append_inj t t' apart_nil apart_nil ?_).1
  rw [hText]

/-! ## The tree of a value -/

theorem isDigit_toUInt8 {c : Char} (hc : c.isDigit = true) : isDigit c.toUInt8 = true ∧ c.toUInt8.toNat = c.toNat := by
  obtain ⟨hLower, hUpper⟩ := Char.isDigit_iff_toNat.mp hc
  have hNat : c.toUInt8.toNat = c.toNat := by
    have hNine : c.toNat ≤ 57 := hUpper
    change c.toNat % 256 = c.toNat
    omega
  refine ⟨?_, hNat⟩
  simp only [isDigit, Bool.and_eq_true, decide_eq_true_eq, UInt8.le_iff_toNat_le, hNat]
  exact ⟨hLower, hUpper⟩

def IntToken.ofInt (n : Int) : IntToken where
  negative := n < 0
  digits := (Nat.toDigits 10 n.natAbs).map Char.toUInt8
  nonempty := by simp
  isDigit := by
    intro c hc
    obtain ⟨d, hd, rfl⟩ := List.mem_map.mp hc
    exact (isDigit_toUInt8 (Nat.isDigit_of_mem_toDigits (by decide) (by decide) hd)).1

theorem IntToken.text_ofInt (n : Int) : (IntToken.ofInt n).text = decimal n := by
  by_cases hn : n < 0 <;> simp [IntToken.text, IntToken.ofInt, decimal, minus, hn]

def QuotedToken.ofBytes (s : Bytes) : QuotedToken := ⟨strEscape s, closing_strEscape s []⟩

def Value.scalar : Value → Lit
  | .str s => .quoted (.ofBytes s)
  | .int n => .int (.ofInt n)
  | _ => .null

mutual

def Value.lit : Value → Lit
  | .array items => .array (items.elements 0)
  | v => v.scalar

def Items.elements (i : Nat) : Items → Elements
  | .nil => .nil
  | .cons k v rest =>
    if k ≠ .int i then .pair k.value.scalar v.lit (rest.elements (i + 1))
    else .value v.lit (rest.elements (i + 1))

end

theorem text_scalar (v : Value) : v.scalar.text = buildScalar v := by
  cases v with
  | str s => rfl
  | int n => exact IntToken.text_ofInt n
  | null | array items | other => rfl

/-! ## The trimmed comma -/

theorem rtrim_append {s : Bytes} {c : UInt8} (hs : s.getLast? ≠ some c) : rtrim (s ++ [c]) c = s := by
  rw [rtrim, List.reverse_append, List.reverse_singleton, List.singleton_append, List.dropWhile_cons, if_pos (by simp)]
  cases hRev : s.reverse with
  | nil => simpa using hRev
  | cons d t =>
    have hLast : s.getLast? = some d := by rw [← List.head?_reverse, hRev]; rfl
    rw [List.dropWhile_cons, if_neg, ← hRev, List.reverse_reverse]
    rintro hd
    exact hs (hLast.trans (congrArg some (by simpa using hd)))

theorem Lit.last_text (t : Lit) : ∃ s c, t.text = s ++ [c] ∧ c ≠ comma := by
  cases t with
  | null => exact ⟨ascii "nul", 'l'.toUInt8, rfl, by decide⟩
  | quoted t => exact ⟨quote :: t.raw, quote, rfl, by decide⟩
  | array es => exact ⟨lbracket :: es.text [], rbracket, rfl, by decide⟩
  | int t =>
    obtain ⟨negative, digits, nonempty, hDigits⟩ := t
    refine ⟨(if negative then [minus] else []) ++ digits.dropLast, digits.getLast nonempty, ?_, ?_⟩
    · rw [Lit.text, IntToken.text, List.append_assoc, List.dropLast_append_getLast]
    · intro hComma
      have hDigit := hDigits _ (List.getLast_mem nonempty)
      rw [hComma] at hDigit
      exact absurd hDigit (by decide)

theorem Elements.last_text (es : Elements) {s : Bytes} (sep : Bytes) (hs : s.getLast? ≠ some comma) :
    (s ++ es.text sep).getLast? ≠ some comma := by
  have hLit : ∀ (s : Bytes) (t : Lit), (s ++ t.text).getLast? ≠ some comma := by
    intro s t
    obtain ⟨s', c, hText, hc⟩ := t.last_text
    rw [hText, ← List.append_assoc, List.getLast?_concat]
    exact fun h => hc (Option.some.inj h)
  match es with
  | .nil => rwa [Elements.text, List.append_nil]
  | .value v rest =>
    rw [Elements.text, ← List.append_assoc, ← List.append_assoc]
    exact rest.last_text [comma] (hLit _ v)
  | .pair k v rest =>
    rw [Elements.text, ← List.append_assoc, ← List.append_assoc, ← List.append_assoc, ← List.append_assoc]
    exact rest.last_text [comma] (hLit _ v)

/-- What the loop has written is the text of the elements and one more comma. -/
def Trimmed (i : Nat) (items : Items) : Prop :=
  comma :: buildItems i items = (items.elements i).text [comma] ++ [comma]

theorem Trimmed.text_cons {k : Key} {v : Value} {rest : Items} (hItems : Trimmed 0 (.cons k v rest)) :
    buildItems 0 (.cons k v rest) = (Items.elements 0 (.cons k v rest)).text [] ++ [comma] := by
  have hSep : (Items.elements 0 (.cons k v rest)).text [comma] = comma :: (Items.elements 0 (.cons k v rest)).text [] := by
    rw [Items.elements]
    split <;> rfl
  rw [Trimmed, hSep] at hItems
  exact (List.cons.inj hItems).2

theorem Trimmed.rtrim_eq {items : Items} (hItems : Trimmed 0 items) :
    rtrim (lbracket :: buildItems 0 items) comma = lbracket :: (items.elements 0).text [] := by
  have hLast := (items.elements 0).last_text (s := [lbracket]) [] (by decide)
  cases items with
  | nil => decide
  | cons k v rest =>
    rw [hItems.text_cons]
    exact rtrim_append hLast

mutual

theorem Value.text_lit (v : Value) : v.lit.text = buildData v := by
  cases v with
  | array items =>
    rw [buildData, (items.trimmed 0).rtrim_eq]
    rfl
  | null => exact text_scalar .null
  | int n => exact text_scalar (.int n)
  | str s => exact text_scalar (.str s)
  | other => exact text_scalar .other

theorem Items.trimmed (items : Items) (i : Nat) : Trimmed i items := by
  cases items with
  | nil => rfl
  | cons k v rest =>
    have hRest : comma :: buildItems (i + 1) rest = (rest.elements (i + 1)).text [comma] ++ [comma] := rest.trimmed (i + 1)
    rw [Trimmed, buildItems, Items.elements]
    split
    · rw [Elements.text, text_scalar, v.text_lit]
      simp [hRest]
    · rw [Elements.text, v.text_lit]
      simp [hRest]

end

/-! ## Shapes -/

inductive Shape
  | leaf
  | node (children : List Shape)

mutual

def Value.shape : Value → Shape
  | .array items => .node items.shapes
  | _ => .leaf

def Items.shapes : Items → List Shape
  | .nil => []
  | .cons _ v rest => v.shape :: rest.shapes

end

mutual

def Lit.shape : Lit → Shape
  | .array es => .node es.shapes
  | _ => .leaf

def Elements.shapes : Elements → List Shape
  | .nil => []
  | .value v rest => v.shape :: rest.shapes
  | .pair _ v rest => v.shape :: rest.shapes

end

mutual

theorem Value.shape_lit (v : Value) : v.lit.shape = v.shape := by
  cases v with
  | array items => exact congrArg Shape.node (items.shapes_elements 0)
  | null | int n | str s | other => rfl

theorem Items.shapes_elements (items : Items) (i : Nat) : (items.elements i).shapes = items.shapes := by
  cases items with
  | nil => rfl
  | cons k v rest =>
    rw [Items.elements]
    split <;> rw [Elements.shapes, v.shape_lit, rest.shapes_elements (i + 1), Items.shapes]

end

/-- One tree has the text, of the value's shape; a string's token ends where it should, and
of an array that is not empty exactly the last comma goes. -/
theorem buildData_delimited (v : Value) :
    (∃ t : Lit, t.shape = v.shape ∧ ∀ t' : Lit, t'.text = buildData v ↔ t' = t) ∧
      (∀ s rest, closing false (strEscape s ++ quote :: rest) = some (strEscape s, rest)) ∧
      ∀ k x rest, rtrim (lbracket :: buildItems 0 (.cons k x rest)) comma ++ [comma] =
        lbracket :: buildItems 0 (.cons k x rest) := by
  refine ⟨⟨v.lit, v.shape_lit, fun t' => ?_⟩, closing_strEscape, fun k x rest => ?_⟩
  · rw [← v.text_lit]
    exact Lit.text_injective.eq_iff
  · rw [(Items.trimmed _ 0).rtrim_eq, (Items.trimmed _ 0).text_cons]
    rfl

end TeaBot.Config
