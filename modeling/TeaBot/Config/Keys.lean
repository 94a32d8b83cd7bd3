import TeaBot.Config.Literal

/-! # The keys of a generated array

An element whose key is its position is written without the key, and PHP then gives it one
more than the largest integer key before it.
-/

namespace TeaBot.Config

/-- The keys of an array in order, with those of the arrays below. -/
inductive KeyTree
  | leaf
  | array (entries : List (Key × KeyTree))

mutual

def Value.keys : Value → KeyTree
  | .array items => .array items.entries
  | _ => .leaf

def Items.entries : Items → List (Key × KeyTree)
  | .nil => []
  | .cons k v rest => (k, v.keys) :: rest.entries

end

def Items.keyList : Items → List Key
  | .nil => []
  | .cons k _ rest => k :: rest.keyList

mutual

def Value.Distinct : Value → Prop
  | .array items => items.keyList.Nodup ∧ items.Distinct
  | _ => True

def Items.Distinct : Items → Prop
  | .nil => True
  | .cons _ v rest => v.Distinct ∧ rest.Distinct

end

/-- No array of PHP has a key twice. -/
structure PhpArray where
  items : Items
  distinct : (Value.array items).Distinct

/-! ## Evaluation -/

def IntToken.value (t : IntToken) : Int :=
  let n := t.digits.foldl (fun n c => 10 * n + (c.toNat - '0'.toNat)) 0
  if t.negative then -n else n

/-- The key a literal stands for. `null` is the empty string, an array is no key. -/
def Lit.key : Lit → Option Key
  | .null => some (.ofString [])
  | .int t => some (.int t.value)
  | .quoted t => (evaluate t.text).toOption.map Key.ofString
  | .array _ => none

def largest : List Key → Option Int
  | [] => none
  | .int n :: ks => some ((largest ks).elim n (max n))
  | .str _ _ :: ks => largest ks

def nextKey (ks : List Key) : Int := (largest ks).elim 0 (· + 1)

/-- `$a[$k] = $v`: in place where the key exists, at the end otherwise. -/
def assign (entries : List (Key × KeyTree)) (k : Key) (v : KeyTree) : List (Key × KeyTree) :=
  if k ∈ entries.map Prod.fst then entries.map fun e => if e.1 = k then (k, v) else e else entries ++ [(k, v)]

mutual

def Lit.keys : Lit → Option KeyTree
  | .array es => (es.entries []).map .array
  | _ => some .leaf

def Elements.entries (sofar : List (Key × KeyTree)) : Elements → Option (List (Key × KeyTree))
  | .nil => some sofar
  | .value v rest => v.keys.bind fun t => rest.entries (assign sofar (.int (nextKey (sofar.map Prod.fst))) t)
  | .pair k v rest => k.key.bind fun key => v.keys.bind fun t => rest.entries (assign sofar key t)

end

/-- A text is a literal with these keys. -/
def Evaluates (text : Bytes) (keys : KeyTree) : Prop := ∃ t : Lit, t.text = text ∧ t.keys = some keys

/-! ## The arrays that come back -/

/-- No dollar in a string key. -/
def Key.plain : Key → Prop
  | .int _ => True
  | .str s _ => dollar ∉ s

mutual

def Value.Regular : Value → Prop
  | .array items => items.Regular 0 []
  | _ => True

/-- A key that is left out is the one PHP gives the element. -/
def Items.Regular (i : Nat) (before : List Key) : Items → Prop
  | .nil => True
  | .cons k v rest =>
    (k = .int i → nextKey before = i) ∧ k.plain ∧ v.Regular ∧ rest.Regular (i + 1) (before ++ [k])

end

theorem foldl_digits {cs : List Char} (hDigits : ∀ c ∈ cs, c.isDigit = true) (n : Nat) :
    (cs.map Char.toUInt8).foldl (fun n c => 10 * n + (c.toNat - '0'.toNat)) n = Nat.ofDigitChars 10 cs n := by
  rw [List.foldl_map, Nat.ofDigitChars_eq_foldl]
  refine List.foldl_ext _ _ n fun n c hc => ?_
  rw [(isDigit_toUInt8 (hDigits c hc)).2]

theorem IntToken.value_ofInt (n : Int) : (IntToken.ofInt n).value = n := by
  have hDigits : ∀ c ∈ Nat.toDigits 10 n.natAbs, c.isDigit = true := fun c hc =>
    Nat.isDigit_of_mem_toDigits (by decide) (by decide) hc
  rw [IntToken.value, IntToken.ofInt, foldl_digits hDigits, Nat.ofDigitChars_ten_toDigits]
  by_cases hn : n < 0
  · rw [decide_eq_true hn, if_pos rfl]
    omega
  · rw [decide_eq_false hn, if_neg Bool.false_ne_true]
    omega

theorem Key.ofString_str (s : Bytes) (h : integerKey s = none) : Key.ofString s = .str s h := by
  unfold Key.ofString
  split
  · simp_all
  · rfl

theorem Key.ofString_eq_str {s s' : Bytes} {h : integerKey s = none} (hKey : Key.ofString s' = .str s h) : s' = s := by
  unfold Key.ofString at hKey
  split at hKey
  · cases hKey
  · exact (Key.str.inj hKey)

theorem Key.key_scalar_iff (k : Key) : k.value.scalar.key = some k ↔ k.plain := by
  cases k with
  | int n => simp [Key.value, Value.scalar, Lit.key, IntToken.value_ofInt, Key.plain]
  | str s h =>
    change (evaluate (literal s)).toOption.map Key.ofString = some (.str s h) ↔ dollar ∉ s
    constructor
    · intro hKey
      obtain ⟨s', hValue, hString⟩ := Option.map_eq_some_iff.mp hKey
      obtain rfl := Key.ofString_eq_str hString
      refine dollar_notMem_of_evaluate ?_
      cases hEvaluate : evaluate (literal s') with
      | error e => rw [hEvaluate] at hValue; cases hValue
      | ok s =>
        rw [hEvaluate] at hValue
        rw [Option.some.inj hValue]
    · intro hs
      rw [evaluate_literal_eq hs]
      exact congrArg some (Key.ofString_str s h)

/-! ## No element may overwrite another -/

def Elements.length : Elements → Nat
  | .nil => 0
  | .value _ rest => rest.length + 1
  | .pair _ _ rest => rest.length + 1

variable {k : Key}

theorem assign_of_notMem {entries : List (Key × KeyTree)} {v : KeyTree} (hk : k ∉ entries.map Prod.fst) :
    assign entries k v = entries ++ [(k, v)] := if_neg hk

theorem length_assign_of_mem {entries : List (Key × KeyTree)} {v : KeyTree} (hk : k ∈ entries.map Prod.fst) :
    (assign entries k v).length = entries.length := by
  rw [assign, if_pos hk, List.length_map]

/-- The entries grow by one with each element at most, and keep those before if they do. -/
theorem Elements.entries_prefix (es : Elements) {sofar out : List (Key × KeyTree)}
    (hOut : es.entries sofar = some out) :
    out.length ≤ sofar.length + es.length ∧ (out.length = sofar.length + es.length → sofar <+: out) := by
  have hStep : ∀ {rest : Elements} {k : Key} {v : KeyTree}, (∀ {sofar : List (Key × KeyTree)},
      rest.entries sofar = some out → out.length ≤ sofar.length + rest.length ∧
        (out.length = sofar.length + rest.length → sofar <+: out)) → rest.entries (assign sofar k v) = some out →
      out.length ≤ sofar.length + (rest.length + 1) ∧
        (out.length = sofar.length + (rest.length + 1) → sofar <+: out) := by
    intro rest k v ih hRest
    obtain ⟨hLe, hPrefix⟩ := ih hRest
    by_cases hk : k ∈ sofar.map Prod.fst
    · rw [length_assign_of_mem hk] at hLe
      exact ⟨by omega, fun hEq => by omega⟩
    · rw [assign_of_notMem hk, List.length_append, List.length_singleton] at hLe hPrefix
      exact ⟨by omega, fun hEq => (List.prefix_append sofar _).trans (hPrefix (by omega))⟩
  match es with
  | .nil =>
    cases hOut
    exact ⟨le_rfl, fun _ => List.prefix_rfl⟩
  | .value v rest =>
    obtain ⟨t, _, hRest⟩ := Option.bind_eq_some_iff.mp hOut
    exact hStep rest.entries_prefix hRest
  | .pair k v rest =>
    obtain ⟨key, _, hValue⟩ := Option.bind_eq_some_iff.mp hOut
    obtain ⟨t, _, hRest⟩ := Option.bind_eq_some_iff.mp hValue
    exact hStep rest.entries_prefix hRest

theorem Items.length_elements (items : Items) (i : Nat) : (items.elements i).length = items.entries.length := by
  match items with
  | .nil => rfl
  | .cons k v rest =>
    rw [Items.elements]
    split <;> rw [Elements.length, rest.length_elements (i + 1), Items.entries, List.length_cons]

/-- The key the element of `k` at position `i` gets. -/
def Key.given (k : Key) (i : Nat) (before : List Key) : Option Key :=
  if k ≠ .int i then k.value.scalar.key else some (.int (nextKey before))

theorem Key.given_iff (k : Key) (i : Nat) (before : List Key) :
    k.given i before = some k ↔ (k = .int i → nextKey before = i) ∧ k.plain := by
  by_cases hk : k = .int i
  · subst hk
    simp [Key.given, Key.plain]
  · rw [Key.given, if_pos hk, Key.key_scalar_iff]
    exact ⟨fun hPlain => ⟨fun hEq => absurd hEq hk, hPlain⟩, And.right⟩

theorem Items.entries_cons (k : Key) (v : Value) (rest : Items) (i : Nat) (sofar : List (Key × KeyTree)) :
    (Items.elements i (.cons k v rest)).entries sofar =
      (k.given i (sofar.map Prod.fst)).bind fun key => v.lit.keys.bind fun t =>
        (rest.elements (i + 1)).entries (assign sofar key t) := by
  rw [Items.elements, Key.given]
  split <;> rfl

/-- All keys are the right ones or the entries are not. -/
theorem Items.entries_cons_iff {v : Value} {rest : Items} {i : Nat} {sofar : List (Key × KeyTree)}
    (hk : k ∉ sofar.map Prod.fst) :
    (Items.elements i (.cons k v rest)).entries sofar = some (sofar ++ Items.entries (.cons k v rest)) ↔
      k.given i (sofar.map Prod.fst) = some k ∧ v.lit.keys = some v.keys ∧
        (rest.elements (i + 1)).entries (sofar ++ [(k, v.keys)]) = some (sofar ++ [(k, v.keys)] ++ rest.entries) := by
  rw [Items.entries_cons, Items.entries, List.append_cons]
  constructor
  · intro hAll
    obtain ⟨key, hKey, hValue⟩ := Option.bind_eq_some_iff.mp hAll
    obtain ⟨t, ht, hRest⟩ := Option.bind_eq_some_iff.mp hValue
    obtain ⟨hLe, hPrefix⟩ := Elements.entries_prefix _ hRest
    simp only [List.length_append, List.length_singleton, rest.length_elements] at hLe hPrefix
    by_cases hMem : key ∈ sofar.map Prod.fst
    · rw [length_assign_of_mem hMem] at hLe
      omega
    · rw [assign_of_notMem hMem] at hRest hPrefix
      rw [List.length_append, List.length_singleton] at hPrefix
      have hEntry : sofar ++ [(key, t)] = sofar ++ [(k, v.keys)] := by
        refine (List.prefix_of_prefix_length_le (hPrefix rfl) (List.prefix_append _ _) ?_).eq_of_length ?_ <;> simp
      obtain ⟨rfl, rfl⟩ := Prod.mk.inj (List.singleton_inj.mp (List.append_cancel_left hEntry))
      exact ⟨hKey, ht, hRest⟩
  · rintro ⟨hKey, ht, hRest⟩
    rw [hKey, ht, Option.bind_some, Option.bind_some, assign_of_notMem hk, hRest]

mutual

theorem Value.keys_lit_iff (v : Value) (hDistinct : v.Distinct) : v.lit.keys = some v.keys ↔ v.Regular := by
  cases v with
  | array items =>
    obtain ⟨hNodup, hBelow⟩ := hDistinct
    refine Iff.trans ?_ (items.entries_iff 0 [] hNodup hBelow)
    change ((items.elements 0).entries []).map KeyTree.array = some (.array items.entries) ↔ _
    simp
  | null | int n | str s | other => exact ⟨fun _ => trivial, fun _ => rfl⟩

theorem Items.entries_iff (items : Items) (i : Nat) (sofar : List (Key × KeyTree))
    (hNodup : (sofar.map Prod.fst ++ items.keyList).Nodup) (hDistinct : items.Distinct) :
    (items.elements i).entries sofar = some (sofar ++ items.entries) ↔ items.Regular i (sofar.map Prod.fst) := by
  cases items with
  | nil => simp [Items.elements, Elements.entries, Items.entries, Items.Regular]
  | cons k v rest =>
    have hk : k ∉ sofar.map Prod.fst := fun hMem =>
      (List.nodup_append.mp hNodup).2.2 k hMem k List.mem_cons_self rfl
    have hKeys : (sofar ++ [(k, v.keys)]).map Prod.fst = sofar.map Prod.fst ++ [k] := by simp
    have hRest := rest.entries_iff (i + 1) (sofar ++ [(k, v.keys)])
      (by rw [hKeys, List.append_assoc]; exact hNodup) hDistinct.2
    rw [Items.entries_cons_iff hk, hRest, hKeys, v.keys_lit_iff hDistinct.1, Key.given_iff, Items.Regular, and_assoc]

end

theorem evaluates_iff (v : Value) (keys : KeyTree) : Evaluates (buildData v) keys ↔ v.lit.keys = some keys := by
  constructor
  · rintro ⟨t, hText, hKeys⟩
    rwa [Lit.text_injective (hText.trans v.text_lit.symm)] at hKeys
  · exact fun hKeys => ⟨v.lit, v.text_lit, hKeys⟩

/-- The literal of an array has the array's keys exactly where PHP would give each left-out
key, and no string key has a dollar. -/
theorem array_keys_iff (a : PhpArray) :
    Evaluates (buildData (.array a.items)) (Value.array a.items).keys ↔ a.items.Regular 0 [] := by
  rw [evaluates_iff]
  exact Value.keys_lit_iff _ a.distinct

/-- The array `[5 => null, 1 => null]`, written as `[5=>null,null]`. -/
def outOfOrder : PhpArray := ⟨.cons (.int 5) .null (.cons (.int 1) .null .nil), by decide, trivial, trivial, trivial⟩

theorem outOfOrder_keys : buildData (.array outOfOrder.items) = ascii "[5=>null,null]" ∧
    Evaluates (buildData (.array outOfOrder.items)) (.array [(.int 5, .leaf), (.int 6, .leaf)]) ∧
      ¬ Evaluates (buildData (.array outOfOrder.items)) (Value.array outOfOrder.items).keys := by
  refine ⟨by decide +kernel, (evaluates_iff _ _).mpr rfl, fun hKeys => ?_⟩
  have hSame := (evaluates_iff _ _).mp hKeys
  cases hSame

end TeaBot.Config
