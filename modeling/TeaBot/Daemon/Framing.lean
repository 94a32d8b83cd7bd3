import TeaBot.Foundation.Stream
import TeaBot.Php

/-! # From the webhook to a logger worker

`r1.php` frames the request body, the master's `conn_handler` reads the frame and relays
it, and the worker's `logger_handler` reads it and takes off the length.
-/

namespace TeaBot.Daemon

open Foundation.Stream

/-- `pack("S", $n)`: two bytes in machine order. -/
def packS (n : Nat) : Bytes := [UInt8.ofNat n, UInt8.ofNat (n / 256)]

/-- `unpack("S", $s)[1]` for a string of at most two bytes. When one is missing `unpack`
warns and returns `false`, and `false[1]` is `null`. -/
def unpackS : Bytes → Option Nat
  | [a, b] => some (a.toNat + 256 * b.toNat)
  | _ => none

/-- What the webhook sends. -/
def frame (body : Bytes) : Bytes := packS body.length ++ body

/-- `$dataLen > $receivedLen`; `null` is not greater than any number. -/
def exceeds : Option Nat → Int → Bool
  | some n, receivedLen => receivedLen < n
  | none, _ => false

/-- The loop both handlers have. -/
def readMore (dataLen : Option Nat) : Nat → Bytes → Int → List Bytes → Option Bytes
  | 0, _, _, _ => none
  | fuel + 1, rawData, receivedLen, conn =>
    if exceeds dataLen receivedLen then
      let rawData := rawData ++ (fread conn).1
      readMore dataLen fuel rawData rawData.length (fread conn).2
    else some rawData

/-- What `conn_handler` hands to `send_to_logger`, which writes it as it is. The header
counts as received data. -/
def connHandler (fuel : Nat) (conn : List Bytes) : Option Bytes :=
  let (rawData, conn) := fread conn
  readMore (unpackS (rawData.take 2)) fuel rawData rawData.length conn

/-- What `logger_handler` hands to `json_decode`. -/
def loggerHandler (fuel : Nat) (conn : List Bytes) : Option Bytes :=
  let (rawData, conn) := fread conn
  readMore (unpackS (rawData.take 2)) fuel (rawData.drop 2) (rawData.length - 2) conn

theorem readMore_none (fuel : Nat) (rawData : Bytes) (receivedLen : Int) (conn : List Bytes) :
    readMore none (fuel + 1) rawData receivedLen conn = some rawData := by
  simp [readMore, exceeds]

theorem readMore_some (n fuel : Nat) (rawData : Bytes) (conn : List Bytes) :
    readMore (some n) fuel rawData rawData.length conn = readUntil n fuel rawData conn := by
  induction fuel generalizing rawData conn with
  | zero => rfl
  | succ fuel ih =>
    have hExceeds : exceeds (some n) rawData.length = decide (rawData.length < n) := by
      simp [exceeds]
    simp only [readMore, readUntil, hExceeds, decide_eq_true_eq, ih]

theorem readMore_unique {dataLen : Option Nat} {fuel fuel' : Nat} {rawData out out' : Bytes} {receivedLen : Int}
    {conn : List Bytes} (h : readMore dataLen fuel rawData receivedLen conn = some out)
    (h' : readMore dataLen fuel' rawData receivedLen conn = some out') : out = out' := by
  induction fuel generalizing fuel' rawData receivedLen conn with
  | zero => cases h
  | succ fuel ih =>
    cases fuel' with
    | zero => cases h'
    | succ fuel' =>
      rw [readMore] at h h'
      split at h
      · rename_i hMore
        rw [if_pos hMore] at h'
        exact ih h h'
      · rename_i hEnough
        rw [if_neg hEnough] at h'
        exact Option.some.inj (h.symm.trans h')

/-! ## The first read -/

variable {c : Bytes}

theorem connHandler_short (fuel : Nat) (h : c.length < 2) (cs : List Bytes) :
    connHandler (fuel + 1) (c :: cs) = some c := by
  match c, h with
  | [], _ => exact readMore_none ..
  | [a], _ => exact readMore_none ..

theorem loggerHandler_short (fuel : Nat) (h : c.length < 2) (cs : List Bytes) :
    loggerHandler (fuel + 1) (c :: cs) = some [] := by
  match c, h with
  | [], _ => exact readMore_none ..
  | [a], _ => exact readMore_none ..

theorem connHandler_header (fuel : Nat) (a b : UInt8) (c : Bytes) (cs : List Bytes) :
    connHandler fuel ((a :: b :: c) :: cs) = readUntil (a.toNat + 256 * b.toNat) fuel (a :: b :: c) cs := by
  rw [← readMore_some]
  rfl

theorem loggerHandler_header (fuel : Nat) (a b : UInt8) (c : Bytes) (cs : List Bytes) :
    loggerHandler fuel ((a :: b :: c) :: cs) = readUntil (a.toNat + 256 * b.toNat) fuel c cs := by
  have hLength : ((a :: b :: c).length : Int) - 2 = c.length := by
    simp only [List.length_cons]
    omega
  rw [← readMore_some, ← hLength]
  rfl

theorem length_of_loggerHandler {fuel : Nat} {conn : List Bytes} {out : Bytes}
    (h : loggerHandler fuel conn = some out) : out.length ≤ conn.flatten.length - 2 := by
  cases fuel with
  | zero =>
    cases conn <;> simp [loggerHandler, readMore] at h
  | succ fuel =>
    match conn with
    | [] =>
      have hNone : loggerHandler (fuel + 1) [] = some [] := readMore_none ..
      cases hNone.symm.trans h
      simp
    | [] :: cs =>
      cases (loggerHandler_short fuel (by simp) cs).symm.trans h
      simp
    | [a] :: cs =>
      cases (loggerHandler_short fuel (by simp) cs).symm.trans h
      simp
    | (a :: b :: c) :: cs =>
      rw [loggerHandler_header] at h
      have hLe := readUntil_length h
      simp only [List.flatten_cons, List.length_append, List.length_cons]
      omega

variable {r : Bytes}

section Hops

variable {body : Bytes} {cs : List Bytes}

theorem length_frame (body : Bytes) : (frame body).length = body.length + 2 := by
  simp [frame, packS]

theorem first_read {limit : Nat} (hCut : Cut limit (c :: cs) (frame body)) (h : 2 ≤ c.length) :
    ∃ c', c = UInt8.ofNat body.length :: UInt8.ofNat (body.length / 256) :: c' ∧ c' ++ cs.flatten = body := by
  obtain ⟨a, b, c', rfl⟩ : ∃ a b c', c = a :: b :: c' := by
    match c, h with
    | a :: b :: c', _ => exact ⟨a, b, c', rfl⟩
  have hFlat := hCut.flatten
  simp only [List.flatten_cons, List.cons_append, frame, packS, List.nil_append, List.cons.injEq] at hFlat
  obtain ⟨rfl, rfl, hRest⟩ := hFlat
  exact ⟨c', rfl, hRest⟩

theorem header_eq (n : Nat) : (UInt8.ofNat n).toNat + 256 * (UInt8.ofNat (n / 256)).toNat = n % 65536 := by
  simp only [UInt8.toNat_ofNat']
  omega

/-- The master gets the whole frame: its length fits, the first read has the header, and
the last read, if there is more than one, is longer than the header that was counted
as received. -/
def Relayed (body : Bytes) (cs : List Bytes) : Prop :=
  body.length ≤ 65535 ∧ 2 ≤ (cs.headD []).length ∧ (cs.length = 1 ∨ 3 ≤ (cs.getLastD []).length)

theorem relayed_iff {rest : List Bytes} {n k : Nat} (hn : n = body.length % 65536)
    (hCut : Cut 4096 (c :: rest) (frame body)) (hFirst : 2 ≤ c.length) (hk : k ≤ rest.length)
    (hLong : n ≤ (c ++ (rest.take k).flatten).length) (hShort : ∀ i < k, (c ++ (rest.take i).flatten).length < n) :
    c ++ (rest.take k).flatten = frame body ↔ Relayed body (c :: rest) := by
  have hLength : c.length + rest.flatten.length = body.length + 2 := by
    rw [← length_frame, ← hCut.flatten, List.flatten_cons, List.length_append]
  have hBound : ∀ x ∈ c :: rest, x.length ≤ 4096 := hCut.bounded
  rcases List.eq_nil_or_concat' rest with rfl | ⟨init, last, rfl⟩
  · -- one read: nothing is missing, and the body is small
    have hWhole : c = frame body := by simpa using hCut.flatten
    have hSmall := hBound c List.mem_cons_self
    simp only [List.flatten_nil, List.length_nil, Nat.add_zero] at hLength
    refine ⟨fun _ => ⟨by omega, hFirst, .inl rfl⟩, fun _ => by simpa using hWhole⟩
  · have hLast : (c :: (init ++ [last])).getLastD [] = last := by
      rw [← List.cons_append, List.getLastD_concat]
    have hLastBound := hBound last (by simp)
    simp only [List.flatten_append, List.flatten_singleton, List.length_append] at hLength
    simp only [List.length_append, List.length_singleton] at hk
    rw [Relayed, hLast, List.headD_cons]
    constructor
    · intro hFrame
      have hAll : (c ++ ((init ++ [last]).take k).flatten).length = body.length + 2 := by
        rw [hFrame, length_frame]
      -- reading stops before the last read unless it is needed
      have hEnd : k = init.length + 1 := by
        by_contra hNe
        have hInit : (init ++ [last]).take k = init.take k := List.take_append_of_le_length (by omega)
        have hPart := length_flatten_take_le k init
        have hPos : 0 < last.length := List.length_pos_iff.mpr (hCut.nonempty last (by simp))
        rw [hInit, List.length_append] at hAll
        omega
      have hBefore := hShort init.length (by omega)
      rw [List.take_left, List.length_append] at hBefore
      have hMod : body.length % 65536 ≤ body.length := Nat.mod_le _ _
      refine ⟨?_, hFirst, .inr (by omega)⟩
      have hDiv := Nat.mod_add_div body.length 65536
      omega
    · rintro ⟨hSmall, _, hOne | hThree⟩
      · simp at hOne
      · have hEnd : k = init.length + 1 := by
          by_contra hNe
          have hInit : (init ++ [last]).take k = init.take k := List.take_append_of_le_length (by omega)
          have hPart := length_flatten_take_le k init
          rw [hInit, List.length_append] at hLong
          omega
        have hAll : (init ++ [last]).take k = init ++ [last] := by
          rw [hEnd]
          exact List.take_of_length_le (by simp)
        rw [hAll]
        simpa using hCut.flatten

theorem connHandler_relays (hCut : Cut 4096 cs (frame body)) :
    ∃ fuel r, connHandler fuel cs = some r ∧ r <+: frame body ∧ r ≠ [] ∧ (r = frame body ↔ Relayed body cs) := by
  cases cs with
  | nil =>
    have hLength := congrArg List.length hCut.flatten
    simp [length_frame] at hLength
  | cons c rest =>
    have hNonempty : c ≠ [] := hCut.nonempty c List.mem_cons_self
    by_cases hFirst : 2 ≤ c.length
    · obtain ⟨c', hHead, hBody⟩ := first_read hCut hFirst
      have hEnough : body.length % 65536 ≤ c.length + rest.flatten.length := by
        have hMod := Nat.mod_le body.length 65536
        rw [← hBody, List.length_append] at hMod ⊢
        rw [hHead, List.length_cons, List.length_cons]
        omega
      obtain ⟨fuel, k, hRead, hk, hLong, hShort⟩ := readUntil_ends hEnough
      refine ⟨fuel, _, ?_, ⟨(rest.drop k).flatten, ?_⟩, ?_, relayed_iff rfl hCut hFirst hk hLong hShort⟩
      · rw [← hRead, hHead, connHandler_header, header_eq]
      · rw [List.append_assoc, ← List.flatten_append, List.take_append_drop]
        exact hCut.flatten
      · simp [hNonempty]
    · refine ⟨1, c, connHandler_short 0 (by omega) rest, ⟨rest.flatten, hCut.flatten⟩, hNonempty, ?_⟩
      constructor
      · intro hEq
        have hLength := length_frame body
        rw [← hEq] at hLength
        omega
      · rintro ⟨_, hTwo, _⟩
        exact absurd hTwo hFirst

theorem loggerHandler_hands (hCut : Cut 4096 cs r) (hPrefix : r <+: frame body) (hr : r ≠ []) (hBody : body ≠ [])
    (hSmall : r = frame body → body.length ≤ 65535) :
    (∃ fuel, loggerHandler fuel cs = some body) ↔ r = frame body ∧ 2 ≤ (cs.headD []).length := by
  cases cs with
  | nil => exact absurd hCut.flatten.symm hr
  | cons c rest =>
    constructor
    · rintro ⟨fuel, hHands⟩
      have hLe := length_of_loggerHandler hHands
      have hPos := List.length_pos_iff.mpr hBody
      rw [hCut.flatten] at hLe
      refine ⟨hPrefix.eq_of_length_le (by rw [length_frame]; omega), ?_⟩
      by_contra hFirst
      cases fuel with
      | zero => simp [loggerHandler, readMore] at hHands
      | succ fuel =>
        rw [loggerHandler_short fuel (by simpa using hFirst)] at hHands
        exact hBody (Option.some.inj hHands).symm
    · rintro ⟨rfl, hFirst⟩
      obtain ⟨c', hHead, hRest⟩ := first_read hCut hFirst
      have hLen : body.length % 65536 = body.length := Nat.mod_eq_of_lt (by have := hSmall rfl; omega)
      have hEnough : body.length ≤ c'.length + rest.flatten.length := by
        rw [← List.length_append]
        exact Nat.le_of_eq (congrArg List.length hRest).symm
      obtain ⟨fuel, k, hRead, _, hLong, _⟩ := readUntil_ends hEnough
      refine ⟨fuel, ?_⟩
      rw [hHead, loggerHandler_header, header_eq, hLen, hRead]
      have hPart : c' ++ (rest.take k).flatten <+: body := by
        refine ⟨(rest.drop k).flatten, ?_⟩
        rw [List.append_assoc, ← List.flatten_append, List.take_append_drop, hRest]
      rw [hPart.eq_of_length_le hLong]

theorem loggerHandler_empty (hCut : Cut 4096 cs r) (hPrefix : r <+: frame []) (hr : r ≠ []) :
    ∃ fuel, loggerHandler fuel cs = some [] := by
  cases cs with
  | nil => exact absurd hCut.flatten.symm hr
  | cons c rest =>
    by_cases hFirst : 2 ≤ c.length
    · have hFrame : r = frame [] := by
        refine hPrefix.eq_of_length_le ?_
        rw [← hCut.flatten, List.flatten_cons, List.length_append, length_frame, List.length_nil]
        omega
      rw [hFrame] at hCut
      obtain ⟨c', rfl, hRest⟩ := first_read hCut hFirst
      obtain ⟨rfl, _⟩ := List.append_eq_nil_iff.mp hRest
      refine ⟨1, ?_⟩
      rw [loggerHandler_header, header_eq]
      exact readUntil_of_le (Nat.zero_le _) 0 rest
    · exact ⟨1, loggerHandler_short 0 (by omega) rest⟩

end Hops

/-- When the body arrives: an empty one always does. -/
def Whole (body : Bytes) (cs₁ cs₂ : List Bytes) : Prop :=
  body = [] ∨ Relayed body cs₁ ∧ 2 ≤ (cs₂.headD []).length

theorem loggerHandler_hands_iff {body : Bytes} {cs₁ cs₂ : List Bytes} (hCut : Cut 4096 cs₂ r)
    (hPrefix : r <+: frame body) (hr : r ≠ []) (hRelayed : r = frame body ↔ Relayed body cs₁) :
    (∃ fuel, loggerHandler fuel cs₂ = some body) ↔ Whole body cs₁ cs₂ := by
  by_cases hBody : body = []
  · subst hBody
    exact ⟨fun _ => .inl rfl, fun _ => loggerHandler_empty hCut hPrefix hr⟩
  · rw [loggerHandler_hands hCut hPrefix hr hBody fun hEq => (hRelayed.mp hEq).1, hRelayed, Whole]
    simp [hBody]

/-- Whatever the cuts, the master relays something, and the worker hands exactly the body
to `json_decode` under the stated condition and under no other. -/
theorem framing_delivers_iff {body : Bytes} {cs₁ : List Bytes} (hCut : Cut 4096 cs₁ (frame body)) :
    ∃ fuel r, connHandler fuel cs₁ = some r ∧ ∀ cs₂, Cut 4096 cs₂ r →
      ((∃ fuel, loggerHandler fuel cs₂ = some body) ↔ Whole body cs₁ cs₂) := by
  obtain ⟨fuel, r, hRelay, hPrefix, hr, hRelayed⟩ := connHandler_relays hCut
  exact ⟨fuel, r, hRelay, fun cs₂ hCut₂ => loggerHandler_hands_iff hCut₂ hPrefix hr hRelayed⟩

/-- The frame of `[1]`, the header and the body in a read each. -/
def twoReads : List Bytes := [[3, 0], [0x5b, 0x31, 0x5d]]

theorem framing_delivers_whole : ∃ fuel r, connHandler fuel twoReads = some r ∧ ∀ cs₂, Cut 4096 cs₂ r →
    2 ≤ (cs₂.headD []).length → ∃ fuel, loggerHandler fuel cs₂ = some [0x5b, 0x31, 0x5d] := by
  have hCut : Cut 4096 twoReads (frame [0x5b, 0x31, 0x5d]) := ⟨by decide, by decide, by decide⟩
  obtain ⟨fuel, r, hRelay, hDelivers⟩ := framing_delivers_iff hCut
  refine ⟨fuel, r, hRelay, fun cs₂ hCut₂ hFirst => (hDelivers cs₂ hCut₂).mpr (.inr ⟨?_, hFirst⟩)⟩
  exact ⟨by decide, by decide, by decide⟩

/-- The same body, cut before its last two bytes: the master takes the header for body
bytes and leaves them unread, and the worker waits for them forever. -/
theorem framing_loses_tail :
    Cut 4096 [[3, 0, 0x5b], [0x31, 0x5d]] (frame [0x5b, 0x31, 0x5d]) ∧
      connHandler 1 [[3, 0, 0x5b], [0x31, 0x5d]] = some [3, 0, 0x5b] ∧
      Cut 4096 [[3, 0, 0x5b]] [3, 0, 0x5b] ∧ ∀ fuel, loggerHandler fuel [[3, 0, 0x5b]] = none := by
  refine ⟨⟨by decide, by decide, by decide⟩, by decide, ⟨by decide, by decide, by decide⟩, fun fuel => ?_⟩
  rw [loggerHandler_header]
  exact readUntil_never (by decide) fuel

end TeaBot.Daemon
