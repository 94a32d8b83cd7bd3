import TeaBot.Daemon.Framing

/-! # The read loops one by one

What each handler has read when its loop stops, how many reads that took, and when the
loop does not stop at all.
-/

namespace TeaBot.Daemon

open Foundation.Stream

/-- The loop of `response_handler` is that of `logger_handler`. -/
def responseHandler : Nat → List Bytes → Option Bytes := loggerHandler

/-! ## The master -/

/-- What the master relays is the whole frame exactly when that came in one read, or in
several of which the last is longer than the header. -/
theorem relay_complete_iff {body : Bytes} {cs : List Bytes} (hSmall : body.length ≤ 65535)
    (hCut : Cut 4096 cs (frame body)) (hFirst : 2 ≤ (cs.headD []).length) :
    ∃ fuel r, connHandler fuel cs = some r ∧ (r = frame body ↔ cs.length = 1 ∨ 3 ≤ (cs.getLastD []).length) := by
  obtain ⟨fuel, r, hRelay, _, _, hRelayed⟩ := connHandler_relays hCut
  refine ⟨fuel, r, hRelay, hRelayed.trans ⟨fun h => h.2.2, fun h => ⟨hSmall, hFirst, h⟩⟩⟩

theorem relay_complete_two_reads : ∃ fuel, connHandler fuel twoReads = some (frame [0x5b, 0x31, 0x5d]) := by
  have hCut : Cut 4096 twoReads (frame [0x5b, 0x31, 0x5d]) := ⟨by decide, by decide, by decide⟩
  obtain ⟨fuel, r, hRelay, hWhole⟩ := relay_complete_iff (by decide) hCut (by decide)
  obtain rfl := hWhole.mpr (by decide)
  exact ⟨fuel, hRelay⟩

/-- The body `[1]` again: the closing bracket, read on its own, is not relayed. -/
theorem relay_drops_bracket :
    Cut 4096 [[3, 0, 0x5b, 0x31], [0x5d]] (frame [0x5b, 0x31, 0x5d]) ∧
      connHandler 1 [[3, 0, 0x5b, 0x31], [0x5d]] = some [3, 0, 0x5b, 0x31] ∧
      [3, 0, 0x5b, 0x31] ≠ frame [0x5b, 0x31, 0x5d] :=
  ⟨⟨by decide, by decide, by decide⟩, by decide, by decide⟩

/-! ## The workers -/

def countReads (dataLen : Option Nat) : Nat → Nat → Bytes → Int → List Bytes → Option (Bytes × Nat)
  | 0, _, _, _, _ => none
  | fuel + 1, reads, rawData, receivedLen, conn =>
    if exceeds dataLen receivedLen then
      let rawData := rawData ++ (fread conn).1
      countReads dataLen fuel (reads + 1) rawData rawData.length (fread conn).2
    else some (rawData, reads)

theorem countReads_fst (dataLen : Option Nat) (fuel reads : Nat) (rawData : Bytes) (receivedLen : Int)
    (conn : List Bytes) :
    (countReads dataLen fuel reads rawData receivedLen conn).map Prod.fst =
      readMore dataLen fuel rawData receivedLen conn := by
  induction fuel generalizing reads rawData receivedLen conn with
  | zero => rfl
  | succ fuel ih =>
    simp only [countReads, readMore]
    split
    · exact ih ..
    · rfl

def loggerReads (fuel : Nat) (conn : List Bytes) : Option (Bytes × Nat) :=
  let (rawData, conn) := fread conn
  countReads (unpackS (rawData.take 2)) fuel 1 (rawData.drop 2) (rawData.length - 2) conn

def responseReads : Nat → List Bytes → Option (Bytes × Nat) := loggerReads

theorem loggerReads_fst (fuel : Nat) (conn : List Bytes) :
    (loggerReads fuel conn).map Prod.fst = loggerHandler fuel conn := countReads_fst ..

theorem countReads_all {body buf : Bytes} {rest : List Bytes} (reads : Nat) (hNonempty : ∀ c ∈ rest, c ≠ [])
    (hBody : buf ++ rest.flatten = body) :
    countReads (some body.length) (rest.length + 1) reads buf buf.length rest = some (body, reads + rest.length) := by
  induction rest generalizing buf reads with
  | nil =>
    obtain rfl : buf = body := by simpa using hBody
    simp [countReads, exceeds]
  | cons c rest ih =>
    have hPos : 0 < c.length := List.length_pos_iff.mpr (hNonempty c List.mem_cons_self)
    have hMissing : exceeds (some body.length) buf.length = true := by
      simp only [exceeds, ← hBody, List.flatten_cons, List.length_append, decide_eq_true_eq]
      omega
    have hMore : buf ++ c ++ rest.flatten = body := by rwa [List.append_assoc]
    have hRest := ih (reads + 1) (fun x hx => hNonempty x (List.mem_cons_of_mem c hx)) hMore
    simp only [List.length_cons]
    rw [countReads, if_pos hMissing]
    refine hRest.trans ?_
    rw [Nat.add_assoc, Nat.add_comm 1]

/-- A worker ends up with the body, after exactly as many reads as the frame came in. -/
theorem worker_reassembles {body : Bytes} {cs : List Bytes} (hSmall : body.length ≤ 65535)
    (hCut : Cut 4096 cs (frame body)) (hFirst : 2 ≤ (cs.headD []).length) :
    ∃ fuel, (loggerHandler fuel cs = some body ∧ loggerReads fuel cs = some (body, cs.length)) ∧
      responseHandler fuel cs = some body ∧ responseReads fuel cs = some (body, cs.length) := by
  cases cs with
  | nil => simp at hFirst
  | cons c rest =>
    obtain ⟨c', rfl, hBody⟩ := first_read hCut hFirst
    have hAll := countReads_all 1 (fun x hx => hCut.nonempty x (List.mem_cons_of_mem _ hx)) hBody
    have hBuffer : (((UInt8.ofNat body.length :: UInt8.ofNat (body.length / 256) :: c').length : Nat) : Int) - 2 =
        c'.length := by
      simp only [List.length_cons]
      omega
    have hReads : loggerReads (rest.length + 1)
        ((.ofNat body.length :: .ofNat (body.length / 256) :: c') :: rest) = some (body, rest.length + 1) := by
      change countReads (some (UInt8.toNat _ + 256 * UInt8.toNat _)) _ 1 c' (((_ :: _ :: c').length : Nat) - 2) rest = _
      rw [header_eq, Nat.mod_eq_of_lt (by omega), hBuffer, hAll, Nat.add_comm 1]
    have hHandler := congrArg (Option.map Prod.fst) hReads
    rw [loggerReads_fst] at hHandler
    exact ⟨rest.length + 1, ⟨hHandler, hReads⟩, hHandler, hReads⟩

theorem worker_reassembles_pieces :
    ∃ fuel, (loggerHandler fuel [[3, 0, 0x5b], [0x31, 0x5d]] = some [0x5b, 0x31, 0x5d] ∧
        loggerReads fuel [[3, 0, 0x5b], [0x31, 0x5d]] = some ([0x5b, 0x31, 0x5d], 2)) ∧
      responseHandler fuel [[3, 0, 0x5b], [0x31, 0x5d]] = some [0x5b, 0x31, 0x5d] ∧
      responseReads fuel [[3, 0, 0x5b], [0x31, 0x5d]] = some ([0x5b, 0x31, 0x5d], 2) :=
  worker_reassembles (by decide) ⟨by decide, by decide, by decide⟩ (by decide)

/-! ## Streams that end early -/

/-- The length in the header, as far as the first read shows it. -/
def announced (conn : List Bytes) : Option Nat := unpackS ((fread conn).1.take 2)

theorem connHandler_returns_iff (conn : List Bytes) :
    (∃ fuel r, connHandler fuel conn = some r) ↔ ∀ n, announced conn = some n → n ≤ conn.flatten.length := by
  match conn with
  | [] => exact ⟨fun _ => nofun, fun _ => ⟨1, [], readMore_none ..⟩⟩
  | [] :: cs => exact ⟨fun _ => nofun, fun _ => ⟨1, _, connHandler_short 0 (by simp) cs⟩⟩
  | [a] :: cs => exact ⟨fun _ => nofun, fun _ => ⟨1, _, connHandler_short 0 (by simp) cs⟩⟩
  | (a :: b :: c) :: cs =>
    simp only [connHandler_header, readUntil_returns_iff]
    simp only [announced, fread, List.take_succ_cons, List.take_zero, unpackS, Option.some.injEq, forall_eq',
      List.flatten_cons, List.length_append, List.length_cons]

theorem loggerHandler_returns_iff (conn : List Bytes) :
    (∃ fuel r, loggerHandler fuel conn = some r) ↔ ∀ n, announced conn = some n → n + 2 ≤ conn.flatten.length := by
  match conn with
  | [] => exact ⟨fun _ => nofun, fun _ => ⟨1, [], readMore_none ..⟩⟩
  | [] :: cs => exact ⟨fun _ => nofun, fun _ => ⟨1, _, loggerHandler_short 0 (by simp) cs⟩⟩
  | [a] :: cs => exact ⟨fun _ => nofun, fun _ => ⟨1, _, loggerHandler_short 0 (by simp) cs⟩⟩
  | (a :: b :: c) :: cs =>
    simp only [loggerHandler_header, readUntil_returns_iff]
    simp only [announced, fread, List.take_succ_cons, List.take_zero, unpackS, Option.some.injEq, forall_eq',
      List.flatten_cons, List.length_append, List.length_cons]
    omega

/-- Each loop ends exactly when the stream brings the bytes that the header announces, of
which the master counts two too few. -/
theorem read_loops_end_iff (conn : List Bytes) :
    ((∃ fuel r, connHandler fuel conn = some r) ↔ ∀ n, announced conn = some n → n ≤ conn.flatten.length) ∧
      ((∃ fuel r, loggerHandler fuel conn = some r) ↔
        ∀ n, announced conn = some n → n + 2 ≤ conn.flatten.length) ∧
      ((∃ fuel r, responseHandler fuel conn = some r) ↔
        ∀ n, announced conn = some n → n + 2 ≤ conn.flatten.length) :=
  ⟨connHandler_returns_iff conn, loggerHandler_returns_iff conn, loggerHandler_returns_iff conn⟩

/-- The header of the frame of `[1]` and nothing more: no loop ever ends. -/
theorem header_alone_spins :
    [3, 0] <+: frame [0x5b, 0x31, 0x5d] ∧ ∀ fuel, connHandler fuel [[3, 0]] = none ∧
      loggerHandler fuel [[3, 0]] = none ∧ responseHandler fuel [[3, 0]] = none := by
  refine ⟨⟨[0x5b, 0x31, 0x5d], rfl⟩, fun fuel => ?_⟩
  have hConn : connHandler fuel [[3, 0]] = none := by
    rw [connHandler_header]
    exact readUntil_never (by decide) fuel
  have hLogger : loggerHandler fuel [[3, 0]] = none := by
    rw [loggerHandler_header]
    exact readUntil_never (by decide) fuel
  exact ⟨hConn, hLogger, hLogger⟩

end TeaBot.Daemon
