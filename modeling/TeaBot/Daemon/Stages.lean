import TeaBot.Daemon.Relay

/-! # How far the threads of the daemons are

Every program keeps to the same few stages. The handlers' stages list the reads so far: what
a handler makes of them is what the plain functions `connHandler` and `loggerHandler` do.
-/

namespace TeaBot.Daemon.Relay

open Foundation Foundation.System

inductive Stage
  /-- A request: before its connect, connected, with its input, sent, and answered. -/
  | asking (key : Php)
  | connected
  | loaded (data : Bytes)
  | sent
  | answered (buf : Bytes)
  | failed
  | listening
  /-- `conn_handler`: the reads so far, and all of them when the data is on its way. -/
  | reading (conn : Nat) (cs : List Bytes)
  | relayed (conn : Nat) (cs : List Bytes)
  /-- `send_to_logger`: without a worker, connected to one, and done. -/
  | drawing (rawData : Bytes)
  | linked (rawData : Bytes)
  | written (rawData : Bytes)
  /-- `logger_handler`: the reads so far, without and with a run of `Logger`. -/
  | receiving (cs : List Bytes)
  | handed (cs : List Bytes)

def Decoded (σ : Setup) (cs : List Bytes) (data : Php) : Prop :=
  ∃ fuel text, Daemon.loggerHandler fuel cs = some text ∧ data = σ.json.decode text

def Gathered (cs : List Bytes) (rawData : Bytes) : Prop := ∃ fuel, Daemon.connHandler fuel cs = some rawData

def Admits (σ : Setup) : Stage → Op → Prop
  | .asking key, .page .connect => key = .str σ.TELEGRAM_WEBHOOK_KEY
  | .connected, .page .input => True
  | .loaded data, .page (.send frame') => frame' = frame data
  | .sent, .page .recv => True
  | .sent, .page .close | .answered _, .page .close | .failed, .page .close => True
  | .listening, .acceptConn | .listening, .acceptLogger _ => True
  | .reading _ _, .fread => True
  | .reading k cs, .go conn rawData => conn = k ∧ Gathered cs rawData
  | .relayed _ _, .fwrite _ | .relayed _ _, .fclose => True
  | .receiving _, .fread | .receiving _, .fwrite _ | .receiving _, .fclose => True
  | .receiving cs, .logger data => Decoded σ cs data ∧ data.isArray = true
  | .drawing _, .dispatch .tableGet | .drawing _, .dispatch (.tableSet _) | .drawing _, .dispatch (.client _)
  | .drawing _, .dispatch (.connected _) | .drawing _, .dispatch .beyond => True
  | .linked rawData, .dispatch (.fwrite data) => data = rawData
  | .written _, .dispatch .fclose => True
  | _, .beyond => True
  | _, _ => False

def after : Stage → (o : Op) → Except Empty o.Res → Stage
  | _, .page .connect, .ok up => if up then .connected else .failed
  | _, .page .input, .ok data => .loaded data
  | _, .page (.send _), .ok up => if up then .sent else .failed
  | _, .page .recv, .ok buf => buf.elim .failed .answered
  | .reading k cs, .fread, .ok more => .reading k (cs ++ [more])
  | .receiving cs, .fread, .ok more => .receiving (cs ++ [more])
  | .reading k cs, .go _ _, _ => .relayed k cs
  | .receiving cs, .logger _, _ => .handed cs
  | .drawing rawData, .dispatch (.connected _), .ok up => if up then .linked rawData else .drawing rawData
  | .linked rawData, .dispatch (.fwrite _), _ => .written rawData
  | s, _, _ => s

/-- Loops whose rounds are used up get no answer. -/
def Answers : (o : Op) → Except Empty o.Res → Prop
  | .beyond, _ | .dispatch .beyond, _ => False
  | _, _ => True

def stages (σ : Setup) : Discipline Op Op.Res Empty Stage where
  admits := Admits σ
  answers := Answers
  after := after

def init : Job → Stage
  | .request key _ => .asking key
  | .master _ | .worker _ _ => .listening
  | .conn k => .reading k []
  | .handler _ => .receiving []
  | .relay _ rawData => .drawing rawData

def ends (σ : Setup) : Job → Except Empty (Option Webhook.Reply) → Stage → Prop
  | .request _ _, .ok (some reply), s => reply.status = 200 → s = .answered (ascii "ok")
  | .conn k, _, s => ∃ cs, s = .relayed k cs
  | .handler _, _, s =>
    (∃ cs, s = .handed cs) ∨ ∃ cs data, s = .receiving cs ∧ Decoded σ cs data ∧ data.isArray = false
  | .relay _ rawData, _, s => s = .written rawData
  | _, _, _ => True

section Programs

variable {σ : Setup}

/-- A loop that goes on with the reads `cs` ends with what `H` makes of all reads. -/
theorem readMore_keeps (stage : List Bytes → Stage) (hAdmits : ∀ cs, Admits σ (stage cs) .fread)
    (hAfter : ∀ cs more, after (stage cs) .fread (.ok more) = stage (cs ++ [more]))
    {H : Nat → List Bytes → Option Bytes} {dataLen : Option Nat} (used : Nat) {rounds : Nat} {cs : List Bytes}
    {rawData : Bytes} {receivedLen : Int}
    (hRest : ∀ fuel more, H (fuel + used) (cs ++ more) = Daemon.readMore dataLen fuel rawData receivedLen more) :
    (readMore dataLen rounds rawData receivedLen).Keeps (stages σ)
      (fun out s => ∀ a, out = .ok a → ∃ cs fuel, s = stage cs ∧ H fuel cs = some a) (stage cs) := by
  induction rounds generalizing used cs rawData receivedLen with
  | zero =>
    refine ⟨?_, fun r hr => hr.elim⟩
    cases stage cs <;> trivial
  | succ rounds ih =>
    unfold readMore
    by_cases hMore : exceeds dataLen receivedLen = true
    · rw [if_pos hMore]
      refine .perform_then (hAdmits cs) fun more _ => ?_
      change (readMore dataLen rounds _ _).Keeps _ _ (after (stage cs) .fread (.ok more))
      rw [hAfter]
      have hNext : ∀ fuel rest, H (fuel + (used + 1)) (cs ++ [more] ++ rest) =
          Daemon.readMore dataLen fuel (rawData ++ more) (rawData ++ more).length rest := by
        intro fuel rest
        rw [List.append_assoc, ← Nat.add_assoc, Nat.add_right_comm, hRest, Daemon.readMore, if_pos hMore]
        rfl
      exact ih (used + 1) hNext
    · rw [if_neg hMore]
      intro a ha
      cases ha
      refine ⟨cs, 1 + used, rfl, ?_⟩
      rw [← List.append_nil cs, hRest, Daemon.readMore, if_neg hMore]

theorem connHandler_keeps (k rounds : Nat) :
    (connHandler k rounds).Keeps (stages σ) (fun _ s => ∃ cs, s = .relayed k cs) (.reading k []) := by
  refine .perform_then trivial fun rawData _ => ?_
  have hLoop : (readMore (unpackS (rawData.take 2)) rounds rawData rawData.length).Keeps (stages σ)
      (fun out s => ∀ a, out = .ok a → ∃ cs fuel, s = .reading k cs ∧ Daemon.connHandler fuel cs = some a)
      (.reading k [rawData]) :=
    readMore_keeps (.reading k) (fun _ => trivial) (fun _ _ => rfl) 0 fun _ _ => rfl
  refine hLoop.bind_then fun a s hEnd => ?_
  obtain ⟨cs, fuel, rfl, hGathered⟩ := hEnd a rfl
  refine .perform_then ⟨rfl, fuel, hGathered⟩ fun _ _ => ?_
  exact .perform_then trivial fun _ _ => .perform trivial fun _ _ => ⟨cs, rfl⟩

theorem loggerHandler_keeps (k rounds : Nat) :
    (loggerHandler σ.json rounds).Keeps (stages σ) (fun _ s => ends σ (.handler k) (.ok none) s) (.receiving []) := by
  refine .perform_then trivial fun rawData _ => ?_
  have hLoop : (readMore (unpackS (rawData.take 2)) rounds (rawData.drop 2) (rawData.length - 2)).Keeps (stages σ)
      (fun out s => ∀ a, out = .ok a → ∃ cs fuel, s = .receiving cs ∧ Daemon.loggerHandler fuel cs = some a)
      (.receiving [rawData]) :=
    readMore_keeps .receiving (fun _ => trivial) (fun _ _ => rfl) 0 fun _ _ => rfl
  refine hLoop.bind_then fun a s hEnd => ?_
  obtain ⟨cs, fuel, rfl, hText⟩ := hEnd a rfl
  have hDecoded : Decoded σ cs (σ.json.decode a) := ⟨fuel, a, hText, rfl⟩
  by_cases hArray : (σ.json.decode a).isArray = true
  · simp only [hArray, if_true]
    refine .perform_then trivial fun _ _ => .perform_then trivial fun _ _ => ?_
    exact .perform ⟨hDecoded, hArray⟩ fun _ _ => .inl ⟨cs, rfl⟩
  · simp only [hArray]
    refine .perform_then trivial fun _ _ => .perform trivial fun _ _ => ?_
    exact .inr ⟨cs, _, rfl, hDecoded, by simpa using hArray⟩

theorem sendToLogger_keeps (nlogger rounds : Nat) (rawData : Bytes) :
    (sendToLogger nlogger rawData rounds).Keeps (stages σ) (fun _ s => s = .written rawData) (.drawing rawData) := by
  induction rounds with
  | zero => exact ⟨trivial, fun r hr => hr.elim⟩
  | succ rounds ih =>
    simp only [sendToLogger, Dispatch.sendToLogger, Dispatch.perform, Prog.bind_eq, Prog.interp_bind,
      Prog.interp_perform]
    refine .perform_then trivial fun i _ => ?_
    refine .perform_then trivial fun _ _ => .perform_then trivial fun _ _ => ?_
    refine .perform_then trivial fun fp _ => ?_
    cases fp with
    | false => exact ih
    | true =>
      simp only [if_true, Prog.interp_bind, Prog.interp_perform]
      exact .perform_then rfl fun _ _ => .perform trivial fun _ _ => rfl

theorem master_keeps (rounds : Nat) : (master rounds).Keeps (stages σ) (fun _ _ => True) .listening := by
  induction rounds with
  | zero => trivial
  | succ rounds ih => exact .perform_then trivial fun _ _ => ih

theorem worker_keeps (i rounds : Nat) : (worker i rounds).Keeps (stages σ) (fun _ _ => True) .listening := by
  induction rounds with
  | zero => trivial
  | succ rounds ih => exact .perform_then trivial fun _ _ => ih

theorem r1_keeps (key : Php) :
    (r1 σ.TELEGRAM_WEBHOOK_KEY key).Keeps (stages σ)
      (fun out s => ∀ reply, out = .ok reply → reply.status = 200 → s = .answered (ascii "ok")) (.asking key) := by
  have hOther : ∀ (status : Nat) (text : Bytes) (s : Stage), status ≠ 200 → ∀ reply : Webhook.Reply,
      (Except.ok ⟨status, text⟩ : Except Empty _) = .ok reply → reply.status = 200 → s = .answered (ascii "ok") := by
    intro status text s hNe reply hReply hStatus
    cases hReply
    exact absurd hStatus hNe
  unfold r1 Webhook.r1
  split
  · rename_i hKey
    simp only [Webhook.perform, Prog.bind_eq, Prog.interp_bind, Prog.interp_perform]
    refine .perform_then hKey.2 fun connected _ => ?_
    cases connected with
    | false => exact hOther 500 _ _ (by decide)
    | true =>
      simp only [if_true, Prog.interp_bind, Prog.interp_perform]
      refine .perform_then trivial fun data _ => ?_
      refine .perform_then rfl fun sent _ => ?_
      cases sent with
      | false =>
        simp only [Bool.false_eq_true, if_false, Prog.interp_bind, Prog.interp_perform]
        exact .perform_then trivial fun _ _ => hOther 500 _ _ (by decide)
      | true =>
        simp only [if_true, Prog.interp_bind, Prog.interp_perform]
        refine .perform_then trivial fun buf _ => ?_
        cases buf with
        | none => exact .perform_then trivial fun _ _ => hOther 500 _ _ (by decide)
        | some buf =>
          refine .perform_then trivial fun _ _ => ?_
          by_cases hOk : buf = ascii "ok"
          · subst hOk
            exact fun _ _ _ => rfl
          · simp only [hOk]
            exact hOther 400 _ _ (by decide)
  · exact hOther 401 _ _ (by decide)

theorem code_keeps (j : Job) : (code σ j).Keeps (stages σ) (ends σ j) (init j) := by
  cases j with
  | request key body => exact (r1_keeps key).bind_then fun a s hEnd => hEnd a rfl
  | master rounds => exact (master_keeps rounds).bind_then fun _ _ _ => trivial
  | worker i rounds => exact (worker_keeps i rounds).bind_then fun _ _ _ => trivial
  | conn k => exact (connHandler_keeps k σ.rounds).bind_then fun _ _ hEnd => hEnd
  | handler k => exact (loggerHandler_keeps k σ.rounds).bind_then fun _ _ hEnd => hEnd
  | relay m rawData => exact (sendToLogger_keeps σ.nlogger σ.rounds rawData).bind_then fun _ _ hEnd => hEnd

end Programs

end TeaBot.Daemon.Relay
