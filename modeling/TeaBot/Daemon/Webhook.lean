import TeaBot.Daemon.Retry
import TeaBot.Foundation.History
import TeaBot.Php

/-! # The answer of the webhook

`r1.php` hands the request body to the master and answers with what it reads back. The
verdict on the body is the worker's, one hop further on.
-/

namespace TeaBot.Daemon.Webhook

open Foundation Foundation.Stream Dispatch

/-! ## `r1.php` -/

inductive Op
  /-- `socket_create` and `socket_connect` -/
  | connect
  /-- `file_get_contents("php://input")` -/
  | input
  | send (data : Bytes)
  /-- `socket_recv($sock, $buf, 100, 0)`: the buffer, unless it fails. -/
  | recv
  | close

@[reducible] def Op.Res : Op → Type
  | .connect | .send _ => Bool
  | .input => Bytes
  | .recv => Option Bytes
  | .close => Unit

abbrev Run (α : Type) := Prog Op Op.Res Empty α

def perform (o : Op) : Run o.Res := Prog.perform o

structure Reply where
  status : Nat
  text : Bytes

/-- `key` is `$_GET["key"]`. -/
def r1 (TELEGRAM_WEBHOOK_KEY : String) (key : Php) : Run Reply :=
  if key.isset ∧ key = .str TELEGRAM_WEBHOOK_KEY then do
    let connected ← perform .connect
    if connected then do
      let data ← perform .input
      let sent ← perform (.send (frame data))
      if sent then do
        let buf ← perform .recv
        perform .close
        match buf with
        | some buf => pure ⟨if buf = ascii "ok" then 200 else 400, buf⟩
        | none => pure ⟨500, ascii "Cannot retrieve response from the socket!\n"⟩
      else do
        perform .close
        pure ⟨500, ascii "Cannot send to socket!\n"⟩
    else pure ⟨500, ascii "Cannot connect to socket!\n"⟩
  else pure ⟨401, ascii "unauthorized"⟩

/-! ## The two daemons -/

/-- What `conn_handler` hands to the coroutine of `send_to_logger`, and what it writes to the
webhook once that is started. -/
structure Handled where
  rawData : Bytes
  written : Bytes

def handle (fuel : Nat) (conn : List Bytes) : Option Handled :=
  (connHandler fuel conn).map fun rawData => ⟨rawData, ascii "ok"⟩

/-- What `logger_handler` decodes, and what it writes to the master, which has closed the
connection by then. -/
structure Judged where
  data : Php
  written : Bytes

def judge (jsonDecode : Bytes → Php) (fuel : Nat) (conn : List Bytes) : Option Judged :=
  (loggerHandler fuel conn).map fun rawData =>
    ⟨jsonDecode rawData, if (jsonDecode rawData).isArray then ascii "ok" else ascii "fail"⟩

/-! ## A request on its way -/

abbrev Answered := Event Op Op.Res Empty

/-- The connection is up, and what is written to it arrives in one piece. -/
def Up (body written : Bytes) : Answered → Prop
  | ⟨.connect, r⟩ => r = .ok true
  | ⟨.input, r⟩ => r = .ok body
  | ⟨.send _, r⟩ => r = .ok true
  | ⟨.recv, r⟩ => r = .ok (some (written.take 100))
  | ⟨.close, _⟩ => True

def sent (page : List Answered) : Bytes :=
  page.flatMap fun e => match e.op with
    | .send data => data
    | _ => []

/-- `json_decode($s, true)`. It is left open but for the empty text, which is not JSON. -/
structure JsonDecode where
  decode : Bytes → Php
  empty : decode [] = .null

/-- An authorised request with all connections up and its frame whole at the worker. -/
structure Session (J : JsonDecode) (body : Bytes) where
  key : String
  page : List Answered
  reply : Reply
  exec : (r1 key (.str key)).Exec page (.ok reply)
  toMaster : List Bytes
  cutMaster : Cut 4096 toMaster (sent page)
  master : Handled
  handled : ∃ fuel, handle fuel toMaster = some master
  up : ∀ e ∈ page, Up body master.written e
  nlogger : Nat
  i : Nat
  relay : Solo
  relayed : ∃ rounds, runAlone (fun _ => true) (sendToLogger nlogger master.rawData rounds) { i := i } = some relay
  toWorker : List Bytes
  cutWorker : Cut 4096 toWorker (relay.received.flatMap Prod.snd)
  worker : Judged
  judged : ∃ fuel, judge J.decode fuel toWorker = some worker
  whole : Whole body toMaster toWorker

/-- The status follows the worker's verdict. -/
def Session.Reflects {J : JsonDecode} {body : Bytes} (σ : Session J body) : Prop :=
  (σ.reply.status = 200 ↔ σ.worker.data.isArray = true) ∧
    (σ.worker.written = ascii "fail" → σ.reply.status = 400)

section Request

variable {J : JsonDecode} {body : Bytes}

theorem r1_answers {key : String} {written : Bytes} {page : List Answered} {reply : Reply}
    (hExec : (r1 key (.str key)).Exec page (.ok reply)) (hUp : ∀ e ∈ page, Up body written e) :
    sent page = frame body ∧ reply.status = if written.take 100 = ascii "ok" then 200 else 400 := by
  rw [r1, if_pos ⟨rfl, rfl⟩] at hExec
  cases hExec with
  | op hInput =>
    obtain ⟨rfl, hUp₁⟩ := List.forall_mem_cons.mp hUp
    cases hInput with
    | op hSend =>
      obtain ⟨rfl, hUp₂⟩ := List.forall_mem_cons.mp hUp₁
      cases hSend with
      | op hRecv =>
        obtain ⟨rfl, hUp₃⟩ := List.forall_mem_cons.mp hUp₂
        cases hRecv with
        | op hClose =>
          obtain ⟨rfl, _⟩ := List.forall_mem_cons.mp hUp₃
          cases hClose with
          | @op _ _ r _ _ hReply =>
            cases r with
            | error e => cases e
            | ok u =>
              cases hReply
              exact ⟨by simp [sent], rfl⟩

theorem written_of_handle {fuel : Nat} {conn : List Bytes} {m : Handled} (h : handle fuel conn = some m) :
    connHandler fuel conn = some m.rawData ∧ m.written = ascii "ok" := by
  obtain ⟨rawData, hRaw, rfl⟩ := Option.map_eq_some_iff.mp h
  exact ⟨hRaw, rfl⟩

theorem received_of_runAlone {up : Nat → Bool} {n rounds : Nat} {rawData : Bytes} {s s' : Solo}
    (h : runAlone up (sendToLogger n rawData rounds) s = some s') :
    ∃ k, s'.received = s.received ++ [(k, rawData)] := by
  induction rounds generalizing s with
  | zero => cases h
  | succ rounds ih =>
    rw [runAlone_succ] at h
    split at h
    · cases h
      exact ⟨_, rfl⟩
    · obtain ⟨k, hReceived⟩ := ih h
      exact ⟨k, hReceived⟩

theorem decoded {fuel fuel' : Nat} {cs₁ cs₂ : List Bytes} {r : Bytes} {w : Judged} (hCut₁ : Cut 4096 cs₁ (frame body))
    (hRelay : connHandler fuel cs₁ = some r) (hCut₂ : Cut 4096 cs₂ r) (hWhole : Whole body cs₁ cs₂)
    (hJudge : judge J.decode fuel' cs₂ = some w) :
    w = ⟨J.decode body, if (J.decode body).isArray then ascii "ok" else ascii "fail"⟩ := by
  obtain ⟨_, r', hRelay', hPrefix, hr, hRelayed⟩ := connHandler_relays hCut₁
  obtain rfl : r = r' := readMore_unique hRelay hRelay'
  obtain ⟨_, hBody⟩ := (loggerHandler_hands_iff hCut₂ hPrefix hr hRelayed).mpr hWhole
  obtain ⟨rawData, hRaw, rfl⟩ := Option.map_eq_some_iff.mp hJudge
  obtain rfl : rawData = body := readMore_unique hRaw hBody
  rfl

namespace Session

variable (σ : Session J body)

theorem sent_eq : sent σ.page = frame body := (r1_answers σ.exec σ.up).1

theorem status_eq : σ.reply.status = 200 := by
  obtain ⟨fuel, hHandle⟩ := σ.handled
  rw [(r1_answers σ.exec σ.up).2, (written_of_handle hHandle).2]
  rfl

theorem worker_eq :
    σ.worker = ⟨J.decode body, if (J.decode body).isArray then ascii "ok" else ascii "fail"⟩ := by
  obtain ⟨_, hHandle⟩ := σ.handled
  obtain ⟨_, hRelay⟩ := σ.relayed
  obtain ⟨_, hJudge⟩ := σ.judged
  obtain ⟨k, hReceived⟩ := received_of_runAlone hRelay
  have hCut := σ.cutWorker
  rw [hReceived] at hCut
  exact decoded (σ.sent_eq ▸ σ.cutMaster) (written_of_handle hHandle).1 (by simpa using hCut) σ.whole hJudge

end Session

/-- The master answers for the worker, so the status follows the verdict exactly if the
body is a JSON array or object. -/
theorem session_reflects_iff (σ : Session J body) : σ.Reflects ↔ (J.decode body).isArray = true := by
  rw [Session.Reflects, σ.status_eq, σ.worker_eq]
  constructor
  · rintro ⟨hStatus, _⟩
    exact hStatus.mp rfl
  · intro hArray
    refine ⟨iff_of_true rfl hArray, fun hFail => ?_⟩
    have hNe : ascii "ok" ≠ ascii "fail" := by decide
    rw [if_pos hArray] at hFail
    exact absurd hFail hNe

end Request

def pageOf (body : Bytes) : List Answered :=
  [⟨.connect, .ok true⟩, ⟨.input, .ok body⟩, ⟨.send (frame body), .ok true⟩, ⟨.recv, .ok (some (ascii "ok"))⟩,
    ⟨.close, .ok ()⟩]

theorem exists_session (J : JsonDecode) {body : Bytes} (hSmall : body.length ≤ 65535) :
    Nonempty (Session J body) := by
  have hFrame : 2 ≤ (frame body).length := by
    rw [length_frame]
    omega
  obtain ⟨cs, hCut, hFirst, hLast⟩ := exists_cut (by decide : 4 ≤ 4096) hFrame
  have hRelayed : Relayed body cs := ⟨hSmall, hFirst, hLast⟩
  have hWhole : Whole body cs cs := .inr ⟨hRelayed, hFirst⟩
  obtain ⟨fuel, r, hRelay, hPrefix, hr, hIff⟩ := connHandler_relays hCut
  obtain rfl := hIff.mpr hRelayed
  obtain ⟨fuel', hBody⟩ := (loggerHandler_hands_iff hCut hPrefix hr hIff).mpr hWhole
  have hSent : sent (pageOf body) = frame body := by simp [sent, pageOf]
  refine ⟨{
    key := "key"
    page := pageOf body
    reply := ⟨200, ascii "ok"⟩
    exec := ?_
    toMaster := cs
    cutMaster := hSent.symm ▸ hCut
    master := ⟨frame body, ascii "ok"⟩
    handled := ⟨fuel, by rw [handle, hRelay]; rfl⟩
    up := ?_
    nlogger := 1
    i := 0
    relay := ⟨1, [0], none, [(0, frame body)]⟩
    relayed := ⟨1, (runAlone_succ 0 _).trans rfl⟩
    toWorker := cs
    cutWorker := by simpa using hCut
    worker := ⟨J.decode body, _⟩
    judged := ⟨fuel', by rw [judge, hBody]; rfl⟩
    whole := hWhole }⟩
  · rw [r1, if_pos ⟨rfl, rfl⟩]
    exact .op (.op (.op (.op (.op (.ret _)))))
  · intro e he
    simp only [pageOf, List.mem_cons, List.not_mem_nil, or_false] at he
    rcases he with rfl | rfl | rfl | rfl | rfl <;> first | rfl | trivial

/-- `json_decode` as far as the text `[1]` goes. -/
def decodeList : JsonDecode :=
  ⟨fun s => if s = [0x5b, 0x31, 0x5d] then .arr (.cons (.int 0) (.int 1) .nil) else .null, rfl⟩

theorem list_body_reflected : ∃ σ : Session decodeList [0x5b, 0x31, 0x5d], σ.Reflects := by
  obtain ⟨σ⟩ : Nonempty (Session decodeList [0x5b, 0x31, 0x5d]) := exists_session decodeList (by decide)
  exact ⟨σ, (session_reflects_iff σ).mpr rfl⟩

/-- The empty body: the worker answers `fail` to a closed connection, and the webhook 200,
whatever the decoder makes of other texts. -/
theorem empty_body_answered_ok :
    ¬ ∃ J : JsonDecode, ∀ σ : Session J [], σ.worker.written = ascii "fail" → σ.reply.status = 400 := by
  rintro ⟨J, hReflects⟩
  obtain ⟨σ⟩ : Nonempty (Session J []) := exists_session J (Nat.zero_le _)
  have hFail : σ.worker.written = ascii "fail" := by
    rw [σ.worker_eq, J.empty]
    rfl
  have hStatus := hReflects σ hFail
  rw [σ.status_eq] at hStatus
  cases hStatus

end TeaBot.Daemon.Webhook
