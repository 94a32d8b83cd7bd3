import TeaBot.Daemon.Webhook
import TeaBot.Foundation.Interp
import TeaBot.Foundation.TypedRuns

/-! # The daemons at work

Requests at the webhook, the master with its coroutines and the logger workers with
theirs, all at the same time. They meet only in their connections: a read takes what has
arrived by then, a write may break off, a connect may fail.
-/

namespace TeaBot.Daemon.Relay

open Foundation Foundation.System

inductive Op
  | page (o : Webhook.Op)
  | dispatch (o : Dispatch.Op)
  /-- `stream_socket_accept` in the master, or in worker `i`, with the `go` after it. -/
  | acceptConn
  | acceptLogger (i : Nat)
  /-- `fread`, `fwrite` and `fclose` on the connection that the coroutine serves. -/
  | fread
  | fwrite (data : Bytes)
  | fclose
  /-- The `go` for `send_to_logger`. -/
  | go (conn : Nat) (rawData : Bytes)
  /-- `new Logger($data)` and its run. -/
  | logger (data : Php)
  /-- Where the rounds of a loop are used up: there is no answer to it. -/
  | beyond

@[reducible] def Op.Res : Op → Type
  | .page o => o.Res
  | .dispatch o => o.Res
  | .acceptConn | .acceptLogger _ => Nat
  | .fread => Bytes
  | _ => Unit

abbrev Run (α : Type) := Prog Op Op.Res Empty α

def perform (o : Op) : Run o.Res := Prog.perform o

/-! ## The programs -/

def readMore (dataLen : Option Nat) : Nat → Bytes → Int → Run Bytes
  | 0, rawData, _ => do
    perform .beyond
    pure rawData
  | rounds + 1, rawData, receivedLen =>
    if exceeds dataLen receivedLen then do
      let more ← perform .fread
      readMore dataLen rounds (rawData ++ more) (rawData ++ more).length
    else pure rawData

def connHandler (conn rounds : Nat) : Run Unit := do
  let rawData ← perform .fread
  let rawData ← readMore (unpackS (rawData.take 2)) rounds rawData rawData.length
  perform (.go conn rawData)
  perform (.fwrite (ascii "ok"))
  perform .fclose

def loggerHandler (J : Webhook.JsonDecode) (rounds : Nat) : Run Unit := do
  let rawData ← perform .fread
  let rawData ← readMore (unpackS (rawData.take 2)) rounds (rawData.drop 2) (rawData.length - 2)
  let data := J.decode rawData
  if data.isArray then do
    perform (.fwrite (ascii "ok"))
    perform .fclose
    perform (.logger data)
  else do
    perform (.fwrite (ascii "fail"))
    perform .fclose

/-- The accept loop of the master, for a number of connections. -/
def master : Nat → Run Unit
  | 0 => pure ()
  | rounds + 1 => do
    let _ ← perform .acceptConn
    master rounds

def worker (i : Nat) : Nat → Run Unit
  | 0 => pure ()
  | rounds + 1 => do
    let _ ← perform (.acceptLogger i)
    worker i rounds

def sendToLogger (nlogger : Nat) (rawData : Bytes) (rounds : Nat) : Run Unit :=
  (Dispatch.sendToLogger nlogger rawData rounds).interp fun o => perform (.dispatch o)

def r1 (TELEGRAM_WEBHOOK_KEY : String) (key : Php) : Run Webhook.Reply :=
  (Webhook.r1 TELEGRAM_WEBHOOK_KEY key).interp fun o => perform (.page o)

/-! ## The system -/

inductive Job
  /-- A request at the webhook, with `$_GET["key"]` and the body. -/
  | request (key : Php) (body : Bytes)
  | master (rounds : Nat)
  | worker (i rounds : Nat)
  /-- `conn_handler` and `logger_handler` on a connection. -/
  | conn (k : Nat)
  | handler (k : Nat)
  /-- `send_to_logger`, with the connection that the data came from. -/
  | relay (conn : Nat) (rawData : Bytes)
  deriving DecidableEq

def Job.serves : Job → Option Nat
  | .conn k | .handler k => some k
  | _ => none

structure Conn where
  /-- To the master, or to a worker. -/
  dest : Option Nat
  opener : Nat
  accepted : Bool
  sent : Bytes
  /-- What the server has read of it, read by read. -/
  reads : List Bytes
  /-- Writing broke off. -/
  broken : Bool
  reply : Bytes
  closed : Bool

namespace Conn

def fresh (dest : Option Nat) (opener : Nat) : Conn := ⟨dest, opener, false, [], [], false, [], false⟩

def accept (x : Conn) : Conn := { x with accepted := true }

def write (data : Bytes) (cut : Option Nat) (x : Conn) : Conn :=
  match cut with
  | none => { x with sent := x.sent ++ data }
  | some n => { x with sent := x.sent ++ data.take n, broken := true }

def pending (x : Conn) : Bytes := x.sent.drop x.reads.flatten.length

def read (n : Nat) (x : Conn) : Conn := { x with reads := x.reads ++ [x.pending.take n] }

def answer (data : Bytes) (x : Conn) : Conn := { x with reply := x.reply ++ data }

def close (x : Conn) : Conn := { x with closed := true }

end Conn

structure World where
  /-- `$table["logger"]["i"]` -/
  i : Nat
  conns : List Conn
  /-- What the workers have handed to `Logger`, with the connection it came through. -/
  logged : List (Nat × Php)

def World.initial : World := ⟨0, [], []⟩

namespace World

def connect (w : World) (x : Conn) : World := { w with conns := w.conns ++ [x] }

def change (w : World) (k : Nat) (f : Conn → Conn) : World := { w with conns := w.conns.modify k f }

def connOf (w : World) (t : Nat) : Option Nat := w.conns.findIdx? fun x => x.opener = t

def waiting (w : World) (dest : Option Nat) : Option Nat := w.conns.findIdx? fun x => !x.accepted && x.dest = dest

end World

/-- How much is read or written, or whether a connect works, is a matter of the choice; a
read without anything to read has come to its timeout or to the end of the stream. -/
def exec (t : Nat) (j : Job) (o : Op) (ch : Nat) (w : World) : Option (Except Empty o.Res × World) :=
  match o with
  | .page .connect => some (if ch = 0 then (.ok false, w) else (.ok true, w.connect (.fresh none t)))
  | .page .input =>
    match j with
    | .request _ body => some (.ok body, w)
    | _ => none
  | .page (.send data) =>
    (w.connOf t).map fun k =>
      if ch = 0 then (.ok false, w) else (.ok true, w.change k (.write (data.take (ch - 1)) none))
  | .page .recv =>
    (w.connOf t).bind fun k => w.conns[k]?.bind fun x =>
      if ch = 0 then some (.ok none, w)
      else if x.reply = [] ∧ x.closed = false then none
      else some (.ok (some (x.reply.take (min ch 100))), w)
  | .page .close => some (.ok (), w)
  | .dispatch .tableGet => some (.ok w.i, w)
  | .dispatch (.tableSet i) => some (.ok (), { w with i := i })
  | .dispatch (.client _) => some (.ok (), w)
  | .dispatch (.connected i) => some (if ch = 0 then (.ok false, w) else (.ok true, w.connect (.fresh (some i) t)))
  | .dispatch (.fwrite data) =>
    (w.connOf t).map fun k => (.ok (), w.change k (.write data (if ch = 0 then none else some (ch - 1))))
  | .dispatch .fclose => some (.ok (), w)
  | .dispatch .beyond => none
  | .acceptConn => (w.waiting none).map fun k => (.ok k, w.change k .accept)
  | .acceptLogger i => (w.waiting (some i)).map fun k => (.ok k, w.change k .accept)
  | .fread =>
    j.serves.bind fun k => w.conns[k]?.bind fun x =>
      if x.pending = [] ∨ 1 ≤ ch ∧ ch ≤ 4096 then some (.ok (x.pending.take ch), w.change k (.read ch)) else none
  | .fwrite data => j.serves.map fun k => (.ok (), w.change k (.answer (if ch = 0 then data else [])))
  | .fclose => j.serves.map fun k => (.ok (), w.change k .close)
  | .go _ _ => some (.ok (), w)
  | .logger data => j.serves.map fun k => (.ok (), { w with logged := w.logged ++ [(k, data)] })
  | .beyond => none

def spawned : (o : Op) → Except Empty o.Res → List Job
  | .acceptConn, .ok k => [.conn k]
  | .acceptLogger _, .ok k => [.handler k]
  | .go conn rawData, _ => [.relay conn rawData]
  | _, _ => []

structure Setup where
  TELEGRAM_WEBHOOK_KEY : String
  nlogger : Nat
  json : Webhook.JsonDecode
  /-- How many rounds of their loops the coroutines are followed for. -/
  rounds : Nat

variable (σ : Setup)

def code : Job → Run (Option Webhook.Reply)
  | .request key _ => do
    let reply ← r1 σ.TELEGRAM_WEBHOOK_KEY key
    pure (some reply)
  | .master rounds => do
    master rounds
    pure none
  | .worker i rounds => do
    worker i rounds
    pure none
  | .conn k => do
    connHandler k σ.rounds
    pure none
  | .handler _ => do
    loggerHandler σ.json σ.rounds
    pure none
  | .relay _ rawData => do
    sendToLogger σ.nlogger rawData σ.rounds
    pure none

def system : System World Op Op.Res Empty (Option Webhook.Reply) Job Nat where
  code := code σ
  exec := exec
  spawned := spawned

abbrev Conf := Config World Op Op.Res Empty (Option Webhook.Reply) Job

/-- Only requests come from outside, and the accept loops are there from the beginning. -/
def outside : Label Job Nat → Bool
  | .start (.request _ _) | .start (.master _) | .start (.worker _ _) => true
  | .start _ => false
  | .step _ _ => true

def origin (c : Conf) (k : Nat) : Option Nat := do
  let x ← c.shared.conns[k]?
  match ← c.threads[x.opener]? with
  | (.relay m _, _) => (c.shared.conns[m]?).map Conn.opener
  | _ => none

end TeaBot.Daemon.Relay
