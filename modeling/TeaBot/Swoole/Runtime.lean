import TeaBot.Foundation.Coroutines
import TeaBot.Foundation.Interp
import TeaBot.Loggers.Pool

/-! # The coroutine runtime under the loggers

The lock manager of `file_lock.cc`, the stream hooks that call it, and the channels of
`channel.cc`, as the bundled extension has them, with the loggers' coroutines on top. What
the C++ code does between two points where it can lose the processor is one operation.
Locks are only ever exclusive here, channels are not closed and nobody waits with a timeout.
-/

namespace TeaBot.Swoole

open Foundation Loggers

/-- `file_lock_manager` -/
structure FileLockManager where
  lockEx : Bool := false
  lockSh : Bool := false
  queue : List Nat := []
  deriving DecidableEq

/-- `Channel::opcode` -/
inductive Opcode
  | producer
  | consumer
  deriving DecidableEq

/-- `coroutine::Channel` without its `data_queue`, which `World.chans` holds. -/
structure Channel where
  proc : Nat
  capacity : Nat
  producerQueue : List Nat := []
  consumerQueue : List Nat := []
  deriving DecidableEq

namespace Channel

def queue (c : Channel) : Opcode → List Nat
  | .producer => c.producerQueue
  | .consumer => c.consumerQueue

def setQueue (c : Channel) (l : List Nat) : Opcode → Channel
  | .producer => { c with producerQueue := l }
  | .consumer => { c with consumerQueue := l }

/-- `is_full() || !producer_queue.empty()`, `is_empty() || !consumer_queue.empty()` -/
def mustWait (c : Channel) (size : Nat) : Opcode → Bool
  | .producer => size == c.capacity || !c.producerQueue.isEmpty
  | .consumer => size == 0 || !c.consumerQueue.isEmpty

/-- The coroutine to be notified, if one waits, and the channel without it. -/
def popCoroutine (c : Channel) (type : Opcode) : Option Nat × Channel :=
  match c.queue type with
  | [] => (none, c)
  | co :: rest => (some co, c.setQueue rest type)

end Channel

structure Task where
  proc : Nat
  job : Job

inductive RtOp
  /-- Whether the call that follows gives the processor away. -/
  | poll
  | call (o : Op)
  /-- The call is carried out while its coroutine is suspended. -/
  | io (o : Op)
  /-- `lock_ex` up to `yield` -/
  | enter (m : Mutex)
  | setLockEx (m : Mutex)
  /-- `::flock(fd, LOCK_EX)` -/
  | flock (m : Mutex)
  /-- `lock_release` up to `::flock` -/
  | leave (m : Mutex)
  /-- `::flock(fd, LOCK_UN)` -/
  | funlock (m : Mutex)
  | lockFlag (m : Mutex)
  | setLockFlag (m : Mutex) (locked : Bool)
  /-- `::close(fd)` -/
  | close (m : Mutex)
  | newChannel (capacity : Nat)
  /-- `Channel::pop` and `Channel::push` up to `yield` -/
  | arrive (chan : Nat) (type : Opcode)
  /-- The rest of `Channel::pop`: the data, and the producer to resume. -/
  | take (chan : Nat)
  | put (chan : Nat) (row : AdminRow)

@[reducible] def RtOp.Res : RtOp → Type
  | .poll | .enter _ | .lockFlag _ | .arrive .. => Bool
  | .call o | .io o => o.Res
  | .leave _ | .put .. => Option Nat
  | .newChannel _ => Nat
  | .take _ => AdminRow × Option Nat
  | _ => Unit

structure Runtime where
  world : World
  /-- `lock_pool`, which every process has of its own. -/
  lockPool : Nat × Mutex → Option FileLockManager := fun _ => none
  /-- `lock_flag` of the handle on the lock file that a coroutine has opened. -/
  lockFlag : Nat × Mutex → Bool := fun _ => false
  channels : List Channel := []

namespace Runtime

def setManager (s : Runtime) (p : Nat) (m : Mutex) (x : Option FileLockManager) : Runtime :=
  { s with lockPool := Function.update s.lockPool (p, m) x }

def setFlag (s : Runtime) (t : Nat) (m : Mutex) (b : Bool) : Runtime :=
  { s with lockFlag := Function.update s.lockFlag (t, m) b }

/-- Carries out an operation of the world. -/
def inWorld (h : Hashes) (t : Nat) (j : Job) (o : Op) (ch : Choice) (s : Runtime) :
    Option (Except Throwable o.Res × Runtime) :=
  (exec h t j o ch s.world).map fun (r, w) => (r, { s with world := w })

def channel (s : Runtime) (p chan : Nat) : Option (Channel × Nat) :=
  match s.channels[chan]?, s.world.chans[chan]? with
  | some c, some rows => if c.proc = p then some (c, rows.length) else none
  | _, _ => none

def notify (s : Runtime) (chan : Nat) (type : Opcode) : Option Nat × Runtime :=
  match s.channels[chan]? with
  | some c => ((c.popCoroutine type).1, { s with channels := s.channels.set chan (c.popCoroutine type).2 })
  | none => (none, s)

def exec (h : Hashes) (t : Nat) (task : Task) (o : RtOp) (ch : Bool × Choice) (s : Runtime) :
    Option (Except Throwable o.Res × Runtime) :=
  match o with
  | .poll => some (.ok ch.1, s)
  | .call o => s.inWorld h t task.job o ch.2
  | .io o => s.inWorld h t task.job o ch.2
  | .enter m =>
    let lm := (s.lockPool (task.proc, m)).getD {}
    if lm.lockEx || lm.lockSh then
      some (.ok true, s.setManager task.proc m (some { lm with queue := lm.queue ++ [t] }))
    else some (.ok false, s.setManager task.proc m (some lm))
  | .setLockEx m =>
    -- a manager that is gone would be a write to freed memory
    match s.lockPool (task.proc, m) with
    | some lm => some (.ok (), s.setManager task.proc m (some { lm with lockEx := true }))
    | none => none
  | .flock m => s.inWorld h t task.job (.lock m) .ok
  | .leave m =>
    match s.lockPool (task.proc, m) with
    | none => some (.ok none, s)
    | some lm =>
      match lm.queue with
      | [] => some (.ok none, s.setManager task.proc m none)
      | co :: rest => some (.ok (some co), s.setManager task.proc m (some { lm with queue := rest }))
  | .funlock m => s.inWorld h t task.job (.unlock m) .ok
  | .lockFlag m => some (.ok (s.lockFlag (t, m)), s)
  | .setLockFlag m b => some (.ok (), s.setFlag t m b)
  | .close m => (s.setFlag t m false).inWorld h t task.job (.fclose m) .ok
  | .newChannel capacity =>
    let c : Channel := { proc := task.proc, capacity := if capacity = 0 then 1 else capacity }
    { s with channels := s.channels ++ [c] }.inWorld h t task.job (.newChannel capacity) .ok
  | .arrive chan type =>
    match s.channel task.proc chan with
    | some (c, size) =>
      if c.mustWait size type then
        some (.ok true, { s with channels := s.channels.set chan (c.setQueue (c.queue type ++ [t]) type) })
      else some (.ok false, s)
    | none => none
  | .take chan =>
    -- the front of an empty `std::queue` is undefined
    match s.channel task.proc chan, s.inWorld h t task.job (.pop chan) .ok with
    | some _, some (r, s') => some (r.map fun row => (row, (s'.notify chan .producer).1), (s'.notify chan .producer).2)
    | _, _ => none
  | .put chan row =>
    match s.channel task.proc chan, s.inWorld h t task.job (.push chan row) .ok with
    | some _, some (r, s') => some (r.map fun _ => (s'.notify chan .consumer).1, (s'.notify chan .consumer).2)
    | _, _ => none

/-- The kernel drops the locks of a process that ends, the server its transactions. -/
def died (p : Nat) (home : Nat → Option Nat) (s : Runtime) : Runtime :=
  { s with world := { s.world with
      locks := fun m => if (s.world.locks m).bind home = some p then none else s.world.locks m
      tx := fun t => if home t = some p then none else s.world.tx t } }

end Runtime

def kernel (h : Hashes) : Kernel Runtime RtOp RtOp.Res Throwable Task (Bool × Choice) where
  proc := Task.proc
  remote
    | .io _ => true
    | _ => false
  exec := Runtime.exec h
  died := Runtime.died

/-! ## The hooked functions -/

abbrev Co (α : Type) : Type := Kernel.Co Task RtOp RtOp.Res Throwable α

def sched (o : Sched Task RtOp) : Co (o.Res RtOp.Res) := Kernel.ask o

def rt (o : RtOp) : Co o.Res := sched (.own o)

def resume (co : Option Nat) : Co Unit :=
  match co with
  | some c => sched (.resume c)
  | none => pure ()

/-- `lock_ex` of `file_lock.cc` -/
def lockEx (m : Mutex) : Co Unit := do
  let busy ← rt (.enter m)
  Prog.when busy (sched .yield)
  rt (.setLockEx m)
  rt (.flock m)

/-- `lock_release` of `file_lock.cc` -/
def lockRelease (m : Mutex) : Co Unit := do
  let co ← rt (.leave m)
  rt (.funlock m)
  resume co

/-- `flock($handle, LOCK_EX)` -/
def flockEx (m : Mutex) : Co Unit := do
  lockEx m
  rt (.setLockFlag m true)

/-- `flock($handle, LOCK_UN)` -/
def flockUn (m : Mutex) : Co Unit := do
  lockRelease m
  rt (.setLockFlag m false)

/-- `php_stdiop_close` -/
def fclose (m : Mutex) : Co Unit := do
  let locked ← rt (.lockFlag m)
  Prog.when locked (lockRelease m)
  rt (.close m)

/-- `Channel::pop` -/
def pop (chan : Nat) : Co AdminRow := do
  let wait ← rt (.arrive chan .consumer)
  Prog.when wait (sched .yield)
  let (row, co) ← rt (.take chan)
  resume co
  pure row

/-- `Channel::push` -/
def push (chan : Nat) (row : AdminRow) : Co Unit := do
  let wait ← rt (.arrive chan .producer)
  Prog.when wait (sched .yield)
  let co ← rt (.put chan row)
  resume co

/-- Any other call: it may give the processor away and go on when the event loop says so. -/
def hooked (o : Op) : Co o.Res := do
  let away ← rt .poll
  if away then
    sched .yield
    (rt (.io o)).attempt fun r => do
      sched .wake
      Prog.ofExcept r
  else rt (.call o)

/-- An operation of a logger's coroutine in process `p`. -/
def call (p : Nat) : (o : Op) → Co o.Res
  | .lock m => flockEx m
  | .unlock m => flockUn m
  | .fclose m => fclose m
  | .go job => sched (.create ⟨p, job⟩)
  | .newChannel capacity => rt (.newChannel capacity)
  | .push chan row => push chan row
  | .pop chan => pop chan
  | o => hooked o

def code (h : Hashes) (task : Task) : Co Unit :=
  Kernel.coroutine ((poolCode h.md5 task.job).interp (call task.proc))

def machine (h : Hashes) : System (Procs Runtime) (Sched Task RtOp) (Sched.Res RtOp.Res) Throwable Unit Task
    (Bool × Choice) :=
  (kernel h).system (code h)

abbrev Config := System.Config (Procs Runtime) (Sched Task RtOp) (Sched.Res RtOp.Res) Throwable Unit Task

/-- Nothing has begun; `w` is the database and the file system. -/
def initial (w : World) : Config := ⟨{ shared := { world := w } }, []⟩

end TeaBot.Swoole
