import TeaBot.Loggers.Conduct
import TeaBot.Swoole.Channels
import TeaBot.Swoole.LockPool

/-! # Where a coroutine is in the code of the runtime

What a coroutine has left to do of the call it is in, beside what is left of the logger
itself. The call has taken effect, as far as the others are concerned, at one of the
operations below it; from there on the logger is past the call.
-/

namespace TeaBot.Swoole

open Foundation Loggers

inductive Phase
  | fresh
  /-- In the code of the logger. -/
  | php
  /-- About to yield to the event loop. -/
  | parting
  | away
  /-- What was asked for is done, but the event loop has not come back. -/
  | back
  | calling
  /-- In `lock_ex` or `lock_release`; for the latter, whether `fclose` has called it. -/
  | lock (m : Mutex) (x : LockRole) (closes : Bool)
  /-- About to set `lock_flag`. -/
  | flagging (m : Mutex) (locked : Bool)
  /-- In `fclose`, the lock is to be released. -/
  | releasing (m : Mutex)
  /-- In `fclose`, about to close a handle whose lock has been released. -/
  | closing (m : Mutex)
  /-- In `fclose`, about to close a handle without a lock. -/
  | shutting (m : Mutex)
  | chan (i : Nat) (x : ChanRole)
  | ended
  deriving DecidableEq

namespace Phase

def place : Phase → Place
  | .fresh => .fresh
  | .away | .back => .asleep
  | .lock _ .waiting _ | .chan _ (.waiting _) => .yielded
  | .ended => .ended
  | _ => .running

def yielded : Phase → Phase
  | .parting => .away
  | .lock m .queued closes => .lock m .waiting closes
  | .chan i (.queued type) => .chan i (.waiting type)
  | x => x

def released (m : Mutex) (closes : Bool) : Phase := if closes then .closing m else .flagging m false

def resumed : Phase → Phase
  | .lock m (.hands _) closes => released m closes
  | _ => .php

end Phase

/-- A coroutine: its process, its phase, what is left of the logger and how it has
conducted itself so far. -/
structure Local where
  proc : Nat
  phase : Phase := .fresh
  prog : Run Unit
  conduct : Conduct

namespace Local

def held (d : Local) : List Mutex := d.conduct.duty.held

noncomputable def advance (d : Local) (o : Op) (r : Except Throwable o.Res) (x : Phase) : Local where
  proc := d.proc
  phase := x
  prog := d.prog.answered o r
  conduct := d.conduct.after o r

noncomputable def after (d : Local) : (o : Sched Task RtOp) → Except Throwable (o.Res RtOp.Res) → Local
  | .begin, _ | .wake, _ => { d with phase := .php }
  | .finish, _ | .exit, _ => { d with phase := .ended }
  | .yield, _ => { d with phase := d.phase.yielded }
  | .resume _, _ => { d with phase := d.phase.resumed }
  | .create task, r => d.advance (.go task.job) r .php
  | .own .poll, .ok away => { d with phase := if away then .parting else .calling }
  | .own (.call o), r => d.advance o r .php
  | .own (.io o), r => d.advance o r .back
  | .own (.enter m), .ok busy => { d with phase := .lock m (if busy then .queued else .entering) false }
  | .own (.setLockEx m), _ => { d with phase := .lock m .marked false }
  | .own (.flock m), r => d.advance (.lock m) r (.flagging m true)
  | .own (.leave m), .ok co => { d with phase := .lock m (.leaves co) (d.phase = .releasing m) }
  | .own (.funlock m), r =>
    match d.phase with
    | .lock _ (.leaves co) closes =>
      let x := co.elim (.released m closes) fun c => .lock m (.hands c) closes
      if closes then d.advance (.fclose m) r x else d.advance (.unlock m) r x
    | _ => d
  | .own (.lockFlag m), .ok locked => { d with phase := if locked then .releasing m else .shutting m }
  | .own (.setLockFlag ..), _ => { d with phase := .php }
  | .own (.close m), r => if d.phase = .shutting m then d.advance (.fclose m) r .php else { d with phase := .php }
  | .own (.newChannel capacity), r => d.advance (.newChannel capacity) r .php
  | .own (.arrive i type), .ok wait => { d with phase := .chan i (if wait then .queued type else .ready type) }
  | .own (.take i), .ok x =>
    d.advance (.pop i) (.ok x.1) (x.2.elim .php fun c => .chan i (.notifies .producer c))
  | .own (.put i row), .ok co =>
    d.advance (.push i row) (.ok ()) (co.elim .php fun c => .chan i (.notifies .consumer c))
  | _, _ => d

theorem after_proc (d : Local) (o : Sched Task RtOp) (r : Except Throwable (o.Res RtOp.Res)) :
    (d.after o r).proc = d.proc := by
  unfold after
  split <;> first | rfl | (split <;> first | rfl | (split <;> rfl))

end Local

/-- Calls that the runtime only passes on. -/
def Foreign : Op → Prop
  | .lock _ | .unlock _ | .fclose _ | .go _ | .newChannel _ | .push .. | .pop _ => False
  | _ => True

/-- What a coroutine of process `p` may ask for next. -/
inductive Expects (p : Nat) : Phase → Run Unit → Sched Task RtOp → Prop
  | begin {prog : Run Unit} : Expects p .fresh prog .begin
  | finish {a : Unit} : Expects p .php (.ret a) .finish
  | exit {e : Throwable} : Expects p .php (.throw e) .exit
  | poll {o : Op} {k : Except Throwable o.Res → Run Unit} (h : Foreign o) : Expects p .php (.op o k) (.own .poll)
  | part {o : Op} {k : Except Throwable o.Res → Run Unit} (h : Foreign o) : Expects p .parting (.op o k) .yield
  | io {o : Op} {k : Except Throwable o.Res → Run Unit} (h : Foreign o) : Expects p .away (.op o k) (.own (.io o))
  | wake {prog : Run Unit} : Expects p .back prog .wake
  | call {o : Op} {k : Except Throwable o.Res → Run Unit} (h : Foreign o) :
      Expects p .calling (.op o k) (.own (.call o))
  | create {j : Job} {k : Except Throwable Unit → Run Unit} : Expects p .php (.op (.go j) k) (.create ⟨p, j⟩)
  | enter {m : Mutex} {k : Except Throwable Unit → Run Unit} : Expects p .php (.op (.lock m) k) (.own (.enter m))
  | queue {m : Mutex} {k : Except Throwable Unit → Run Unit} :
      Expects p (.lock m .queued false) (.op (.lock m) k) .yield
  | mark {m : Mutex} {x : LockRole} {k : Except Throwable Unit → Run Unit} (h : x = .entering ∨ x = .waiting) :
      Expects p (.lock m x false) (.op (.lock m) k) (.own (.setLockEx m))
  | flock {m : Mutex} {k : Except Throwable Unit → Run Unit} :
      Expects p (.lock m .marked false) (.op (.lock m) k) (.own (.flock m))
  | flag {m : Mutex} {locked : Bool} {prog : Run Unit} :
      Expects p (.flagging m locked) prog (.own (.setLockFlag m locked))
  | unlock {m : Mutex} {k : Except Throwable Unit → Run Unit} :
      Expects p .php (.op (.unlock m) k) (.own (.leave m))
  | fclose {m : Mutex} {k : Except Throwable Unit → Run Unit} :
      Expects p .php (.op (.fclose m) k) (.own (.lockFlag m))
  | release {m : Mutex} {k : Except Throwable Unit → Run Unit} :
      Expects p (.releasing m) (.op (.fclose m) k) (.own (.leave m))
  | funlock {m : Mutex} {co : Option Nat} {k : Except Throwable Unit → Run Unit} :
      Expects p (.lock m (.leaves co) false) (.op (.unlock m) k) (.own (.funlock m))
  | funlockClose {m : Mutex} {co : Option Nat} {k : Except Throwable Unit → Run Unit} :
      Expects p (.lock m (.leaves co) true) (.op (.fclose m) k) (.own (.funlock m))
  | hand {m : Mutex} {co : Nat} {closes : Bool} {prog : Run Unit} :
      Expects p (.lock m (.hands co) closes) prog (.resume co)
  | close {m : Mutex} {prog : Run Unit} : Expects p (.closing m) prog (.own (.close m))
  | shut {m : Mutex} {k : Except Throwable Unit → Run Unit} :
      Expects p (.shutting m) (.op (.fclose m) k) (.own (.close m))
  | newChannel {capacity : Nat} {k : Except Throwable Nat → Run Unit} :
      Expects p .php (.op (.newChannel capacity) k) (.own (.newChannel capacity))
  | pop {i : Nat} {k : Except Throwable AdminRow → Run Unit} :
      Expects p .php (.op (.pop i) k) (.own (.arrive i .consumer))
  | push {i : Nat} {row : AdminRow} {k : Except Throwable Unit → Run Unit} :
      Expects p .php (.op (.push i row) k) (.own (.arrive i .producer))
  | wait {i : Nat} {type : Opcode} {prog : Run Unit} : Expects p (.chan i (.queued type)) prog .yield
  | take {i : Nat} {x : ChanRole} {k : Except Throwable AdminRow → Run Unit}
      (h : x = .ready .consumer ∨ x = .waiting .consumer) : Expects p (.chan i x) (.op (.pop i) k) (.own (.take i))
  | put {i : Nat} {row : AdminRow} {x : ChanRole} {k : Except Throwable Unit → Run Unit}
      (h : x = .ready .producer ∨ x = .waiting .producer) :
      Expects p (.chan i x) (.op (.push i row) k) (.own (.put i row))
  | notify {i : Nat} {type : Opcode} {co : Nat} {prog : Run Unit} :
      Expects p (.chan i (.notifies type co)) prog (.resume co)

/-- Only what is passed on can raise. -/
def Answers (o : Sched Task RtOp) (r : Except Throwable (o.Res RtOp.Res)) : Prop :=
  ∀ e, r = .error e → ∃ x : Op, (o = .own (.call x) ∨ o = .own (.io x)) ∧ x.raises e = true

noncomputable def steps : Discipline (Sched Task RtOp) (Sched.Res RtOp.Res) Throwable Local where
  admits d o := Expects d.proc d.phase d.prog o
  answers := Answers
  after := Local.after

/-! ## The code keeps to it -/

section Keeps

variable {α : Type} {Q : Except Throwable α → Local → Prop} {d : Local}

theorem ask_then {o : Sched Task RtOp} {f : o.Res RtOp.Res → Co α} (hAdmits : Expects d.proc d.phase d.prog o)
    (hOwn : ∀ x, o ≠ .own (.call x) ∧ o ≠ .own (.io x))
    (hf : ∀ a, (f a).Keeps steps Q (d.after o (.ok a))) : ((sched o).bind f).Keeps steps Q d := by
  refine .perform_bind hAdmits (fun e hr => ?_) fun a _ => hf a
  obtain ⟨x, hx | hx, _⟩ := hr e rfl
  · exact absurd hx (hOwn x).1
  · exact absurd hx (hOwn x).2

theorem ask_last {o : Sched Task RtOp} {Q : Except Throwable (o.Res RtOp.Res) → Local → Prop}
    (hAdmits : Expects d.proc d.phase d.prog o) (hOwn : ∀ x, o ≠ .own (.call x) ∧ o ≠ .own (.io x))
    (hQ : ∀ a, Q (.ok a) (d.after o (.ok a))) : (sched o).Keeps steps Q d := by
  have h := ask_then (f := .ret) hAdmits hOwn hQ
  rwa [Prog.bind_pure] at h

def Past (p : Nat) (prog : Run Unit) (d : Local) : Prop := d.proc = p ∧ d.phase = .php ∧ d.prog = prog

variable {p : Nat}

theorem hooked_keeps {o : Op} {k : Except Throwable o.Res → Run Unit} (ho : Foreign o) (hd : Past p (.op o k) d) :
    (hooked o).Keeps steps (fun r => Past p (k r)) d := by
  obtain ⟨p, phase, prog, c⟩ := d
  obtain ⟨rfl, rfl, rfl⟩ := hd
  refine ask_then (.poll ho) (by simp) fun away => ?_
  cases away with
  | true =>
    refine ask_then (.part ho) (by simp) fun _ => ⟨.io ho, fun r _ => ?_⟩
    cases r with
    | ok a => exact ask_then .wake (by simp) fun _ => ⟨rfl, rfl, by simp [steps, Local.after, Local.advance]⟩
    | error e => exact ask_then .wake (by simp) fun _ => ⟨rfl, rfl, by simp [steps, Local.after, Local.advance]⟩
  | false =>
    refine ⟨.call ho, fun r _ => .ofExcept ?_⟩
    exact ⟨rfl, rfl, by simp [steps, Local.after, Local.advance]⟩

variable {k : Except Throwable Unit → Run Unit} {m : Mutex}

theorem lock_keeps (hd : Past p (.op (.lock m) k) d) : (flockEx m).Keeps steps (fun r => Past p (k r)) d := by
  obtain ⟨p, phase, prog, c⟩ := d
  obtain ⟨rfl, rfl, rfl⟩ := hd
  -- from the test of the manager on, with or without a wait
  have hRest : ∀ x, x = .entering ∨ x = .waiting →
      ((rt (.setLockEx m)).bind fun _ => rt (.flock m)).Keeps steps
        (fun r d' => r = .ok () ∧ d' = Local.advance ⟨p, .php, .op (.lock m) k, c⟩ (.lock m) (.ok ())
          (.flagging m true))
        ⟨p, .lock m x false, .op (.lock m) k, c⟩ := by
    intro x hx
    refine ask_then (.mark hx) (by simp) fun _ => ask_last .flock (by simp) fun _ => ⟨rfl, ?_⟩
    simp [Local.after, Local.advance]
  refine .bind (Q := fun r d' => r = .ok () ∧
    d' = Local.advance ⟨p, .php, .op (.lock m) k, c⟩ (.lock m) (.ok ()) (.flagging m true)) ?_ ?_ ?_
  · refine ask_then .enter (by simp) fun busy => ?_
    cases busy with
    | true => exact ask_then .queue (by simp) fun _ => hRest .waiting (.inr rfl)
    | false => exact hRest .entering (.inl rfl)
  · rintro _ _ ⟨_, rfl⟩
    exact ask_last .flag (by simp) fun _ => ⟨rfl, rfl, by simp [Local.after, Local.advance]⟩
  · rintro e _ ⟨hEq, _⟩
    cases hEq

theorem release_keeps (closes : Bool) {prog : Run Unit} {c : Conduct} {x : Phase}
    (hProg : prog = if closes then .op (.fclose m) k else .op (.unlock m) k)
    (hx : x = if closes then .releasing m else .php) :
    (lockRelease m).Keeps steps
      (fun r d' => r = .ok () ∧ d'.proc = p ∧ d'.phase = .released m closes ∧ d'.prog = k (.ok ())) ⟨p, x, prog, c⟩ :=
        by
  subst hProg hx
  have hUnlock : ∀ co, ((rt (.funlock m)).bind fun _ => resume co).Keeps steps
      (fun r d' => r = .ok () ∧ d'.proc = p ∧ d'.phase = .released m closes ∧ d'.prog = k (.ok ()))
      ⟨p, .lock m (.leaves co) closes, if closes then .op (.fclose m) k else .op (.unlock m) k, c⟩ := by
    intro co
    refine ask_then ?_ (by simp) fun _ => ?_
    · cases closes with
      | true => exact .funlockClose
      | false => exact .funlock
    · cases co with
      | none => cases closes <;> exact ⟨rfl, rfl, rfl, by simp [Local.after, Local.advance]⟩
      | some c =>
        cases closes with
        | true => exact ask_last .hand (by simp) fun _ => ⟨rfl, rfl, rfl, by simp [Local.after, Local.advance]⟩
        | false => exact ask_last .hand (by simp) fun _ => ⟨rfl, rfl, rfl, by simp [Local.after, Local.advance]⟩
  cases closes with
  | true => exact ask_then .release (by simp) fun co => by simpa [Local.after] using hUnlock co
  | false => exact ask_then .unlock (by simp) fun co => by simpa [Local.after] using hUnlock co

theorem unlock_keeps (hd : Past p (.op (.unlock m) k) d) : (flockUn m).Keeps steps (fun r => Past p (k r)) d := by
  obtain ⟨p, phase, prog, c⟩ := d
  obtain ⟨rfl, rfl, rfl⟩ := hd
  refine .bind (release_keeps false (k := k) rfl rfl) ?_ ?_
  · rintro _ ⟨_, _, _, _⟩ ⟨_, rfl, rfl, rfl⟩
    exact ask_last .flag (by simp) fun _ => ⟨rfl, rfl, rfl⟩
  · rintro e _ ⟨hEq, _⟩
    cases hEq

theorem fclose_keeps (hd : Past p (.op (.fclose m) k) d) : (fclose m).Keeps steps (fun r => Past p (k r)) d := by
  obtain ⟨p, phase, prog, c⟩ := d
  obtain ⟨rfl, rfl, rfl⟩ := hd
  refine ask_then .fclose (by simp) fun locked => ?_
  cases locked with
  | true =>
    refine .bind (release_keeps true (k := k) rfl rfl) ?_ ?_
    · rintro _ ⟨_, _, _, _⟩ ⟨_, rfl, rfl, rfl⟩
      exact ask_last .close (by simp) fun _ => ⟨rfl, rfl, rfl⟩
    · rintro e _ ⟨hEq, _⟩
      cases hEq
  | false =>
    refine ask_last .shut (by simp) fun r => ?_
    have hAfter : Local.after ⟨p, .shutting m, .op (.fclose m) k, c⟩ (.own (.close m)) (.ok r) =
        ⟨p, .php, k (.ok r), c.after (.fclose m) (.ok r)⟩ := by
      simp [Local.after, Local.advance]
    exact hAfter ▸ ⟨rfl, rfl, rfl⟩

variable {i : Nat}

theorem resume_keeps {type : Opcode} {co : Option Nat} {prog : Run Unit} {c : Conduct} :
    (resume co).Keeps steps (fun r d' => r = .ok () ∧ Past p prog d')
      ⟨p, co.elim .php fun u => .chan i (.notifies type u), prog, c⟩ := by
  cases co with
  | none => exact ⟨rfl, rfl, rfl, rfl⟩
  | some u => exact ask_last .notify (by simp) fun _ => ⟨rfl, rfl, rfl, rfl⟩

theorem pop_keeps {k : Except Throwable AdminRow → Run Unit} (hd : Past p (.op (.pop i) k) d) :
    (pop i).Keeps steps (fun r => Past p (k r)) d := by
  obtain ⟨p, phase, prog, c⟩ := d
  obtain ⟨rfl, rfl, rfl⟩ := hd
  have hRest : ∀ x, x = .ready .consumer ∨ x = .waiting .consumer →
      ((rt (.take i)).bind fun y => (resume y.2).bind fun _ => (.ret y.1 : Co AdminRow)).Keeps steps
        (fun r => Past p (k r)) ⟨p, .chan i x, .op (.pop i) k, c⟩ := by
    intro x hx
    refine ask_then (.take hx) (by simp) fun y => ?_
    refine .bind (Q := fun r d' => r = .ok () ∧ Past p (k (.ok y.1)) d') ?_ (fun _ _ h => h.2) ?_
    · have hAfter : Local.after ⟨p, .chan i x, .op (.pop i) k, c⟩ (.own (.take i)) (.ok y) =
          ⟨p, y.2.elim .php fun u => .chan i (.notifies .producer u), k (.ok y.1), c.after (.pop i) (.ok y.1)⟩ := by
        simp [Local.after, Local.advance]
      rw [hAfter]
      exact resume_keeps
    · rintro e _ ⟨hEq, _⟩
      cases hEq
  refine ask_then .pop (by simp) fun wait => ?_
  cases wait with
  | true => exact ask_then .wait (by simp) fun _ => hRest (.waiting .consumer) (.inr rfl)
  | false => exact hRest (.ready .consumer) (.inl rfl)

theorem push_keeps {row : AdminRow} (hd : Past p (.op (.push i row) k) d) :
    (push i row).Keeps steps (fun r => Past p (k r)) d := by
  obtain ⟨p, phase, prog, c⟩ := d
  obtain ⟨rfl, rfl, rfl⟩ := hd
  have hRest : ∀ x, x = .ready .producer ∨ x = .waiting .producer →
      ((rt (.put i row)).bind fun co => resume co).Keeps steps (fun r => Past p (k r))
        ⟨p, .chan i x, .op (.push i row) k, c⟩ := by
    intro x hx
    refine ask_then (.put hx) (by simp) fun co => ?_
    have hAfter : Local.after ⟨p, .chan i x, .op (.push i row) k, c⟩ (.own (.put i row)) (.ok co) =
        ⟨p, co.elim .php fun u => .chan i (.notifies .consumer u), k (.ok ()), c.after (.push i row) (.ok ())⟩ := by
      simp [Local.after, Local.advance]
    rw [hAfter]
    refine resume_keeps.mono ?_
    rintro _ d' ⟨rfl, hPast⟩
    exact hPast
  refine ask_then .push (by simp) fun wait => ?_
  cases wait with
  | true => exact ask_then .wait (by simp) fun _ => hRest (.waiting .producer) (.inr rfl)
  | false => exact hRest (.ready .producer) (.inl rfl)

theorem call_keeps {o : Op} {k : Except Throwable o.Res → Run Unit} (hd : Past p (.op o k) d) :
    (call p o).Keeps steps (fun r => Past p (k r)) d := by
  cases o with
  | lock m => exact lock_keeps hd
  | unlock m => exact unlock_keeps hd
  | fclose m => exact fclose_keeps hd
  | push i row => exact push_keeps hd
  | pop i => exact pop_keeps hd
  | go j =>
    obtain ⟨p, phase, prog, c⟩ := d
    obtain ⟨rfl, rfl, rfl⟩ := hd
    exact ask_last .create (by simp) fun _ => ⟨rfl, rfl, by simp [Local.after, Local.advance]⟩
  | newChannel n =>
    obtain ⟨p, phase, prog, c⟩ := d
    obtain ⟨rfl, rfl, rfl⟩ := hd
    exact ask_last .newChannel (by simp) fun _ => ⟨rfl, rfl, by simp [Local.after, Local.advance]⟩
  | _ => exact hooked_keeps trivial hd

end Keeps

def Local.initial (h : Hashes) (task : Task) : Local where
  proc := task.proc
  prog := poolCode h.md5 task.job
  conduct := task.job.conduct

theorem code_keeps (h : Hashes) (task : Task) :
    (code h task).Keeps steps (fun _ d => d.phase = .ended) (.initial h task) := by
  refine ask_then .begin (by simp) fun _ => ?_
  have hBody : ((poolCode h.md5 task.job).interp (call task.proc)).Keeps steps
      (fun out d => Past task.proc (Prog.ofExcept out) d) ⟨task.proc, .php, poolCode h.md5 task.job,
        task.job.conduct⟩ :=
    .interp (I := Past task.proc) (fun _ _ _ hd => call_keeps hd) (fun _ _ hd => hd) (fun _ _ hd => hd) ⟨rfl, rfl, rfl⟩
  refine .bind (Q := fun out d => (out.isOk = true ∧ ∃ a, Past task.proc (.ret a) d) ∨
    (out.isOk = false ∧ d.phase = .ended))
    (hBody.tryCatch ?_ ?_) ?_ ?_
  · exact fun a d hd => .inl ⟨rfl, a, hd⟩
  · rintro e ⟨_, _, _, _⟩ ⟨rfl, rfl, rfl⟩
    exact ask_then .exit (by simp) fun _ => .inr ⟨rfl, rfl⟩
  · rintro a d (⟨_, a, hPast⟩ | ⟨hOk, _⟩)
    · obtain ⟨_, _, _, _⟩ := d
      obtain ⟨rfl, rfl, rfl⟩ := hPast
      exact ask_last .finish (by simp) fun _ => rfl
    · cases hOk
  · rintro e d (⟨hOk, _⟩ | ⟨_, hEnded⟩)
    · cases hOk
    · exact hEnded

end TeaBot.Swoole
