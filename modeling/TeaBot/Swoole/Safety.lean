import TeaBot.Loggers.Deadlock
import TeaBot.Swoole.ChannelSteps
import TeaBot.Swoole.LockSteps

/-! # What holds in every state of the runtime -/

namespace TeaBot.Swoole

open Foundation Loggers

variable {o : Sched Task RtOp} {h : Hashes} {d : Local}

namespace Inv

variable {gs : List (Task × Local)} {s : Procs Runtime} {t : Nat} {task : Task}

variable {r : Except Throwable (o.Res RtOp.Res)}

theorem answers_ok {a : o.Res RtOp.Res} (hr : r = .ok a) : Answers o r := by
  subst hr
  exact fun e he => by cases he

theorem unspawned {l : List (Task × Local)} (hNew : Inv l s) : Inv (l ++ []) s := by
  rwa [List.append_nil]

variable {ch : Bool × Choice} {s' : Procs Runtime}

theorem running_step {o : RtOp} {r : Except Throwable o.Res} (ho : (kernel h).remote o = false)
    (hStep : (kernel h).step t task (.own o) ch s = some (r, s')) :
    ∃ rest x, s.stack task.proc = some t :: rest ∧ Runtime.exec h t task o ch s.shared = some (r, x) ∧
      s' = { s with shared := x } := by
  obtain ⟨hWhere, x, hExec, hEq⟩ := Kernel.step_own hStep
  obtain ⟨rest, hStack⟩ := hWhere.resolve_left (by simp [ho])
  exact ⟨rest, x, hStack, hExec, hEq⟩

/-- An operation of the runtime that the running coroutine carries out itself. -/
theorem exec_inv {o : RtOp} {r : Except Throwable o.Res} {x : Phase} {prog : Run Unit} {c : Conduct}
    {rest : List (Option Nat)} {shared : Runtime} (hInv : Inv gs s) (hGet : gs[t]? = some (task, ⟨task.proc, x, prog, c⟩))
    (hAdmits : Expects task.proc x prog (.own o)) (hRemote : (kernel h).remote o = false)
    (hAlive : s.dead task.proc = false) (hStack : s.stack task.proc = some t :: rest)
    (hExec : Runtime.exec h t task o ch s.shared = some (r, shared)) :
    Answers (.own o) r ∧ Inv (gs.set t (task, Local.after ⟨task.proc, x, prog, c⟩ (.own o) r)) { s with shared := shared } := by
  cases hAdmits with
  | io => cases hRemote
  | call ho =>
    obtain ⟨hRaises, hNew⟩ := hInv.foreign_inv ho hGet hExec (.inl ⟨rfl, rfl, rest, hStack⟩)
    exact ⟨fun e he => ⟨_, .inl rfl, hRaises e he⟩, hNew⟩
  | poll ho =>
    cases hExec
    exact ⟨answers_ok rfl, hInv.poll_inv hGet hStack ch.1⟩
  | enter =>
    obtain ⟨busy, rfl, hNew⟩ := hInv.enter_inv hGet hAlive hStack rfl hExec
    exact ⟨answers_ok rfl, hNew⟩
  | mark hx =>
    obtain ⟨rfl, hNew⟩ := hInv.mark_inv hx hGet hAlive hStack rfl hExec
    exact ⟨answers_ok rfl, hNew⟩
  | flock =>
    obtain ⟨rfl, hNew⟩ := hInv.flock_inv hGet hAlive hStack hExec
    exact ⟨answers_ok rfl, hNew⟩
  | flag =>
    cases hExec
    exact ⟨answers_ok rfl, hInv.setLockFlag_inv hGet hStack⟩
  | unlock =>
    have hHeld := (hInv.keeps _ (List.mem_of_getElem? hGet)).1.2
    obtain ⟨co, rfl, hNew⟩ := hInv.leave_lock_inv false rfl hGet hHeld hAlive hStack rfl hExec
    exact ⟨answers_ok rfl, hNew⟩
  | release =>
    have hHeld := hInv.fits _ (List.mem_of_getElem? hGet)
    obtain ⟨co, rfl, hNew⟩ := hInv.leave_lock_inv true rfl hGet hHeld hAlive hStack rfl hExec
    exact ⟨answers_ok rfl, by simpa [Local.after] using hNew⟩
  | fclose =>
    cases hExec
    exact ⟨answers_ok rfl, hInv.lockFlag_inv hGet hStack⟩
  | funlock =>
    obtain ⟨rfl, hNew⟩ := hInv.funlock_inv (a := ()) (.inl rfl) hGet hAlive hStack hExec
    exact ⟨answers_ok rfl, hNew⟩
  | funlockClose =>
    obtain ⟨rfl, hNew⟩ := hInv.funlock_inv (a := ()) (.inr rfl) hGet hAlive hStack hExec
    exact ⟨answers_ok rfl, hNew⟩
  | close =>
    obtain ⟨rfl, hNew⟩ := hInv.fclose_inv hGet (.inl rfl) hStack hExec (hInv.keeps _ (List.mem_of_getElem? hGet))
    exact ⟨answers_ok rfl, hNew⟩
  | shut =>
    obtain ⟨rfl, hNew⟩ := hInv.shut_inv hGet hStack hExec
    exact ⟨answers_ok rfl, by simpa [Local.after] using hNew⟩
  | newChannel =>
    obtain ⟨i, rfl, hNew⟩ := hInv.newChannel_inv hGet hStack hExec
    exact ⟨answers_ok rfl, hNew⟩
  | pop | push =>
    obtain ⟨wait, rfl, hNew⟩ := hInv.arrive_inv hGet hAlive hStack rfl hExec
    exact ⟨answers_ok rfl, hNew⟩
  | take hx =>
    obtain ⟨y, rfl, hNew⟩ := hInv.take_inv hx hGet hAlive hStack rfl hExec
    exact ⟨answers_ok rfl, hNew⟩
  | put hx =>
    obtain ⟨co, rfl, hNew⟩ := hInv.put_inv hx hGet hAlive hStack rfl hExec
    exact ⟨answers_ok rfl, hNew⟩

theorem step_inv (hInv : Inv gs s) (hGet : gs[t]? = some (task, d)) (hAdmits : Expects d.proc d.phase d.prog o)
    (hStep : (kernel h).step t task o ch s = some (r, s')) :
    Answers o r ∧
      Inv (gs.set t (task, d.after o r) ++ (Kernel.spawned o r).map fun i => (i, Local.initial h i)) s' := by
  obtain ⟨p, x, prog, c⟩ := d
  obtain rfl : p = task.proc := hInv.proc _ (List.mem_of_getElem? hGet)
  have hAlive : s.dead task.proc = false := Kernel.step_alive hStep
  by_cases hOwn : ∃ o' : RtOp, o = .own o' ∧ (kernel h).remote o' = false
  · obtain ⟨o', rfl, hRemote⟩ := hOwn
    obtain ⟨rest, shared, hStack, hExec, rfl⟩ := running_step hRemote hStep
    obtain ⟨hAnswers, hNew⟩ := hInv.exec_inv hGet hAdmits hRemote hAlive hStack hExec
    exact ⟨hAnswers, unspawned hNew⟩
  cases hAdmits with
  | begin =>
    obtain ⟨rfl, rest, hRest, rfl⟩ := Kernel.step_begin hStep
    exact ⟨answers_ok rfl, unspawned (hInv.begin_inv hGet hAlive hRest)⟩
  | wake =>
    obtain ⟨rfl, hEmpty, rfl⟩ := Kernel.step_wake hStep
    exact ⟨answers_ok rfl, unspawned (hInv.wake_inv hGet hAlive hEmpty)⟩
  | finish =>
    obtain ⟨rfl, rest, hStack, rfl⟩ := Kernel.step_finish hStep
    exact ⟨answers_ok rfl, unspawned (hInv.leave_inv hGet hAlive hStack (.inr ⟨rfl, rfl⟩))⟩
  | exit =>
    obtain ⟨rfl, rfl⟩ := Kernel.step_exit hStep
    exact ⟨answers_ok rfl, unspawned (hInv.exit_inv hGet)⟩
  | part ho =>
    obtain ⟨rfl, rest, hStack, rfl⟩ := Kernel.step_yield hStep
    exact ⟨answers_ok rfl, unspawned (hInv.leave_inv hGet hAlive hStack (.inl ⟨rfl, rfl⟩))⟩
  | queue =>
    obtain ⟨rfl, rest, hStack, rfl⟩ := Kernel.step_yield hStep
    exact ⟨answers_ok rfl, unspawned (hInv.queue_inv hGet hAlive hStack)⟩
  | wait =>
    obtain ⟨rfl, rest, hStack, rfl⟩ := Kernel.step_yield hStep
    exact ⟨answers_ok rfl, unspawned (hInv.wait_inv hGet hAlive hStack)⟩
  | hand =>
    obtain ⟨rfl, rest, hStack, rfl⟩ := Kernel.step_resume hStep
    exact ⟨answers_ok rfl, unspawned (hInv.hand_inv hGet hAlive hStack)⟩
  | notify =>
    obtain ⟨rfl, rest, hStack, rfl⟩ := Kernel.step_resume hStep
    exact ⟨answers_ok rfl, unspawned (hInv.notify_inv hGet hAlive hStack)⟩
  | create =>
    obtain ⟨rfl, rest, hStack, rfl⟩ := Kernel.step_create hStep
    exact ⟨answers_ok rfl, hInv.create_inv hGet hAlive hStack⟩
  | io ho =>
    obtain ⟨_, x, hExec, rfl⟩ := Kernel.step_own hStep
    obtain ⟨hRaises, hNew⟩ := hInv.foreign_inv ho hGet hExec (.inr ⟨rfl, rfl⟩)
    exact ⟨fun e he => ⟨_, .inr rfl, hRaises e he⟩, unspawned hNew⟩
  | _ => exact absurd ⟨_, rfl, rfl⟩ hOwn

end Inv

/-! ## Whole runs -/

/-- Only `trackAdmins` starts the coroutines of the administrators. -/
def starts (_ : Config) : System.Label Task (Bool × Choice) → Prop
  | .start task => task.job.ofTrackAdmins = false
  | .step .. => True

variable {w : World}

theorem inv_initial (hLocks : ∀ m, w.locks m = none) (hChans : w.chans = []) : Inv [] (initial w).shared := by
  have hNone : ∀ t, procs [] t = none := fun _ => rfl
  constructor
  · exact fun g hg => absurd hg List.not_mem_nil
  · constructor <;> simp [initial, hNone]
  · refine ⟨fun _ => [], ?_, ?_, ?_⟩
    · intro p m _
      constructor <;> simp [initial, hNone]
    · intro p t m _ hProc
      cases hProc
    · simp [initial, hLocks, hNone]
  · refine ⟨fun _ => none, ?_⟩
    constructor <;> simp [initial, hChans, chanRoles, view]
  · exact fun t m => rfl
  · exact fun t g hg => absurd hg (by simp)
  · exact fun g hg => absurd hg List.not_mem_nil
  · exact fun g hg => absurd hg List.not_mem_nil

/-- Every coroutine stands in its code as `gs` says. -/
abbrev Placed (gs : List (Task × Local)) (c : Config) : Prop := System.Typed steps (fun _ _ d => d.phase = .ended) gs c

variable {gs : List (Task × Local)}

variable {s : Procs Runtime}

theorem Inv.start (hInv : Inv gs s) (h : Hashes) (task : Task) : Inv (gs ++ [(task, Local.initial h task)]) s := by
  have hHeld : (Local.initial h task).held = [] := by
    obtain ⟨p, j⟩ := task
    cases j <;> rfl
  exact hInv.append rfl rfl hHeld (poolCode_conduct h.md5 task.job)

variable {c : Config}

theorem inv_reach {ok : Config → System.Label Task (Bool × Choice) → Prop} (hLocks : ∀ m, w.locks m = none)
    (hChans : w.chans = []) (hReach : (machine h).Reach ok (initial w) c) : ∃ gs, Placed gs c ∧ Inv gs c.shared := by
  have hCode : ∀ task, True → ((machine h).code task).Keeps steps (fun _ d => d.phase = .ended)
    (Local.initial h task) :=
    fun task _ => code_keeps h task
  refine System.Typed.reach (J := Inv) hCode ?_ ?_ (.nil _) (inv_initial hLocks hChans) hReach
  · exact fun c gs task _ hInv _ => ⟨trivial, hInv.start h task⟩
  · intro c gs t ch task d o k r s' _ hInv _ _ hGet hAdmits hExec
    obtain ⟨hAnswers, hNew⟩ := hInv.step_inv hGet hAdmits hExec
    exact ⟨hAnswers, fun _ _ => trivial, hNew⟩

variable {t : Nat} {task : Task}

theorem Placed.expects (hPlaced : Placed gs c) {k : Except Throwable (o.Res RtOp.Res) → Co Unit}
    (hThread : c.threads[t]? = some (task, .op o k)) :
    ∃ d, gs[t]? = some (task, d) ∧ Expects d.proc d.phase d.prog o := by
  obtain ⟨d, hGet, hKeeps⟩ := hPlaced.state hThread
  exact ⟨d, hGet, hKeeps.1⟩

theorem Placed.asks (hPlaced : Placed gs c) (hGet : gs[t]? = some (task, d)) (hd : d.phase ≠ .ended) :
    ∃ o k, c.threads[t]? = some (task, .op o k) ∧ Expects d.proc d.phase d.prog o := by
  obtain ⟨prog, hThread, hKeeps⟩ := hPlaced.thread hGet
  cases prog with
  | ret a | throw e => exact absurd hKeeps hd
  | op o k => exact ⟨o, k, hThread, hKeeps.1⟩

/-- Coroutine `t` runs, and asks for `o` next. -/
def Runs (c : Config) (t : Nat) (task : Task) (o : Sched Task RtOp) : Prop :=
  c.shared.dead task.proc = false ∧ (∃ rest, c.shared.stack task.proc = some t :: rest) ∧
    ∃ k, c.threads[t]? = some (task, .op o k)

/-- Coroutine `t` asks for `o` next, but nothing of its process runs. -/
def Suspended (c : Config) (t : Nat) (task : Task) (o : Sched Task RtOp) : Prop :=
  c.shared.dead task.proc = false ∧ c.shared.stack task.proc = [] ∧ ∃ k, c.threads[t]? = some (task, .op o k)

variable {u : Nat}

theorem Inv.find (hInv : Inv gs s) {q : Nat} (hProc : procs gs u = some q) :
    ∃ task d, gs[u]? = some (task, d) ∧ task.proc = q := by
  cases hGet : gs[u]? with
  | none => simp [view, hGet] at hProc
  | some g =>
    have hg : g.2.proc = q := by simpa [view, hGet] using hProc
    exact ⟨g.1, g.2, rfl, (hInv.proc g (List.mem_of_getElem? hGet)).symm.trans hg⟩

variable {m : Mutex}

variable {prog : Run Unit} {p : Nat} {cd : Conduct}

theorem lockRoles_of_lock {role : LockRole} {closes : Bool}
    (hGet : gs[t]? = some (task, ⟨p, .lock m role closes, prog, cd⟩)) : lockRoles gs t m = role := by
  rw [lockRoles, view_eq hGet]
  simp [Local.lockRole]

variable {i : Nat}

theorem chanRoles_of_chan {role : ChanRole} (hGet : gs[t]? = some (task, ⟨p, .chan i role, prog, cd⟩)) :
    chanRoles gs t i = role := by
  rw [chanRoles, view_eq hGet]
  simp [Local.chanRole]

section Waiting

variable {gs : List (Task × Local)} {s : Procs Runtime} {p t : Nat}

theorem Inv.off_stack (hInv : Inv gs s) (hAlive : s.dead task.proc = false) (hEmpty : s.stack task.proc = [])
    (hGet : gs[t]? = some (task, d)) : d.phase.place ≠ .running := by
  intro hRunning
  have hProc : procs gs t = some task.proc := by
    rw [← hInv.proc _ (List.mem_of_getElem? hGet)]
    exact view_eq hGet
  have hOn := hInv.stacked.running task.proc t hAlive hProc ((view_eq hGet).trans hRunning)
  simp [hEmpty] at hOn

section

variable (hInv : Inv gs s) (hAlive : s.dead p = false) (hEmpty : s.stack p = [])

include hInv hAlive hEmpty

/-- While nothing of a process runs, nobody of it is inside a lock manager. -/
theorem Inv.lock_idle (hu : procs gs u = some p) (m : Mutex) : (lockRoles gs u m).busy = false := by
  obtain ⟨line, hCustody⟩ := hInv.custody
  exact hCustody.idle hAlive hu (by simp [hEmpty]) m

/-- Nobody is missed: who waits for a lock is in the queue behind a coroutine that has it. -/
theorem Inv.behind_holder (ht : procs gs t = some p) (hRole : lockRoles gs t m = .waiting) :
    ∃ lm u, s.shared.lockPool (p, m) = some lm ∧ t ∈ lm.queue ∧ s.shared.world.locks m = some u ∧ u ≠ t ∧
      procs gs u = some p := by
  obtain ⟨line, hCustody⟩ := hInv.custody
  have hSlot := hCustody.slot p m hAlive
  have hIdle : ∀ {u}, procs gs u = some p → (lockRoles gs u m).busy = false :=
    fun hu => hInv.lock_idle hAlive hEmpty hu m
  -- whoever the manager is kept for has not been resumed and nobody is about to do it
  have hHead : ∀ u, (line (p, m)).head? = some u → lockRoles gs u m ≠ .waiting := by
    intro u hu hw
    rcases hSlot.handed u hu hw with hOn | ⟨v, hv, hHeir⟩
    · simp [hEmpty] at hOn
    · rw [LockRole.heir_of_idle (hIdle hv)] at hHeir
      cases hHeir
  have hMem : t ∈ line (p, m) := (hSlot.mem t).mpr ⟨ht, by rw [hRole]; rfl⟩
  cases hLine : line (p, m) with
  | nil => simp [hLine] at hMem
  | cons u l =>
    have hFirst : (line (p, m)).head? = some u := by rw [hLine]; rfl
    obtain ⟨lm, hPool, hEq⟩ := hSlot.lm_eq hFirst
    obtain ⟨hProc, hIn⟩ := (hSlot.mem u).mp (hLine ▸ List.mem_cons_self)
    have hut : u ≠ t := by
      rintro rfl
      exact hHead u hFirst hRole
    refine ⟨lm, u, hPool, ?_, (hCustody.locked m u).mpr ⟨p, hProc, hAlive, ?_⟩, hut, hProc⟩
    · rw [hEq] at hMem
      exact List.mem_of_ne_of_mem hut.symm hMem
    · rw [(LockRole.waiting_or_holds hIn (hIdle hProc)).resolve_left (hHead u hFirst)]
      rfl

theorem Inv.unserved (ht : procs gs t = some p) {type : Opcode} (hRole : chanRoles gs t i = .waiting type) :
    ∃ x rows, s.shared.channels[i]? = some x ∧ s.shared.world.chans[i]? = some rows ∧ x.proc = p ∧
      t ∈ x.queue type ∧ x.avail rows.length type = 0 := by
  obtain ⟨pend, hChannels⟩ := hInv.channels
  obtain ⟨x, hc, hx⟩ := hChannels.home t i (by simp [hRole])
  obtain ⟨rows, hr⟩ := hChannels.rows_of hc
  obtain rfl : x.proc = p := Option.some.inj (hx.symm.trans ht)
  have hSlot := hChannels.slot i x rows hc hr hAlive
  have hNone := hChannels.pend_none hAlive hc hr rfl fun u hu => by simp [hEmpty] at hu
  have hMem : t ∈ x.queue type := (hSlot.mem type t).mpr ⟨ht, .inr ⟨hRole, by simp [hNone]⟩⟩
  exact ⟨x, rows, hc, hr, rfl, hMem, (hSlot.calm hNone type).resolve_left (List.ne_nil_of_mem hMem)⟩

end

end Waiting

/-! ## Schedules -/

abbrev Schedule := List (System.Label Task (Bool × Choice))

def onward (t n : Nat) : Schedule := List.replicate n (.step t (false, .ok))

/-- Coroutine `t` gives the processor away at its next call. -/
def away (t : Nat) : Schedule := [.step t (true, .ok), .step t (false, .ok)]

def startable : System.Label Task (Bool × Choice) → Bool
  | .start task => !task.job.ofTrackAdmins
  | .step .. => true

theorem reach_of_schedule {ls : Schedule} (hStart : ls.all startable = true)
    (hRun : (machine h).run (initial w) ls = some c) : (machine h).Reach starts (initial w) c := by
  refine System.reach_of_run (fun l hl c => ?_) hRun
  have hl := List.all_eq_true.mp hStart l hl
  cases l with
  | start task => simpa [startable, starts] using hl
  | step t ch => trivial

/-- What coroutine `t` asks for next, and what process `p` runs. -/
def glance (t p : Nat) (c : Config) : Option (Task × Sched Task RtOp) × List (Option Nat) × Bool :=
  ((c.threads[t]?).bind fun
    | (task, .op o _) => some (task, o)
    | _ => none, c.shared.stack p, c.shared.dead p)

section Glance

variable {c : Config} {t p : Nat} {o : Sched Task RtOp} {l : List (Option Nat)}

theorem of_glance (hSee : glance t p c = (some (task, o), l, false)) :
    c.shared.dead p = false ∧ c.shared.stack p = l ∧ ∃ k, c.threads[t]? = some (task, .op o k) := by
  obtain ⟨hAsks, hRest⟩ := Prod.mk.inj hSee
  obtain ⟨hStack, hAlive⟩ := Prod.mk.inj hRest
  obtain ⟨⟨task', prog⟩, hThread, hOp⟩ := Option.bind_eq_some_iff.mp hAsks
  cases prog with
  | op o' k =>
    cases hOp
    exact ⟨hAlive, hStack, k, hThread⟩
  | _ => cases hOp

theorem runs_of_glance (task : Task) (hSee : glance t task.proc c = (some (task, o), some t :: l, false)) :
    Runs c t task o := by
  obtain ⟨hAlive, hStack, hThread⟩ := of_glance hSee
  exact ⟨hAlive, ⟨l, hStack⟩, hThread⟩

theorem suspended_of_glance (task : Task) (hSee : glance t task.proc c = (some (task, o), [], false)) :
    Suspended c t task o :=
  of_glance hSee

end Glance

/-- Two messages of one user in one process: the second waits for the first. -/
def waiting : Schedule :=
  [.start ⟨0, Pool.resolving 1⟩, .start ⟨0, Pool.resolving 1⟩] ++ onward 0 5 ++ away 0 ++ onward 1 3

/-- Two messages of one user in two processes. -/
def blocking : Schedule :=
  [.start ⟨0, Pool.resolving 1⟩, .start ⟨1, Pool.resolving 1⟩] ++ onward 0 4 ++ onward 1 3

/-- Past the look-up of the manager in `lock_ex`, with the write to it still ahead. -/
def InLockEx (m : Mutex) : Co Unit → Prop
  | .op (.own (.setLockEx m')) _ => m' = m
  | .op .yield k => ∃ k', k (.ok ()) = .op (.own (.setLockEx m)) k'
  | _ => False

theorem Placed.role_of_inLockEx (hPlaced : Placed gs c) {prog : Co Unit} (hThread : c.threads[t]? = some (task, prog))
    (hIn : InLockEx m prog) : ∃ d, gs[t]? = some (task, d) ∧ (lockRoles gs t m).inLine = true := by
  obtain ⟨⟨p, x, rest, cd⟩, hGet, hKeeps⟩ := hPlaced.state hThread
  refine ⟨_, hGet, ?_⟩
  fun_cases InLockEx m prog with
  | case1 m' k =>
    obtain rfl : m' = m := hIn
    cases hKeeps.1 with
    | mark hx =>
      rw [lockRoles_of_lock hGet]
      rcases hx with rfl | rfl <;> rfl
  | case2 k =>
    obtain ⟨k', hk⟩ : ∃ k', k (.ok ()) = .op (.own (.setLockEx m)) k' := hIn
    have hNext := hKeeps.2 (.ok ()) nofun
    rw [hk] at hNext
    -- of the calls that yield, only `lock_ex` goes on to the manager
    cases hKeeps.1 with
    | part => cases hNext.1
    | queue =>
      cases hNext.1 with
      | mark =>
        rw [lockRoles_of_lock hGet]
        rfl
    | wait => cases hNext.1
  | case3 => exact absurd hIn (by simp_all [InLockEx])

/-- `lock_ex` keeps a pointer to the manager over its `yield`, and never writes to one that
has been freed: from the look-up to the write the manager stays where it is. -/
theorem setLockEx_on_manager (h : Hashes) (w : World) (hLocks : ∀ m, w.locks m = none) (hChans : w.chans = [])
    (c : Config) (hReach : (machine h).Reach starts (initial w) c)
    (t : Nat) (task : Task) (prog : Co Unit) (m : Mutex) (hAlive : c.shared.dead task.proc = false)
    (hThread : c.threads[t]? = some (task, prog)) (hIn : InLockEx m prog) :
    ∃ lm, c.shared.shared.lockPool (task.proc, m) = some lm := by
  obtain ⟨gs, hPlaced, hInv⟩ := inv_reach hLocks hChans hReach
  obtain ⟨d, hGet, hLine⟩ := hPlaced.role_of_inLockEx hThread hIn
  obtain ⟨line, hCustody⟩ := hInv.custody
  have hProc : procs gs t = some task.proc := by
    rw [← hInv.proc _ (List.mem_of_getElem? hGet)]
    exact view_eq hGet
  exact hCustody.manager_kept hAlive hProc hLine

/-- The schedule leads to a state where coroutine 1 is in `lock_ex` and its manager is there. -/
def FindsManager (ls : Schedule) : Prop :=
  ∃ c prog lm, (machine plainHashes).run (initial .initial) ls = some c ∧
    c.threads[1]? = some (⟨0, Pool.resolving 1⟩, prog) ∧ InLockEx (.new "tg_users" "1") prog ∧
    c.shared.shared.lockPool (0, .new "tg_users" "1") = some lm

/-- The second call has yielded when the first still has the lock, and goes on when the
first has released it. -/
theorem handedOver_finds_manager : FindsManager waiting ∧ FindsManager (waiting ++ onward 0 11) := by
  have hFinds : ∀ ls l, ls.all startable = true → ((machine plainHashes).run (initial .initial) ls).map (glance 1 0) =
      some (some (⟨0, Pool.resolving 1⟩, .own (.setLockEx (.new "tg_users" "1"))), l, false) → FindsManager ls := by
    intro ls l hStart hRun
    obtain ⟨c, hc, hSee⟩ := Option.map_eq_some_iff.mp hRun
    obtain ⟨hAlive, _, k, hThread⟩ := of_glance hSee
    obtain ⟨lm, hPool⟩ := setLockEx_on_manager _ .initial (fun _ => rfl) rfl c (reach_of_schedule hStart hc) 1
      ⟨0, Pool.resolving 1⟩ _ _ hAlive hThread rfl
    exact ⟨c, _, lm, hc, hThread, rfl, hPool⟩
  exact ⟨hFinds _ [] rfl rfl, hFinds _ [some 1, some 0] rfl rfl⟩

/-- `::flock` stops a process only for a lock of another process. -/
theorem flock_waits_for_another (h : Hashes) (w : World) (hLocks : ∀ m, w.locks m = none) (hChans : w.chans = [])
    (c : Config) (hReach : (machine h).Reach starts (initial w) c)
    (t : Nat) (task : Task) (m : Mutex) (hRuns : Runs c t task (.own (.flock m)))
    (u : Nat) (hHeld : c.shared.shared.world.locks m = some u) :
    ∃ task' prog, c.threads[u]? = some (task', prog) ∧ task'.proc ≠ task.proc ∧
      c.shared.dead task'.proc = false := by
  obtain ⟨hAlive, ⟨rest, hStack⟩, k, hThread⟩ := hRuns
  obtain ⟨gs, hPlaced, hInv⟩ := inv_reach hLocks hChans hReach
  obtain ⟨⟨p, x, prog, cd⟩, hGet, hExpects⟩ := hPlaced.expects hThread
  obtain rfl : p = task.proc := hInv.proc _ (List.mem_of_getElem? hGet)
  obtain ⟨line, hCustody⟩ := hInv.custody
  obtain ⟨q, hProc, hLive, hLocked⟩ := (hCustody.locked m u).mp hHeld
  obtain ⟨task', d, hGetU, rfl⟩ := hInv.find hProc
  obtain ⟨prog', hThreadU, _⟩ := hPlaced.thread hGetU
  refine ⟨task', prog', hThreadU, fun hSame => ?_, hLive⟩
  cases hExpects with
  | flock =>
    have hRole := lockRoles_of_lock hGet
    have hut : u ≠ t := by
      rintro rfl
      rw [hRole] at hLocked
      cases hLocked
    rw [hSame] at hProc
    have hSlot := hCustody.slot task.proc m hAlive
    have hHolds := LockRole.eq_holds hLocked (hCustody.others_idle hAlive hStack u m hut hProc)
    have hFirst := hSlot.head_eq (view_eq hGet) (by rw [hRole]; rfl) (by simp [hRole]) (by simp [hRole])
    have hFirstU := hSlot.head_eq hProc (by rw [hHolds]; rfl) (by simp [hHolds]) (by simp [hHolds])
    exact hut (Option.some.inj (hFirstU.symm.trans hFirst))

theorem blocking_waits_for_another : ∃ c task prog, (machine plainHashes).Reach starts (initial .initial) c ∧
    Runs c 1 ⟨1, Pool.resolving 1⟩ (.own (.flock (.new "tg_users" "1"))) ∧ c.threads[0]? = some (task, prog) ∧
    task.proc ≠ 1 := by
  have hRun : ((machine plainHashes).run (initial .initial) blocking).map
      (fun c => (glance 1 1 c, c.shared.shared.world.locks (.new "tg_users" "1"))) =
      some ((some (⟨1, Pool.resolving 1⟩, .own (.flock (.new "tg_users" "1"))), [some 1], false), some 0) := by rfl
  obtain ⟨c, hc, hSee⟩ := Option.map_eq_some_iff.mp hRun
  obtain ⟨hSee, hHeld⟩ := Prod.mk.inj hSee
  have hReach := reach_of_schedule (by decide) hc
  have hRuns := runs_of_glance ⟨1, Pool.resolving 1⟩ hSee
  obtain ⟨task, prog, hThread, hOther, _⟩ :=
    flock_waits_for_another _ .initial (fun _ => rfl) rfl c hReach _ _ _ hRuns 0 hHeld
  exact ⟨c, task, prog, hReach, hRuns, hThread, hOther⟩

/-- No wake-up is lost: once a process has nothing left to run, whoever of it waits in
`lock_ex` is in the queue of a lock that another of its coroutines holds. -/
theorem lock_waiter_behind_holder (h : Hashes) (w : World) (hLocks : ∀ m, w.locks m = none) (hChans : w.chans = [])
    (c : Config) (hReach : (machine h).Reach starts (initial w) c)
    (t : Nat) (task : Task) (m : Mutex)
    (hSuspended : Suspended c t task (.own (.setLockEx m))) :
    ∃ lm u task' prog, c.shared.shared.lockPool (task.proc, m) = some lm ∧ t ∈ lm.queue ∧
      c.shared.shared.world.locks m = some u ∧ u ≠ t ∧ c.threads[u]? = some (task', prog) ∧
      task'.proc = task.proc := by
  obtain ⟨hAlive, hEmpty, k, hThread⟩ := hSuspended
  obtain ⟨gs, hPlaced, hInv⟩ := inv_reach hLocks hChans hReach
  obtain ⟨⟨p, x, prog, cd⟩, hGet, hExpects⟩ := hPlaced.expects hThread
  obtain rfl : p = task.proc := hInv.proc _ (List.mem_of_getElem? hGet)
  have hOff := hInv.off_stack hAlive hEmpty hGet
  cases hExpects with
  | @mark _ role _ hx =>
    have hRole := lockRoles_of_lock hGet
    obtain rfl : role = .waiting := hx.resolve_left fun hEq => hOff (by rw [hEq]; rfl)
    obtain ⟨lm, u, hPool, hMem, hLock, hut, hProc⟩ := hInv.behind_holder hAlive hEmpty (view_eq hGet) hRole
    obtain ⟨task', d, hGetU, hTask⟩ := hInv.find hProc
    obtain ⟨prog', hThreadU, _⟩ := hPlaced.thread hGetU
    exact ⟨lm, u, task', prog', hPool, hMem, hLock, hut, hThreadU, hTask⟩

theorem waiting_behind_holder : ∃ c lm u, (machine plainHashes).Reach starts (initial .initial) c ∧
    Suspended c 1 ⟨0, Pool.resolving 1⟩ (.own (.setLockEx (.new "tg_users" "1"))) ∧
    c.shared.shared.lockPool (0, .new "tg_users" "1") = some lm ∧ 1 ∈ lm.queue ∧
    c.shared.shared.world.locks (.new "tg_users" "1") = some u ∧ u ≠ 1 := by
  have hRun : ((machine plainHashes).run (initial .initial) waiting).map (glance 1 0) =
      some (some (⟨0, Pool.resolving 1⟩, .own (.setLockEx (.new "tg_users" "1"))), [], false) := by rfl
  obtain ⟨c, hc, hSee⟩ := Option.map_eq_some_iff.mp hRun
  have hReach := reach_of_schedule (by decide) hc
  have hSuspended := suspended_of_glance ⟨0, Pool.resolving 1⟩ hSee
  obtain ⟨lm, u, _, _, hPool, hMem, hLock, hut, _⟩ :=
    lock_waiter_behind_holder _ .initial (fun _ => rfl) rfl c hReach _ _ _ hSuspended
  exact ⟨c, lm, u, hReach, hSuspended, hPool, hMem, hLock, hut⟩

end TeaBot.Swoole
