import TeaBot.Loggers.Admins
import TeaBot.Swoole.Ledger

/-! # Where the runtime can come to a halt -/

namespace TeaBot.Swoole

open Foundation Loggers Relation

/-! ## What the running coroutine asks for is done -/

variable {i : Nat}

section Enabled

variable {gs : List (Task × Local)} {s : Procs Runtime} {t : Nat} {task : Task} {d : Local} {h : Hashes}
  {rest : List (Option Nat)}

def Enabled (h : Hashes) (s : Procs Runtime) (t : Nat) (task : Task) (o : Sched Task RtOp) : Prop :=
  ∃ ch x, (kernel h).step t task o ch s = some x

theorem own_enabled (hAlive : s.dead task.proc = false) (hStack : s.stack task.proc = some t :: rest) {o : RtOp}
    (ch : Bool × Choice) (hExec : ∃ x, Runtime.exec h t task o ch s.shared = some x) : Enabled h s t task (.own o) := by
  obtain ⟨x, hExec⟩ := hExec
  have hUnder : s.under task.proc t = some rest := Procs.under_eq_some.mpr hStack
  refine ⟨ch, (x.1, { s with shared := x.2 }), ?_⟩
  simp [Kernel.step, kernel, hAlive, hUnder, hExec]

variable {o : Op}

theorem inWorld_of_exec {r : Runtime} {j : Job} {ch : Choice} {a : Except Throwable o.Res} {w : World}
    (hExec : exec h t j o ch r.world = some (a, w)) : r.inWorld h t j o ch = some (a, { r with world := w }) := by
  simp [Runtime.inWorld, hExec]

theorem call_enabled (ho : Foreign o) (j : Job) (w : World) : ∃ ch r w', exec h t j o ch w = some (r, w') := by
  rcases exec_enabled h t j o w with hExec | ⟨m, rfl, _⟩ | ⟨i, rfl, _⟩
  · exact hExec
  · cases ho
  · cases ho

theorem begin_enabled (hAlive : s.dead task.proc = false)
    (hStack : s.stack task.proc = [] ∨ ∃ rest, s.stack task.proc = none :: rest) : Enabled h s t task .begin := by
  rcases hStack with hStack | ⟨rest, hStack⟩
  · exact ⟨(false, .ok), (.ok (), s.register task.proc t [some t]), by simp [Kernel.step, kernel, hAlive, hStack]⟩
  · exact ⟨(false, .ok), (.ok (), s.register task.proc t (some t :: rest)),
      by simp [Kernel.step, kernel, hAlive, hStack]⟩

theorem wake_enabled (hAlive : s.dead task.proc = false) (hStack : s.stack task.proc = []) :
    Enabled h s t task .wake :=
  ⟨(false, .ok), (.ok (), s.setStack task.proc [some t]), by simp [Kernel.step, kernel, hAlive, hStack]⟩

theorem io_enabled (ho : Foreign o) (hAlive : s.dead task.proc = false) : Enabled h s t task (.own (.io o)) :=
    by
  obtain ⟨ch, r, w', hExec⟩ := call_enabled (h := h) (t := t) ho task.job s.shared.world
  refine ⟨(false, ch), (r, { s with shared := { s.shared with world := w' } }), ?_⟩
  simp [Kernel.step, kernel, hAlive, Runtime.exec, inWorld_of_exec hExec]

theorem channel_there (hInv : Inv gs s) (hLedger : Ledger gs s) (hGet : gs[t]? = some (task, d)) {z : Int}
    (hz : d.conduct.duty.chan = some (i, z)) :
    ∃ x rows, s.shared.channels[i]? = some x ∧ s.shared.world.chans[i]? = some rows ∧ x.proc = task.proc ∧
      s.shared.channel task.proc i = some (x, rows.length) := by
  obtain ⟨pend, hChannels⟩ := hInv.channels
  have hMem := List.mem_of_getElem? hGet
  obtain ⟨⟨q, capacity⟩, hShape, hq⟩ := Option.map_eq_some_iff.mp (hLedger.home _ hMem i z hz)
  obtain ⟨x, hc, hx⟩ := Option.map_eq_some_iff.mp (List.getElem?_map ▸ hShape)
  cases hx
  obtain ⟨rows, hr⟩ := hChannels.rows_of hc
  have hProc : x.proc = task.proc := hq.trans (hInv.proc _ hMem)
  exact ⟨x, rows, hc, hr, hProc, by simp [Runtime.channel, hc, hr, hProc]⟩

theorem row_to_take (hInv : Inv gs s) (hLedger : Ledger gs s) {role : ChanRole} {c : Conduct}
    {k : Except Throwable AdminRow → Run Unit} (hx : role = .ready .consumer ∨ role = .waiting .consumer)
    (hGet : gs[t]? = some (task, ⟨task.proc, .chan i role, .op (.pop i) k, c⟩)) (hAlive : s.dead task.proc = false)
    (hStack : s.stack task.proc = some t :: rest) :
    ∃ x row rows, s.shared.world.chans[i]? = some (row :: rows) ∧
      s.shared.channel task.proc i = some (x, (row :: rows).length) := by
  obtain ⟨⟨⟨z, _, hz⟩, _⟩, _⟩ : ((∃ z < 0, c.duty.chan = some (i, z)) ∧ _) ∧ _ :=
    (hInv.keeps _ (List.mem_of_getElem? hGet)).1
  obtain ⟨x, rows, hc, hr, hp, hChannel⟩ := channel_there hInv hLedger hGet hz
  obtain ⟨hAvail, _⟩ := hInv.can_serve hx hGet hAlive hStack hc hr hp
  cases rows with
  | nil => exact absurd rfl hAvail
  | cons row rows => exact ⟨x, row, rows, hr, hChannel⟩

theorem leave_enabled {m : Mutex} (hAlive : s.dead task.proc = false) (hStack : s.stack task.proc = some t :: rest) :
    Enabled h s t task (.own (.leave m)) := by
  refine own_enabled hAlive hStack (false, .ok) ?_
  simp only [Runtime.exec]
  split
  · exact ⟨_, rfl⟩
  · split
    · exact ⟨_, rfl⟩
    · exact ⟨_, rfl⟩

section

variable (hInv : Inv gs s) (hLedger : Ledger gs s) (hGet : gs[t]? = some (task, d)) (hAlive : s.dead task.proc = false)
  (hStack : s.stack task.proc = some t :: rest)

include hInv hLedger hGet hAlive hStack

theorem arrive_enabled {z : Int} {type : Opcode} (hz : d.conduct.duty.chan = some (i, z)) :
    Enabled h s t task (.own (.arrive i type)) := by
  obtain ⟨x, rows, _, _, _, hChannel⟩ := channel_there hInv hLedger hGet hz
  refine own_enabled hAlive hStack (false, .ok) ?_
  simp only [Runtime.exec, hChannel]
  split
  · exact ⟨_, rfl⟩
  · exact ⟨_, rfl⟩

theorem running_enabled {o : Sched Task RtOp} (hAdmits : Expects d.proc d.phase d.prog o) :
    Enabled h s t task o ∨ ∃ m, o = .own (.flock m) ∧ s.shared.world.locks m ≠ none := by
  have hUnder : s.under task.proc t = some rest := Procs.under_eq_some.mpr hStack
  have hPlace : d.phase.place = .running ∨ d.phase.place = .yielded := by
    have hTop := (hInv.stacked.top hStack).2
    rwa [places, view_eq hGet] at hTop
  have hMem := List.mem_of_getElem? hGet
  obtain ⟨p, x, prog, c⟩ := d
  obtain rfl : p = task.proc := hInv.proc _ hMem
  cases hAdmits with
  | begin | wake | io ho => rcases hPlace with h | h <;> cases h
  | finish | exit | part ho | queue | wait | hand | notify | create =>
    exact .inl ⟨(false, .ok), _, by simp [Kernel.step, kernel, hAlive, hUnder]; rfl⟩
  | poll ho | flag | fclose | funlock | funlockClose | close | shut | newChannel =>
    exact .inl (own_enabled hAlive hStack (false, .ok) ⟨_, rfl⟩)
  | call ho =>
    obtain ⟨ch, r, w', hExec⟩ := call_enabled (h := h) (t := t) ho task.job s.shared.world
    exact .inl (own_enabled hAlive hStack (false, ch) ⟨_, inWorld_of_exec hExec⟩)
  | @enter m k =>
    refine .inl (own_enabled hAlive hStack (false, .ok) ?_)
    simp only [Runtime.exec]
    split
    · exact ⟨_, rfl⟩
    · exact ⟨_, rfl⟩
  | @mark m role k hx =>
    obtain ⟨line, hCustody⟩ := hInv.custody
    have hRole := lockRoles_of_lock hGet
    obtain ⟨lm, hPool, _⟩ := hCustody.setLockEx (m := m) hAlive (view_eq hGet) hStack (by rwa [hRole])
    exact .inl (own_enabled hAlive hStack (false, .ok) (by simp [Runtime.exec, hPool]))
  | @flock m k =>
    by_cases hFree : s.shared.world.locks m = none
    · have hExec : exec h t task.job (.lock m) .ok s.shared.world = some _ := if_pos hFree
      exact .inl (own_enabled hAlive hStack (false, .ok) ⟨_, inWorld_of_exec hExec⟩)
    · exact .inr ⟨m, rfl, hFree⟩
  | @unlock m k | @release m k => exact .inl (leave_enabled hAlive hStack)
  | @pop i k =>
    obtain ⟨⟨⟨z, _, hz⟩, _⟩, _⟩ : ((∃ z < 0, c.duty.chan = some (i, z)) ∧ _) ∧ _ := (hInv.keeps _ hMem).1
    exact .inl (arrive_enabled hInv hLedger hGet hAlive hStack hz)
  | @push i row k =>
    obtain ⟨⟨z, hz⟩, _⟩ : (∃ z, c.duty.chan = some (i, z)) ∧ _ := (hInv.keeps _ hMem).1
    exact .inl (arrive_enabled hInv hLedger hGet hAlive hStack hz)
  | @take i role k hx =>
    obtain ⟨x, row, rows, hr, hChannel⟩ := row_to_take hInv hLedger hx hGet hAlive hStack
    have hExec : exec h t task.job (.pop i) .ok s.shared.world =
        some (.ok row, { s.shared.world with chans := s.shared.world.chans.set i rows }) := by
      simp [exec, carry, hr]
    refine .inl (own_enabled hAlive hStack (false, .ok) ?_)
    simp [Runtime.exec, hChannel, inWorld_of_exec hExec]
  | @put i row role k hx =>
    obtain ⟨⟨z, hz⟩, _⟩ : (∃ z, c.duty.chan = some (i, z)) ∧ _ := (hInv.keeps _ hMem).1
    obtain ⟨x, rows, hc, hr, hp, hChannel⟩ := channel_there hInv hLedger hGet hz
    have hExec : exec h t task.job (.push i row) .ok s.shared.world = some (.ok (), _) := rfl
    refine .inl (own_enabled hAlive hStack (false, .ok) ?_)
    simp [Runtime.exec, hChannel, inWorld_of_exec hExec]

end

end Enabled

/-! ## A process that cannot go on -/

def Halts (h : Hashes) (c : Config) (q : Nat) : Prop :=
  c.shared.dead q = false ∧ ∀ t task o k, c.threads[t]? = some (task, .op o k) → task.proc = q →
    ¬ Enabled h c.shared t task o

/-- The pool as it would be if only process `q` were left. -/
def only (c : Pool) (q : Nat) : Pool :=
  { c with
    world := { c.world with locks := fun m => if c.holder m = some q then c.world.locks m else none }
    dead := fun p => c.dead p || p ≠ q }

theorem accounted_only {c : Pool} {gs : List (Coroutine × Duty)} (h : Accounted c gs) (hFree : ∀ p, c.blocked p = none)
    (q : Nat) : Accounted (only c q) gs where
  threads := h.threads
  keeps g hg hAlive := h.keeps g hg (by simp only [Swoole.only, Bool.or_eq_false_iff] at hAlive; exact hAlive.1)
  locks m u hu := by
    simp only [Swoole.only] at hu
    split at hu
    · rename_i hHolder
      obtain ⟨g, hg, hAlive, hHeld⟩ := h.locks m u hu
      have hProc : g.1.proc = q := Option.some.inj ((h.holder_eq hu hg).symm.trans hHolder)
      rw [hProc] at hAlive
      exact ⟨g, hg, by simp [Swoole.only, hAlive, hProc], hHeld⟩
    · cases hu
  chan := h.chan
  family := h.family
  balance := h.balance
  blocked p t hp := by
    cases (hFree p).symm.trans hp
  ranked := by
    refine ⟨fun _ => 0, ?_⟩
    rintro x y ⟨t, m, ⟨hBlocked, _⟩, _⟩
    cases (hFree x).symm.trans hBlocked

theorem fresh_of_place {x : Phase} (hx : x.place = .fresh) : x = .fresh := by
  unfold Phase.place at hx
  split at hx <;> first | rfl | cases hx

variable {t : Nat} {task : Task}

section Halts

variable {gs : List (Task × Local)} {c : Config} {h : Hashes} {q : Nat}

theorem Halts.idle (hPlaced : Placed gs c) (hInv : Inv gs c.shared) (hLedger : Ledger gs c.shared) (hq : Halts h c q) :
    c.shared.stack q = [] ∨ ∃ t task m, task.proc = q ∧ Runs c t task (.own (.flock m)) ∧
      c.shared.shared.world.locks m ≠ none := by
  obtain ⟨hAlive, hHalts⟩ := hq
  have hGet : ∀ t, procs gs t = some q → ∃ task d, gs[t]? = some (task, d) ∧ task.proc = q := by
    intro t hProc
    cases hGet : gs[t]? with
    | none => simp [view, hGet] at hProc
    | some g =>
      have hg : g.2.proc = q := by simpa [view, hGet] using hProc
      exact ⟨g.1, g.2, rfl, (hInv.proc g (List.mem_of_getElem? hGet)).symm.trans hg⟩
  cases hStack : c.shared.stack q with
  | nil => exact .inl rfl
  | cons y rest =>
    refine .inr ?_
    cases y with
    | none =>
      obtain ⟨t, hProc, hPlace⟩ := hInv.stacked.fresh q (hStack ▸ List.mem_cons_self)
      obtain ⟨task, d, hGetT, rfl⟩ := hGet t hProc
      have hFresh : d.phase = .fresh := by
        rw [places, view_eq hGetT] at hPlace
        exact fresh_of_place hPlace
      obtain ⟨o, k, hThread, hExpects⟩ := hPlaced.asks hGetT (by simp [hFresh])
      rw [hFresh] at hExpects
      cases hExpects with
      | begin =>
        exact absurd (begin_enabled hAlive (.inr ⟨rest, hStack⟩)) (hHalts t task _ k hThread rfl)
    | some t =>
      obtain ⟨hProc, hPlace⟩ := hInv.stacked.top hStack
      obtain ⟨task, d, hGetT, rfl⟩ := hGet t hProc
      have hEnded : d.phase ≠ .ended := by
        intro hEq
        rw [places, view_eq hGetT, hEq] at hPlace
        rcases hPlace with h | h <;> cases h
      obtain ⟨o, k, hThread, hExpects⟩ := hPlaced.asks hGetT hEnded
      rcases running_enabled (h := h) hInv hLedger hGetT hAlive hStack hExpects with hEnabled | ⟨m, rfl, hHeld⟩
      · exact absurd hEnabled (hHalts t task o k hThread rfl)
      · exact ⟨t, task, m, rfl, ⟨hAlive, ⟨rest, hStack⟩, k, hThread⟩, hHeld⟩

/-- What is left of the coroutines of a process once it has come to rest. -/
inductive Rests (s : Procs Runtime) (q : Nat) (procs : Nat → Option Nat) (d : Local) : Prop
  | ended (hd : d.phase = .ended)
  | lock {m : Mutex} {k : Except Throwable Unit → Run Unit} {u : Nat} (hProg : d.prog = .op (.lock m) k)
      (hLock : s.shared.world.locks m = some u) (hProc : procs u = some q)
  | pop {i : Nat} {k : Except Throwable AdminRow → Run Unit} (hProg : d.prog = .op (.pop i) k)
      (hEmpty : s.shared.world.chans[i]? = some [])

theorem Halts.rests (hPlaced : Placed gs c) (hInv : Inv gs c.shared) (hLedger : Ledger gs c.shared) (hq : Halts h c q)
    (hEmpty : c.shared.stack q = []) {d : Local} (hGet : gs[t]? = some (task, d)) (hProc : task.proc = q) :
    Rests c.shared q (procs gs) d := by
  subst hProc
  obtain ⟨hAlive, hHalts⟩ := hq
  by_cases hEnded : d.phase = .ended
  · exact .ended hEnded
  obtain ⟨o, k, hThread, hExpects⟩ := hPlaced.asks hGet hEnded
  have hNot := hHalts t task o k hThread rfl
  obtain ⟨p, x, prog, cd⟩ := d
  obtain rfl : p = task.proc := hInv.proc _ (List.mem_of_getElem? hGet)
  have hOff := hInv.off_stack hAlive hEmpty hGet
  cases hExpects with
  | begin => exact absurd (begin_enabled hAlive (.inl hEmpty)) hNot
  | wake => exact absurd (wake_enabled hAlive hEmpty) hNot
  | io ho => exact absurd (io_enabled ho hAlive) hNot
  | @mark m role k hx =>
    obtain rfl : role = .waiting := hx.resolve_left fun hEq => hOff (by rw [hEq]; rfl)
    obtain ⟨lm, u, _, _, hLock, _, hHolder⟩ := hInv.behind_holder hAlive hEmpty (view_eq hGet) (lockRoles_of_lock hGet)
    exact .lock rfl hLock hHolder
  | @take i role k hx =>
    obtain rfl : role = .waiting .consumer := hx.resolve_left fun hEq => hOff (by rw [hEq]; rfl)
    obtain ⟨y, rows, _, hr, _, _, hAvail⟩ := hInv.unserved hAlive hEmpty (view_eq hGet) (chanRoles_of_chan hGet)
    exact .pop rfl (List.length_eq_zero_iff.mp hAvail ▸ hr)
  | @put i row role k hx =>
    obtain rfl : role = .waiting .producer := hx.resolve_left fun hEq => hOff (by rw [hEq]; rfl)
    obtain ⟨y, rows, hc, _, _, hMem, _⟩ := hInv.unserved hAlive hEmpty (view_eq hGet) (chanRoles_of_chan hGet)
    rw [Channel.queue, hLedger.producers y (List.mem_of_getElem? hc)] at hMem
    cases hMem
  | _ => exact absurd rfl hOff

theorem holder_pool (m : Mutex) (s : Procs Runtime) :
    (pool gs s).holder m = (s.shared.world.locks m).bind (procs gs) := by
  rw [Pool.holder]
  refine congrArg _ (funext fun u => ?_)
  simp only [Pool.procOf, pool, view, List.getElem?_map, procs]
  cases gs[u]? <;> rfl

theorem Halts.halted (hPlaced : Placed gs c) (hInv : Inv gs c.shared) (hLedger : Ledger gs c.shared) (hq : Halts h c q)
    (hEmpty : c.shared.stack q = []) : Pool.Halted h (only (pool gs c.shared) q) (accounts gs) q := by
  have hOnly : ∀ {p : Nat}, (only (pool gs c.shared) q).dead p = false → p = q := by
    intro p hp
    simp only [only, Bool.or_eq_false_iff] at hp
    simpa using hp.2
  have hRests : ∀ {t : Nat} {th : Coroutine}, (only (pool gs c.shared) q).threads[t]? = some th →
      (only (pool gs c.shared) q).dead th.proc = false →
      ∃ g ∈ gs, th = coroutine g ∧ g.2.proc = q ∧ Rests c.shared q (procs gs) g.2 := by
    intro t th hThread hAlive
    have hMap : (gs.map coroutine)[t]? = some th := hThread
    rw [List.getElem?_map] at hMap
    obtain ⟨⟨task, d⟩, hGet, rfl⟩ := Option.map_eq_some_iff.mp hMap
    have hProc : d.proc = q := hOnly hAlive
    have hMem := List.mem_of_getElem? hGet
    exact ⟨(task, d), hMem, rfl, hProc,
      hq.rests hPlaced hInv hLedger hEmpty hGet ((hInv.proc _ hMem).symm.trans hProc)⟩
  have hReturned : ∀ g ∈ gs, g.2.proc = q → g.2.phase = .ended → ∃ a, g.2.prog = .ret a := fun g hg hProc hEnded =>
    hLedger.ended g hg hEnded (hProc ▸ hq.1)
  refine ⟨accounted_only hLedger.accounted (fun _ => rfl) q, fun th hth hAlive => ?_, ?_, rfl, fun t ch => ?_,
    fun t => ?_⟩
  · obtain ⟨t, hThread⟩ := List.getElem?_of_mem hth
    obtain ⟨g, hg, rfl, hProc, hRest⟩ := hRests hThread hAlive
    cases hRest with
    | ended hd =>
      obtain ⟨a, hRet⟩ := hReturned g hg hProc hd
      simp [coroutine, hRet, Prog.thrown]
    | lock hProg | pop hProg => simp [coroutine, hProg, Prog.thrown]
  · have hAlive : c.shared.dead q = false := hq.1
    simp [only, pool, hAlive]
  · by_contra hSome
    obtain ⟨c', hNext⟩ := Option.ne_none_iff_exists'.mp hSome
    obtain ⟨p, j, o, k, r, w', hThread, hAlive, _, hExec, _⟩ := Pool.next_run_eq_some hNext
    obtain ⟨g, hg, hEq, hProc, hRest⟩ := hRests hThread hAlive
    have hProg : g.2.prog = .op o k := (congrArg Coroutine.prog hEq).symm
    cases hRest with
    | ended hd =>
      obtain ⟨a, hRet⟩ := hReturned g hg hProc hd
      cases hProg.symm.trans hRet
    | @lock m k u hLockProg hLock hHolder =>
      cases hProg.symm.trans hLockProg
      have hFree := (exec_lock hExec).1
      have hOwn : (pool gs c.shared).holder m = some q := by rw [holder_pool, hLock, Option.bind_some, hHolder]
      simp only [only, if_pos hOwn] at hFree
      cases hLock.symm.trans hFree
    | @pop i k hPopProg hNone =>
      cases hProg.symm.trans hPopProg
      obtain ⟨row, rest, hRow, _⟩ := exec_pop hExec
      cases hNone.symm.trans hRow
  · by_contra hSome
    obtain ⟨c', hNext⟩ := Option.ne_none_iff_exists'.mp hSome
    obtain ⟨p, j, m, k, q', hThread, hHolder, hAlive, _, hNe, _⟩ := Pool.next_block_eq_some hNext
    obtain rfl : p = q := hOnly hAlive
    obtain ⟨u, hLock, hProc⟩ := Option.bind_eq_some_iff.mp hHolder
    simp only [only] at hLock
    split at hLock
    · rename_i hOwn
      refine hNe (Option.some.inj (Eq.trans ?_ hOwn))
      exact (Option.bind_eq_some_iff.mpr ⟨u, hLock, hProc⟩).symm
    · cases hLock

theorem Halts.finished (hPlaced : Placed gs c) (hInv : Inv gs c.shared) (hLedger : Ledger gs c.shared)
    (hq : Halts h c q) (hEmpty : c.shared.stack q = []) {d : Local} (hGet : gs[t]? = some (task, d))
    (hProc : task.proc = q) : d.phase = .ended := by
  have hHalted := hq.halted hPlaced hInv hLedger hEmpty
  have hTask : d.proc = q := (hInv.proc _ (List.mem_of_getElem? hGet)).trans hProc
  have hNot : ∀ {o : Op} {k : Except Throwable o.Res → Run Unit}, d.prog ≠ .op o k := by
    intro o k hProg
    refine hHalted.all_finished (t := t) (j := task.job) (o := o) (k := k) (d := d.conduct.duty) ?_
    rw [accounts, List.getElem?_map, hGet]
    simp [coroutine, hTask, hProg]
  cases hq.rests hPlaced hInv hLedger hEmpty hGet hProc with
  | ended hd => exact hd
  | lock hProg | pop hProg => exact absurd hProg hNot

end Halts

/-! ## A standstill -/

def Unfinished (c : Config) (t : Nat) (task : Task) : Prop :=
  c.shared.dead task.proc = false ∧ ∃ o k, c.threads[t]? = some (task, .op o k)

/-- Something is left to do and nobody can go on. -/
def Stuck (h : Hashes) (c : Config) : Prop :=
  (∃ t task, Unfinished c t task) ∧ ∀ t ch, (machine h).next c (.step t ch) = none

/-- Process `p` is inside `::flock` for a lock that a coroutine of process `q` has. -/
def WaitsInFlock (c : Config) (p q : Nat) : Prop :=
  ∃ t task m u task' prog, Runs c t task (.own (.flock m)) ∧ task.proc = p ∧
    c.shared.shared.world.locks m = some u ∧ c.threads[u]? = some (task', prog) ∧ task'.proc = q

section Standstill

variable {gs : List (Task × Local)} {c : Config} {h : Hashes}

theorem Stuck.halts (hStuck : Stuck h c) {q : Nat} (hAlive : c.shared.dead q = false) : Halts h c q := by
  refine ⟨hAlive, ?_⟩
  rintro t task o k hThread rfl ⟨ch, ⟨r, s'⟩, hStep⟩
  have hNone := hStuck.2 t ch
  have hExec : (machine h).exec t task o ch c.shared = some (r, s') := hStep
  simp [System.next, hThread, hExec] at hNone

theorem holder_unfinished (hPlaced : Placed gs c) (hInv : Inv gs c.shared) (hLedger : Ledger gs c.shared) {m : Mutex}
    {u : Nat} (hLock : c.shared.shared.world.locks m = some u) :
    ∃ task, Unfinished c u task := by
  obtain ⟨line, hCustody⟩ := hInv.custody
  obtain ⟨q, hProc, hAlive, hRole⟩ := (hCustody.locked m u).mp hLock
  obtain ⟨task, d, hGet, rfl⟩ := hInv.find hProc
  have hMem := List.mem_of_getElem? hGet
  have hNot : d.phase ≠ .ended := by
    intro hEnded
    obtain ⟨p, x, prog, cd⟩ := d
    obtain rfl : p = task.proc := hInv.proc _ hMem
    obtain rfl : x = .ended := hEnded
    obtain ⟨a, hRet⟩ := hLedger.ended _ hMem rfl hAlive
    have hKeeps := hInv.keeps _ hMem
    rw [hRet] at hKeeps
    obtain ⟨hHeld, _⟩ := hKeeps rfl
    rw [lockRoles, view_eq hGet, Inv.lockRole_outside (by simp), standing, hHeld] at hRole
    cases hRole
  obtain ⟨o, k, hThread, _⟩ := hPlaced.asks hGet hNot
  exact ⟨task, hAlive, o, k, hThread⟩

/-- A living process with something left to do waits for another such process. -/
theorem Stuck.waits (hPlaced : Placed gs c) (hInv : Inv gs c.shared) (hLedger : Ledger gs c.shared) (hStuck : Stuck h c)
    (hLeft : Unfinished c t task) : ∃ u task', Unfinished c u task' ∧ WaitsInFlock c task.proc task'.proc := by
  obtain ⟨hAlive, o, k, hThread⟩ := hLeft
  have hHalts := hStuck.halts hAlive
  rcases hHalts.idle hPlaced hInv hLedger with hEmpty | ⟨t', task₁, m, hEq, hRuns, hHeld⟩
  · obtain ⟨d, hGet, hExpects⟩ := hPlaced.expects hThread
    have hEnded := hHalts.finished hPlaced hInv hLedger hEmpty hGet rfl
    rw [hEnded] at hExpects
    cases hExpects
  · obtain ⟨u, hLock⟩ := Option.ne_none_iff_exists'.mp hHeld
    obtain ⟨task', hAlive', o', k', hThread'⟩ := holder_unfinished hPlaced hInv hLedger hLock
    exact ⟨u, task', ⟨hAlive', o', k', hThread'⟩, t', task₁, m, u, task', _, hRuns, hEq, hLock, hThread', rfl⟩

end Standstill

def waits (c : Config) : Task × Co Unit → Bool
  | (task, .op .wake _) => !c.shared.dead task.proc && !(c.shared.stack task.proc).isEmpty
  | (task, .op (.own (.flock m)) _) => !c.shared.dead task.proc && (c.shared.shared.world.locks m).isSome
  | _ => false

variable {c : Config}

theorem waits_unfinished {th : Task × Co Unit} (hWaits : waits c th = true) :
    c.shared.dead th.1.proc = false ∧ ∃ o k, th.2 = .op o k := by
  unfold waits at hWaits
  split at hWaits
  · exact ⟨by simp_all, _, _, rfl⟩
  · exact ⟨by simp_all, _, _, rfl⟩
  · cases hWaits

theorem next_of_waits {h : Hashes} {th : Task × Co Unit} (hThread : c.threads[t]? = some th)
    (hWaits : waits c th = true) (ch : Bool × Choice) : (machine h).next c (.step t ch) = none := by
  unfold waits at hWaits
  split at hWaits
  · rename_i task k
    have hNone : (machine h).exec t task .wake ch c.shared = none := by
      have hBusy : c.shared.stack task.proc ≠ [] := by simp_all
      show (kernel h).step t task .wake ch c.shared = none
      simp [Kernel.step, kernel, hBusy]
    simp only [System.next, hThread, hNone]
  · rename_i task m k
    have hNone : (machine h).exec t task (.own (.flock m)) ch c.shared = none := by
      have hHeld : c.shared.shared.world.locks m ≠ none := by
        rw [← Option.isSome_iff_ne_none]
        simp_all
      have hWait : exec h t task.job (.lock m) .ok c.shared.shared.world = none := if_neg hHeld
      show (kernel h).step t task (.own (.flock m)) ch c.shared = none
      simp [Kernel.step, kernel, Runtime.exec, Runtime.inWorld, hWait]
    simp only [System.next, hThread, hNone]
  · cases hWaits

theorem stuck_of_waits {h : Hashes} (hSome : c.threads ≠ []) (hAll : c.threads.all (waits c) = true) : Stuck h c := by
  rw [List.all_eq_true] at hAll
  constructor
  · obtain ⟨th, rest, hThreads⟩ := List.exists_cons_of_ne_nil hSome
    obtain ⟨hAlive, o, k, hOp⟩ := waits_unfinished (hAll th (by rw [hThreads]; exact List.mem_cons_self))
    exact ⟨0, th.1, hAlive, o, k, by rw [hThreads, ← hOp]; rfl⟩
  · intro t ch
    cases hThread : c.threads[t]? with
    | none => simp only [System.next, hThread]
    | some th => exact next_of_waits hThread (hAll th (List.mem_of_getElem? hThread)) ch

/-- The processes come to a standstill only by waiting for each other inside `::flock`. -/
theorem standstill_is_cycle (h : Hashes) (w : World) (hLocks : ∀ m, w.locks m = none) (hChans : w.chans = [])
    (c : Config) (hReach : (machine h).Reach starts (initial w) c)
    (hStuck : Stuck h c) : ∃ p, TransGen (WaitsInFlock c) p p := by
  classical
  obtain ⟨gs, hPlaced, hInv, hLedger⟩ := ledger_reach hLocks hChans hReach
  -- the living processes with something left to do
  let busy : Finset Nat := (c.threads.map fun th => th.1.proc).toFinset.filter fun p =>
    ∃ t task, Unfinished c t task ∧ task.proc = p
  have hMem : ∀ {t : Nat} {task : Task}, Unfinished c t task → task.proc ∈ busy := by
    intro t task hLeft
    refine Finset.mem_filter.mpr ⟨List.mem_toFinset.mpr ?_, t, task, hLeft, rfl⟩
    obtain ⟨_, o, k, hThread⟩ := hLeft
    exact List.mem_map.mpr ⟨_, List.mem_of_getElem? hThread, rfl⟩
  have hWaits : ∀ p ∈ busy, ∃ q ∈ busy, WaitsInFlock c p q := by
    intro p hp
    obtain ⟨_, t, task, hLeft, rfl⟩ := Finset.mem_filter.mp hp
    obtain ⟨u, task', hLeft', hFlock⟩ := hStuck.waits hPlaced hInv hLedger hLeft
    exact ⟨task'.proc, hMem hLeft', hFlock⟩
  obtain ⟨t, task, hLeft⟩ := hStuck.1
  obtain ⟨p, _, hCycle⟩ := exists_cycle ⟨task.proc, hMem hLeft⟩ hWaits
  exact ⟨p, hCycle⟩

/-- Each process has the lock of one user and is inside `::flock` for that of the other. -/
def crossing : Schedule :=
  [.start ⟨0, Pool.resolving 1⟩, .start ⟨0, Pool.resolving 2⟩, .start ⟨1, Pool.resolving 2⟩,
    .start ⟨1, Pool.resolving 1⟩] ++
    onward 0 5 ++ away 0 ++ onward 1 3 ++ onward 2 5 ++ away 2 ++ onward 3 3 ++ onward 0 1 ++ onward 2 1

theorem crossing_is_cycle : ∃ c p, (machine plainHashes).Reach starts (initial .initial) c ∧
    Stuck plainHashes c ∧ TransGen (WaitsInFlock c) p p := by
  have hRun : ((machine plainHashes).run (initial .initial) crossing).any
      (fun c => !c.threads.isEmpty && c.threads.all (waits c)) = true := by decide +kernel
  obtain ⟨c, hc, hHere⟩ := Option.any_eq_true _ _ |>.mp hRun
  obtain ⟨hSome, hAll⟩ := Bool.and_eq_true_iff.mp hHere
  have hReach := reach_of_schedule (by decide) hc
  have hStuck : Stuck plainHashes c := stuck_of_waits (by simpa using hSome) hAll
  obtain ⟨p, hCycle⟩ := standstill_is_cycle _ .initial (fun _ => rfl) rfl c hReach hStuck
  exact ⟨c, p, hReach, hStuck, hCycle⟩

theorem lock_of_unfinished (h : Hashes) (w : World) (hLocks : ∀ m, w.locks m = none) (hChans : w.chans = [])
    (c : Config) (hReach : (machine h).Reach starts (initial w) c)
    (m : Mutex) (u : Nat) (hLock : c.shared.shared.world.locks m = some u) :
    ∃ task, Unfinished c u task := by
  obtain ⟨gs, hPlaced, hInv, hLedger⟩ := ledger_reach hLocks hChans hReach
  exact holder_unfinished hPlaced hInv hLedger hLock

theorem blocking_lock_of_unfinished : ∃ c task, (machine plainHashes).Reach starts (initial .initial) c ∧
    c.shared.shared.world.locks (.new "tg_users" "1") = some 0 ∧ Unfinished c 0 task := by
  have hRun : ((machine plainHashes).run (initial .initial) blocking).map
      (fun c => c.shared.shared.world.locks (.new "tg_users" "1")) = some (some 0) := by rfl
  obtain ⟨c, hc, hLock⟩ := Option.map_eq_some_iff.mp hRun
  have hReach := reach_of_schedule (by decide) hc
  obtain ⟨task, hLeft⟩ := lock_of_unfinished _ .initial (fun _ => rfl) rfl c hReach _ 0 hLock
  exact ⟨c, task, hReach, hLock, hLeft⟩

/-- No `push` ever waits for room. -/
theorem push_never_waits (h : Hashes) (w : World) (hLocks : ∀ m, w.locks m = none) (hChans : w.chans = [])
    (c : Config) (hReach : (machine h).Reach starts (initial w) c) :
    (∀ x ∈ c.shared.shared.channels, x.producerQueue = []) ∧
    ∀ t task i row, Runs c t task (.own (.put i row)) → ∃ x rows, c.shared.shared.channels[i]? = some x ∧
      c.shared.shared.world.chans[i]? = some rows ∧ rows.length < x.capacity := by
  obtain ⟨gs, hPlaced, hInv, hLedger⟩ := ledger_reach hLocks hChans hReach
  refine ⟨hLedger.producers, ?_⟩
  rintro t task i row ⟨hAlive, ⟨rest, hStack⟩, k, hThread⟩
  obtain ⟨⟨p, x, prog, cd⟩, hGet, hExpects⟩ := hPlaced.expects hThread
  obtain rfl : p = task.proc := hInv.proc _ (List.mem_of_getElem? hGet)
  cases hExpects with
  | put hx =>
    obtain ⟨y, rows, hc, hr, hp, _⟩ := hLedger.room_to_push hInv hGet
    obtain ⟨hRoom, hSize⟩ := hInv.can_serve hx hGet hAlive hStack hc hr hp
    have hRoom : y.capacity - rows.length ≠ 0 := hRoom
    exact ⟨y, rows, hc, hr, by omega⟩

/-- `trackAdmins` has started its two coroutines, which are away, and waits for a row. -/
def collecting : Schedule :=
  [.start ⟨0, .trackAdmins Admins.sampleGroup⟩] ++ onward 0 8 ++
    [.step 0 (false, .answer (Admins.sampleAnswer "creator"))] ++ onward 0 2 ++ onward 1 1 ++ away 1 ++ onward 0 1 ++
    onward 2 1 ++ away 2 ++ onward 0 2

def puts (t i : Nat) (c : Config) : Bool :=
  match glance t 0 c with
  | (some (⟨0, _⟩, .own (.put i' _)), some t' :: _, false) => t' = t && i' = i
  | _ => false

theorem runs_of_puts (hPuts : puts t i c = true) : ∃ task row, Runs c t task (.own (.put i row)) := by
  unfold puts at hPuts
  split at hPuts
  · rename_i job i' row t' rest hSee
    obtain ⟨ht, hi⟩ := Bool.and_eq_true_iff.mp hPuts
    obtain rfl := of_decide_eq_true ht
    obtain rfl := of_decide_eq_true hi
    exact ⟨⟨0, job⟩, row, runs_of_glance _ hSee⟩
  · cases hPuts

theorem collecting_finds_room : ∃ c x rows, (machine plainHashes).Reach starts (initial Admins.sampleWorld) c ∧
    (∃ task row, Runs c 1 task (.own (.put 0 row))) ∧ c.shared.shared.channels[0]? = some x ∧
    c.shared.shared.world.chans[0]? = some rows ∧ rows.length < x.capacity := by
  have hRun : ((machine plainHashes).run (initial Admins.sampleWorld) (collecting ++ onward 1 26)).any
      (puts 1 0) = true := by decide +kernel
  obtain ⟨c, hc, hPuts⟩ := Option.any_eq_true _ _ |>.mp hRun
  have hReach := reach_of_schedule (by decide) hc
  obtain ⟨task, row, hRuns⟩ := runs_of_puts hPuts
  obtain ⟨x, rows, hx, hRows, hRoom⟩ :=
    (push_never_waits _ Admins.sampleWorld (fun _ => rfl) rfl c hReach).2 1 task 0 row hRuns
  exact ⟨c, x, rows, hReach, ⟨task, row, hRuns⟩, hx, hRows, hRoom⟩

/-- `pop` goes on only with a row to take, and waits only while there is none. -/
theorem pop_waits_for_data (h : Hashes) (w : World) (hLocks : ∀ m, w.locks m = none) (hChans : w.chans = [])
    (c : Config) (hReach : (machine h).Reach starts (initial w) c) (t : Nat) (task : Task) (i : Nat) :
    (Runs c t task (.own (.take i)) → ∃ row rows, c.shared.shared.world.chans[i]? = some (row :: rows)) ∧
    (Suspended c t task (.own (.take i)) → ∃ x, c.shared.shared.channels[i]? = some x ∧ x.proc = task.proc ∧
      t ∈ x.consumerQueue ∧ c.shared.shared.world.chans[i]? = some []) := by
  obtain ⟨gs, hPlaced, hInv, hLedger⟩ := ledger_reach hLocks hChans hReach
  constructor
  · rintro ⟨hAlive, ⟨rest, hStack⟩, k, hThread⟩
    obtain ⟨⟨p, x, prog, cd⟩, hGet, hExpects⟩ := hPlaced.expects hThread
    obtain rfl : p = task.proc := hInv.proc _ (List.mem_of_getElem? hGet)
    cases hExpects with
    | take hx =>
      obtain ⟨_, row, rows, hr, _⟩ := row_to_take hInv hLedger hx hGet hAlive hStack
      exact ⟨row, rows, hr⟩
  · rintro ⟨hAlive, hEmpty, k, hThread⟩
    obtain ⟨⟨p, x, prog, cd⟩, hGet, hExpects⟩ := hPlaced.expects hThread
    obtain rfl : p = task.proc := hInv.proc _ (List.mem_of_getElem? hGet)
    have hOff := hInv.off_stack hAlive hEmpty hGet
    cases hExpects with
    | @take _ role _ hx =>
      obtain rfl : role = .waiting .consumer := hx.resolve_left fun hEq => hOff (by rw [hEq]; rfl)
      obtain ⟨y, rows, hc, hr, hp, hMem, hNone⟩ := hInv.unserved hAlive hEmpty (view_eq hGet) (chanRoles_of_chan hGet)
      obtain rfl : rows = [] := List.length_eq_zero_iff.mp hNone
      exact ⟨y, hc, hp, hMem, hr⟩

theorem collecting_waits_for_data : ∃ c x, (machine plainHashes).Reach starts (initial Admins.sampleWorld) c ∧
    Suspended c 0 ⟨0, .trackAdmins Admins.sampleGroup⟩ (.own (.take 0)) ∧ c.shared.shared.channels[0]? = some x ∧
    0 ∈ x.consumerQueue ∧ c.shared.shared.world.chans[0]? = some [] := by
  have hRun : ((machine plainHashes).run (initial Admins.sampleWorld) collecting).map (glance 0 0) =
      some (some (⟨0, .trackAdmins Admins.sampleGroup⟩, .own (.take 0)), [], false) := by rfl
  obtain ⟨c, hc, hSee⟩ := Option.map_eq_some_iff.mp hRun
  have hReach := reach_of_schedule (by decide) hc
  have hSuspended := suspended_of_glance ⟨0, .trackAdmins Admins.sampleGroup⟩ hSee
  obtain ⟨x, hx, _, hMem, hNone⟩ :=
    (pop_waits_for_data _ Admins.sampleWorld (fun _ => rfl) rfl c hReach 0 _ 0).2 hSuspended
  exact ⟨c, x, hReach, hSuspended, hx, hMem, hNone⟩

end TeaBot.Swoole
