import TeaBot.Swoole.Scheduling

/-! # The channels keep the invariant -/

namespace TeaBot.Swoole

open Foundation Loggers

namespace Inv

variable {gs : List (Task × Local)} {s : Procs Runtime} {t p : Nat} {task : Task} {x y : Phase} {prog : Run Unit}
variable {c : Conduct} {rest : List (Option Nat)}

variable {ch : Bool × Choice} {s' : Runtime}

theorem newChannel_inv (hInv : Inv gs s) {h : Hashes} {n : Nat} {k : Except Throwable Nat → Run Unit}
    (hGet : gs[t]? = some (task, ⟨p, .php, .op (.newChannel n) k, c⟩)) (hStack : s.stack p = some t :: rest)
    {r : Except Throwable Nat} (hExec : Runtime.exec h t task (.newChannel n) ch s.shared = some (r, s')) :
    ∃ i, r = .ok i ∧ Inv (gs.set t (task, Local.advance ⟨p, .php, .op (.newChannel n) k, c⟩ (.newChannel n) (.ok i)
      .php))
      { s with shared := s' } := by
  obtain ⟨pend, hChannels⟩ := hInv.channels
  simp only [Runtime.exec, Runtime.inWorld] at hExec
  obtain ⟨⟨r', w'⟩, hWorld, hEq⟩ := Option.map_eq_some_iff.mp hExec
  cases hEq
  obtain ⟨rfl, rfl⟩ := exec_newChannel hWorld
  have hKeeps := (hInv.keeps _ (List.mem_of_getElem? hGet)).2 (.ok s.shared.world.chans.length) (by simp [conduct])
  have hLock : lockRoles gs t = standing (c.after (.newChannel n) (.ok s.shared.world.chans.length)).duty.held :=
    view_eq hGet
  have hChan : chanRoles gs t = fun _ => .out := view_eq hGet
  refine ⟨s.shared.world.chans.length, rfl, ?_⟩
  rw [Local.advance, Prog.answered_op]
  refine hInv.set
    ⟨p, .php, k (.ok s.shared.world.chans.length), c.after (.newChannel n) (.ok s.shared.world.chans.length)⟩
    hGet rfl (hInv.stacked.go hStack) ?_ ?_ (hInv.flags_same hGet rfl) (hInv.home_same hGet (by simp)) trivial hKeeps
  · rw [lockRole_outside (by simp), ← hLock, Function.update_eq_self]
    exact hInv.custody
  · rw [chanRole_outside (by simp), ← hChan, Function.update_eq_self]
    exact ⟨_, hChannels.newChannel fun type => by cases type <;> rfl⟩

/-! ## Inside the channels -/

variable {r : Runtime}

theorem chan_step (hInv : Inv gs s) (hGet : gs[t]? = some (task, ⟨p, x, prog, c⟩)) (hx : x ≠ .fresh)
    (hStack : s.stack p = some t :: rest) {i : Nat} (role : ChanRole) (d : Local) (hp : d.proc = p)
    (hPlace : d.phase.place = .running) (hLock : d.lockRole = Local.lockRole ⟨p, x, prog, c⟩)
    (hChan : d.chanRole = Function.update (Local.chanRole ⟨p, x, prog, c⟩) i role)
    (hChannels : ∃ pend, Channels s.dead (procs gs) s.stack (become (chanRoles gs) t i role) r.channels r.world.chans
      pend) (hPool : r.lockPool = s.shared.lockPool) (hLocks : r.world.locks = s.shared.world.locks)
    (hLockFlag : r.lockFlag = s.shared.lockFlag) (hFlag : d.flag = Local.flag ⟨p, x, prog, c⟩) (hFits : d.Fits)
    (hKeeps : d.prog.Keeps conduct (fun out c => Discharged out c.duty) d.conduct) :
    Inv (gs.set t (task, d)) { s with shared := r } := by
  have hView : chanRoles gs t = Local.chanRole ⟨p, x, prog, c⟩ := view_eq hGet
  refine hInv.set d hGet hp (hPlace ▸ hInv.stacked.go hStack) ?_ ?_ (fun u m => ?_) (hInv.home_same hGet hx) hFits
    hKeeps
  · rw [update_view hGet hLock, hPool, hLocks]
    exact hInv.custody
  · rw [hChan, ← hView]
    exact hChannels
  · rw [hLockFlag]
    exact hInv.flags_same hGet hFlag u m

theorem channel_eq_some {i n : Nat} {x : Channel} (hChannel : r.channel p i = some (x, n)) :
    ∃ rows, r.channels[i]? = some x ∧ r.world.chans[i]? = some rows ∧ x.proc = p ∧ rows.length = n := by
  unfold Runtime.channel at hChannel
  split at hChannel
  · rename_i rows hc hr
    split at hChannel
    · rename_i hp
      cases hChannel
      exact ⟨rows, hc, hr, hp, rfl⟩
    · cases hChannel
  · cases hChannel

section Chan

variable {h : Hashes} {i : Nat} {type : Opcode}

theorem arrive_inv (hInv : Inv gs s) (hGet : gs[t]? = some (task, ⟨p, .php, prog, c⟩)) (hAlive : s.dead p = false)
    (hStack : s.stack p = some t :: rest) {r : Except Throwable Bool} (hTask : task.proc = p)
    (hExec : Runtime.exec h t task (.arrive i type) ch s.shared = some (r, s')) :
    ∃ wait, r = .ok wait ∧ Inv (gs.set t (task, ⟨p, .chan i (if wait then .queued type else .ready type), prog, c⟩))
      { s with shared := s' } := by
  obtain ⟨pend, hChannels⟩ := hInv.channels
  have hKeeps := hInv.keeps _ (List.mem_of_getElem? hGet)
  have hRole : chanRoles gs t i = .out := congrFun (view_eq hGet) i
  subst hTask
  simp only [Runtime.exec] at hExec
  split at hExec
  · rename_i x n hChannel
    obtain ⟨rows, hc, hr, hp, rfl⟩ := channel_eq_some hChannel
    obtain ⟨hWait, hGo⟩ := hChannels.arrive hAlive (view_eq hGet) hStack hc hr hp type hRole
    split at hExec
    · rename_i hMust
      cases hExec
      exact ⟨true, rfl, hInv.chan_step hGet (by simp) hStack (.queued type)
        ⟨task.proc, .chan i (.queued type), prog, c⟩ rfl rfl rfl rfl
        ⟨_, hWait hMust⟩ rfl rfl rfl rfl trivial hKeeps⟩
    · rename_i hMust
      cases hExec
      exact ⟨false, rfl, hInv.chan_step hGet (by simp) hStack (.ready type) ⟨task.proc, .chan i (.ready type), prog, c⟩
        rfl rfl rfl rfl
        ⟨_, hGo (by simpa using hMust)⟩ rfl rfl rfl rfl trivial hKeeps⟩
  · cases hExec

theorem wait_inv (hInv : Inv gs s) (hGet : gs[t]? = some (task, ⟨p, .chan i (.queued type), prog, c⟩))
    (hAlive : s.dead p = false) (hStack : s.stack p = some t :: rest) :
    Inv (gs.set t (task, ⟨p, .chan i (.waiting type), prog, c⟩)) (s.setStack p rest) := by
  obtain ⟨pend, hChannels⟩ := hInv.channels
  have hLock : lockRoles gs t = standing c.duty.held := view_eq hGet
  have hChan : chanRoles gs t = Function.update (fun _ => .out) i (.queued type) := view_eq hGet
  obtain ⟨x, hc, hx⟩ := hChannels.home t i (by simp [hChan])
  obtain ⟨rows, hr⟩ := hChannels.rows_of hc
  have hp : x.proc = p := Option.some.inj (hx.symm.trans (view_eq hGet))
  refine hInv.set ⟨p, .chan i (.waiting type), prog, c⟩ hGet rfl
    (hInv.stacked.leave hStack (by simp [Phase.place])) ?_ ⟨pend, ?_⟩ (hInv.flags_same hGet rfl)
    (hInv.home_same hGet (by simp)) trivial (hInv.keeps _ (List.mem_of_getElem? hGet))
  · rw [lockRole_outside (by simp), ← hLock, Function.update_eq_self]
    exact hInv.restack_standing hAlive hStack _ hLock fun u m hut _ => by simp [hStack, hut]
  · have hYield := hChannels.yield hAlive (view_eq hGet) hStack hc hr hp type
      (hInv.stacked.notMem_rest hStack) (by simp [hChan]) fun j hj => by simp [hChan, hj]
    rw [become, hChan, Function.update_idem] at hYield
    exact hYield

theorem notify_eq {x : Channel} (hc : r.channels[i]? = some x) (w : World) (type : Opcode) :
    ({ r with world := w } : Runtime).notify i type =
      ((x.popCoroutine type).1, { r with world := w, channels := r.channels.set i (x.popCoroutine type).2 }) := by
  simp [Runtime.notify, hc]

variable {role : ChanRole}

theorem served_inv (hInv : Inv gs s) (type : Opcode) (rows' : List AdminRow) {o : Op}
    {k : Except Throwable o.Res → Run Unit} {a : o.Res} (hRole : role = .ready type ∨ role = .waiting type)
    (hGet : gs[t]? = some (task, ⟨p, .chan i role, .op o k, c⟩)) (hAlive : s.dead p = false)
    (hStack : s.stack p = some t :: rest) {x : Channel} {rows : List AdminRow} (hc : s.shared.channels[i]? = some x)
    (hr : s.shared.world.chans[i]? = some rows) (hp : x.proc = p) (hHeld : (c.after o (.ok a)).duty.held = c.duty.held)
    (hAvail : x.avail rows'.length = ChanSlot.served (x.avail rows.length) type) (hSize : rows'.length ≤ x.capacity)
    (hChannels : r.channels = s.shared.channels.set i (x.popCoroutine type.other).2)
    (hChans : r.world.chans = s.shared.world.chans.set i rows') (hPool : r.lockPool = s.shared.lockPool)
    (hLocks : r.world.locks = s.shared.world.locks) (hFlag : r.lockFlag = s.shared.lockFlag) :
    Inv (gs.set t (task, Local.advance ⟨p, .chan i role, .op o k, c⟩ o (.ok a)
      ((x.popCoroutine type.other).1.elim .php fun u => .chan i (.notifies type.other u)))) { s with shared := r } := by
  obtain ⟨pend, hInside⟩ := hInv.channels
  have hChan : chanRoles gs t = Function.update (fun _ => .out) i role := view_eq hGet
  have hKeeps := (hInv.keeps _ (List.mem_of_getElem? hGet)).2 (.ok a) (by simp [conduct])
  have hServe := hInside.serve hAlive (view_eq hGet) hStack hc hr hp type (by rwa [hChan, Function.update_self])
    hAvail hSize
  rw [Local.advance, Prog.answered_op]
  refine hInv.chan_step hGet (by simp) hStack ((x.popCoroutine type.other).1.elim .out (.notifies type.other))
    ⟨p, (x.popCoroutine type.other).1.elim .php fun u => .chan i (.notifies type.other u), k (.ok a),
      c.after o (.ok a)⟩ rfl ?_ ?_ ?_
    (by rw [hChannels, hChans]; exact hServe) hPool hLocks hFlag ?_ ?_ hKeeps
  · cases (x.popCoroutine type.other).1 <;> rfl
  · cases (x.popCoroutine type.other).1 <;> simp [Local.lockRole, Local.held, hHeld]
  · cases (x.popCoroutine type.other).1 <;> simp [Local.chanRole]
  · cases (x.popCoroutine type.other).1 <;> simp [Local.flag, Local.held, hHeld]
  · cases (x.popCoroutine type.other).1 <;> trivial

theorem can_serve (hInv : Inv gs s) (hRole : role = .ready type ∨ role = .waiting type)
    (hGet : gs[t]? = some (task, ⟨p, .chan i role, prog, c⟩)) (hAlive : s.dead p = false)
    (hStack : s.stack p = some t :: rest) {x : Channel} {rows : List AdminRow} (hc : s.shared.channels[i]? = some x)
    (hr : s.shared.world.chans[i]? = some rows) (hp : x.proc = p) :
    x.avail rows.length type ≠ 0 ∧ rows.length ≤ x.capacity := by
  obtain ⟨pend, hChannels⟩ := hInv.channels
  have hChan : chanRoles gs t = Function.update (fun _ => .out) i role := view_eq hGet
  exact ⟨hChannels.can_serve hAlive (view_eq hGet) hStack hc hr hp (by rwa [hChan, Function.update_self]),
    hChannels.size i x rows hc hr⟩

theorem take_inv (hInv : Inv gs s) (hRole : role = .ready .consumer ∨ role = .waiting .consumer)
    {k : Except Throwable AdminRow → Run Unit} (hGet : gs[t]? = some (task, ⟨p, .chan i role, .op (.pop i) k, c⟩))
    (hAlive : s.dead p = false) (hStack : s.stack p = some t :: rest) {r : Except Throwable (AdminRow × Option Nat)}
    (hTask : task.proc = p) (hExec : Runtime.exec h t task (.take i) ch s.shared = some (r, s')) :
    ∃ y, r = .ok y ∧ Inv (gs.set t (task, Local.advance ⟨p, .chan i role, .op (.pop i) k, c⟩ (.pop i) (.ok y.1)
      (y.2.elim .php fun u => .chan i (.notifies .producer u)))) { s with shared := s' } := by
  subst hTask
  simp only [Runtime.exec] at hExec
  split at hExec
  · rename_i x₀ r₀ s₀ hChannel hWorld
    cases hExec
    obtain ⟨rows, hc, hr, hp, hn⟩ := channel_eq_some (x := x₀.1) (n := x₀.2) hChannel
    obtain ⟨⟨r', w'⟩, hPop, hEq⟩ := Option.map_eq_some_iff.mp hWorld
    cases hEq
    obtain ⟨row, rows', hRows, rfl, rfl⟩ := exec_pop hPop
    cases hr.symm.trans hRows
    obtain ⟨_, hSize⟩ := hInv.can_serve hRole hGet hAlive hStack hc hr hp
    rw [notify_eq hc]
    refine ⟨(row, (x₀.1.popCoroutine .producer).1), rfl, ?_⟩
    refine hInv.served_inv .consumer rows' hRole hGet hAlive hStack hc hr hp rfl ?_ ?_ rfl rfl rfl rfl rfl
    · funext y
      cases y with
      | producer =>
        simp only [Channel.avail, ChanSlot.served, List.length_cons] at hSize ⊢
        simp
        omega
      | consumer => simp [Channel.avail, ChanSlot.served]
    · rw [List.length_cons] at hSize
      omega
  · cases hExec

theorem put_inv (hInv : Inv gs s) (hRole : role = .ready .producer ∨ role = .waiting .producer) {row : AdminRow}
    {k : Except Throwable Unit → Run Unit} (hGet : gs[t]? = some (task, ⟨p, .chan i role, .op (.push i row) k, c⟩))
    (hAlive : s.dead p = false) (hStack : s.stack p = some t :: rest) {r : Except Throwable (Option Nat)}
    (hTask : task.proc = p) (hExec : Runtime.exec h t task (.put i row) ch s.shared = some (r, s')) :
    ∃ co, r = .ok co ∧ Inv (gs.set t (task, Local.advance ⟨p, .chan i role, .op (.push i row) k, c⟩ (.push i row)
      (.ok ())
      (co.elim .php fun u => .chan i (.notifies .consumer u)))) { s with shared := s' } := by
  subst hTask
  simp only [Runtime.exec] at hExec
  split at hExec
  · rename_i x₀ r₀ s₀ hChannel hWorld
    cases hExec
    obtain ⟨rows, hc, hr, hp, hn⟩ := channel_eq_some (x := x₀.1) (n := x₀.2) hChannel
    obtain ⟨⟨r', w'⟩, hPush, hEq⟩ := Option.map_eq_some_iff.mp hWorld
    cases hEq
    obtain ⟨rfl, rfl⟩ := exec_push hPush
    obtain ⟨hRoom, hSize⟩ := hInv.can_serve hRole hGet hAlive hStack hc hr hp
    change x₀.1.capacity - rows.length ≠ 0 at hRoom
    rw [notify_eq hc]
    refine ⟨(x₀.1.popCoroutine .consumer).1, rfl, ?_⟩
    refine hInv.served_inv .producer (rows ++ [row]) hRole hGet hAlive hStack hc hr hp rfl ?_ ?_ rfl ?_
      rfl rfl rfl
    · funext y
      cases y with
      | producer =>
        simp [Channel.avail, ChanSlot.served]
        omega
      | consumer => simp [Channel.avail, ChanSlot.served]
    · rw [List.length_append, List.length_singleton]
      omega
    · rw [List.modify_eq_set_getElem?, hr]
      rfl
  · cases hExec

theorem eq_of_chan_waiting {u : Nat} (hRole : chanRoles gs u i = .waiting type) :
    places gs u = .yielded ∧ (∀ m, lockRoles gs u m ≠ .waiting) ∧ ∀ j, j ≠ i → chanRoles gs u j = .out := by
  cases hGet : gs[u]? with
  | none => simp [chanRoles, view, hGet] at hRole
  | some g =>
    obtain ⟨task, p, x, prog, c⟩ := g
    rw [chanRoles, view_eq hGet] at hRole
    have hEq : x = .chan i (.waiting type) := by
      cases x with
      | chan i' r =>
        change Function.update (fun _ => ChanRole.out) i' r i = .waiting type at hRole
        by_cases hi : i = i'
        · subst hi
          rw [Function.update_self] at hRole
          rw [hRole]
        · rw [Function.update_of_ne hi] at hRole
          cases hRole
      | _ => cases hRole
    subst hEq
    refine ⟨view_eq hGet, fun m hw => ?_, fun j hj => ?_⟩
    · rw [lockRoles, view_eq hGet, lockRole_outside (by simp)] at hw
      rcases standing_cases c.duty.held m with h | h <;> cases h.symm.trans hw
    · rw [chanRoles, view_eq hGet]
      simp [Local.chanRole, hj]

theorem notify_inv (hInv : Inv gs s) {co : Nat}
    (hGet : gs[t]? = some (task, ⟨p, .chan i (.notifies type co), prog, c⟩)) (hAlive : s.dead p = false)
    (hStack : s.stack p = some t :: rest) :
    Inv (gs.set t (task, ⟨p, .php, prog, c⟩)) (s.setStack p (some co :: some t :: rest)) := by
  obtain ⟨pend, hChannels⟩ := hInv.channels
  have hLock : lockRoles gs t = standing c.duty.held := view_eq hGet
  have hChan : chanRoles gs t = Function.update (fun _ => .out) i (.notifies type co) := view_eq hGet
  have hRole : chanRoles gs t i = .notifies type co := by simp [hChan]
  obtain ⟨x, hc, hx⟩ := hChannels.home t i (by simp [hChan])
  obtain ⟨rows, hr⟩ := hChannels.rows_of hc
  have hp : x.proc = p := Option.some.inj (hx.symm.trans (view_eq hGet))
  have hSlot := hChannels.slot i x rows hc hr (hp ▸ hAlive)
  rw [hp] at hSlot
  obtain ⟨hPend, hNot⟩ := hSlot.notifies t type co (view_eq hGet) hRole
  obtain ⟨hProc, hWaiting, _⟩ := hSlot.pending type co hPend
  obtain ⟨hPlace, hOthers, hOut⟩ := eq_of_chan_waiting hWaiting
  refine hInv.set ⟨p, .php, prog, c⟩ hGet rfl (hInv.stacked_resume hStack hProc hPlace hNot) ?_ ⟨pend, ?_⟩
    (hInv.flags_same hGet rfl) (hInv.home_same hGet (by simp)) trivial (hInv.keeps _ (List.mem_of_getElem? hGet))
  · rw [lockRole_outside (by simp), ← hLock, Function.update_eq_self]
    refine hInv.restack_standing hAlive hStack _ hLock fun u m _ hw => ?_
    have huc : u ≠ co := by
      rintro rfl
      exact hOthers m hw
    simp [hStack, huc]
  · have hResume := hChannels.resume hAlive (view_eq hGet) hStack hc hr hp hRole (fun j hj => by simp [hChan, hj]) hOut
    rw [become, hChan, Function.update_idem, Function.update_eq_self] at hResume
    exact hResume

end Chan

end Inv

end TeaBot.Swoole
