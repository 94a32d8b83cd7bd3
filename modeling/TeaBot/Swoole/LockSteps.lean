import TeaBot.Swoole.Scheduling

/-! # The locks keep the invariant -/

namespace TeaBot.Swoole

open Foundation Loggers

namespace Inv

variable {gs : List (Task × Local)} {s : Procs Runtime} {t p : Nat} {task : Task} {x y : Phase} {prog : Run Unit}
variable {c : Conduct} {rest : List (Option Nat)}

/-! ## Handles -/

variable {m : Mutex}

theorem lockFlag_inv (hInv : Inv gs s) (hGet : gs[t]? = some (task, ⟨p, .php, prog, c⟩))
    (hStack : s.stack p = some t :: rest) :
    Inv (gs.set t (task, ⟨p, if s.shared.lockFlag (t, m) then .releasing m else .shutting m, prog, c⟩)) s := by
  have hKeeps := hInv.keeps _ (List.mem_of_getElem? hGet)
  have hStacked := hInv.stacked.go hStack
  have hFlag : s.shared.lockFlag (t, m) = flagged c.duty.held m := (hInv.flags t m).trans (congrFun (view_eq hGet) m)
  by_cases hHeld : m ∈ c.duty.held
  · rw [hFlag, if_pos (by simpa [flagged] using hHeld)]
    exact hInv.quiet hGet (by simp) ⟨p, .releasing m, prog, c⟩ rfl hStacked rfl rfl rfl rfl (.refl _)
      (hInv.flags_same hGet rfl) hHeld hKeeps
  · rw [hFlag, if_neg (by simpa [flagged] using hHeld)]
    exact hInv.quiet hGet (by simp) ⟨p, .shutting m, prog, c⟩ rfl hStacked rfl rfl rfl rfl (.refl _)
      (hInv.flags_same hGet rfl) hHeld hKeeps

theorem flags_set {b : Bool} (hInv : Inv gs s) (hGet : gs[t]? = some (task, ⟨p, x, prog, c⟩)) {d : Local}
    (hFlag : d.flag = Function.update (Local.flag ⟨p, x, prog, c⟩) m b) (u : Nat) (m' : Mutex) :
    (s.shared.setFlag t m b).lockFlag (u, m') = if u = t then d.flag m' else s.shared.lockFlag (u, m') := by
  have hOld : ∀ m', s.shared.lockFlag (t, m') = Local.flag ⟨p, x, prog, c⟩ m' :=
    fun m' => (hInv.flags t m').trans (congrFun (view_eq hGet) m')
  by_cases hu : u = t
  · subst hu
    rw [if_pos rfl, hFlag]
    by_cases hm : m' = m
    · subst hm
      simp [Runtime.setFlag]
    · simp [Runtime.setFlag, hm, hOld]
  · simp [Runtime.setFlag, hu]

theorem setLockFlag_inv (hInv : Inv gs s) {b : Bool} (hGet : gs[t]? = some (task, ⟨p, .flagging m b, prog, c⟩))
    (hStack : s.stack p = some t :: rest) :
    Inv (gs.set t (task, ⟨p, .php, prog, c⟩)) { s with shared := s.shared.setFlag t m b } := by
  have hFits : Local.Fits ⟨p, .flagging m b, prog, c⟩ := hInv.fits _ (List.mem_of_getElem? hGet)
  have hFlag : Local.flag ⟨p, .php, prog, c⟩ = Function.update (Local.flag ⟨p, .flagging m b, prog, c⟩) m b := by
    have hb : flagged c.duty.held m = b := by
      cases b with
      | true | false => simpa [flagged, Local.Fits, Local.held] using hFits
    simp [Local.flag, Local.held, ← hb]
  exact hInv.quiet hGet (by simp) ⟨p, .php, prog, c⟩ rfl (hInv.stacked.go hStack) rfl rfl rfl rfl (.refl _)
    (hInv.flags_set hGet hFlag) trivial (hInv.keeps _ (List.mem_of_getElem? hGet))

theorem release_eq (hInv : Inv gs s) (hGet : gs[t]? = some (task, ⟨p, x, prog, c⟩)) (hx : ∀ m r b, x ≠ .lock m r b)
    (hHeld : m ∉ c.duty.held) : s.shared.world.release t m = s.shared.world := by
  obtain ⟨line, hCustody⟩ := hInv.custody
  rw [World.release, if_neg]
  intro hLock
  obtain ⟨q, _, _, hRole⟩ := (hCustody.locked m t).mp hLock
  rw [lockRoles, view_eq hGet, lockRole_outside hx, standing, if_neg hHeld] at hRole
  cases hRole

variable {r : Except Throwable Unit} {s' : Runtime}

theorem fclose_inv (hInv : Inv gs s) {h : Hashes} (hGet : gs[t]? = some (task, ⟨p, x, prog, c⟩))
    (hx : x = .closing m ∨ x = .shutting m) (hStack : s.stack p = some t :: rest)
    (hExec : (s.shared.setFlag t m false).inWorld h t task.job (.fclose m) .ok = some (r, s')) {prog' : Run Unit}
    (hKeeps : prog'.Keeps conduct (fun out c => Discharged out c.duty) c) :
    r = .ok () ∧ Inv (gs.set t (task, ⟨p, .php, prog', c⟩)) { s with shared := s' } := by
  obtain ⟨⟨r', w'⟩, hWorld, hEq⟩ := Option.map_eq_some_iff.mp hExec
  cases hEq
  obtain ⟨rfl, rfl⟩ := exec_fclose hWorld
  refine ⟨rfl, ?_⟩
  rcases hx with rfl | rfl
  all_goals
    have hHeld : m ∉ c.duty.held := hInv.fits _ (List.mem_of_getElem? hGet)
    have hSame : SameSync s.shared.world ((s.shared.setFlag t m false).world.release t m) := by
      rw [show (s.shared.setFlag t m false).world = s.shared.world from rfl, hInv.release_eq hGet (by simp) hHeld]
      exact .refl _
    have hOff : flagged c.duty.held m = false := by simpa [flagged] using hHeld
    exact hInv.quiet hGet (by simp) ⟨p, .php, prog', c⟩ rfl (hInv.stacked.go hStack) rfl rfl rfl rfl hSame
      (hInv.flags_set hGet (by simp [Local.flag, Local.held, ← hOff])) trivial hKeeps

theorem shut_inv (hInv : Inv gs s) {h : Hashes} {k : Except Throwable Unit → Run Unit}
    (hGet : gs[t]? = some (task, ⟨p, .shutting m, .op (.fclose m) k, c⟩)) (hStack : s.stack p = some t :: rest)
    (hExec : (s.shared.setFlag t m false).inWorld h t task.job (.fclose m) .ok = some (r, s')) :
    r = .ok () ∧ Inv (gs.set t (task, Local.advance ⟨p, .shutting m, .op (.fclose m) k, c⟩ (.fclose m) r .php))
      { s with shared := s' } := by
  have hHeld : m ∉ c.duty.held := hInv.fits _ (List.mem_of_getElem? hGet)
  have hAfter : c.after (.fclose m) (.ok ()) = c := by
    change (⟨c.duty.drop m, c.budget⟩ : Conduct) = c
    rw [drop_of_notMem hHeld]
  have hKeeps := (hInv.keeps _ (List.mem_of_getElem? hGet)).2 (.ok ()) (by simp [conduct])
  rw [show conduct.after c (.fclose m) (.ok ()) = c from hAfter] at hKeeps
  obtain ⟨rfl, hNew⟩ := hInv.fclose_inv hGet (.inr rfl) hStack hExec hKeeps
  refine ⟨rfl, ?_⟩
  rw [Local.advance, Prog.answered_op, hAfter]
  exact hNew

/-! ## Inside the lock manager -/

theorem lock_step (hInv : Inv gs s) (hGet : gs[t]? = some (task, ⟨p, x, prog, c⟩)) (hx : x ≠ .fresh)
    (hOut : ∀ i r, x ≠ .chan i r) (hStack : s.stack p = some t :: rest) (role : LockRole) (d : Local) (hp : d.proc = p)
    (hPlace : d.phase.place = .running) (hOut' : ∀ i r, d.phase ≠ .chan i r)
    (hLock : d.lockRole = Function.update (Local.lockRole ⟨p, x, prog, c⟩) m role) {r : Runtime}
    {line : Nat × Mutex → List Nat}
    (hCustody : Custody s.dead (procs gs) s.stack (become (lockRoles gs) t m role) r.lockPool r.world.locks line)
    (hChannels : r.channels = s.shared.channels) (hChans : r.world.chans = s.shared.world.chans)
    (hLockFlag : r.lockFlag = s.shared.lockFlag) (hFlag : d.flag = Local.flag ⟨p, x, prog, c⟩) (hFits : d.Fits)
    (hKeeps : d.prog.Keeps conduct (fun out c => Discharged out c.duty) d.conduct) :
    Inv (gs.set t (task, d)) { s with shared := r } := by
  obtain ⟨q, y, prog', c'⟩ := d
  have hView : lockRoles gs t = Local.lockRole ⟨p, x, prog, c⟩ := view_eq hGet
  refine hInv.set _ hGet hp (hPlace ▸ hInv.stacked.go hStack) ⟨line, ?_⟩ ?_ (fun u m' => ?_) (hInv.home_same hGet hx)
    hFits hKeeps
  · rw [hLock, ← hView]
    exact hCustody
  · rw [chanRole_outside hOut', update_view hGet (chanRole_outside hOut).symm, hChannels, hChans]
    exact hInv.channels
  · rw [hLockFlag]
    exact hInv.flags_same hGet hFlag u m'

section Lock

variable {h : Hashes} {m : Mutex} {k : Except Throwable Unit → Run Unit}

variable {ch : Bool × Choice}

theorem enter_inv (hInv : Inv gs s) (hGet : gs[t]? = some (task, ⟨p, .php, .op (.lock m) k, c⟩))
    (hAlive : s.dead p = false) (hStack : s.stack p = some t :: rest) {r : Except Throwable Bool}
    (hTask : task.proc = p) (hExec : Runtime.exec h t task (.enter m) ch s.shared = some (r, s')) :
    ∃ busy, r = .ok busy ∧ Inv (gs.set t (task, ⟨p, .lock m (if busy then .queued else .entering) false,
      .op (.lock m) k, c⟩)) { s with shared := s' } := by
  obtain ⟨line, hCustody⟩ := hInv.custody
  have hKeeps := hInv.keeps _ (List.mem_of_getElem? hGet)
  have hHeld : m ∉ c.duty.held := notMem_of_admits hKeeps.1.1
  have hRole : lockRoles gs t m = .out := by
    rw [lockRoles, view_eq hGet, lockRole_outside (by simp), standing, if_neg hHeld]
  subst hTask
  simp only [Runtime.exec] at hExec
  split at hExec
  · rename_i hBusy
    cases hExec
    refine ⟨true, rfl, ?_⟩
    obtain ⟨lm, hPool⟩ : ∃ lm, s.shared.lockPool (task.proc, m) = some lm := by
      cases hPool : s.shared.lockPool (task.proc, m) with
      | none => simp [hPool] at hBusy
      | some lm => exact ⟨lm, rfl⟩
    rw [hPool, Option.getD_some]
    exact hInv.lock_step hGet (by simp) (by simp) hStack .queued ⟨task.proc, .lock m .queued false, .op (.lock m) k, c⟩
      rfl rfl
      (by simp) rfl (hCustody.enter_busy hAlive (view_eq hGet) hStack hRole hPool) rfl rfl rfl rfl hHeld hKeeps
  · rename_i hFree
    cases hExec
    refine ⟨false, rfl, ?_⟩
    simp only [Bool.or_eq_true, not_or, Bool.not_eq_true] at hFree
    exact hInv.lock_step hGet (by simp) (by simp) hStack .entering
      ⟨task.proc, .lock m .entering false, .op (.lock m) k, c⟩ rfl rfl
      (by simp) rfl (hCustody.enter_free hAlive (view_eq hGet) hStack hRole hFree.1) rfl rfl rfl rfl hHeld hKeeps

theorem mark_inv (hInv : Inv gs s) {role : LockRole} (hRole : role = .entering ∨ role = .waiting)
    (hGet : gs[t]? = some (task, ⟨p, .lock m role false, .op (.lock m) k, c⟩)) (hAlive : s.dead p = false)
    (hStack : s.stack p = some t :: rest) (hTask : task.proc = p)
    (hExec : Runtime.exec h t task (.setLockEx m) ch s.shared = some (r, s')) :
    r = .ok () ∧ Inv (gs.set t (task, ⟨p, .lock m .marked false, .op (.lock m) k, c⟩)) { s with shared := s' } := by
  obtain ⟨line, hCustody⟩ := hInv.custody
  have hHeld : m ∉ c.duty.held := notMem_of_admits (hInv.keeps _ (List.mem_of_getElem? hGet)).1.1
  have hRole' : lockRoles gs t m = role := by
    rw [lockRoles, view_eq hGet]
    simp [Local.lockRole]
  obtain ⟨lm, hPool, hMarked⟩ := hCustody.setLockEx (m := m) hAlive (view_eq hGet) hStack (by rwa [hRole'])
  subst hTask
  simp only [Runtime.exec, hPool] at hExec
  cases hExec
  refine ⟨rfl, ?_⟩
  refine hInv.lock_step hGet (by simp) (by simp) hStack .marked ⟨task.proc, .lock m .marked false, .op (.lock m) k, c⟩
    rfl rfl
    (by simp) ?_ hMarked rfl rfl rfl ?_ hHeld (hInv.keeps _ (List.mem_of_getElem? hGet))
  · simp [Local.lockRole, Local.held]
  · rcases hRole with rfl | rfl <;> rfl

theorem flock_inv (hInv : Inv gs s) (hGet : gs[t]? = some (task, ⟨p, .lock m .marked false, .op (.lock m) k, c⟩))
    (hAlive : s.dead p = false) (hStack : s.stack p = some t :: rest)
    (hExec : s.shared.inWorld h t task.job (.lock m) .ok = some (r, s')) :
    r = .ok () ∧ Inv (gs.set t (task, Local.advance ⟨p, .lock m .marked false, .op (.lock m) k, c⟩ (.lock m) r
      (.flagging m true))) { s with shared := s' } := by
  obtain ⟨line, hCustody⟩ := hInv.custody
  obtain ⟨⟨r', w'⟩, hWorld, hEq⟩ := Option.map_eq_some_iff.mp hExec
  cases hEq
  obtain ⟨hOpen, rfl, rfl⟩ := exec_lock hWorld
  have hKeeps := hInv.keeps _ (List.mem_of_getElem? hGet)
  have hHeld : m ∉ c.duty.held := notMem_of_admits hKeeps.1.1
  have hOff : flagged c.duty.held m = false := by simpa [flagged] using hHeld
  have hRole : lockRoles gs t m = .marked := by
    rw [lockRoles, view_eq hGet]
    simp [Local.lockRole]
  have hAfter : (c.after (.lock m) (.ok ())).duty.held = m :: c.duty.held := rfl
  refine ⟨rfl, ?_⟩
  refine hInv.lock_step hGet (by simp) (by simp) hStack .holds
    (Local.advance ⟨p, .lock m .marked false, .op (.lock m) k, c⟩
    (.lock m) (.ok ()) (.flagging m true)) rfl rfl (by simp [Local.advance]) ?_
    (hCustody.flock hAlive (view_eq hGet) hStack hRole hOpen) rfl rfl rfl ?_ List.mem_cons_self ?_
  · simp [Local.advance, Local.lockRole, Local.held, hAfter, standing_cons]
  · simp [Local.advance, Local.flag, Local.held, hAfter, flagged_cons, ← hOff]
  · rw [Local.advance, Prog.answered_op]
    exact hKeeps.2 (.ok ()) (by simp [conduct])

/-- `lock_release` up to `::flock`, called by `flock` or by `fclose`. -/
theorem leave_lock_inv (hInv : Inv gs s) (closes : Bool) (hx : x = if closes then .releasing m else .php)
    (hGet : gs[t]? = some (task, ⟨p, x, prog, c⟩)) (hHeld : m ∈ c.duty.held) (hAlive : s.dead p = false)
    (hStack : s.stack p = some t :: rest) {r : Except Throwable (Option Nat)} (hTask : task.proc = p)
    (hExec : Runtime.exec h t task (.leave m) ch s.shared = some (r, s')) :
    ∃ co, r = .ok co ∧ Inv (gs.set t (task, ⟨p, .lock m (.leaves co) closes, prog, c⟩)) { s with shared := s' } := by
  obtain ⟨line, hCustody⟩ := hInv.custody
  have hOutside : (∀ m r b, x ≠ .lock m r b) ∧ (∀ i r, x ≠ .chan i r) ∧ x ≠ .fresh ∧
      Local.flag ⟨p, x, prog, c⟩ = flagged c.duty.held := by
    cases closes <;> simp [hx, Local.flag, Local.held]
  have hLock : Local.lockRole ⟨p, x, prog, c⟩ = standing c.duty.held := lockRole_outside hOutside.1
  have hRole : lockRoles gs t m = .holds := by
    rw [lockRoles, view_eq hGet, hLock, standing, if_pos hHeld]
  obtain ⟨lm, hPool, hLast, hNext⟩ := hCustody.leave hAlive (view_eq hGet) hStack hRole
  have hStep : ∀ {co : Option Nat} {r : Runtime} {line : Nat × Mutex → List Nat},
      Custody s.dead (procs gs) s.stack (become (lockRoles gs) t m (.leaves co)) r.lockPool r.world.locks line →
      r.channels = s.shared.channels → r.world.chans = s.shared.world.chans → r.lockFlag = s.shared.lockFlag →
      Inv (gs.set t (task, ⟨p, .lock m (.leaves co) closes, prog, c⟩)) { s with shared := r } := by
    intro co r line hC h₁ h₂ h₃
    exact hInv.lock_step hGet hOutside.2.2.1 hOutside.2.1 hStack (.leaves co) ⟨p, .lock m (.leaves co) closes, prog, c⟩
      rfl rfl
      (by simp) (by rw [hLock]; rfl) hC h₁ h₂ h₃ hOutside.2.2.2.symm hHeld (hInv.keeps _ (List.mem_of_getElem? hGet))
  subst hTask
  simp only [Runtime.exec, hPool] at hExec
  cases hQueue : lm.queue with
  | nil =>
    rw [hQueue] at hExec
    cases hExec
    exact ⟨none, rfl, hStep (hLast hQueue) rfl rfl rfl⟩
  | cons co l =>
    rw [hQueue] at hExec
    cases hExec
    exact ⟨some co, rfl, hStep (hNext co l hQueue) rfl rfl rfl⟩

theorem funlock_inv (hInv : Inv gs s) {co : Option Nat} {closes : Bool} {o : Op} (ho : o = .unlock m ∨ o = .fclose m)
    {k : Except Throwable o.Res → Run Unit} {a : o.Res}
    (hGet : gs[t]? = some (task, ⟨p, .lock m (.leaves co) closes, .op o k, c⟩)) (hAlive : s.dead p = false)
    (hStack : s.stack p = some t :: rest) (hExec : s.shared.inWorld h t task.job (.unlock m) .ok = some (r, s')) :
    r = .ok () ∧ Inv (gs.set t (task, Local.advance ⟨p, .lock m (.leaves co) closes, .op o k, c⟩ o (.ok a)
      (co.elim (.released m closes) fun u => .lock m (.hands u) closes))) { s with shared := s' } := by
  obtain ⟨line, hCustody⟩ := hInv.custody
  obtain ⟨⟨r', w'⟩, hWorld, hEq⟩ := Option.map_eq_some_iff.mp hExec
  cases hEq
  obtain ⟨rfl, rfl⟩ := exec_unlock hWorld
  have hKeeps := hInv.keeps _ (List.mem_of_getElem? hGet)
  have hHeld : m ∈ c.duty.held := hInv.fits _ (List.mem_of_getElem? hGet)
  have hSame : Function.update (flagged c.duty.held) m true = flagged c.duty.held := by
    simpa [Function.update_eq_self_iff, flagged] using hHeld
  have hRole : lockRoles gs t m = .leaves co := by
    rw [lockRoles, view_eq hGet]
    simp [Local.lockRole]
  obtain ⟨hLock, hUnlocked⟩ := hCustody.funlock hAlive (view_eq hGet) hStack hRole
  have hAfter : (c.after o (.ok a)).duty.held = c.duty.held.filter (· ≠ m) := by
    rcases ho with rfl | rfl <;> rfl
  have hNot : m ∉ (c.after o (.ok a)).duty.held := by
    rw [hAfter]
    simp
  have hStanding : standing (c.after o (.ok a)).duty.held = Function.update (standing c.duty.held) m .out := by
    rw [hAfter, standing_filter]
  have hFlagged : flagged (c.after o (.ok a)).duty.held = Function.update (flagged c.duty.held) m false := by
    rw [hAfter, flagged_filter]
  have hRest : (k (.ok a)).Keeps conduct (fun out c => Discharged out c.duty) (c.after o (.ok a)) :=
    hKeeps.2 (.ok a) (by simp [conduct])
  have hLocks : (s.shared.world.release t m).locks = Function.update s.shared.world.locks m none := by
    rw [World.release, if_pos hLock]
  have hChans : (s.shared.world.release t m).chans = s.shared.world.chans := by
    rw [World.release]
    split <;> rfl
  refine ⟨rfl, ?_⟩
  rw [Local.advance, Prog.answered_op]
  refine hInv.lock_step hGet (by simp) (by simp) hStack (co.elim .out .hands)
    ⟨p, co.elim (.released m closes) fun u => .lock m (.hands u) closes, k (.ok a), c.after o (.ok a)⟩ rfl ?_ ?_ ?_
    (hLocks ▸ hUnlocked) rfl hChans rfl ?_ ?_ hRest
  · cases co <;> cases closes <;> rfl
  · cases co <;> cases closes <;> simp [Phase.released]
  · cases co <;> cases closes <;> simp [Local.lockRole, Local.held, Phase.released, hStanding]
  · cases co <;> cases closes <;> simp [Local.flag, Local.held, Phase.released, hFlagged, hSame]
  · cases co <;> cases closes <;> exact hNot

theorem eq_of_waiting {u : Nat} (hRole : lockRoles gs u m = .waiting) :
    places gs u = .yielded ∧ (∀ m', m' ≠ m → lockRoles gs u m' = .out ∨ lockRoles gs u m' = .holds) ∧
      chanRoles gs u = fun _ => .out := by
  cases hGet : gs[u]? with
  | none => simp [lockRoles, view, hGet] at hRole
  | some g =>
    obtain ⟨task, p, x, prog, c⟩ := g
    rw [lockRoles, view_eq hGet] at hRole
    have hEq : ∃ closes, x = .lock m .waiting closes := by
      cases x with
      | lock m' r b =>
        change Function.update (standing c.duty.held) m' r m = .waiting at hRole
        by_cases hm : m = m'
        · subst hm
          rw [Function.update_self] at hRole
          exact ⟨b, by rw [hRole]⟩
        · rw [Function.update_of_ne hm] at hRole
          rcases standing_cases c.duty.held m with h | h <;> cases h.symm.trans hRole
      | _ => rcases standing_cases c.duty.held m with h | h <;> cases h.symm.trans hRole
    obtain ⟨closes, rfl⟩ := hEq
    refine ⟨view_eq hGet, fun m' hm => ?_, view_eq hGet⟩
    rw [lockRoles, view_eq hGet]
    simpa [Local.lockRole, Local.held, hm] using standing_cases c.duty.held m'

theorem queue_inv (hInv : Inv gs s) (hGet : gs[t]? = some (task, ⟨p, .lock m .queued false, prog, c⟩))
    (hAlive : s.dead p = false) (hStack : s.stack p = some t :: rest) :
    Inv (gs.set t (task, ⟨p, .lock m .waiting false, prog, c⟩)) (s.setStack p rest) := by
  obtain ⟨line, hCustody⟩ := hInv.custody
  have hLock : lockRoles gs t = Function.update (standing c.duty.held) m .queued := view_eq hGet
  have hChan : chanRoles gs t = fun _ => .out := view_eq hGet
  refine hInv.set ⟨p, .lock m .waiting false, prog, c⟩ hGet rfl (hInv.stacked.leave hStack (by simp [Phase.place]))
    ⟨line, ?_⟩ ?_ (hInv.flags_same hGet rfl) (hInv.home_same hGet (by simp)) (hInv.fits _ (List.mem_of_getElem? hGet))
    (hInv.keeps _ (List.mem_of_getElem? hGet))
  · have hYield := hCustody.yield hAlive (view_eq hGet) hStack (m := m) (hInv.stacked.notMem_rest hStack)
      (by simp [hLock]) fun m' hm => by simpa [hLock, hm] using standing_cases c.duty.held m'
    rw [become, hLock, Function.update_idem] at hYield
    exact hYield
  · rw [chanRole_outside (by simp), ← hChan, Function.update_eq_self]
    exact hInv.restack_outside hAlive hStack hChan fun u i type hut _ => by simp [hStack, hut]

theorem hand_inv (hInv : Inv gs s) {co : Nat} {closes : Bool}
    (hGet : gs[t]? = some (task, ⟨p, .lock m (.hands co) closes, prog, c⟩)) (hAlive : s.dead p = false)
    (hStack : s.stack p = some t :: rest) :
    Inv (gs.set t (task, ⟨p, .released m closes, prog, c⟩)) (s.setStack p (some co :: some t :: rest)) := by
  obtain ⟨line, hCustody⟩ := hInv.custody
  have hLock : lockRoles gs t = Function.update (standing c.duty.held) m (.hands co) := view_eq hGet
  have hChan : chanRoles gs t = fun _ => .out := view_eq hGet
  have hHeld : m ∉ c.duty.held := hInv.fits _ (List.mem_of_getElem? hGet)
  have hStanding : standing c.duty.held m = .out := by rw [standing, if_neg hHeld]
  have hSlot := hCustody.slot p m hAlive
  obtain ⟨hHead, hWaiting, hNot⟩ := hSlot.heir t co (view_eq hGet) (by simp [hLock, LockRole.heir])
  obtain ⟨hPlace, hOthers, hNone⟩ := eq_of_waiting hWaiting
  have hProc : procs gs co = some p := ((hSlot.mem co).mp (List.mem_of_mem_head? hHead)).1
  refine hInv.set ⟨p, .released m closes, prog, c⟩ hGet rfl ?_ ⟨line, ?_⟩ ?_ (hInv.flags_same hGet ?_)
    (hInv.home_same hGet (by simp)) ?_ (hInv.keeps _ (List.mem_of_getElem? hGet))
  · have hRunning : (Phase.released m closes).place = .running := by cases closes <;> rfl
    rw [hRunning]
    exact hInv.stacked_resume hStack hProc hPlace hNot
  · have hHands : lockRoles gs t m = .hands co := by simp [hLock]
    have hResume := hCustody.resume hAlive (view_eq hGet) hStack hHands
      (fun m' hm => by simpa [hLock, hm] using standing_cases c.duty.held m') fun m' hm hw => by
        rcases hOthers m' hm with h | h <;> cases h.symm.trans hw
    rw [become, hLock, Function.update_idem, ← hStanding, Function.update_eq_self] at hResume
    have hRole : Local.lockRole ⟨p, .released m closes, prog, c⟩ = standing c.duty.held := by cases closes <;> rfl
    rw [hRole]
    exact hResume
  · have hRole : Local.chanRole ⟨p, .released m closes, prog, c⟩ = fun _ => .out := by cases closes <;> rfl
    rw [hRole, ← hChan, Function.update_eq_self]
    refine hInv.restack_outside hAlive hStack hChan fun u i type _ hw => ?_
    have huc : u ≠ co := by
      rintro rfl
      rw [hNone] at hw
      cases hw
    simp [hStack, huc]
  · cases closes <;> rfl
  · cases closes <;> exact hHeld

end Lock

end Inv

end TeaBot.Swoole
