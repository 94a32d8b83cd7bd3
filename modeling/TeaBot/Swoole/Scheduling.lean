import TeaBot.Swoole.Invariant

/-! # The scheduler keeps the invariant -/

namespace TeaBot.Swoole

open Foundation Loggers

def Phase.Outside (x : Phase) : Prop := (∀ m r b, x ≠ .lock m r b) ∧ ∀ i r, x ≠ .chan i r

namespace Inv

variable {gs : List (Task × Local)} {s : Procs Runtime} {t p : Nat} {task : Task} {x y : Phase} {prog : Run Unit}
variable {c : Conduct} {rest : List (Option Nat)}

theorem lockRole_outside (hx : ∀ m r b, x ≠ .lock m r b) : Local.lockRole ⟨p, x, prog, c⟩ = standing c.duty.held := by
  unfold Local.lockRole
  split
  · rename_i m r b hEq
    exact absurd hEq (hx m r b)
  · rfl

theorem chanRole_outside (hx : ∀ i r, x ≠ .chan i r) : Local.chanRole ⟨p, x, prog, c⟩ = fun _ => .out := by
  unfold Local.chanRole
  split
  · rename_i i r hEq
    exact absurd hEq (hx i r)
  · rfl

/-! ## The stacks under the two invariants -/

section Restack

variable {l : List (Option Nat)}

section

variable (hInv : Inv gs s) (hAlive : s.dead p = false)

include hInv hAlive

theorem restack_custody (hHead : ∀ u m, (s.stack p).head? = some (some u) → (lockRoles gs u m).busy = false)
    (hSame : ∀ u m, procs gs u = some p → lockRoles gs u m = .waiting → (some u ∈ l ↔ some u ∈ s.stack p)) :
    ∃ line, Custody s.dead (procs gs) (Function.update s.stack p l) (lockRoles gs) s.shared.lockPool
      s.shared.world.locks line := by
  obtain ⟨line, hCustody⟩ := hInv.custody
  refine ⟨line, hCustody.restack hSame fun u m hu => ?_⟩
  by_cases hTop : (s.stack p).head? = some (some u)
  · exact hHead u m hTop
  · exact hCustody.idle hAlive hu hTop m

theorem restack_channels (hHead : ∀ u i, (s.stack p).head? = some (some u) → chanRoles gs u i = .out)
    (hSame : ∀ u i type, procs gs u = some p → chanRoles gs u i = .waiting type → (some u ∈ l ↔ some u ∈ s.stack p)) :
    ∃ pend, Channels s.dead (procs gs) (Function.update s.stack p l) (chanRoles gs) s.shared.channels
      s.shared.world.chans pend := by
  obtain ⟨pend, hChannels⟩ := hInv.channels
  refine ⟨pend, hChannels.restack hSame (fun u i hu => ?_) fun i c rows hc hr hp => ?_⟩
  · by_cases hTop : (s.stack p).head? = some (some u)
    · rw [hHead u i hTop]
      rfl
    · exact hChannels.idle hAlive hu hTop i
  · refine hChannels.pend_none hAlive hc hr hp fun u hu => ?_
    rw [hHead u i hu]
    rfl

theorem restack_standing (hStack : s.stack p = some t :: rest) (held : List Mutex)
    (hLock : lockRoles gs t = standing held)
    (hSame : ∀ u m, u ≠ t → lockRoles gs u m = .waiting → (some u ∈ l ↔ some u ∈ s.stack p)) :
    ∃ line, Custody s.dead (procs gs) (Function.update s.stack p l) (lockRoles gs) s.shared.lockPool
      s.shared.world.locks line := by
  refine hInv.restack_custody hAlive (fun u m hu => ?_) fun u m _ hw => hSame u m ?_ hw
  · rw [hStack] at hu
    cases hu
    rw [hLock]
    rcases standing_cases held m with h | h <;> rw [h] <;> rfl
  · rintro rfl
    rw [hLock] at hw
    rcases standing_cases held m with h | h <;> cases h.symm.trans hw

theorem restack_outside (hStack : s.stack p = some t :: rest) (hChan : chanRoles gs t = fun _ => .out)
    (hSame : ∀ u i type, u ≠ t → chanRoles gs u i = .waiting type → (some u ∈ l ↔ some u ∈ s.stack p)) :
    ∃ pend, Channels s.dead (procs gs) (Function.update s.stack p l) (chanRoles gs) s.shared.channels
      s.shared.world.chans pend := by
  refine hInv.restack_channels hAlive (fun u i hu => ?_) fun u i type _ hw => hSame u i type ?_ hw
  · rw [hStack] at hu
    cases hu
    rw [hChan]
  · rintro rfl
    rw [hChan] at hw
    cases hw

end

end Restack

theorem home_same (hInv : Inv gs s) (hGet : gs[t]? = some (task, ⟨p, x, prog, c⟩)) (hx : x ≠ .fresh) (u : Nat) :
    s.home u = if u = t then some p else s.home u := by
  split
  · rename_i hu
    subst hu
    exact hInv.home u _ hGet hx
  · rfl

theorem flags_same (hInv : Inv gs s) (hGet : gs[t]? = some (task, ⟨p, x, prog, c⟩)) {d : Local}
    (hFlag : d.flag = Local.flag ⟨p, x, prog, c⟩) (u : Nat) (m : Mutex) :
    s.shared.lockFlag (u, m) = if u = t then d.flag m else s.shared.lockFlag (u, m) := by
  split
  · rename_i hu
    subst hu
    rw [hInv.flags, view_eq hGet, hFlag]
  · rfl

/-! ## The scheduler -/

theorem reschedule (hInv : Inv gs s) (hGet : gs[t]? = some (task, ⟨p, x, prog, c⟩)) (hAlive : s.dead p = false)
    (hx : Phase.Outside x) (hy : Phase.Outside y) {l : List (Option Nat)}
    (hStacked : Stacked (procs gs) (Function.update (places gs) t y.place) (Function.update s.stack p l) s.dead)
    (hHead : ∀ u, (s.stack p).head? = some (some u) → u = t)
    (hSame : ∀ u, u ≠ t → (some u ∈ l ↔ some u ∈ s.stack p)) {s' : Procs Runtime}
    (hStack : s'.stack = Function.update s.stack p l) (hShared : s'.shared = s.shared) (hDead : s'.dead = s.dead)
    (hHome : ∀ u, s'.home u = if u = t then some p else s.home u)
    (hFlag : Local.flag ⟨p, y, prog, c⟩ = Local.flag ⟨p, x, prog, c⟩) (hFits : Local.Fits ⟨p, y, prog, c⟩) :
    Inv (gs.set t (task, ⟨p, y, prog, c⟩)) s' := by
  have hLock : lockRoles gs t = standing c.duty.held := (view_eq hGet).trans (lockRole_outside hx.1)
  have hChan : chanRoles gs t = fun _ => .out := (view_eq hGet).trans (chanRole_outside hx.2)
  refine hInv.set ⟨p, y, prog, c⟩ hGet rfl ?_ ?_ ?_ (fun u m => ?_) hHome hFits
    (hInv.keeps _ (List.mem_of_getElem? hGet))
  · rwa [hStack, hDead]
  · rw [hStack, hShared, hDead, lockRole_outside hy.1, update_view hGet (lockRole_outside hx.1).symm]
    refine hInv.restack_custody hAlive (fun u m hu => ?_) fun u m hu hw => hSame u ?_
    · rw [hHead u hu, hLock]
      rcases standing_cases c.duty.held m with h | h <;> rw [h] <;> rfl
    · rintro rfl
      rw [hLock] at hw
      rcases standing_cases c.duty.held m with h | h <;> cases h.symm.trans hw
  · rw [hStack, hShared, hDead, chanRole_outside hy.2, update_view hGet (chanRole_outside hx.2).symm]
    refine hInv.restack_channels hAlive (fun u i hu => ?_) fun u i type hu hw => hSame u ?_
    · rw [hHead u hu, hChan]
    · rintro rfl
      rw [hChan] at hw
      cases hw
  · rw [hShared]
    split
    · rename_i hu
      rw [hu, hInv.flags, view_eq hGet, hFlag]
    · rfl

theorem begin_inv (hInv : Inv gs s) (hGet : gs[t]? = some (task, ⟨p, .fresh, prog, c⟩)) (hAlive : s.dead p = false)
    (hRest : s.stack p = none :: rest ∨ (s.stack p = [] ∧ rest = [])) :
    Inv (gs.set t (task, ⟨p, .php, prog, c⟩)) (s.register p t (some t :: rest)) := by
  have hPlace : places gs t = .fresh := view_eq hGet
  have hNot : some t ∉ s.stack p := fun hMem => by
    rcases (hInv.stacked.mem p t hMem).2 with h | h <;> cases hPlace.symm.trans h
  have hNone : none ∉ rest := by
    rcases hRest with h | ⟨_, rfl⟩
    · exact hInv.stacked.none_notMem_rest h
    · simp
  refine hInv.reschedule hGet hAlive ⟨by simp, by simp⟩ ⟨by simp, by simp⟩
    (hInv.stacked.enter (l := rest) ?_ hNone (view_eq hGet) hNot (.inl rfl)) (fun u hu => ?_) (fun u hu => ?_)
    rfl rfl rfl (fun u => ?_) rfl trivial
  · exact hRest.imp_right fun ⟨hEmpty, hRest⟩ => hEmpty.trans hRest.symm
  · rcases hRest with h | ⟨h, _⟩ <;> simp [h] at hu
  · rcases hRest with h | ⟨h, rfl⟩ <;> simp [h, hu]
  · simp [Procs.register, Function.update_apply]

theorem wake_inv (hInv : Inv gs s) (hGet : gs[t]? = some (task, ⟨p, .back, prog, c⟩)) (hAlive : s.dead p = false)
    (hEmpty : s.stack p = []) :
    Inv (gs.set t (task, ⟨p, .php, prog, c⟩)) (s.setStack p [some t]) := by
  refine hInv.reschedule hGet hAlive ⟨by simp, by simp⟩ ⟨by simp, by simp⟩
    (hInv.stacked.enter (l := []) (.inr hEmpty) (by simp) (view_eq hGet) (by simp [hEmpty]) (.inl rfl))
    (fun u hu => by simp [hEmpty] at hu) (fun u hu => by simp [hEmpty, hu]) rfl rfl rfl
    (hInv.home_same hGet (by simp)) rfl trivial

theorem leave_inv (hInv : Inv gs s) (hGet : gs[t]? = some (task, ⟨p, x, prog, c⟩)) (hAlive : s.dead p = false)
    (hStack : s.stack p = some t :: rest) (hxy : (x = .parting ∧ y = .away) ∨ (x = .php ∧ y = .ended)) :
    Inv (gs.set t (task, ⟨p, y, prog, c⟩)) (s.setStack p rest) := by
  have hx : Phase.Outside x ∧ x ≠ .fresh := by rcases hxy with ⟨rfl, _⟩ | ⟨rfl, _⟩ <;> simp [Phase.Outside]
  have hy : Phase.Outside y ∧ y.place ≠ .running := by
    rcases hxy with ⟨_, rfl⟩ | ⟨_, rfl⟩ <;> simp [Phase.Outside, Phase.place]
  refine hInv.reschedule hGet hAlive hx.1 hy.1 (hInv.stacked.leave hStack hy.2) (fun u hu => ?_) (fun u hu => ?_)
    rfl rfl rfl (hInv.home_same hGet hx.2) ?_ ?_
  · rw [hStack] at hu
    cases hu
    rfl
  · simp [hStack, hu]
  · rcases hxy with ⟨rfl, rfl⟩ | ⟨rfl, rfl⟩ <;> rfl
  · rcases hxy with ⟨_, rfl⟩ | ⟨_, rfl⟩ <;> trivial

theorem home_of_locked (hInv : Inv gs s) {m : Mutex} {u : Nat} (hLock : s.shared.world.locks m = some u) :
    s.home u = procs gs u := by
  obtain ⟨line, hCustody⟩ := hInv.custody
  obtain ⟨q, hProc, _, hRole⟩ := (hCustody.locked m u).mp hLock
  cases hGet : gs[u]? with
  | none => simp [view, hGet] at hProc
  | some g =>
    obtain ⟨task', d⟩ := g
    have hView : procs gs u = some d.proc := view_eq hGet
    rw [hView]
    refine hInv.home u (task', d) hGet fun hPhase => ?_
    have hFresh : d.phase = .fresh := hPhase
    have hHeld : d.held = [] := by simpa [Local.Fits, hFresh] using hInv.fits _ (List.mem_of_getElem? hGet)
    have hOut : lockRoles gs u m = .out := by
      rw [lockRoles, view_eq hGet]
      simp [Local.lockRole, hFresh, standing, hHeld]
    rw [hOut] at hRole
    cases hRole

theorem exit_inv (hInv : Inv gs s) (hGet : gs[t]? = some (task, ⟨p, .php, prog, c⟩)) :
    Inv (gs.set t (task, ⟨p, .ended, prog, c⟩)) { s with
      shared := Runtime.died p s.home s.shared
      stack := Function.update s.stack p []
      dead := Function.update s.dead p true } := by
  obtain ⟨line, hCustody⟩ := hInv.custody
  obtain ⟨pend, hChannels⟩ := hInv.channels
  have hLock : Local.lockRole ⟨p, .ended, prog, c⟩ = Local.lockRole ⟨p, .php, prog, c⟩ := rfl
  have hChan : Local.chanRole ⟨p, .ended, prog, c⟩ = Local.chanRole ⟨p, .php, prog, c⟩ := rfl
  refine hInv.set ⟨p, .ended, prog, c⟩ hGet rfl (hInv.stacked.exit (view_eq hGet)) ⟨line, ?_⟩ ⟨pend, ?_⟩
    (hInv.flags_same hGet rfl) (hInv.home_same hGet (by simp)) trivial (hInv.keeps _ (List.mem_of_getElem? hGet))
  · rw [update_view hGet hLock]
    exact hCustody.exit fun m u => hInv.home_of_locked
  · rw [update_view hGet hChan]
    exact hChannels.exit

theorem stacked_resume (hInv : Inv gs s) (hStack : s.stack p = some t :: rest) {co : Nat}
    (hProc : procs gs co = some p) (hPlace : places gs co = .yielded) (hNot : some co ∉ s.stack p) :
    Stacked (procs gs) (Function.update (places gs) t .running)
      (Function.update s.stack p (some co :: some t :: rest)) s.dead := by
  have hne : co ≠ t := by
    rintro rfl
    exact hNot (hStack ▸ List.mem_cons_self)
  have hEnter := (hInv.stacked.go hStack).enter (l := s.stack p) (.inr rfl) (hInv.stacked.none_notMem hStack) hProc hNot
    (.inr rfl)
  rw [hStack] at hEnter
  rwa [Function.update_comm hne.symm, ← hPlace, Function.update_eq_self] at hEnter

/-! ## Steps inside one coroutine -/

theorem quiet (hInv : Inv gs s) (hGet : gs[t]? = some (task, ⟨p, x, prog, c⟩)) (hx : x ≠ .fresh) (d : Local)
    (hp : d.proc = p) (hStacked : Stacked (procs gs) (Function.update (places gs) t d.phase.place) s.stack s.dead)
    (hLock : d.lockRole = Local.lockRole ⟨p, x, prog, c⟩) (hChan : d.chanRole = Local.chanRole ⟨p, x, prog, c⟩)
    {r : Runtime} (hPool : r.lockPool = s.shared.lockPool) (hChannels : r.channels = s.shared.channels)
    (hSame : SameSync s.shared.world r.world)
    (hFlags : ∀ u m, r.lockFlag (u, m) = if u = t then d.flag m else s.shared.lockFlag (u, m)) (hFits : d.Fits)
    (hKeeps : d.prog.Keeps conduct (fun out c => Discharged out c.duty) d.conduct) :
    Inv (gs.set t (task, d)) { s with shared := r } := by
  refine hInv.set _ hGet hp hStacked ?_ ?_ hFlags (hInv.home_same hGet hx) hFits hKeeps
  · rw [update_view hGet hLock, hPool, hSame.locks]
    exact hInv.custody
  · rw [update_view hGet hChan, hChannels, hSame.chans]
    exact hInv.channels

theorem poll_inv (hInv : Inv gs s) (hGet : gs[t]? = some (task, ⟨p, .php, prog, c⟩))
    (hStack : s.stack p = some t :: rest) (away : Bool) :
    Inv (gs.set t (task, ⟨p, if away then .parting else .calling, prog, c⟩)) s := by
  have hKeeps := hInv.keeps _ (List.mem_of_getElem? hGet)
  have hStacked := hInv.stacked.go hStack
  cases away with
  | true =>
    exact hInv.quiet hGet (by simp) ⟨p, .parting, prog, c⟩ rfl hStacked rfl rfl rfl rfl (.refl _)
      (hInv.flags_same hGet rfl) trivial hKeeps
  | false =>
    exact hInv.quiet hGet (by simp) ⟨p, .calling, prog, c⟩ rfl hStacked rfl rfl rfl rfl (.refl _)
      (hInv.flags_same hGet rfl) trivial hKeeps

theorem foreign_plain {o : Op} (ho : Foreign o) : Plain o ∧ o.sync = false := by
  cases o <;> first | exact ⟨rfl, rfl⟩ | cases ho

/-- A call that is passed on, by the running coroutine or while it is suspended. -/
theorem foreign_inv (hInv : Inv gs s) {h : Hashes} {o : Op} (ho : Foreign o) {k : Except Throwable o.Res → Run Unit}
    (hGet : gs[t]? = some (task, ⟨p, x, .op o k, c⟩)) {ch : Choice} {r : Except Throwable o.Res} {s' : Runtime}
    (hExec : s.shared.inWorld h t task.job o ch = some (r, s'))
    (hxy : (x = .calling ∧ y = .php ∧ ∃ rest, s.stack p = some t :: rest) ∨ (x = .away ∧ y = .back)) :
    (∀ e, r = .error e → o.raises e = true) ∧
      Inv (gs.set t (task, Local.advance ⟨p, x, .op o k, c⟩ o r y)) { s with shared := s' } := by
  obtain ⟨⟨r', w'⟩, hWorld, hEq⟩ := Option.map_eq_some_iff.mp hExec
  cases hEq
  obtain ⟨hSame, hRaises⟩ := exec_async (foreign_plain ho).2 hWorld
  have hAfter : c.after o r = c := conduct_after_of_plain (foreign_plain ho).1
  have hKeeps := (hInv.keeps _ (List.mem_of_getElem? hGet)).2 r hRaises
  rw [show conduct.after c o r = c from hAfter] at hKeeps
  refine ⟨hRaises, ?_⟩
  rw [Local.advance, Prog.answered_op, hAfter]
  rcases hxy with ⟨rfl, rfl, rest, hStack⟩ | ⟨rfl, rfl⟩
  · exact hInv.quiet hGet (by simp) ⟨p, .php, k r, c⟩ rfl (hInv.stacked.go hStack) rfl rfl rfl rfl hSame
      (hInv.flags_same hGet rfl) trivial hKeeps
  · exact hInv.quiet hGet (by simp) ⟨p, .back, k r, c⟩ rfl (hInv.stacked.aside (.inl (view_eq hGet)) (.inl rfl)) rfl
      rfl rfl rfl hSame
      (hInv.flags_same hGet rfl) trivial hKeeps

/-! ## A coroutine more -/

theorem restacked (hInv : Inv gs s) (hGet : gs[t]? = some (task, ⟨p, .php, prog, c⟩)) (hAlive : s.dead p = false)
    (hStack : s.stack p = some t :: rest) (hFresh : ∃ u, procs gs u = some p ∧ places gs u = .fresh) :
    Inv gs (s.setStack p (none :: some t :: rest)) where
  proc := hInv.proc
  stacked := hInv.stacked.create hStack hFresh
  custody := hInv.restack_standing hAlive hStack c.duty.held (view_eq hGet) fun u m _ _ => by simp [hStack]
  channels := hInv.restack_outside hAlive hStack (view_eq hGet) fun u i type _ _ => by simp [hStack]
  flags := hInv.flags
  home := hInv.home
  fits := hInv.fits
  keeps := hInv.keeps

theorem create_inv (hInv : Inv gs s) {h : Hashes} {j : Job} {k : Except Throwable Unit → Run Unit}
    (hGet : gs[t]? = some (task, ⟨p, .php, .op (.go j) k, c⟩)) (hAlive : s.dead p = false)
    (hStack : s.stack p = some t :: rest) :
    Inv (gs.set t (task, Local.advance ⟨p, .php, .op (.go j) k, c⟩ (.go j) (.ok ()) .php) ++
      [(⟨p, j⟩, Local.initial h ⟨p, j⟩)]) (s.setStack p (none :: some t :: rest)) := by
  have hKeeps := (hInv.keeps _ (List.mem_of_getElem? hGet)).2 (.ok ()) (by simp [conduct])
  have hHeld : (c.after (.go j) (.ok ())).duty.held = c.duty.held := by cases j <;> rfl
  have hSet := hInv.quiet hGet (by simp) ⟨p, .php, k (.ok ()), c.after (.go j) (.ok ())⟩ rfl (hInv.stacked.go hStack)
    (by simp [Local.lockRole, Local.held, hHeld]) rfl rfl rfl (.refl _)
    (hInv.flags_same hGet (by simp [Local.flag, Local.held, hHeld])) trivial hKeeps
  have hInit : (Local.initial h ⟨p, j⟩).held = [] := by cases j <;> rfl
  have hAppend := hSet.append (g := (⟨p, j⟩, Local.initial h ⟨p, j⟩)) rfl rfl hInit (poolCode_conduct h.md5 j)
  have hLt : t < gs.length := (List.getElem?_eq_some_iff.mp hGet).1
  rw [Local.advance, Prog.answered_op]
  have hGet' : (gs.set t (task, ⟨p, .php, k (.ok ()), c.after (.go j) (.ok ())⟩) ++
      [(⟨p, j⟩, Local.initial h ⟨p, j⟩)])[t]? = some (task, ⟨p, .php, k (.ok ()), c.after (.go j) (.ok ())⟩) := by
    rw [List.getElem?_append_left (by simpa using hLt), List.getElem?_set_self hLt]
  refine hAppend.restacked hGet' hAlive hStack ⟨gs.length, ?_, ?_⟩
  · rw [procs, view_append]
    simp [Local.initial]
  · rw [places, view_append]
    simp [Local.initial, Phase.place]

end Inv

end TeaBot.Swoole
