import TeaBot.Loggers.Deadlock
import TeaBot.Swoole.Safety

/-! # The runtime as the loggers see it

A step of the runtime is either nothing to the loggers, or one operation of the coroutine
that takes it, or the end of its process.
-/

namespace TeaBot.Swoole

open Foundation Loggers

/-- The processes and capacities of the channels. -/
def Runtime.shape (s : Runtime) : List (Nat × Nat) := s.channels.map fun c => (c.proc, c.capacity)

def opened (p : Nat) : Op → List (Nat × Nat)
  | .newChannel capacity => [(p, if capacity = 0 then 1 else capacity)]
  | _ => []

/-- What a step of coroutine `t` that leads from `d` to `d'` and creates the coroutines `new`
is to the loggers. -/
inductive Seen (h : Hashes) (t : Nat) (task : Task) (d d' : Local) (new : List Task) (s s' : Procs Runtime) : Prop
  | silent (hProg : d'.prog = d.prog) (hConduct : d'.conduct = d.conduct) (hNew : new = [])
      (hWorld : s'.shared.world = s.shared.world) (hShape : s'.shared.shape = s.shared.shape) (hDead : s'.dead = s.dead)
  | visible {o : Op} {k : Except Throwable o.Res → Run Unit} {ch : Choice} {r : Except Throwable o.Res}
      (hProg : d.prog = .op o k) (hExec : exec h t task.job o ch s.shared.world = some (r, s'.shared.world))
      (hNext : d'.prog = k r) (hConduct : d'.conduct = d.conduct.after o r)
      (hNew : new = (Loggers.spawned o r).map (Task.mk task.proc))
      (hShape : s'.shared.shape = s.shared.shape ++ opened task.proc o) (hDead : s'.dead = s.dead)
  | ended {e : Throwable} (hProg : d.prog = .throw e) (hSame : d'.prog = d.prog) (hConduct : d'.conduct = d.conduct)
      (hNew : new = []) (hWorld : s'.shared = Runtime.died task.proc s.home s.shared)
      (hDead : s'.dead = Function.update s.dead task.proc true)

namespace Seen

variable {h : Hashes} {t : Nat} {task : Task} {d : Local} {s s' : Procs Runtime} {o : Op}
  {k : Except Throwable o.Res → Run Unit} {r : Except Throwable o.Res}

theorem advance (ch : Choice) {d' : Local} {x : Phase} {new : List Task} (hProg : d.prog = .op o k)
    (hExec : exec h t task.job o ch s.shared.world = some (r, s'.shared.world)) (hd' : d' = d.advance o r x)
    (hNew : new = (Loggers.spawned o r).map (Task.mk task.proc))
    (hShape : s'.shared.shape = s.shared.shape ++ opened task.proc o) (hDead : s'.dead = s.dead) :
    Seen h t task d d' new s s' := by
  subst hd'
  refine .visible hProg hExec ?_ rfl hNew hShape hDead
  rw [Local.advance, hProg, Prog.answered_op]

end Seen

variable {s s' : Runtime}

theorem inWorld_eq_some {h : Hashes} {t : Nat} {j : Job} {o : Op} {ch : Choice} {r : Except Throwable o.Res}
    (hExec : s.inWorld h t j o ch = some (r, s')) :
    exec h t j o ch s.world = some (r, s'.world) ∧ s'.channels = s.channels := by
  obtain ⟨⟨r', w'⟩, hWorld, hEq⟩ := Option.map_eq_some_iff.mp hExec
  cases hEq
  exact ⟨hWorld, rfl⟩

theorem shape_set {i : Nat} {c c' : Channel} (hc : s.channels[i]? = some c)
    (hChannels : s'.channels = s.channels.set i c') (hProc : c'.proc = c.proc) (hCapacity : c'.capacity = c.capacity) :
    s'.shape = s.shape := by
  have hMap : (s.channels.map fun c => (c.proc, c.capacity))[i]? = some (c'.proc, c'.capacity) := by
    rw [List.getElem?_map, hc, hProc, hCapacity]
    rfl
  rw [Runtime.shape, hChannels, List.map_set, set_of_getElem? hMap]
  rfl

theorem popCoroutine_same (c : Channel) (type : Opcode) :
    (c.popCoroutine type).2.proc = c.proc ∧ (c.popCoroutine type).2.capacity = c.capacity := by
  unfold Channel.popCoroutine
  split <;> simp

theorem notify_same (s : Runtime) (i : Nat) (type : Opcode) :
    (s.notify i type).2.world = s.world ∧ (s.notify i type).2.shape = s.shape := by
  unfold Runtime.notify
  split
  · rename_i c hc
    exact ⟨rfl, shape_set hc rfl (popCoroutine_same c type).1 (popCoroutine_same c type).2⟩
  · exact ⟨rfl, rfl⟩

/-- Operations of the runtime that do nothing in the world. -/
def RtOp.Inner : RtOp → Prop
  | .poll | .enter _ | .setLockEx _ | .leave _ | .lockFlag _ | .setLockFlag .. | .arrive .. => True
  | _ => False

variable {ch : Bool × Choice}

theorem inner_same {h : Hashes} {t : Nat} {task : Task} {o : RtOp} {r : Except Throwable o.Res} (ho : o.Inner)
    (hExec : Runtime.exec h t task o ch s = some (r, s')) : s'.world = s.world ∧ s'.shape = s.shape := by
  cases o with
  | poll | lockFlag m | setLockFlag m b =>
    cases hExec
    exact ⟨rfl, rfl⟩
  | enter m =>
    simp only [Runtime.exec] at hExec
    split at hExec <;> cases hExec <;> exact ⟨rfl, rfl⟩
  | setLockEx m =>
    simp only [Runtime.exec] at hExec
    split at hExec <;> cases hExec
    exact ⟨rfl, rfl⟩
  | leave m =>
    simp only [Runtime.exec] at hExec
    split at hExec
    · cases hExec
      exact ⟨rfl, rfl⟩
    · split at hExec <;> cases hExec <;> exact ⟨rfl, rfl⟩
  | arrive i type =>
    simp only [Runtime.exec] at hExec
    split at hExec
    · rename_i c n hChannel
      obtain ⟨rows, hc, _⟩ := Inv.channel_eq_some hChannel
      split at hExec
      · cases hExec
        exact ⟨rfl, shape_set hc rfl (by simp) (by simp)⟩
      · cases hExec
        exact ⟨rfl, rfl⟩
    · cases hExec
  | _ => cases ho

section Step

variable {gs : List (Task × Local)} {s s' : Procs Runtime} {t : Nat} {task : Task} {d : Local} {h : Hashes}

theorem inner_seen {o : RtOp} {r : Except Throwable ((Sched.own o : Sched Task RtOp).Res RtOp.Res)} (ho : o.Inner)
    (hStep : (kernel h).step t task (.own o) ch s = some (r, s')) :
    Seen h t task d (d.after (.own o) r) (Kernel.spawned (.own o) r) s s' := by
  obtain ⟨_, x, hExec, rfl⟩ := Kernel.step_own hStep
  have hAfter : (d.after (.own o) r).prog = d.prog ∧ (d.after (.own o) r).conduct = d.conduct := by
    cases o <;> cases r <;> first | exact ⟨rfl, rfl⟩ | cases ho
  exact .silent hAfter.1 hAfter.2 rfl (inner_same ho hExec).1 (inner_same ho hExec).2 rfl

theorem Seen.foreign {o : Op} {k : Except Throwable o.Res → Run Unit} {ch : Choice} {r : Except Throwable o.Res}
    {x : Runtime} {y : Phase} {d' : Local} (ho : Foreign o) (hProg : d.prog = .op o k)
    (hExec : s.shared.inWorld h t task.job o ch = some (r, x)) (hd' : d' = d.advance o r y)
    (hs' : s' = { s with shared := x }) : Seen h t task d d' [] s s' := by
  subst hs'
  obtain ⟨hWorld, hChannels⟩ := inWorld_eq_some hExec
  have hGo : ∀ j, o ≠ .go j := by
    rintro j rfl
    cases ho
  have hOpened : opened task.proc o = [] := by
    cases o <;> first | rfl | cases ho
  refine .advance ch hProg hWorld hd' ?_ ?_ rfl
  · rw [spawned_none hGo]
    rfl
  · rw [hOpened, List.append_nil]
    simp [Runtime.shape, hChannels]

theorem step_seen (hInv : Inv gs s) {o : Sched Task RtOp} {r : Except Throwable (o.Res RtOp.Res)}
    (hGet : gs[t]? = some (task, d)) (hAdmits : Expects d.proc d.phase d.prog o)
    (hStep : (kernel h).step t task o ch s = some (r, s')) :
    Seen h t task d (d.after o r) (Kernel.spawned o r) s s' := by
  obtain ⟨p, x, prog, c⟩ := d
  obtain rfl : p = task.proc := hInv.proc _ (List.mem_of_getElem? hGet)
  cases hAdmits with
  | begin =>
    obtain ⟨rfl, rest, hRest, rfl⟩ := Kernel.step_begin hStep
    exact .silent rfl rfl rfl rfl rfl rfl
  | wake =>
    obtain ⟨rfl, hEmpty, rfl⟩ := Kernel.step_wake hStep
    exact .silent rfl rfl rfl rfl rfl rfl
  | finish =>
    obtain ⟨rfl, rest, hStack, rfl⟩ := Kernel.step_finish hStep
    exact .silent rfl rfl rfl rfl rfl rfl
  | exit =>
    obtain ⟨rfl, rfl⟩ := Kernel.step_exit hStep
    exact .ended rfl rfl rfl rfl rfl rfl
  | part ho | queue | wait =>
    obtain ⟨rfl, rest, hStack, rfl⟩ := Kernel.step_yield hStep
    exact .silent rfl rfl rfl rfl rfl rfl
  | hand | notify =>
    obtain ⟨rfl, rest, hStack, rfl⟩ := Kernel.step_resume hStep
    exact .silent rfl rfl rfl rfl rfl rfl
  | create =>
    obtain ⟨rfl, rest, hStack, rfl⟩ := Kernel.step_create hStep
    exact .advance .ok rfl rfl rfl rfl (List.append_nil _).symm rfl
  | @io o k ho | @call o k ho =>
    obtain ⟨_, x, hExec, rfl⟩ := Kernel.step_own hStep
    exact .foreign ho rfl hExec rfl rfl
  | poll ho | enter | mark hx | flag | unlock | release | fclose | pop | push => exact inner_seen trivial hStep
  | @flock m k =>
    obtain ⟨_, x, hExec, rfl⟩ := Kernel.step_own hStep
    have hLock : Runtime.inWorld h t task.job (.lock m) .ok s.shared = some (r, x) := hExec
    obtain ⟨hWorld, hChannels⟩ := inWorld_eq_some hLock
    exact .advance _ rfl hWorld rfl rfl (by simp [Runtime.shape, hChannels, opened]) rfl
  | @newChannel n k =>
    obtain ⟨_, x, hExec, rfl⟩ := Kernel.step_own hStep
    have hNew : Runtime.inWorld h t task.job (.newChannel n) .ok _ = some (r, x) := hExec
    obtain ⟨hWorld, hChannels⟩ := inWorld_eq_some hNew
    obtain ⟨rfl, _⟩ := exec_newChannel hWorld
    exact .advance _ rfl hWorld rfl rfl (by simp [Runtime.shape, hChannels, opened]) rfl
  | @funlock m co k =>
    obtain ⟨_, x, hExec, rfl⟩ := Kernel.step_own hStep
    have hUnlock : Runtime.inWorld h t task.job (.unlock m) .ok s.shared = some (r, x) := hExec
    obtain ⟨hWorld, hChannels⟩ := inWorld_eq_some hUnlock
    exact .advance _ rfl hWorld rfl rfl (by simp [Runtime.shape, hChannels, opened]) rfl
  | @funlockClose m co k =>
    -- for the loggers it is `fclose` that drops the lock
    obtain ⟨_, x, hExec, rfl⟩ := Kernel.step_own hStep
    have hUnlock : Runtime.inWorld h t task.job (.unlock m) .ok s.shared = some (r, x) := hExec
    obtain ⟨hWorld, hChannels⟩ := inWorld_eq_some hUnlock
    obtain ⟨rfl, hRelease⟩ := exec_unlock hWorld
    refine .advance .ok (o := .fclose m) rfl ?_ rfl rfl (by simp [Runtime.shape, hChannels, opened]) rfl
    rw [hRelease]
    rfl
  | @shut m k =>
    obtain ⟨_, x, hExec, rfl⟩ := Kernel.step_own hStep
    have hClose : Runtime.inWorld h t task.job (.fclose m) .ok (s.shared.setFlag t m false) = some (r, x) := hExec
    obtain ⟨hWorld, hChannels⟩ := inWorld_eq_some hClose
    refine .advance _ (x := .php) rfl hWorld ?_ rfl (by simp [Runtime.shape, Runtime.setFlag, hChannels, opened]) rfl
    simp [Local.after]
  | @close m =>
    obtain ⟨_, x, hExec, rfl⟩ := Kernel.step_own hStep
    have hClose : Runtime.inWorld h t task.job (.fclose m) .ok (s.shared.setFlag t m false) = some (r, x) := hExec
    obtain ⟨hWorld, hChannels⟩ := inWorld_eq_some hClose
    obtain ⟨rfl, hRelease⟩ := exec_fclose hWorld
    have hHeld : m ∉ c.duty.held := hInv.fits _ (List.mem_of_getElem? hGet)
    exact .silent rfl rfl rfl (hRelease.trans (hInv.release_eq hGet (by simp) hHeld))
      (by simp [Runtime.shape, Runtime.setFlag, hChannels]) rfl
  | @take i y k hx =>
    obtain ⟨rest, x, hStack, hExec, rfl⟩ := Inv.running_step rfl hStep
    simp only [Runtime.exec] at hExec
    split at hExec
    · rename_i x₀ r₀ s₀ hChannel hPop
      cases hExec
      obtain ⟨hWorld, hChannels⟩ := inWorld_eq_some hPop
      obtain ⟨row, _, _, rfl, _⟩ := exec_pop hWorld
      obtain ⟨hSame, hShape⟩ := notify_same s₀ i .producer
      refine .advance _ rfl (hSame.symm ▸ hWorld) rfl rfl ?_ rfl
      rw [hShape, Runtime.shape, hChannels]
      exact (List.append_nil _).symm
    · cases hExec
  | @put i row y k hx =>
    obtain ⟨rest, x, hStack, hExec, rfl⟩ := Inv.running_step rfl hStep
    simp only [Runtime.exec] at hExec
    split at hExec
    · rename_i x₀ r₀ s₀ hChannel hPush
      cases hExec
      obtain ⟨hWorld, hChannels⟩ := inWorld_eq_some hPush
      obtain ⟨rfl, _⟩ := exec_push hWorld
      obtain ⟨hSame, hShape⟩ := notify_same s₀ i .consumer
      refine .advance _ rfl (hSame.symm ▸ hWorld) rfl rfl ?_ rfl
      rw [hShape, Runtime.shape, hChannels]
      exact (List.append_nil _).symm
    · cases hExec

end Step

end TeaBot.Swoole
