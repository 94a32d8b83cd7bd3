import TeaBot.Swoole.Projection

/-! # The accounts of the runtime

The accounts of the pool hold of the coroutines on the runtime too. In addition no channel
is ever asked for more room than it has.
-/

namespace TeaBot.Swoole

open Foundation Loggers

/-! ## The pool -/

def coroutine (g : Task × Local) : Coroutine := ⟨g.2.proc, g.1.job, g.2.prog⟩

def pool (gs : List (Task × Local)) (s : Procs Runtime) : Pool where
  world := s.shared.world
  threads := gs.map coroutine
  dead := s.dead

def accounts (gs : List (Task × Local)) : List (Coroutine × Duty) := gs.map fun g => (coroutine g, g.2.conduct.duty)

variable {w : World}

theorem accounted_world {c : Pool} {gs : List (Coroutine × Duty)} (h : Accounted c gs)
    (hLocks : w.locks = c.world.locks) (hChans : w.chans = c.world.chans) : Accounted { c with world := w } gs := by
  have hHolder : ∀ m, Pool.holder { c with world := w } m = c.holder m := fun m => by
    simp only [Pool.holder, hLocks]
    rfl
  refine ⟨h.threads, h.keeps, ?_, ?_, h.family, ?_, ?_, ?_⟩
  · exact fun m u hu => h.locks m u (hLocks ▸ hu)
  · intro g hg chan z hz
    rw [hChans]
    exact h.chan g hg chan z hz
  · intro chan
    have hItems : w.items chan = c.world.items chan := by rw [World.items, World.items, hChans]
    rw [hItems]
    exact h.balance chan
  · intro p t hp
    obtain ⟨hAlive, j, m, k, hThread, hNot⟩ := h.blocked p t hp
    exact ⟨hAlive, j, m, k, hThread, by rwa [hHolder]⟩
  · refine h.ranked.mono ?_
    rintro x y ⟨t, m, hRequests, hHeld⟩
    exact ⟨t, m, hRequests, (hHolder m).symm.trans hHeld⟩

section Accounts

variable {gs : List (Task × Local)} {s s' : Procs Runtime} {t : Nat} {task : Task} {d d' : Local} {new : List Task}
  {h : Hashes}

theorem accounts_same (hGet : gs[t]? = some (task, d)) (hProc : d'.proc = d.proc) (hProg : d'.prog = d.prog)
    (hConduct : d'.conduct = d.conduct) :
    accounts (gs.set t (task, d')) = accounts gs ∧ (gs.set t (task, d')).map coroutine = gs.map coroutine := by
  have hCo : coroutine (task, d') = coroutine (task, d) := by simp [coroutine, hProc, hProg]
  constructor
  · rw [accounts, List.map_set]
    refine set_of_getElem? ?_
    rw [List.getElem?_map, hGet, hCo, hConduct]
    rfl
  · rw [List.map_set]
    refine set_of_getElem? ?_
    rw [List.getElem?_map, hGet, hCo]
    rfl

theorem accounted_step (hInv : Inv gs s) (hAcc : Accounted (pool gs s) (accounts gs))
    (hGet : gs[t]? = some (task, d)) (hAlive : s.dead task.proc = false) (hProc : d'.proc = d.proc)
    (hSeen : Seen h t task d d' new s s') :
    Accounted (pool (gs.set t (task, d') ++ new.map fun i => (i, Local.initial h i)) s')
      (accounts (gs.set t (task, d') ++ new.map fun i => (i, Local.initial h i))) := by
  have hTask : d.proc = task.proc := hInv.proc _ (List.mem_of_getElem? hGet)
  cases hSeen with
  | silent hProg hConduct hNew hWorld _ hDead =>
    subst hNew
    obtain ⟨hAccounts, hThreads⟩ := accounts_same hGet hProc hProg hConduct
    rw [List.map_nil, List.append_nil, hAccounts, pool, hThreads, hWorld, hDead]
    exact hAcc
  | ended hThrow hProg hConduct hNew hWorld hDead =>
    subst hNew
    obtain ⟨hAccounts, hThreads⟩ := accounts_same hGet hProc hProg hConduct
    rw [List.map_nil, List.append_nil, hAccounts, pool, hThreads, hWorld, hDead]
    have hKill := accounted_world (hAcc.kill task.proc) (w := (Runtime.died task.proc s.home s.shared).world) ?_ rfl
    · convert hKill using 1
      simp [Pool.kill, pool]
    · funext m
      have hHolder : (pool gs s).holder m = (s.shared.world.locks m).bind s.home := by
        cases hLock : s.shared.world.locks m with
        | none => simp [Pool.holder, pool, hLock]
        | some u =>
          rw [Pool.holder, show (pool gs s).world.locks m = some u from hLock, Option.bind_some, Option.bind_some,
            hInv.home_of_locked hLock]
          simp only [Pool.procOf, pool, view, List.getElem?_map]
          cases gs[u]? <;> rfl
      simp only [Runtime.died, Pool.kill, hHolder]
      rfl
  | @visible o k ch r hProg hExec hNext hConduct hNew _ hDead =>
    have hGet' : (accounts gs)[t]? = some (⟨task.proc, task.job, .op o k⟩, d.conduct.duty) := by
      rw [accounts, List.getElem?_map, hGet]
      simp [coroutine, hTask, hProg]
    have hStep := hAcc.step hGet' hAlive (.inl rfl) hExec
    convert hStep using 1
    · simp [pool, Accounted.stepped, hNew, hDead, coroutine, hProc, hTask, hNext, List.map_set, Function.comp_def,
        Local.initial, Pool.fresh]
    · simp [accounts, Accounted.entered, hNew, coroutine, hProc, hTask, hNext, hConduct, List.map_set,
        Function.comp_def,
        Local.initial, Pool.fresh, Conduct.after, Job.conduct]

end Accounts

/-! ## Room in the channels -/

/-- How many rows may still go to channel `i` through a coroutine. -/
def share (c : Conduct) (i : Nat) : Nat :=
  match c.duty.chan with
  | some (j, _) => if j = i then c.budget else 0
  | none => 0

def size (w : World) (i : Nat) : Nat := ((w.chans[i]?).map List.length).getD 0

variable {z : Int} {t : Nat} {h : Hashes}

section Shares

variable {c : Conduct} {w w' : World} {i : Nat}

theorem share_eq (hc : c.duty.chan = some (i, z)) : share c i = c.budget := by
  simp [share, hc]

theorem share_zero (hc : ∀ z, c.duty.chan ≠ some (i, z)) : share c i = 0 := by
  unfold share
  split
  · rename_i j z hEq
    split
    · rename_i hji
      exact absurd (hji ▸ hEq) (hc z)
    · rfl
  · rfl

theorem shares_same {o : Op} {r : Except Throwable o.Res} (hChans : w'.chans = w.chans)
    (hChan : (c.after o r).duty.chan = c.duty.chan) (hBudget : (c.after o r).budget = c.budget)
    (hNone : ∀ job, o ≠ .go job) :
    size w' i + share (c.after o r) i + ((Loggers.spawned o r).map fun j => share j.conduct i).sum ≤
      size w i + share c i := by
  simp [spawned_none hNone, size, hChans, share, hChan, hBudget]

theorem share_add {n j : Nat} (hc : c.duty.chan = some (j, z)) (a : Int) :
    share ⟨c.duty.add a, n⟩ i = if j = i then n else 0 := by
  simp [share, Duty.add, hc]

theorem exec_shares {j : Job} {o : Op} {ch : Choice} {r : Except Throwable o.Res}
    (hExec : exec h t j o ch w = some (r, w')) (hAdmits : c.Admits o) (hi : i < w.chans.length) :
    size w' i + share (c.after o r) i + ((Loggers.spawned o r).map fun j => share j.conduct i).sum ≤
      size w i + share c i := by
  have hRelease : ∀ m, (w.release t m).chans = w.chans := fun m => by
    unfold World.release
    split <;> rfl
  cases o with
  | lock m =>
    obtain ⟨_, rfl, rfl⟩ := exec_lock hExec
    exact shares_same rfl rfl rfl (by simp)
  | unlock m =>
    obtain ⟨rfl, rfl⟩ := exec_unlock hExec
    exact shares_same (hRelease m) rfl rfl (by simp)
  | fclose m =>
    obtain ⟨rfl, rfl⟩ := exec_fclose hExec
    exact shares_same (hRelease m) rfl rfl (by simp)
  | newChannel n =>
    obtain ⟨rfl, rfl⟩ := exec_newChannel hExec
    have hNew : share (c.after (.newChannel n) (.ok w.chans.length)) i = 0 := by
      refine share_zero fun z hz => ?_
      change some (w.chans.length, (0 : Int)) = some (i, z) at hz
      cases hz
      omega
    have hSize : size { w with chans := w.chans ++ [[]] } i = size w i := by
      rw [size, size, List.getElem?_append_left hi]
    simp only [hNew, hSize, Loggers.spawned, List.map_nil, List.sum_nil]
    omega
  | push j row =>
    obtain ⟨rfl, rfl⟩ := exec_push hExec
    obtain ⟨⟨z, hz⟩, hBudget⟩ : (∃ z, c.duty.chan = some (j, z)) ∧ 0 < c.budget := hAdmits
    have hSize : size { w with chans := w.chans.modify j (· ++ [row]) } i = size w i + if j = i then 1 else 0 := by
      by_cases hji : j = i
      · subst hji
        simp [size, List.getElem?_eq_getElem hi]
      · simp [size, hji]
    have hShare : share (c.after (.push j row) (.ok ())) i = if j = i then c.budget - 1 else 0 := share_add hz (-1)
    have hOld : share c i = if j = i then c.budget else 0 := by simp [share, hz]
    simp only [hSize, hShare, hOld, Loggers.spawned, List.map_nil, List.sum_nil]
    split <;> omega
  | pop j =>
    obtain ⟨row, rest, hRow, rfl, rfl⟩ := exec_pop hExec
    obtain ⟨⟨⟨z, _, hz⟩, _⟩, _⟩ : ((∃ z < 0, c.duty.chan = some (j, z)) ∧ _) ∧ _ := hAdmits
    have hSize : size { w with chans := w.chans.set j rest } i ≤ size w i := by
      by_cases hji : j = i
      · subst hji
        rw [size, size, hRow, List.getElem?_set_self hi]
        exact Nat.le_succ _
      · simp [size, List.getElem?_set_ne hji]
    have hShare : share (c.after (.pop j) (.ok row)) i = if j = i then c.budget else 0 := share_add hz 1
    have hOld : share c i = if j = i then c.budget else 0 := by simp [share, hz]
    simp only [hShare, hOld, Loggers.spawned, List.map_nil, List.sum_nil]
    omega
  | go job =>
    obtain ⟨hSame, hAnswers⟩ := exec_async rfl hExec
    have hSize : size w' i = size w i := by rw [size, size, hSame.chans]
    cases r with
    | error e => exact absurd (hAnswers e rfl) Bool.false_ne_true
    | ok _ =>
      cases job with
      | adminUser k v j dateTime =>
        obtain ⟨⟨z, hz⟩, hBudget⟩ : (∃ z, c.duty.chan = some (j, z)) ∧ 0 < c.budget := hAdmits
        have hShare : share (c.after (.go (.adminUser k v j dateTime)) (.ok ())) i = if j =
          i then c.budget - 1 else 0 :=
          share_add hz (-1)
        have hChild : share (Job.adminUser k v j dateTime).conduct i = if j = i then 1 else 0 := rfl
        have hOld : share c i = if j = i then c.budget else 0 := by simp [share, hz]
        simp only [hSize, hShare, hChild, hOld, Loggers.spawned, List.map_cons, List.map_nil, List.sum_singleton]
        split <;> omega
      | _ =>
        rw [hSize]
        exact le_of_eq (add_zero _)
  | _ => exact shares_same (exec_async rfl hExec).1.chans rfl rfl (by simp)

end Shares

/-! ## Queues of producers -/

theorem notify_producers {s : Runtime} (hNone : ∀ x ∈ s.channels, x.producerQueue = []) (i : Nat) (type : Opcode) :
    ∀ x ∈ (s.notify i type).2.channels, x.producerQueue = [] := by
  unfold Runtime.notify
  split
  · rename_i c hc
    have hOld := hNone c (List.mem_of_getElem? hc)
    intro x hx
    rcases List.mem_or_eq_of_mem_set hx with hMem | rfl
    · exact hNone x hMem
    · unfold Channel.popCoroutine
      split
      · exact hOld
      · rename_i co rest hQueue
        cases type with
        | producer =>
          rw [Channel.queue, hOld] at hQueue
          cases hQueue
        | consumer => exact hOld
  · exact hNone

variable {ch : Bool × Choice}

theorem exec_producers {task : Task} {o : RtOp} {r : Except Throwable o.Res} {s s' : Runtime}
    (hNone : ∀ x ∈ s.channels, x.producerQueue = []) (hExec : Runtime.exec h t task o ch s = some (r, s'))
    (hRoom : ∀ i x n, o = .arrive i .producer → s.channel task.proc i = some (x, n) → x.mustWait n .producer = false) :
    ∀ x ∈ s'.channels, x.producerQueue = [] := by
  have hWorld : ∀ {o : Op} {ch : Choice} {r : Except Throwable o.Res} {s₁ s₂ : Runtime},
      s₁.inWorld h t task.job o ch = some (r, s₂) → (∀ x ∈ s₁.channels, x.producerQueue = []) →
      ∀ x ∈ s₂.channels, x.producerQueue = [] := by
    intro o ch r s₁ s₂ hIn hOld
    rw [(inWorld_eq_some hIn).2]
    exact hOld
  cases o with
  | poll | lockFlag m | setLockFlag m b =>
    cases hExec
    exact hNone
  | call o | io o => exact hWorld hExec hNone
  | enter m =>
    simp only [Runtime.exec] at hExec
    split at hExec <;> cases hExec <;> exact hNone
  | setLockEx m =>
    simp only [Runtime.exec] at hExec
    split at hExec <;> cases hExec
    exact hNone
  | flock m => exact hWorld (o := .lock m) hExec hNone
  | leave m =>
    simp only [Runtime.exec] at hExec
    split at hExec
    · cases hExec
      exact hNone
    · split at hExec <;> cases hExec <;> exact hNone
  | funlock m => exact hWorld (o := .unlock m) hExec hNone
  | close m => exact hWorld (o := .fclose m) hExec hNone
  | newChannel n =>
    refine hWorld (o := .newChannel n) hExec fun x hx => ?_
    rcases List.mem_append.mp hx with hOld | hNew
    · exact hNone x hOld
    · rw [List.mem_singleton.mp hNew]
  | arrive i type =>
    simp only [Runtime.exec] at hExec
    split at hExec
    · rename_i c n hChannel
      obtain ⟨rows, hc, _⟩ := Inv.channel_eq_some hChannel
      split at hExec
      · rename_i hWait
        cases hExec
        intro x hx
        rcases List.mem_or_eq_of_mem_set hx with hMem | rfl
        · exact hNone x hMem
        · cases type with
          | producer =>
            rw [hRoom i c n rfl hChannel] at hWait
            cases hWait
          | consumer => exact hNone c (List.mem_of_getElem? hc)
      · cases hExec
        exact hNone
    · cases hExec
  | take i =>
    simp only [Runtime.exec] at hExec
    split at hExec
    · rename_i x₀ r₀ s₀ _ hPop
      cases hExec
      exact notify_producers (hWorld hPop hNone) i .producer
    · cases hExec
  | put i row =>
    simp only [Runtime.exec] at hExec
    split at hExec
    · rename_i x₀ r₀ s₀ _ hPush
      cases hExec
      exact notify_producers (hWorld hPush hNone) i .consumer
    · cases hExec

/-! ## Channels change hands only between a coroutine and those it creates -/

section Chan

variable {c : Duty} {o : Op} {r : Except Throwable o.Res} {i : Nat} {z : Int}

theorem chan_of_after (hz : (c.after o r).chan = some (i, z)) :
    (∃ z', c.chan = some (i, z')) ∨ ∃ n, o = .newChannel n := by
  have hAdd : ∀ {a : Int}, (c.add a).chan = some (i, z) → ∃ z', c.chan = some (i, z') := by
    intro a hAdd
    obtain ⟨⟨j, z'⟩, hc, hEq⟩ := Option.map_eq_some_iff.mp hAdd
    cases hEq
    exact ⟨z', hc⟩
  cases o with
  | newChannel n => exact .inr ⟨n, rfl⟩
  | push j row => exact .inl (hAdd hz)
  | pop j =>
    cases r with
    | ok row => exact .inl (hAdd hz)
    | error e => exact .inl ⟨z, hz⟩
  | lock m => cases r <;> exact .inl ⟨z, hz⟩
  | go j =>
    cases j with
    | adminUser k v chan dateTime => exact .inl (hAdd hz)
    | _ => exact .inl ⟨z, hz⟩
  | _ => exact .inl ⟨z, hz⟩

theorem chan_of_spawned (hAdmits : c.Admits o) {j : Job} (hj : j ∈ Loggers.spawned o r)
    (hz : j.duty.chan = some (i, z)) : ∃ z', c.chan = some (i, z') := by
  cases o with
  | go j' =>
    cases r with
    | ok a =>
      rw [List.mem_singleton.mp hj] at hz
      cases j' with
      | adminUser k v chan dateTime =>
        cases hz
        exact hAdmits
      | _ => cases hz
    | error e => cases hj
  | _ => cases hj

end Chan

theorem sum_map_set {α : Type} (f : α → Nat) {l : List α} {x : α} (hx : l[t]? = some x) (y : α) :
    ((l.set t y).map f).sum + f x = (l.map f).sum + f y := by
  induction l generalizing t with
  | nil => simp at hx
  | cons a l ih =>
    cases t with
    | zero =>
      cases hx
      simp only [List.set_cons_zero, List.map_cons, List.sum_cons]
      omega
    | succ t =>
      have hRest := ih (t := t) (by simpa using hx)
      simp only [List.set_cons_succ, List.map_cons, List.sum_cons]
      omega

/-! ## The end of a coroutine -/

variable {o : Sched Task RtOp}

theorem not_ended {d : Local} (hAdmits : Expects d.proc d.phase d.prog o) (hFinish : o ≠ .finish) (hExit : o ≠ .exit)
    (r : Except Throwable (o.Res RtOp.Res)) : (d.after o r).phase ≠ .ended := by
  obtain ⟨p, x, prog, c⟩ := d
  cases hAdmits with
  | finish => exact absurd rfl hFinish
  | exit => exact absurd rfl hExit
  | @funlock m co k | @funlockClose m co k => cases co <;> simp [Local.after, Local.advance, Phase.released]
  | @hand m co closes => cases closes <;> simp [Local.after, Phase.resumed, Phase.released]
  | @take i x k hx =>
    cases r with
    | error e => simp [Local.after]
    | ok y => cases hy : y.2 <;> simp [Local.after, Local.advance, hy]
  | @put i row x k hx =>
    cases r with
    | error e => simp [Local.after]
    | ok y => cases y <;> simp [Local.after, Local.advance]
  | shut => simp [Local.after, Local.advance]
  | poll ho | fclose =>
    cases r with
    | error e => simp [Local.after]
    | ok away => cases away <;> simp [Local.after]
  | _ => cases r <;> simp [Local.after, Local.advance, Phase.yielded, Phase.resumed]

/-! ## All of it -/

structure Ledger (gs : List (Task × Local)) (s : Procs Runtime) : Prop where
  accounted : Accounted (pool gs s) (accounts gs)
  /-- Only a throwable ends a coroutine before its time, and its process with it. -/
  ended : ∀ g ∈ gs, g.2.phase = .ended → s.dead g.2.proc = false → ∃ a, g.2.prog = .ret a
  home : ∀ g ∈ gs, ∀ i z, g.2.conduct.duty.chan = some (i, z) → (s.shared.shape[i]?).map Prod.fst = some g.2.proc
  room : ∀ (i q capacity : Nat), s.shared.shape[i]? = some (q, capacity) →
    size s.shared.world i + (gs.map fun g => share g.2.conduct i).sum ≤ capacity
  producers : ∀ x ∈ s.shared.channels, x.producerQueue = []

namespace Ledger

variable {gs : List (Task × Local)} {s s' : Procs Runtime} {t : Nat} {task : Task} {d d' : Local} {new : List Task}
  {h : Hashes}

variable {g : Task × Local}

theorem chan_lt (hLedger : Ledger gs s) (hg : g ∈ gs) {i : Nat} (hz : g.2.conduct.duty.chan = some (i, z)) :
    i < s.shared.world.chans.length :=
  hLedger.accounted.chan (coroutine g, g.2.conduct.duty) (List.mem_map_of_mem hg) i z hz

/-- Who has to push finds room, and nobody waits for room. -/
theorem room_to_push (hInv : Inv gs s) (hLedger : Ledger gs s) {x : Phase} {c : Conduct} {i : Nat} {row : AdminRow}
    {k : Except Throwable Unit → Run Unit} (hGet : gs[t]? = some (task, ⟨task.proc, x, .op (.push i row) k, c⟩)) :
    ∃ y rows, s.shared.channels[i]? = some y ∧ s.shared.world.chans[i]? = some rows ∧ y.proc = task.proc ∧
      y.mustWait rows.length .producer = false := by
  obtain ⟨pend, hChannels⟩ := hInv.channels
  have hMem := List.mem_of_getElem? hGet
  obtain ⟨⟨z, hz⟩, hBudget⟩ : (∃ z, c.duty.chan = some (i, z)) ∧ 0 < c.budget := (hInv.keeps _ hMem).1
  obtain ⟨⟨q, capacity⟩, hShape, hq⟩ := Option.map_eq_some_iff.mp (hLedger.home _ hMem i z hz)
  obtain ⟨y, hc, hy⟩ := Option.map_eq_some_iff.mp (List.getElem?_map ▸ hShape)
  cases hy
  obtain ⟨rows, hr⟩ := hChannels.rows_of hc
  have hRoom := hLedger.room i y.proc y.capacity hShape
  have hShare : c.budget ≤ (gs.map fun g => share g.2.conduct i).sum := by
    refine (le_of_eq (share_eq hz).symm).trans (List.single_le_sum (fun n _ => Nat.zero_le n) _ ?_)
    exact List.mem_map.mpr ⟨_, hMem, rfl⟩
  have hSize : size s.shared.world i = rows.length := by simp [size, hr]
  refine ⟨y, rows, hc, hr, hq, ?_⟩
  have hEmpty := hLedger.producers y (List.mem_of_getElem? hc)
  have hNe : rows.length ≠ y.capacity := by omega
  simp [Channel.mustWait, hEmpty, hNe]

variable {r : Except Throwable (o.Res RtOp.Res)}

theorem ended_step (hAdmits : Expects d.proc d.phase d.prog o) (hStep : (kernel h).step t task o ch s = some (r, s'))
    (hEnded : (d.after o r).phase = .ended) (hAlive : s'.dead task.proc = false) :
    ∃ a, (d.after o r).prog = .ret a := by
  by_cases hFinish : o = .finish
  · subst hFinish
    obtain ⟨p, x, prog, c⟩ := d
    cases hAdmits with
    | @finish a => exact ⟨a, rfl⟩
  · by_cases hExit : o = .exit
    · subst hExit
      obtain ⟨_, rfl⟩ := Kernel.step_exit hStep
      simp [kernel] at hAlive
    · exact absurd hEnded (not_ended hAdmits hFinish hExit r)

theorem admits_of (hInv : Inv gs s) (hGet : gs[t]? = some (task, d)) {o : Op} {k : Except Throwable o.Res → Run Unit}
    (hProg : d.prog = .op o k) : d.conduct.Admits o := by
  have hKeeps := hInv.keeps _ (List.mem_of_getElem? hGet)
  rw [show (task, d).2.prog = .op o k from hProg] at hKeeps
  exact hKeeps.1

theorem shape_length (hInv : Inv gs s) : s.shared.shape.length = s.shared.world.chans.length := by
  obtain ⟨pend, hChannels⟩ := hInv.channels
  rw [Runtime.shape, List.length_map, hChannels.length]

theorem mem_step (hg : g ∈ gs.set t (task, d') ++ new.map fun i => (i, Local.initial h i)) :
    g ∈ gs ∨ g = (task, d') ∨ ∃ i ∈ new, g = (i, Local.initial h i) := by
  rcases List.mem_append.mp hg with hOld | hNew
  · exact (List.mem_or_eq_of_mem_set hOld).imp_right .inl
  · obtain ⟨i, hi, rfl⟩ := List.mem_map.mp hNew
    exact .inr (.inr ⟨i, hi, rfl⟩)

section

variable (hInv : Inv gs s) (hLedger : Ledger gs s) (hGet : gs[t]? = some (task, d))

include hInv hLedger hGet

theorem home_step (hProc : d'.proc = d.proc) (hSeen : Seen h t task d d' new s s')
    (hg : g ∈ gs.set t (task, d') ++ new.map fun i => (i, Local.initial h i)) (i : Nat) (z : Int)
    (hz : g.2.conduct.duty.chan = some (i, z)) : (s'.shared.shape[i]?).map Prod.fst = some g.2.proc := by
  have hMem := List.mem_of_getElem? hGet
  have hTask : d.proc = task.proc := hInv.proc _ hMem
  have hGrow : ∃ l, s'.shared.shape = s.shared.shape ++ l := by
    cases hSeen with
    | silent _ _ _ _ hShape _ => exact ⟨[], by simp [hShape]⟩
    | visible _ _ _ _ _ hShape _ => exact ⟨_, hShape⟩
    | ended _ _ _ _ hWorld _ => exact ⟨[], by rw [hWorld]; exact (List.append_nil _).symm⟩
  have hOld : ∀ g' ∈ gs, ∀ z', g'.2.conduct.duty.chan = some (i, z') →
      (s'.shared.shape[i]?).map Prod.fst = some g'.2.proc := by
    intro g' hg' z' hz'
    obtain ⟨l, hl⟩ := hGrow
    have hLt : i < s.shared.shape.length := by
      rw [shape_length hInv]
      exact hLedger.chan_lt hg' hz'
    rw [hl, List.getElem?_append_left hLt]
    exact hLedger.home g' hg' i z' hz'
  rcases mem_step hg with hg' | rfl | ⟨i', hi', rfl⟩
  · exact hOld g hg' z hz
  · cases hSeen with
    | silent _ hConduct _ _ _ _ | ended _ _ hConduct _ _ _ =>
      rw [hProc]
      exact hOld _ hMem z (hConduct ▸ hz)
    | @visible o k ch r _ hExec _ hConduct _ hShape _ =>
      rw [hConduct] at hz
      rcases chan_of_after hz with ⟨z', hz'⟩ | ⟨n, rfl⟩
      · rw [hProc]
        exact hOld _ hMem z' hz'
      · obtain ⟨rfl, _⟩ := exec_newChannel hExec
        change some (s.shared.world.chans.length, (0 : Int)) = some (i, z) at hz
        cases hz
        rw [hShape, ← shape_length hInv, hProc, hTask]
        simp [opened]
  · cases hSeen with
    | silent _ _ hNew _ _ _ | ended _ _ _ hNew _ _ =>
      rw [hNew] at hi'
      cases hi'
    | @visible o k ch r hProg hExec _ _ hNew _ _ =>
      rw [hNew] at hi'
      obtain ⟨j, hj, rfl⟩ := List.mem_map.mp hi'
      obtain ⟨z', hz'⟩ := chan_of_spawned (admits_of hInv hGet hProg).1 hj hz
      rw [show (Local.initial h ⟨task.proc, j⟩).proc = d.proc from hTask.symm]
      exact hOld _ hMem z' hz'

theorem room_step (hSeen : Seen h t task d d' new s s') (i q capacity : Nat)
    (hi : s'.shared.shape[i]? = some (q, capacity)) :
    size s'.shared.world i +
      ((gs.set t (task, d') ++ new.map fun j => (j, Local.initial h j)).map fun g => share g.2.conduct i).sum ≤
        capacity := by
  have hMem := List.mem_of_getElem? hGet
  have hSet : ((gs.set t (task, d')).map fun g : Task × Local => share g.2.conduct i).sum + share d.conduct i =
      (gs.map fun g => share g.2.conduct i).sum + share d'.conduct i := sum_map_set _ hGet (task, d')
  rw [List.map_append, List.sum_append]
  cases hSeen with
  | silent _ hConduct hNew hWorld hShape _ =>
    have hOld := hLedger.room i q capacity (hShape ▸ hi)
    rw [hConduct] at hSet
    simp only [hNew, hWorld, List.map_nil, List.sum_nil]
    omega
  | ended _ _ hConduct hNew hWorld _ =>
    rw [hWorld] at hi
    have hOld := hLedger.room i q capacity hi
    have hSize : size s'.shared.world i = size s.shared.world i := by rw [hWorld]; rfl
    rw [hConduct] at hSet
    simp only [hNew, hSize, List.map_nil, List.sum_nil]
    omega
  | @visible o k ch r hProg hExec _ hConduct hNew hShape _ =>
    have hAdmits := admits_of hInv hGet hProg
    have hSum : ((new.map fun j => (j, Local.initial h j)).map fun g : Task × Local => share g.2.conduct i).sum =
        ((Loggers.spawned o r).map fun j => share j.conduct i).sum := by
      simp [hNew, Function.comp_def, Local.initial]
    rw [hConduct] at hSet
    by_cases hLt : i < s.shared.shape.length
    · rw [hShape, List.getElem?_append_left hLt] at hi
      have hOld := hLedger.room i q capacity hi
      have hShares := exec_shares (i := i) hExec hAdmits (shape_length hInv ▸ hLt)
      rw [hSum]
      omega
    · -- the channel is new
      rw [hShape, List.getElem?_append_right (by omega)] at hi
      have hOthers : (gs.map fun g : Task × Local => share g.2.conduct i).sum = 0 := by
        refine List.sum_eq_zero fun n hn => ?_
        obtain ⟨g, hg, rfl⟩ := List.mem_map.mp hn
        refine share_zero fun z hz => hLt ?_
        rw [shape_length hInv]
        exact hLedger.chan_lt hg hz
      cases o with
      | newChannel n =>
        obtain ⟨rfl, hWorld⟩ := exec_newChannel hExec
        have hEq : i = s.shared.world.chans.length := by
          have hBound := (List.getElem?_eq_some_iff.mp hi).1
          simp only [opened, List.length_singleton] at hBound
          have hLength := shape_length hInv
          omega
        subst hEq
        rw [shape_length hInv, Nat.sub_self] at hi
        cases hi
        have hSize : size s'.shared.world s.shared.world.chans.length = 0 := by simp [hWorld, size]
        have hShare : share (d.conduct.after (.newChannel n) (.ok s.shared.world.chans.length))
          s.shared.world.chans.length =
            if n = 0 then 1 else n := share_eq rfl
        rw [hSum, hSize]
        rw [hShare] at hSet
        simp only [Loggers.spawned, List.map_nil, List.sum_nil]
        omega
      | _ => simp [opened] at hi

theorem producers_step (hAdmits : Expects d.proc d.phase d.prog o)
    (hStep : (kernel h).step t task o ch s = some (r, s')) : ∀ x ∈ s'.shared.channels, x.producerQueue = [] := by
  cases o with
  | own o =>
    obtain ⟨_, x, hExec, rfl⟩ := Kernel.step_own hStep
    refine exec_producers hLedger.producers hExec ?_
    rintro i y n rfl hChannel
    obtain ⟨p, x, prog, c⟩ := d
    obtain rfl : p = task.proc := hInv.proc _ (List.mem_of_getElem? hGet)
    cases hAdmits with
    | push =>
      obtain ⟨y', rows, hc, hr, _, hGo⟩ := hLedger.room_to_push hInv hGet
      obtain ⟨rows', hc', hr', _, rfl⟩ := Inv.channel_eq_some hChannel
      cases hc.symm.trans hc'
      cases hr.symm.trans hr'
      exact hGo
  | begin =>
    obtain ⟨_, rest, _, rfl⟩ := Kernel.step_begin hStep
    exact hLedger.producers
  | finish =>
    obtain ⟨_, rest, _, rfl⟩ := Kernel.step_finish hStep
    exact hLedger.producers
  | yield =>
    obtain ⟨_, rest, _, rfl⟩ := Kernel.step_yield hStep
    exact hLedger.producers
  | wake =>
    obtain ⟨_, _, rfl⟩ := Kernel.step_wake hStep
    exact hLedger.producers
  | resume c =>
    obtain ⟨_, rest, _, rfl⟩ := Kernel.step_resume hStep
    exact hLedger.producers
  | create j =>
    obtain ⟨_, rest, _, rfl⟩ := Kernel.step_create hStep
    exact hLedger.producers
  | exit =>
    obtain ⟨_, rfl⟩ := Kernel.step_exit hStep
    exact hLedger.producers

theorem step (hAdmits : Expects d.proc d.phase d.prog o) (hStep : (kernel h).step t task o ch s = some (r, s')) :
    Ledger (gs.set t (task, d.after o r) ++ (Kernel.spawned o r).map fun i => (i, Local.initial h i)) s' := by
  have hSeen := step_seen hInv hGet hAdmits hStep
  have hProc : (d.after o r).proc = d.proc := d.after_proc o r
  have hTask : d.proc = task.proc := hInv.proc _ (List.mem_of_getElem? hGet)
  refine ⟨accounted_step hInv hLedger.accounted hGet (Kernel.step_alive hStep) hProc hSeen,
    fun g hg hEnded hAlive => ?_,
    fun g hg i z hz => home_step hInv hLedger hGet hProc hSeen hg i z hz,
    fun i q capacity hi => room_step hInv hLedger hGet hSeen i q capacity hi,
      producers_step hInv hLedger hGet hAdmits hStep⟩
  rcases mem_step hg with hg' | rfl | ⟨i, _, rfl⟩
  · refine hLedger.ended g hg' hEnded ?_
    cases hSeen with
    | silent _ _ _ _ _ hDead | visible _ _ _ _ _ _ hDead => rwa [hDead] at hAlive
    | ended _ _ _ _ _ hDead =>
      rw [hDead] at hAlive
      have hNe : g.2.proc ≠ task.proc := by
        intro hEq
        simp [hEq] at hAlive
      rwa [Function.update_of_ne hNe] at hAlive
  · refine ended_step hAdmits hStep hEnded ?_
    rwa [hProc, hTask] at hAlive
  · cases hEnded

end

theorem start (hLedger : Ledger gs s) (hJob : task.job.ofTrackAdmins = false) :
    Ledger (gs ++ [(task, Local.initial h task)]) s := by
  obtain ⟨p, j⟩ := task
  have hDuty : j.duty = {} := by
    cases j with
    | adminUser => cases hJob
    | _ => rfl
  have hConduct : (Local.initial h ⟨p, j⟩).conduct = {} := by
    simp [Local.initial, Job.conduct, hDuty]
  have hMem : ∀ g ∈ gs ++ [(⟨p, j⟩, Local.initial h ⟨p, j⟩)], g ∈ gs ∨ g = (⟨p, j⟩, Local.initial h ⟨p, j⟩) :=
    fun g hg => by simpa using hg
  refine ⟨?_, fun g hg hEnded hAlive => ?_, fun g hg i z hz => ?_, fun i q capacity hi => ?_, hLedger.producers⟩
  · have hStart := hLedger.accounted.start h (p := p) hDuty
    convert hStart using 1
    · simp [pool, coroutine, Local.initial, Pool.fresh]
    · simp [accounts, coroutine, Local.initial, Pool.fresh, Job.conduct, hDuty]
  · rcases hMem g hg with hOld | rfl
    · exact hLedger.ended g hOld hEnded hAlive
    · cases hEnded
  · rcases hMem g hg with hOld | rfl
    · exact hLedger.home g hOld i z hz
    · rw [hConduct] at hz
      cases hz
  · have hOld := hLedger.room i q capacity hi
    rw [List.map_append, List.sum_append, List.map_singleton, List.sum_singleton, hConduct]
    exact hOld

end Ledger

theorem ledger_initial (hLocks : ∀ m, w.locks m = none) (hChans : w.chans = []) : Ledger [] (initial w).shared := by
  obtain ⟨⟨gs, hAcc⟩, _⟩ := Pool.sound_start hLocks hChans
  obtain rfl : gs = [] := List.map_eq_nil_iff.mp hAcc.threads.symm
  refine ⟨hAcc, ?_, ?_, ?_, ?_⟩ <;> simp [initial, Runtime.shape]

/-- Where the coroutines are, that the runtime is sound and the accounts are in order. -/
theorem ledger_reach {c : Config} (hLocks : ∀ m, w.locks m = none) (hChans : w.chans = [])
    (hReach : (machine h).Reach starts (initial w) c) : ∃ gs, Placed gs c ∧ Inv gs c.shared ∧ Ledger gs c.shared := by
  have hCode : ∀ task, True → ((machine h).code task).Keeps steps (fun _ d => d.phase = .ended)
    (Local.initial h task) :=
    fun task _ => code_keeps h task
  refine System.Typed.reach (J := fun gs s => Inv gs s ∧ Ledger gs s) hCode ?_ ?_ (.nil _)
    ⟨inv_initial hLocks hChans, ledger_initial hLocks hChans⟩ hReach
  · rintro c gs task _ ⟨hInv, hLedger⟩ hJob
    exact ⟨trivial, hInv.start h task, hLedger.start hJob⟩
  · rintro c gs t ch task d o k r s' _ ⟨hInv, hLedger⟩ _ _ hGet hAdmits hExec
    obtain ⟨hAnswers, hNew⟩ := hInv.step_inv hGet hAdmits hExec
    exact ⟨hAnswers, fun _ _ => trivial, hNew, hLedger.step hInv hGet hAdmits hExec⟩

end TeaBot.Swoole
