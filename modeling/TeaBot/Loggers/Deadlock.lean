import Mathlib.Algebra.Order.BigOperators.Group.List
import TeaBot.Loggers.PoolInvariant

/-! # Deadlocks of the pool

The locks of one process are taken in order and the channels are served, so a pool can
only come to a halt by processes that wait for each other inside `::flock`.
-/

namespace TeaBot.Loggers

open Foundation Relation

namespace Pool

/-- No coroutine asks for a lock of a process that already waits, directly or through
others, for a lock of the asking process. -/
def Avoids (c : Pool) : Label → Prop
  | .block t => ∀ p j m k q, c.threads[t]? = some ⟨p, j, .op (.lock m) k⟩ → c.holder m = some q →
      ¬ ReflTransGen c.WaitsFor q p
  | _ => True

/-! ## Runs keep the accounts -/

def Sound (c : Pool) : Prop := (∃ gs, Accounted c gs) ∧ Silent c

theorem sound_start {w : World} (hLocks : ∀ m, w.locks m = none) (hChans : w.chans = []) :
    Sound { world := w } := by
  refine ⟨⟨[], rfl, ?_, ?_, ?_, ?_, ?_, nofun, 0, ?_⟩, ?_⟩
  · exact fun _ hg => absurd hg List.not_mem_nil
  · intro m u hu
    rw [hLocks m] at hu
    cases hu
  · exact fun _ hg => absurd hg List.not_mem_nil
  · exact fun _ hg => absurd hg List.not_mem_nil
  · intro chan
    simp [World.items, hChans]
  · rintro p q ⟨t, m, ⟨hBlocked, _⟩, _⟩
    cases hBlocked
  · exact fun _ hth => absurd hth List.not_mem_nil

variable {h : Hashes} {c c' : Pool}

theorem sound_next {l : Label} (hSound : Sound c) (hAvoids : c.Avoids l) (hNext : next h c l = some c') :
    Sound c' := by
  obtain ⟨⟨gs, hAcc⟩, hSilent⟩ := hSound
  cases l with
  | start p j =>
    obtain ⟨_, _, hJob, rfl⟩ := next_start_eq_some hNext
    have hDuty : j.duty = {} := by
      cases j with
      | adminUser => cases hJob
      | _ => rfl
    obtain ⟨hAcc', hSilent'⟩ := (hAcc.start h hDuty (p := p)).settle (p := p) fun th hth hAlive hNe => by
      rcases List.mem_append.mp hth with hOld | hNew
      · exact hSilent th hOld hAlive
      · rw [List.mem_singleton.mp hNew] at hNe
        exact absurd rfl hNe
    exact ⟨⟨_, hAcc'⟩, hSilent'⟩
  | run t ch =>
    obtain ⟨p, j, o, k, r, w', hThread, hAlive, hFree, hExec, rfl⟩ := next_run_eq_some hNext
    obtain ⟨⟨th, d⟩, hg, rfl⟩ := Option.map_eq_some_iff.mp (hAcc.thread t ▸ hThread)
    have hStep := hAcc.step hg hAlive hFree hExec
    obtain ⟨hAcc', hSilent'⟩ := hStep.settle (p := p) fun th hth hLive hNe => by
      rcases List.mem_append.mp hth with hOld | hNew
      · rcases List.mem_or_eq_of_mem_set hOld with hOld | rfl
        · exact hSilent th hOld hLive
        · exact absurd rfl hNe
      · obtain ⟨i, _, rfl⟩ := List.mem_map.mp hNew
        exact absurd rfl hNe
    exact ⟨⟨_, hAcc'⟩, hSilent'⟩
  | block t =>
    obtain ⟨p, j, m, k, q, hThread, hHolder, hAlive, hNone, hNe, rfl⟩ := next_block_eq_some hNext
    exact ⟨⟨gs, hAcc.block hThread hHolder hAlive hNe (hAvoids p j m k q hThread hHolder)⟩, hSilent⟩

theorem sound_reach (hSound : Sound c) (hReach : Reach h Avoids c c') : Sound c' := by
  induction hReach with
  | refl => exact hSound
  | step _ hAvoids hNext ih => exact sound_next ih hAvoids hNext

/-! ## A halted process that does not wait for another -/

variable {t : Nat}

section Halted

variable {gs : List (Coroutine × Duty)} {q : Nat}

variable {d : Duty}

theorem busy (hAcc : Accounted c gs) (hSilent : Silent c) {th : Coroutine} (hg : (th, d) ∈ gs)
    (hAlive : c.dead th.proc = false) (hOwes : d.held ≠ [] ∨ ∃ chan, d.net chan ≠ 0) : ∃ o k, th.prog = .op o k := by
  obtain ⟨p, j, prog⟩ := th
  have hKeeps := hAcc.keeps _ hg hAlive
  have hMem : (⟨p, j, prog⟩ : Coroutine) ∈ c.threads := by
    rw [hAcc.threads]
    exact List.mem_map_of_mem hg
  cases prog with
  | ret a =>
    obtain ⟨hHeld, hNet⟩ := hKeeps rfl
    rcases hOwes with h | ⟨chan, h⟩
    · exact absurd hHeld h
    · exact absurd (hNet chan) h
  | throw e => exact absurd (hSilent _ hMem hAlive) nofun
  | op o k => exact ⟨o, k, rfl⟩

/-- A process no coroutine of which can go on, though it waits for no other process. -/
structure Halted (h : Hashes) (c : Pool) (gs : List (Coroutine × Duty)) (q : Nat) : Prop where
  acc : Accounted c gs
  silent : Silent c
  alive : c.dead q = false
  awake : c.blocked q = none
  run : ∀ t ch, next h c (.run t ch) = none
  block : ∀ t, next h c (.block t) = none

namespace Halted

variable {j : Job} {o : Op} {k : Except Throwable o.Res → Run Unit}

theorem waits (hq : Halted h c gs q) (hg : gs[t]? = some (⟨q, j, .op o k⟩, d)) :
    (∃ (m : Mutex) (u : Nat) (g : Coroutine × Duty), o = .lock m ∧ gs[u]? = some g ∧ g.1.proc = q ∧ m ∈ g.2.held) ∨
      ∃ chan, o = .pop chan ∧ ∀ row rest, c.world.chans[chan]? ≠ some (row :: rest) := by
  have hThread : c.threads[t]? = some ⟨q, j, .op o k⟩ := by rw [hq.acc.thread, hg, Option.map_some]
  rcases exec_enabled h t j o c.world with ⟨ch, r, w', hExec⟩ | ⟨m, rfl, hHeld⟩ | hPop
  · have hNone := hq.run t ch
    simp [next, hThread, hq.alive, hq.awake, hExec] at hNone
  · obtain ⟨u, hLock⟩ := Option.ne_none_iff_exists'.mp hHeld
    obtain ⟨g, hu, _, hMem⟩ := hq.acc.locks m u hLock
    refine .inl ⟨m, u, g, rfl, hu, ?_, hMem⟩
    by_contra hOther
    have hNone := hq.block t
    simp [next, hThread, hq.acc.holder_eq hLock hu, hq.alive, hq.awake, hOther] at hNone
  · exact .inr hPop

theorem admits (hq : Halted h c gs q) (hg : gs[t]? = some (⟨q, j, .op o k⟩, d)) : d.Admits o :=
  (hq.acc.keeps _ (List.mem_of_getElem? hg) hq.alive).1

/-- The holder of a lock that is waited for waits itself: for a lock further up, or, if
all it holds is the lock of the administrators, for its channel. -/
theorem next_waiter (hq : Halted h c gs q) {m : Mutex} {k : Except Throwable Unit → Run Unit}
    (hg : gs[t]? = some (⟨q, j, .op (.lock m) k⟩, d)) :
    ∃ (t' : Nat) (j' : Job) (o' : Op) (k' : Except Throwable o'.Res → Run Unit) (d' : Duty),
      gs[t']? = some (⟨q, j', .op o' k'⟩, d') ∧
      ((∃ m', o' = .lock m' ∧ m.rank < m'.rank) ∨ (∃ chan, o' = .pop chan ∧ m.rank = 0)) := by
  rcases hq.waits hg with ⟨_, u, ⟨⟨p, j', prog⟩, d'⟩, hEq, hu, hProc, hHeld⟩ | ⟨chan, hEq, _⟩
  · cases hEq
    obtain rfl : p = q := hProc
    obtain ⟨o', k', hOp⟩ := busy hq.acc hq.silent (List.mem_of_getElem? hu) hq.alive
      (.inl (List.ne_nil_of_mem hHeld))
    obtain rfl : prog = .op o' k' := hOp
    refine ⟨u, j', o', k', d', hu, ?_⟩
    rcases hq.waits hu with ⟨m', _, _, rfl, _⟩ | ⟨chan, rfl, _⟩
    · exact .inl ⟨m', rfl, (hq.admits hu).1 m hHeld⟩
    · exact .inr ⟨chan, rfl, (hq.admits hu).2 m hHeld⟩
  · cases hEq

theorem no_lock_above (hq : Halted h c gs q) (n : Nat) {m : Mutex} {k : Except Throwable Unit → Run Unit}
    (hg : gs[t]? = some (⟨q, j, .op (.lock m) k⟩, d)) (hRank : 0 < m.rank) (hn : 2 < m.rank + n) : False := by
  induction n generalizing t j m k d with
  | zero =>
    have hLe := m.rank_le
    omega
  | succ n ih =>
    obtain ⟨t', j', o', k', d', hg', ⟨m', rfl, hUp⟩ | ⟨chan, rfl, hZero⟩⟩ := hq.next_waiter hg
    · exact ih hg' (by omega) (by omega)
    · omega

/-- Who pops an empty channel is owed a push by a coroutine that could go on. -/
theorem no_pop (hq : Halted h c gs q) {chan : Nat} {k : Except Throwable AdminRow → Run Unit}
    (hg : gs[t]? = some (⟨q, j, .op (.pop chan) k⟩, d)) : False := by
  obtain ⟨⟨z, hz, hChan⟩, _⟩ : (∃ z < 0, d.chan = some (chan, z)) ∧ _ := hq.admits hg
  have hEmpty : c.world.items chan = 0 := by
    rcases hq.waits hg with ⟨_, _, _, hEq, _⟩ | ⟨_, hEq, hNone⟩
    · cases hEq
    · cases hEq
      unfold World.items
      cases hRows : c.world.chans[chan]? with
      | none => rfl
      | some rows =>
        cases rows with
        | nil => rfl
        | cons row rest => exact absurd hRows (hNone row rest)
  have hOwed : ∃ g ∈ gs, 0 < g.2.net chan := by
    by_contra hNobody
    have hLe : ∀ g ∈ gs, g.2.net chan ≤ 0 := fun g hg' => by
      by_contra hPos
      exact hNobody ⟨g, hg', by omega⟩
    have hBalance := hq.acc.balance chan
    have hSum : (gs.map fun g => g.2.net chan).sum < 0 := by
      refine lt_of_lt_of_eq (List.sum_lt_sum (fun g => g.2.net chan) (fun _ => (0 : Int)) hLe
        ⟨_, List.mem_of_getElem? hg, ?_⟩) (by simp)
      simpa [Duty.net, hChan] using hz
    omega
  obtain ⟨⟨⟨p, j', prog⟩, d'⟩, hMem, hPos⟩ := hOwed
  obtain ⟨z', hz', hPos'⟩ : ∃ z', d'.chan = some (chan, z') ∧ 0 < z' := by
    simp only [Duty.net] at hPos
    split at hPos
    · rename_i c' z' hc'
      split at hPos
      · subst_vars
        exact ⟨z', hc', hPos⟩
      · omega
    · omega
  obtain rfl : p = q := hq.acc.family _ hMem _ (List.mem_of_getElem? hg) chan z' z hz' hChan
  obtain ⟨o', k', hOp⟩ := busy hq.acc hq.silent hMem hq.alive (.inr ⟨chan, ne_of_gt hPos⟩)
  obtain rfl : prog = .op o' k' := hOp
  obtain ⟨u, hu⟩ := List.getElem?_of_mem hMem
  rcases hq.waits hu with ⟨m, _, _, rfl, _⟩ | ⟨chan', rfl, _⟩
  · exact hq.no_lock_above 3 hu ((hq.admits hu).2 (by simp [hz'])) (by omega)
  · obtain ⟨⟨z'', hNeg, hEq⟩, _⟩ : (∃ z < 0, d'.chan = some (chan', z)) ∧ _ := hq.admits hu
    cases hz'.symm.trans hEq
    omega

theorem all_finished (hq : Halted h c gs q) (hg : gs[t]? = some (⟨q, j, .op o k⟩, d)) : False := by
  rcases hq.waits hg with ⟨m, _, _, rfl, _⟩ | ⟨chan, rfl, _⟩
  · obtain ⟨t', j', o', k', d', hg', ⟨m', rfl, hUp⟩ | ⟨chan, rfl, _⟩⟩ := hq.next_waiter hg
    · exact hq.no_lock_above 3 hg' (by omega) (by omega)
    · exact hq.no_pop hg'
  · exact hq.no_pop hg

end Halted

end Halted

def Working (c : Pool) (gs : List (Coroutine × Duty)) (q : Nat) : Prop :=
  c.dead q = false ∧ ∃ (t : Nat) (j : Job) (o : Op) (k : Except Throwable o.Res → Run Unit) (d : Duty),
    gs[t]? = some (⟨q, j, .op o k⟩, d)

variable {q : Nat}

theorem working_of_reaches {gs : List (Coroutine × Duty)} (hAcc : Accounted c gs) (hSilent : Silent c) {p : Nat}
    (hPath : ReflTransGen c.WaitsFor p q) (hStart : c.Working gs p) : c.Working gs q := by
  rcases ReflTransGen.cases_tail hPath with rfl | ⟨x, _, t, m, _, hHolder⟩
  · exact hStart
  · obtain ⟨u, ⟨⟨p', j, prog⟩, d⟩, _, hu, hProc, hAlive, hHeld⟩ := hAcc.holder_some hHolder
    obtain rfl : p' = q := hProc
    obtain ⟨o, k, hOp⟩ := busy hAcc hSilent (List.mem_of_getElem? hu) hAlive (.inl (List.ne_nil_of_mem hHeld))
    obtain rfl : prog = .op o k := hOp
    exact ⟨hAlive, u, j, o, k, d, hu⟩

/-- A process that waits for nobody and cannot wake up does not wait at all. -/
theorem awake_of_sink {gs : List (Coroutine × Duty)} (hAcc : Accounted c gs) (hSink : ∀ r, ¬ c.WaitsFor q r)
    (hRun : ∀ t ch, next h c (.run t ch) = none) : c.blocked q = none := by
  cases hBlocked : c.blocked q with
  | none => rfl
  | some t =>
    obtain ⟨hAlive, j, m, k, hThread, _⟩ := hAcc.blocked q t hBlocked
    cases hLock : c.world.locks m with
    | none =>
      have hNone := hRun t .ok
      simp [next, hThread, hAlive, hBlocked, exec, carry, hLock] at hNone
    | some u =>
      obtain ⟨g, hu, _⟩ := hAcc.locks m u hLock
      exact absurd ⟨t, m, ⟨hBlocked, j, k, hThread⟩, hAcc.holder_eq hLock hu⟩ (hSink g.1.proc)

theorem never_stuck (h : Hashes) (w : World) (hLocks : ∀ m, w.locks m = none) (hChans : w.chans = [])
    (c : Pool) (hReach : Reach h Avoids { world := w } c) : ¬ Stuck h c := by
  rintro ⟨⟨t, ⟨p, j, prog⟩, hThread, hAlive, hUnfinished⟩, hRun, hBlock⟩
  obtain ⟨⟨gs, hAcc⟩, hSilent⟩ := sound_reach (sound_start hLocks hChans) hReach
  obtain ⟨⟨th, d⟩, hg, rfl⟩ := Option.map_eq_some_iff.mp (hAcc.thread t ▸ hThread)
  obtain ⟨o, k, rfl⟩ : ∃ o k, prog = .op o k := by
    cases prog with
    | ret a => exact absurd rfl (hUnfinished a)
    | throw e => exact absurd (hSilent _ (List.mem_of_getElem? hThread) hAlive) nofun
    | op o k => exact ⟨o, k, rfl⟩
  obtain ⟨q, hPath, hSink⟩ := hAcc.ranked.exists_sink p
  obtain ⟨hAlive', t', j', o', k', d', hg'⟩ :=
    working_of_reaches hAcc hSilent hPath ⟨hAlive, t, j, o, k, d, hg⟩
  exact Halted.all_finished ⟨hAcc, hSilent, hAlive', awake_of_sink hAcc hSink hRun, hRun, hBlock⟩ hg'

def resolving (n : Nat) : Job := .resolveUser { data := some { userId := .int n }, dateTime := "" }

def queued : List Label := [.start 0 (resolving 1), .run 0 .ok, .start 1 (resolving 1)]

def asks (c : Pool) (t p q : Nat) : Bool :=
  match c.threads[t]? with
  | some ⟨p', _, .op (.lock m) _⟩ => p' = p && c.holder m = some q
  | _ => false

theorem avoids_of_asks {p : Nat} (hAsks : c.asks t p q = true) (hNe : q ≠ p) (hAwake : c.blocked q = none) :
    Avoids c (.block t) := by
  intro p' j m k q' hThread hHolder hPath
  simp only [asks, hThread, Bool.and_eq_true, decide_eq_true_eq] at hAsks
  obtain ⟨rfl, hq⟩ := hAsks
  cases hHolder.symm.trans hq
  rcases ReflTransGen.cases_head hPath with hEq | ⟨_, ⟨_, _, ⟨hBlocked, _⟩, _⟩, _⟩
  · exact hNe hEq
  · cases hAwake.symm.trans hBlocked

/-- The second process waits inside `::flock` for the first. -/
theorem queued_not_stuck : ∃ c, Reach plainHashes Avoids { world := World.initial } c ∧ c.blocked 1 = some 1 ∧
    ¬ Stuck plainHashes c := by
  have hRun : ((runAll plainHashes { world := World.initial } queued).bind fun c =>
      (next plainHashes c (.block 1)).map (c, ·)).any
        (fun (c, c') => c.asks 1 1 0 && (c.blocked 0 = none && c'.blocked 1 = some 1)) = true := by decide +kernel
  obtain ⟨⟨c, c'⟩, hSteps, hHere⟩ := (Option.any_eq_true _ _).mp hRun
  obtain ⟨_, hc, hNext⟩ := Option.bind_eq_some_iff.mp hSteps
  obtain ⟨_, hNext, hPair⟩ := Option.map_eq_some_iff.mp hNext
  cases hPair
  simp only [Bool.and_eq_true, decide_eq_true_eq] at hHere
  obtain ⟨hAsks, hAwake, hBlocked⟩ := hHere
  have hReach : Reach plainHashes Avoids { world := World.initial } c' := by
    refine .step (reach_of_runAll (fun l hl _ => ?_) hc) (avoids_of_asks hAsks (by decide) hAwake) hNext
    simp only [queued, List.mem_cons, List.not_mem_nil, or_false] at hl
    rcases hl with rfl | rfl | rfl <;> trivial
  exact ⟨c', hReach, hBlocked, never_stuck _ World.initial (fun _ => rfl) rfl c' hReach⟩

/-! ## Two processes that wait for each other -/

/-- Every process with a coroutine waits inside `::flock` for a lock that is held. -/
def allBlocked (c : Pool) : Bool :=
  c.threads.all fun th =>
    match c.blocked th.proc with
    | some t =>
      match c.threads[t]? with
      | some ⟨_, _, .op (.lock m) _⟩ => (c.world.locks m).isSome
      | _ => false
    | none => false

def hasWork (c : Pool) : Bool :=
  c.threads.any fun th => !c.dead th.proc && match th.prog with | .op .. => true | _ => false

theorem waits_of_allBlocked (hAll : c.allBlocked = true) {th : Coroutine} (hth : th ∈ c.threads) :
    ∃ t p j m k, c.blocked th.proc = some t ∧ c.threads[t]? = some ⟨p, j, .op (.lock m) k⟩ ∧
      c.world.locks m ≠ none := by
  have hHere := List.all_eq_true.mp hAll th hth
  split at hHere
  · rename_i t hBlocked
    split at hHere
    · rename_i p j m k hThread
      exact ⟨t, p, j, m, k, hBlocked, hThread, Option.isSome_iff_ne_none.mp hHere⟩
    · cases hHere
  · cases hHere

theorem stuck_of_allBlocked (hAll : c.allBlocked = true) (hWork : c.hasWork = true) : Stuck h c := by
  refine ⟨?_, fun t ch => ?_, fun t => ?_⟩
  · obtain ⟨th, hth, hHere⟩ := List.any_eq_true.mp hWork
    obtain ⟨t, ht⟩ := List.getElem?_of_mem hth
    obtain ⟨hAlive, hOp⟩ := Bool.and_eq_true_iff.mp hHere
    refine ⟨t, th, ht, by simpa using hAlive, fun a hRet => ?_⟩
    rw [hRet] at hOp
    cases hOp
  · by_contra hSome
    obtain ⟨c', hNext⟩ := Option.ne_none_iff_exists'.mp hSome
    obtain ⟨p, j, o, k, r, w', hThread, _, hFree, hExec, _⟩ := next_run_eq_some hNext
    obtain ⟨t', p', j', m, k', hBlocked, hThread', hHeld⟩ :=
      waits_of_allBlocked hAll (List.mem_of_getElem? hThread)
    rcases hFree with hNone | hSelf
    · exact absurd (hNone.symm.trans hBlocked) nofun
    · obtain rfl : t = t' := Option.some.inj (hSelf.symm.trans hBlocked)
      cases hThread.symm.trans hThread'
      exact hHeld (exec_lock hExec).1
  · by_contra hSome
    obtain ⟨c', hNext⟩ := Option.ne_none_iff_exists'.mp hSome
    obtain ⟨p, j, m, k, q, hThread, _, _, hNone, _⟩ := next_block_eq_some hNext
    obtain ⟨t', _, _, _, _, hBlocked, _⟩ := waits_of_allBlocked hAll (List.mem_of_getElem? hThread)
    exact absurd (hNone.symm.trans hBlocked) nofun

/-- Each process holds the lock of one user and blocks on that of the other. -/
def crossing : List Label :=
  [.start 0 (resolving 1), .start 0 (resolving 2), .start 1 (resolving 2), .start 1 (resolving 1),
    .run 0 .ok, .run 2 .ok, .block 1, .block 3]

theorem crossing_stuck : ∃ c, Reach plainHashes (fun _ _ => True) { world := World.initial } c ∧
    Stuck plainHashes c := by
  have hRun : (runAll plainHashes { world := World.initial } crossing).any
      (fun c => c.allBlocked && c.hasWork) = true := by decide +kernel
  obtain ⟨c, hc, hHere⟩ := Option.any_eq_true _ _ |>.mp hRun
  obtain ⟨hAll, hWork⟩ := Bool.and_eq_true_iff.mp hHere
  exact ⟨c, reach_of_runAll (fun _ _ _ => trivial) hc, stuck_of_allBlocked hAll hWork⟩

end Pool

end TeaBot.Loggers
