import TeaBot.Loggers.Accounts

/-! # The invariant of a pool -/

namespace TeaBot.Loggers

open Foundation Relation

structure Accounted (c : Pool) (gs : List (Coroutine × Duty)) : Prop where
  threads : c.threads = gs.map Prod.fst
  keeps : ∀ g ∈ gs, c.dead g.1.proc = false → g.1.prog.Keeps duties Discharged g.2
  locks : ∀ m u, c.world.locks m = some u → ∃ g, gs[u]? = some g ∧ c.dead g.1.proc = false ∧ m ∈ g.2.held
  chan : ∀ g ∈ gs, ∀ chan z, g.2.chan = some (chan, z) → chan < c.world.chans.length
  family : ∀ g ∈ gs, ∀ g' ∈ gs, ∀ chan z z', g.2.chan = some (chan, z) → g'.2.chan = some (chan, z') →
    g.1.proc = g'.1.proc
  balance : ∀ chan, c.world.items chan + (gs.map fun g => g.2.net chan).sum = 0
  blocked : ∀ p t, c.blocked p = some t → c.dead p = false ∧
    ∃ j m k, c.threads[t]? = some ⟨p, j, .op (.lock m) k⟩ ∧ c.holder m ≠ some p
  ranked : Ranked c.WaitsFor

/-- A throwable that has left a coroutine has ended the process. -/
def Silent (c : Pool) : Prop := ∀ th ∈ c.threads, c.dead th.proc = false → th.prog.thrown = none

namespace Accounted

variable {c : Pool} {gs : List (Coroutine × Duty)}

theorem thread (h : Accounted c gs) (t : Nat) : c.threads[t]? = (gs[t]?).map Prod.fst := by
  rw [h.threads, List.getElem?_map]

variable {m : Mutex} {g : Coroutine × Duty} {u : Nat}

theorem holder_eq (h : Accounted c gs) (hLock : c.world.locks m = some u) (hu : gs[u]? = some g) :
    c.holder m = some g.1.proc := by
  simp [Pool.holder, Pool.procOf, hLock, h.thread, hu]

variable {q : Nat}

theorem holder_some (h : Accounted c gs) (hq : c.holder m = some q) :
    ∃ u g, c.world.locks m = some u ∧ gs[u]? = some g ∧ g.1.proc = q ∧ c.dead q = false ∧ m ∈ g.2.held := by
  obtain ⟨u, hLock, _⟩ := Option.bind_eq_some_iff.mp hq
  obtain ⟨g, hu, hAlive, hMem⟩ := h.locks m u hLock
  have hProc : g.1.proc = q := Option.some.inj ((h.holder_eq hLock hu).symm.trans hq)
  exact ⟨u, g, hLock, hu, hProc, hProc ▸ hAlive, hMem⟩

/-! ## The end of a process -/

variable {p : Nat}

theorem kill_locks (h : (c.kill p).world.locks m = some u) : c.world.locks m = some u ∧ c.holder m ≠ some p := by
  simp only [Pool.kill] at h
  split at h
  · cases h
  · rename_i hNe
    exact ⟨h, hNe⟩

theorem kill_holder (h : (c.kill p).holder m = some q) : c.holder m = some q := by
  obtain ⟨u, hLock, hProc⟩ := Option.bind_eq_some_iff.mp h
  exact Option.bind_eq_some_iff.mpr ⟨u, (kill_locks hLock).1, hProc⟩

theorem kill_blocked {t : Nat} (h : (c.kill p).blocked q = some t) : q ≠ p ∧ c.blocked q = some t := by
  have hNe : q ≠ p := by
    rintro rfl
    simp [Pool.kill] at h
  exact ⟨hNe, by simpa [Pool.kill, Function.update_of_ne hNe] using h⟩

theorem kill_alive (h : (c.kill p).dead q = false) : q ≠ p ∧ c.dead q = false := by
  have hNe : q ≠ p := by
    rintro rfl
    simp [Pool.kill] at h
  exact ⟨hNe, by simpa [Pool.kill, Function.update_of_ne hNe] using h⟩

theorem alive_kill (hNe : q ≠ p) (h : c.dead q = false) : (c.kill p).dead q = false := by
  simpa [Pool.kill, Function.update_of_ne hNe] using h

theorem kill (h : Accounted c gs) (p : Nat) : Accounted (c.kill p) gs where
  threads := h.threads
  keeps g hg hAlive := h.keeps g hg (kill_alive hAlive).2
  locks m u hu := by
    obtain ⟨hLock, hNe⟩ := kill_locks hu
    obtain ⟨g, hg, hAlive, hMem⟩ := h.locks m u hLock
    refine ⟨g, hg, alive_kill ?_ hAlive, hMem⟩
    rintro rfl
    exact hNe (h.holder_eq hLock hg)
  chan := h.chan
  family := h.family
  balance := h.balance
  blocked q t hq := by
    obtain ⟨hNe, hBlocked⟩ := kill_blocked hq
    obtain ⟨hAlive, j, m, k, hThread, hHolder⟩ := h.blocked q t hBlocked
    exact ⟨alive_kill hNe hAlive, j, m, k, hThread, fun hEq => hHolder (kill_holder hEq)⟩
  ranked := h.ranked.mono fun x y ⟨t, m, ⟨hBlocked, hThread⟩, hHolder⟩ =>
    ⟨t, m, ⟨(kill_blocked hBlocked).2, hThread⟩, kill_holder hHolder⟩

theorem settle (h : Accounted c gs)
    (hOthers : ∀ th ∈ c.threads, c.dead th.proc = false → th.proc ≠ p → th.prog.thrown = none) :
    Accounted (c.settle p) gs ∧ Silent (c.settle p) := by
  unfold Pool.settle
  split
  · refine ⟨h.kill p, fun th hth hAlive => ?_⟩
    exact hOthers th hth (kill_alive hAlive).2 (kill_alive hAlive).1
  · rename_i hNone
    refine ⟨h, fun th hth hAlive => ?_⟩
    by_cases hp : th.proc = p
    · by_contra hThrown
      refine hNone (List.any_eq_true.mpr ⟨th, hth, ?_⟩)
      simpa [hp] using Option.isSome_iff_ne_none.mpr hThrown
    · exact hOthers th hth hAlive hp

/-! ## One more coroutine -/

theorem holder_grows (h : Accounted c gs) {new : List Coroutine} (m : Mutex) :
    ({ c with threads := c.threads ++ new } : Pool).holder m = c.holder m := by
  cases hLock : c.world.locks m with
  | none => simp [Pool.holder, hLock]
  | some u =>
    obtain ⟨g, hu, _⟩ := h.locks m u hLock
    have hOld : c.threads[u]? = some g.1 := by rw [h.thread, hu, Option.map_some]
    have hNew : (c.threads ++ new)[u]? = some g.1 := by
      rw [List.getElem?_append_left (List.getElem?_eq_some_iff.mp hOld).1, hOld]
    simp [Pool.holder, Pool.procOf, hLock, hOld, hNew]

theorem start (h : Accounted c gs) (hs : Hashes) {j : Job} (hDuty : j.duty = {}) :
    Accounted { c with threads := c.threads ++ [Pool.fresh hs p j] } (gs ++ [(Pool.fresh hs p j, ({} : Duty))]) where
  threads := by simp [h.threads]
  keeps g hg hAlive := by
    rcases List.mem_append.mp hg with hOld | hNew
    · exact h.keeps g hOld hAlive
    · rw [List.mem_singleton.mp hNew]
      exact hDuty ▸ poolCode_keeps hs.md5 j
  locks m u hu := by
    obtain ⟨g, hg, hAlive, hMem⟩ := h.locks m u hu
    refine ⟨g, ?_, hAlive, hMem⟩
    rw [List.getElem?_append_left (List.getElem?_eq_some_iff.mp hg).1, hg]
  chan g hg chan z hz := by
    rcases List.mem_append.mp hg with hOld | hNew
    · exact h.chan g hOld chan z hz
    · rw [List.mem_singleton.mp hNew] at hz
      cases hz
  family g hg g' hg' chan z z' hz hz' := by
    rcases List.mem_append.mp hg with hOld | hNew
    · rcases List.mem_append.mp hg' with hOld' | hNew'
      · exact h.family g hOld g' hOld' chan z z' hz hz'
      · rw [List.mem_singleton.mp hNew'] at hz'
        cases hz'
    · rw [List.mem_singleton.mp hNew] at hz
      cases hz
  balance chan := by
    have hZero : Duty.net {} chan = 0 := rfl
    simpa [hZero] using h.balance chan
  blocked q t hq := by
    obtain ⟨hAlive, j', m, k, hThread, hHolder⟩ := h.blocked q t hq
    refine ⟨hAlive, j', m, k, ?_, by rwa [h.holder_grows]⟩
    rw [List.getElem?_append_left (List.getElem?_eq_some_iff.mp hThread).1, hThread]
  ranked := by
    refine h.ranked.mono fun x y ⟨t, m, ⟨hBlocked, hThread⟩, hHolder⟩ => ?_
    rw [h.holder_grows] at hHolder
    -- the coroutine that is waited with was there before
    obtain ⟨_, j', m', k', hOld, _⟩ := h.blocked x t hBlocked
    have hLt := (List.getElem?_eq_some_iff.mp hOld).1
    refine ⟨t, m, ⟨hBlocked, ?_⟩, hHolder⟩
    simpa [List.getElem?_append_left hLt] using hThread

theorem block (h : Accounted c gs) {t : Nat} {j : Job} {k : Except Throwable Unit → Run Unit}
    (hThread : c.threads[t]? = some ⟨p, j, .op (.lock m) k⟩) (hHolder : c.holder m = some q) (hAlive : c.dead p = false)
    (hNe : q ≠ p) (hAvoids : ¬ ReflTransGen c.WaitsFor q p) :
    Accounted { c with blocked := Function.update c.blocked p (some t) } gs where
  threads := h.threads
  keeps := h.keeps
  locks := h.locks
  chan := h.chan
  family := h.family
  balance := h.balance
  blocked x u hx := by
    by_cases hEq : x = p
    · subst hEq
      have hu : t = u := by simpa using hx
      subst hu
      refine ⟨hAlive, j, m, k, hThread, fun hOwn => hNe ?_⟩
      exact Option.some.inj (hHolder.symm.trans hOwn)
    · exact h.blocked x u (by simpa [Function.update_of_ne hEq] using hx)
  ranked := by
    refine (h.ranked.add_edge hAvoids).mono fun x y ⟨u, m', ⟨hBlocked, j', k', hRequest⟩, hHolder'⟩ => ?_
    by_cases hEq : x = p
    · subst hEq
      have hu : t = u := by simpa using hBlocked
      subst hu
      cases hThread.symm.trans hRequest
      exact .inr ⟨rfl, Option.some.inj (hHolder'.symm.trans hHolder)⟩
    · exact .inl ⟨u, m', ⟨by simpa [Function.update_of_ne hEq] using hBlocked, j', k', hRequest⟩, hHolder'⟩

/-! ## One operation -/

section Step

variable {hs : Hashes} {p t : Nat} {j : Job} {o : Op} {k : Except Throwable o.Res → Run Unit} {d : Duty}
  {r : Except Throwable o.Res} {w' : World}

def stepped (hs : Hashes) (c : Pool) (p t : Nat) (j : Job) (o : Op) (k : Except Throwable o.Res → Run Unit)
    (r : Except Throwable o.Res) (w' : World) : Pool :=
  { c with
    world := w'
    threads := c.threads.set t ⟨p, j, k r⟩ ++ (spawned o r).map (Pool.fresh hs p)
    blocked := Function.update c.blocked p none }

def entered (hs : Hashes) (gs : List (Coroutine × Duty)) (p t : Nat) (j : Job) (o : Op)
    (k : Except Throwable o.Res → Run Unit) (d : Duty) (r : Except Throwable o.Res) : List (Coroutine × Duty) :=
  gs.set t (⟨p, j, k r⟩, d.after o r) ++ (spawned o r).map fun i => (Pool.fresh hs p i, i.duty)

theorem mem_entered (h : g ∈ entered hs gs p t j o k d r) :
    g = (⟨p, j, k r⟩, d.after o r) ∨ g ∈ gs ∨ ∃ i ∈ spawned o r, g = (Pool.fresh hs p i, i.duty) := by
  rcases List.mem_append.mp h with hOld | hNew
  · exact (List.mem_or_eq_of_mem_set hOld).elim (fun h => .inr (.inl h)) .inl
  · obtain ⟨i, hi, rfl⟩ := List.mem_map.mp hNew
    exact .inr (.inr ⟨i, hi, rfl⟩)

theorem getElem_entered (hu : gs[u]? = some g) (hNe : u ≠ t) : (entered hs gs p t j o k d r)[u]? = some g := by
  have hLt := (List.getElem?_eq_some_iff.mp hu).1
  rw [entered, List.getElem?_append_left (by simpa using hLt), List.getElem?_set_ne (Ne.symm hNe), hu]

theorem getElem_entered_self (ht : gs[t]? = some g) :
    (entered hs gs p t j o k d r)[t]? = some (⟨p, j, k r⟩, d.after o r) := by
  have hLt := (List.getElem?_eq_some_iff.mp ht).1
  rw [entered, List.getElem?_append_left (by simpa using hLt), List.getElem?_set_self hLt]

theorem step_threads (h : Accounted c gs) :
    (stepped hs c p t j o k r w').threads = (entered hs gs p t j o k d r).map Prod.fst := by
  simp [stepped, entered, h.threads, List.map_set, List.map_append, Function.comp_def]

variable {prog : Run Unit}

section

variable (h : Accounted c gs) (ht : gs[t]? = some (⟨p, j, prog⟩, d))

include h ht

theorem step_balance (hEffect : Effect t c.world w' d o r) (chan : Nat) :
    w'.items chan + ((entered hs gs p t j o k d r).map fun g => g.2.net chan).sum = 0 := by
  obtain ⟨hLt, hGet⟩ := List.getElem?_eq_some_iff.mp ht
  have hSum : ((entered hs gs p t j o k d r).map fun g => g.2.net chan).sum =
      (gs.map fun g => g.2.net chan).sum - d.net chan + (d.after o r).net chan +
        ((spawned o r).map fun i => i.duty.net chan).sum := by
    simp only [entered, List.map_append, List.sum_append, List.map_set, List.sum_set', List.length_map, hLt,
      dif_pos, List.getElem_map, hGet, List.map_map, Function.comp_def]
    omega
  have hOld := h.balance chan
  have hStep := hEffect.balance chan
  omega

theorem step_holder (hEffect : Effect t c.world w' d o r) (hq : (stepped hs c p t j o k r w').holder m = some q)
    (hNe : q ≠ p) : c.holder m = some q := by
  obtain ⟨u, hLock, hProc⟩ := Option.bind_eq_some_iff.mp hq
  have hThreads : (stepped hs c p t j o k r w').threads = (entered hs gs p t j o k d r).map Prod.fst := step_threads h
  rw [Pool.procOf, hThreads, List.getElem?_map] at hProc
  rcases hEffect.locks m u hLock with ⟨rfl, _⟩ | ⟨hu, hOld⟩
  · rw [getElem_entered_self ht] at hProc
    exact absurd (Option.some.inj hProc).symm hNe
  · obtain ⟨g, hg, _⟩ := h.locks m u hOld
    rw [getElem_entered hg hu] at hProc
    rw [h.holder_eq hOld hg]
    exact hProc

theorem step_thread {th : Coroutine} (hu : c.threads[u]? = some th) (hNe : th.proc ≠ p) :
    (stepped hs c p t j o k r w').threads[u]? = some th := by
  have hOther : u ≠ t := by
    rintro rfl
    rw [h.thread, ht] at hu
    cases hu
    exact hNe rfl
  have hLt := (List.getElem?_eq_some_iff.mp hu).1
  rw [stepped, List.getElem?_append_left (by simpa using hLt), List.getElem?_set_ne (Ne.symm hOther), hu]

end

theorem step_sink (h : Accounted c gs) (ht : gs[t]? = some (⟨p, j, .op o k⟩, d))
    (hFree : c.blocked p = none ∨ c.blocked p = some t) {ch : Choice}
    (hExec : exec hs t j o ch c.world = some (r, w')) (q : Nat) : ¬ c.WaitsFor p q := by
  rintro ⟨u, m, ⟨hBlocked, j', k', hThread⟩, hHolder⟩
  rcases hFree with hNone | hSelf
  · rw [hNone] at hBlocked
    cases hBlocked
  · obtain rfl : t = u := Option.some.inj (hSelf.symm.trans hBlocked)
    rw [h.thread, ht] at hThread
    cases hThread
    obtain ⟨hOpen, _⟩ := exec_lock hExec
    simp [Pool.holder, hOpen] at hHolder

theorem step (h : Accounted c gs) (ht : gs[t]? = some (⟨p, j, .op o k⟩, d)) (hAlive : c.dead p = false)
    (hFree : c.blocked p = none ∨ c.blocked p = some t) {ch : Choice}
    (hExec : exec hs t j o ch c.world = some (r, w')) :
    Accounted (stepped hs c p t j o k r w') (entered hs gs p t j o k d r) := by
  have hMem : (⟨p, j, .op o k⟩, d) ∈ gs := List.mem_of_getElem? ht
  obtain ⟨hAdmits, hRest⟩ := h.keeps _ hMem hAlive
  have hOwn : ∀ m, c.world.locks m = some t → m ∈ d.held := by
    intro m hm
    obtain ⟨g, hg, _, hHeld⟩ := h.locks m t hm
    cases ht.symm.trans hg
    exact hHeld
  have hEffect := exec_effect hExec hAdmits hOwn (h.chan _ hMem)
  -- a channel in use by the stepping coroutine afterwards is its old one or a new one
  have hChan : ∀ g ∈ entered hs gs p t j o k d r, ∀ chan z, g.2.chan = some (chan, z) →
      (g ∈ gs ∧ chan < c.world.chans.length) ∨
        (g.1.proc = p ∧ ((∃ z', d.chan = some (chan, z')) ∨ chan = c.world.chans.length) ∧
          chan < w'.chans.length) := by
    intro g hg chan z hz
    rcases mem_entered hg with rfl | hOld | ⟨i, hi, rfl⟩
    · obtain ⟨hLt, hUse⟩ := hEffect.chan chan z hz
      exact .inr ⟨rfl, hUse, hLt⟩
    · exact .inl ⟨hOld, h.chan g hOld chan z hz⟩
    · obtain ⟨z', hz'⟩ := hEffect.started i hi chan z hz
      exact .inr ⟨rfl, .inl ⟨z', hz'⟩, Nat.lt_of_lt_of_le (h.chan _ hMem chan z' hz') hEffect.grows⟩
  have hBlocked : ∀ q u, (stepped hs c p t j o k r w').blocked q = some u → q ≠ p ∧ c.blocked q = some u := by
    intro q u hq
    have hNe : q ≠ p := by
      rintro rfl
      simp [stepped] at hq
    exact ⟨hNe, by simpa [stepped, Function.update_of_ne hNe] using hq⟩
  refine ⟨step_threads h, ?_, ?_, ?_, ?_, step_balance h ht hEffect, ?_, ?_⟩
  · intro g hg hLive
    rcases mem_entered hg with rfl | hOld | ⟨i, _, rfl⟩
    · exact hRest r hEffect.answers
    · exact h.keeps g hOld hLive
    · exact poolCode_keeps hs.md5 i
  · intro m u hu
    rcases hEffect.locks m u hu with ⟨rfl, hHeld⟩ | ⟨hNe, hOld⟩
    · exact ⟨_, getElem_entered_self ht, hAlive, hHeld⟩
    · obtain ⟨g, hg, hLive, hHeld⟩ := h.locks m u hOld
      exact ⟨g, getElem_entered hg hNe, hLive, hHeld⟩
  · intro g hg chan z hz
    rcases hChan g hg chan z hz with ⟨_, hLt⟩ | ⟨_, _, hLt⟩
    · exact Nat.lt_of_lt_of_le hLt hEffect.grows
    · exact hLt
  · -- an old user of the channel is of the process of the stepping one
    have hFamily : ∀ g ∈ gs, ∀ chan z, g.2.chan = some (chan, z) → chan < c.world.chans.length →
        ((∃ z', d.chan = some (chan, z')) ∨ chan = c.world.chans.length) → g.1.proc = p := by
      rintro g hg chan z hz hLt (⟨z', hz'⟩ | rfl)
      · exact h.family g hg _ hMem chan z z' hz hz'
      · omega
    intro g hg g' hg' chan z z' hz hz'
    rcases hChan g hg chan z hz with ⟨hOld, hLt⟩ | ⟨hProc, hUse, _⟩
    · rcases hChan g' hg' chan z' hz' with ⟨hOld', _⟩ | ⟨hProc', hUse', _⟩
      · exact h.family g hOld g' hOld' chan z z' hz hz'
      · exact (hFamily g hOld chan z hz hLt hUse').trans hProc'.symm
    · rcases hChan g' hg' chan z' hz' with ⟨hOld', hLt'⟩ | ⟨hProc', _⟩
      · exact hProc.trans (hFamily g' hOld' chan z' hz' hLt' hUse).symm
      · exact hProc.trans hProc'.symm
  · intro q u hq
    obtain ⟨hNe, hOld⟩ := hBlocked q u hq
    obtain ⟨hLive, j', m, k', hThread, hHolder⟩ := h.blocked q u hOld
    exact ⟨hLive, j', m, k', step_thread h ht hThread hNe, fun hEq => hHolder (step_holder h ht hEffect hEq hNe)⟩
  · refine (h.ranked.add_sink (step_sink h ht hFree hExec)).mono ?_
    rintro x y ⟨u, m, ⟨hx, j', k', hThread⟩, hHolder⟩
    obtain ⟨hNe, hOld⟩ := hBlocked x u hx
    by_cases hy : y = p
    · exact .inr ⟨hNe, hy⟩
    · obtain ⟨_, j₁, m₁, k₁, hThread₁, _⟩ := h.blocked x u hOld
      cases (step_thread h ht hThread₁ hNe).symm.trans hThread
      exact .inl ⟨u, m, ⟨hOld, _, _, hThread₁⟩, step_holder h ht hEffect hHolder hy⟩

end Step

end Accounted

end TeaBot.Loggers
