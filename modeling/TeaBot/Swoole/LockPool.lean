import TeaBot.Swoole.Runtime

/-! # Who owns a lock file in a process -/

namespace TeaBot.Swoole

open Foundation Loggers

/-- What a coroutine is to a lock file. -/
inductive LockRole
  | out
  /-- Its manager was free. -/
  | entering
  /-- Pushed into the queue, about to yield. -/
  | queued
  | waiting
  /-- About to call `::flock`. -/
  | marked
  | holds
  /-- About to unlock the file, with the coroutine that was taken from the queue. -/
  | leaves (co : Option Nat)
  | hands (co : Nat)
  deriving DecidableEq

namespace LockRole

def inLine : LockRole → Bool
  | .entering | .queued | .waiting | .marked | .holds => true
  | _ => false

/-- Inside the lock manager without having yielded. -/
def busy : LockRole → Bool
  | .entering | .queued | .marked | .leaves _ | .hands _ => true
  | _ => false

def locked : LockRole → Bool
  | .holds | .leaves _ => true
  | _ => false

/-- The coroutine that gets the manager next. -/
def heir : LockRole → Option Nat
  | .leaves co => co
  | .hands co => some co
  | _ => none

variable {x : LockRole}

theorem heir_of_idle (h : x.busy = false) : x.heir = none := by
  cases x <;> simp_all [busy, heir]

theorem eq_holds (hLocked : x.locked = true) (h : x.busy = false) : x = .holds := by
  cases x <;> simp_all [busy, locked]

theorem waiting_or_holds (hIn : x.inLine = true) (h : x.busy = false) : x = .waiting ∨ x = .holds := by
  cases x <;> simp_all [busy, inLine]

end LockRole

/-- One lock file in one process. `line` is the coroutine for which the manager is kept,
followed by those in its queue. -/
structure LockSlot (p : Nat) (proc : Nat → Option Nat) (stack : List (Option Nat)) (role : Nat → LockRole)
    (lm : Option FileLockManager) (line : List Nat) : Prop where
  manager : lm.map FileLockManager.queue = line.tail?
  lockEx : ∀ x u, lm = some x → line.head? = some u → x.lockEx = true ∨ role u = .entering
  nodup : line.Nodup
  mem : ∀ u, u ∈ line ↔ proc u = some p ∧ (role u).inLine = true
  behind : ∀ u ∈ line.tail, role u = .queued ∨ (role u = .waiting ∧ some u ∉ stack)
  ahead : ∀ u, line.head? = some u → role u ≠ .queued
  handed : ∀ u, line.head? = some u → role u = .waiting →
    some u ∈ stack ∨ ∃ t, proc t = some p ∧ (role t).heir = some u
  heir : ∀ t u, proc t = some p → (role t).heir = some u →
    line.head? = some u ∧ role u = .waiting ∧ some u ∉ stack

variable {stack' : List (Option Nat)} {x : FileLockManager} {co : Nat}

namespace LockSlot

variable {p t : Nat} {proc : Nat → Option Nat} {stack : List (Option Nat)} {role : Nat → LockRole}
variable {lm : Option FileLockManager} {line : List Nat}

theorem frame (h : LockSlot p proc stack role lm line) {role' : Nat → LockRole}
    (hRole : ∀ u, proc u = some p → role' u = role u)
    (hStack : ∀ u, proc u = some p → role u = .waiting → (some u ∈ stack' ↔ some u ∈ stack)) :
    LockSlot p proc stack' role' lm line := by
  have hProc : ∀ u ∈ line, proc u = some p := fun u hu => ((h.mem u).mp hu).1
  have hHead : ∀ u, line.head? = some u → proc u = some p := fun u hu => hProc u (List.mem_of_mem_head? hu)
  refine ⟨h.manager, fun x u hx hu => ?_, h.nodup, fun u => ?_, fun u hu => ?_, fun u hu => ?_, fun u hu hw => ?_,
    fun t u ht hu => ?_⟩
  · rw [hRole u (hHead u hu)]
    exact h.lockEx x u hx hu
  · rw [h.mem]
    exact and_congr_right fun hu => by rw [hRole u hu]
  · have hu' := hProc u (List.mem_of_mem_tail hu)
    rw [hRole u hu']
    exact (h.behind u hu).imp_right fun ⟨hw, hNot⟩ => ⟨hw, fun hMem => hNot ((hStack u hu' hw).mp hMem)⟩
  · rw [hRole u (hHead u hu)]
    exact h.ahead u hu
  · rw [hRole u (hHead u hu)] at hw
    refine (h.handed u hu hw).imp (hStack u (hHead u hu) hw).mpr ?_
    rintro ⟨t, ht, hHeir⟩
    exact ⟨t, ht, by rw [hRole t ht, hHeir]⟩
  · rw [hRole t ht] at hu
    obtain ⟨hLine, hw, hNot⟩ := h.heir t u ht hu
    have hu' := hHead u hLine
    exact ⟨hLine, by rw [hRole u hu', hw], fun hMem => hNot ((hStack u hu' hw).mp hMem)⟩

theorem head_eq (h : LockSlot p proc stack role lm line) (hProc : proc t = some p) (hIn : (role t).inLine = true)
    (hNot : role t ≠ .queued) (hOn : role t = .waiting → some t ∈ stack) : line.head? = some t := by
  have hMem := (h.mem t).mpr ⟨hProc, hIn⟩
  cases line with
  | nil => cases hMem
  | cons u l =>
    rcases List.mem_cons.mp hMem with rfl | hTail
    · rfl
    · rcases h.behind t hTail with hQueued | ⟨hWaiting, hOff⟩
      · exact absurd hQueued hNot
      · exact absurd (hOn hWaiting) hOff

theorem lm_eq (h : LockSlot p proc stack role lm line) (hHead : line.head? = some t) :
    ∃ x, lm = some x ∧ line = t :: x.queue := by
  cases line with
  | nil => cases hHead
  | cons u l =>
    cases hHead
    obtain ⟨x, hx, hQueue⟩ := Option.map_eq_some_iff.mp h.manager
    exact ⟨x, hx, by rw [hQueue]⟩

theorem enter_free (h : LockSlot p proc stack role lm []) (hProc : proc t = some p) (hQueue : x.queue = []) :
    LockSlot p proc stack (Function.update role t .entering) (some x) [t] := by
  obtain ⟨h1, h2, h3, h4, h5, h6, h7, h8⟩ := h
  constructor <;> grind [LockRole.inLine, LockRole.heir]

theorem enter_busy (h : LockSlot p proc stack role (some x) line) (hProc : proc t = some p) (hRole : role t = .out) :
    LockSlot p proc stack (Function.update role t .queued) (some { x with queue := x.queue ++ [t] })
      (line ++ [t]) := by
  obtain ⟨u, l, rfl⟩ : ∃ u l, line = u :: l := by
    cases line with
    | nil => cases h.manager
    | cons u l => exact ⟨u, l, rfl⟩
  obtain ⟨h1, h2, h3, h4, h5, h6, h7, h8⟩ := h
  constructor <;> grind [LockRole.inLine, LockRole.heir]

theorem yield {rest : List (Option Nat)} (h : LockSlot p proc (some t :: rest) role lm line)
    (hNot : some t ∉ rest) (hRole : role t = .queued) :
    LockSlot p proc rest (Function.update role t .waiting) lm line := by
  obtain ⟨h1, h2, h3, h4, h5, h6, h7, h8⟩ := h
  constructor <;> grind [LockRole.inLine, LockRole.heir]

theorem setLockEx (h : LockSlot p proc stack role (some x) line) (hProc : proc t = some p)
    (hRole : role t = .entering ∨ (role t = .waiting ∧ some t ∈ stack)) :
    LockSlot p proc stack (Function.update role t .marked) (some { x with lockEx := true }) line := by
  have hHead : line.head? = some t := h.head_eq hProc (by grind [LockRole.inLine]) (by grind) (by grind)
  obtain ⟨h1, h2, h3, h4, h5, h6, h7, h8⟩ := h
  constructor <;> grind [LockRole.inLine, LockRole.heir]

theorem flock (h : LockSlot p proc stack role lm line) (hRole : role t = .marked) :
    LockSlot p proc stack (Function.update role t .holds) lm line := by
  obtain ⟨h1, h2, h3, h4, h5, h6, h7, h8⟩ := h
  constructor <;> grind [LockRole.inLine, LockRole.heir]

theorem leave_last (h : LockSlot p proc stack role (some x) line) (hProc : proc t = some p) (hRole : role t = .holds)
    (hQueue : x.queue = []) : LockSlot p proc stack (Function.update role t (.leaves none)) none [] := by
  obtain ⟨_, hx, rfl⟩ := h.lm_eq (h.head_eq hProc (by rw [hRole]; rfl) (by simp [hRole]) (by simp [hRole]))
  cases hx
  rw [hQueue] at h
  obtain ⟨h1, h2, h3, h4, h5, h6, h7, h8⟩ := h
  constructor <;> grind [LockRole.inLine, LockRole.heir]

theorem leave_next {rest : List Nat} (h : LockSlot p proc stack role (some x) line) (hProc : proc t = some p)
    (hRole : role t = .holds) (hQueue : x.queue = co :: rest) (hYielded : role co ≠ .queued) :
    LockSlot p proc stack (Function.update role t (.leaves (some co))) (some { x with queue := rest })
      (co :: rest) := by
  obtain ⟨_, hx, rfl⟩ := h.lm_eq (h.head_eq hProc (by rw [hRole]; rfl) (by simp [hRole]) (by simp [hRole]))
  cases hx
  rw [hQueue] at h
  obtain ⟨h1, h2, h3, h4, h5, h6, h7, h8⟩ := h
  constructor <;> grind [LockRole.inLine, LockRole.heir]

theorem funlock {co : Option Nat} (h : LockSlot p proc stack role lm line) (hRole : role t = .leaves co) :
    LockSlot p proc stack (Function.update role t (co.elim .out .hands)) lm line := by
  obtain ⟨h1, h2, h3, h4, h5, h6, h7, h8⟩ := h
  cases co <;> constructor <;> grind [LockRole.inLine, LockRole.heir]

theorem resume (h : LockSlot p proc stack role lm line) (hProc : proc t = some p) (hRole : role t = .hands co)
    (hOnly : ∀ u, u ≠ t → proc u = some p → (role u).heir = none) :
    LockSlot p proc (some co :: stack) (Function.update role t .out) lm line := by
  obtain ⟨hHead, _⟩ := h.heir t co hProc (by rw [hRole]; rfl)
  obtain ⟨l, rfl⟩ : ∃ l, line = co :: l := ⟨line.tail, (List.cons_head?_tail hHead).symm⟩
  have hNot : co ∉ l := (List.nodup_cons.mp h.nodup).1
  obtain ⟨h1, h2, h3, h4, h5, h6, h7, h8⟩ := h
  constructor <;> grind [LockRole.inLine, LockRole.heir]

theorem append (h : LockSlot p proc stack role lm line) {n q : Nat} (hAbsent : proc n = none)
    (hRole : role n = .out) : LockSlot p (Function.update proc n (some q)) stack role lm line := by
  obtain ⟨h1, h2, h3, h4, h5, h6, h7, h8⟩ := h
  constructor <;> grind [LockRole.inLine, LockRole.heir]

end LockSlot

structure Custody (dead : Nat → Bool) (proc : Nat → Option Nat) (stack : Nat → List (Option Nat))
    (role : Nat → Mutex → LockRole) (pool : Nat × Mutex → Option FileLockManager) (locks : Mutex → Option Nat)
    (line : Nat × Mutex → List Nat) : Prop where
  slot : ∀ p m, dead p = false → LockSlot p proc (stack p) (fun u => role u m) (pool (p, m)) (line (p, m))
  top : ∀ p t m, dead p = false → proc t = some p → (role t m).busy = true → (stack p).head? = some (some t)
  locked : ∀ m u, locks m = some u ↔ ∃ p, proc u = some p ∧ dead p = false ∧ (role u m).locked = true

namespace Custody

variable {dead : Nat → Bool} {proc : Nat → Option Nat} {stack : Nat → List (Option Nat)}
variable {role : Nat → Mutex → LockRole} {pool : Nat × Mutex → Option FileLockManager}
variable {locks : Mutex → Option Nat} {line : Nat × Mutex → List Nat}
variable {p t : Nat} {m : Mutex} {rest : List (Option Nat)}

section

variable (h : Custody dead proc stack role pool locks line)

include h

/-- The running coroutine does something to one lock file; other files and other
processes are not concerned. -/
theorem step (hAlive : dead p = false) (hProc : proc t = some p) {x : LockRole} {lm : Option FileLockManager}
    {l : List Nat} {locks' : Mutex → Option Nat}
    (hSlot : LockSlot p proc stack' (Function.update (fun u => role u m) t x) lm l)
    (hStack : ∀ u m', m' ≠ m → proc u = some p → role u m' = .waiting → (some u ∈ stack' ↔ some u ∈ stack p))
    (hTop : ∀ u m', proc u = some p → (become role t m x u m').busy = true → stack'.head? = some (some u))
    (hLocked : ∀ m' u, locks' m' = some u ↔ if u = t ∧ m' = m then x.locked = true else locks m' = some u) :
    Custody dead proc (Function.update stack p stack') (become role t m x) (Function.update pool (p, m) lm) locks'
      (Function.update line (p, m) l) where
  slot q m' hq := by
    by_cases hqp : q = p
    · subst hqp
      rw [Function.update_self]
      by_cases hm : m' = m
      · subst hm
        simpa [become_at] using hSlot
      · have hKey : (q, m') ≠ (q, m) := fun hEq => hm (Prod.mk.inj hEq).2
        rw [Function.update_of_ne hKey, Function.update_of_ne hKey]
        exact (h.slot q m' hq).frame (fun u _ => become_other x hm u) fun u hu hw => hStack u m' hm hu hw
    · have hKey : (q, m') ≠ (p, m) := fun hEq => hqp (Prod.mk.inj hEq).1
      rw [Function.update_of_ne hqp, Function.update_of_ne hKey, Function.update_of_ne hKey]
      refine (h.slot q m' hq).frame (fun u hu => ?_) fun u hu hw => Iff.rfl
      have hut : u ≠ t := by
        rintro rfl
        exact hqp (Option.some.inj (hu.symm.trans hProc))
      rw [become_apart x hut]
  top q u m' hq hu hBusy := by
    by_cases hqp : q = p
    · subst hqp
      rw [Function.update_self]
      exact hTop u m' hu hBusy
    · have hut : u ≠ t := by
        rintro rfl
        exact hqp (Option.some.inj (hu.symm.trans hProc))
      rw [become_apart x hut] at hBusy
      rw [Function.update_of_ne hqp]
      exact h.top q u m' hq hu hBusy
  locked m' u := by
    rw [hLocked]
    split
    · rename_i hSelf
      obtain ⟨rfl, rfl⟩ := hSelf
      have hx := become_self role u m' x
      constructor
      · exact fun hLock => ⟨p, hProc, hAlive, by rw [hx, hLock]⟩
      · rintro ⟨_, _, _, hLock⟩
        rwa [hx] at hLock
    · rename_i hOther
      have hSame : become role t m x u m' = role u m' := by
        by_cases hu : u = t
        · exact become_other x (fun hm => hOther ⟨hu, hm⟩) u
        · rw [become_apart x hu]
      rw [h.locked, hSame]

theorem restack (hStack : ∀ u m, proc u = some p → role u m = .waiting → (some u ∈ stack' ↔ some u ∈ stack p))
    (hIdle : ∀ u m, proc u = some p → (role u m).busy = false) :
    Custody dead proc (Function.update stack p stack') role pool locks line where
  slot q m hq := by
    by_cases hqp : q = p
    · subst hqp
      rw [Function.update_self]
      exact (h.slot q m hq).frame (fun _ _ => rfl) fun u hu hw => hStack u m hu hw
    · rw [Function.update_of_ne hqp]
      exact h.slot q m hq
  top q u m hq hu hBusy := by
    by_cases hqp : q = p
    · subst hqp
      rw [hIdle u m hu] at hBusy
      cases hBusy
    · rw [Function.update_of_ne hqp]
      exact h.top q u m hq hu hBusy
  locked := h.locked

theorem append {n q : Nat} (hAbsent : proc n = none) (hRole : ∀ m, role n m = .out) :
    Custody dead (Function.update proc n (some q)) stack role pool locks line where
  slot p m hp := (h.slot p m hp).append hAbsent (hRole m)
  top p u m hp hu hBusy := by
    have hun : u ≠ n := by
      rintro rfl
      rw [hRole] at hBusy
      cases hBusy
    exact h.top p u m hp (by simpa [hun] using hu) hBusy
  locked m u := by
    rw [h.locked]
    by_cases hun : u = n
    · subst hun
      simp [hRole, LockRole.locked]
    · simp [hun]

theorem exit {home : Nat → Option Nat} (hHome : ∀ m u, locks m = some u → home u = proc u) :
    Custody (Function.update dead p true) proc (Function.update stack p []) role pool
      (fun m => if (locks m).bind home = some p then none else locks m) line where
  slot q m hq := by
    have hqp : q ≠ p := by
      rintro rfl
      simp at hq
    rw [Function.update_of_ne hqp] at hq ⊢
    exact h.slot q m hq
  top q u m hq hu hBusy := by
    have hqp : q ≠ p := by
      rintro rfl
      simp at hq
    rw [Function.update_of_ne hqp] at hq ⊢
    exact h.top q u m hq hu hBusy
  locked m u := by
    constructor
    · intro hLock
      split at hLock
      · cases hLock
      · rename_i hNot
        obtain ⟨q, hProc, hAlive, hRole⟩ := (h.locked m u).mp hLock
        refine ⟨q, hProc, ?_, hRole⟩
        have hqp : q ≠ p := by
          rintro rfl
          exact hNot (by rw [hLock, Option.bind_some, hHome m u hLock, hProc])
        rwa [Function.update_of_ne hqp]
    · rintro ⟨q, hProc, hAlive, hRole⟩
      have hqp : q ≠ p := by
        rintro rfl
        simp at hAlive
      rw [Function.update_of_ne hqp] at hAlive
      have hLock := (h.locked m u).mpr ⟨q, hProc, hAlive, hRole⟩
      rw [if_neg, hLock]
      rw [hLock, Option.bind_some, hHome m u hLock, hProc]
      exact fun hEq => hqp (Option.some.inj hEq)

end

/-! ## What the running coroutine can rely on -/

section

variable (h : Custody dead proc stack role pool locks line) (hAlive : dead p = false)

include h hAlive

theorem idle {u : Nat} (hProc : proc u = some p) (hNot : (stack p).head? ≠ some (some u)) (m : Mutex) :
    (role u m).busy = false := by
  by_contra hBusy
  exact hNot (h.top p u m hAlive hProc (by simpa using hBusy))

theorem manager_kept (hProc : proc t = some p) (hIn : (role t m).inLine = true) : ∃ lm, pool (p, m) = some lm := by
  have hSlot := h.slot p m hAlive
  have hMem := (hSlot.mem t).mpr ⟨hProc, hIn⟩
  obtain ⟨lm, hPool, _⟩ := hSlot.lm_eq (List.head?_eq_some_head (List.ne_nil_of_mem hMem))
  exact ⟨lm, hPool⟩

theorem others_idle (hStack : stack p = some t :: rest) (u : Nat) (m : Mutex) (hut : u ≠ t) (hu : proc u = some p) :
    (role u m).busy = false :=
  h.idle hAlive hu (by simpa [hStack] using Ne.symm hut) m

end

theorem nobody_busy {x : LockRole} (hx : x.busy = false) (hIdle : ∀ m', m' ≠ m → (role t m').busy = false)
    (hOthers : ∀ u m', u ≠ t → proc u = some p → (role u m').busy = false) (u : Nat) (m' : Mutex)
    (hu : proc u = some p) : (become role t m x u m').busy = false := by
  by_cases hut : u = t
  · subst hut
    by_cases hm : m' = m
    · subst hm
      rw [become_self, hx]
    · rw [become_other x hm, hIdle m' hm]
  · rw [become_apart x hut, hOthers u m' hut hu]

/-! ## The operations -/

section Operations

variable (h : Custody dead proc stack role pool locks line) (hAlive : dead p = false) (hProc : proc t = some p)
variable (hStack : stack p = some t :: rest)

include h hAlive hProc hStack

theorem act {x : LockRole} {lm : Option FileLockManager} {l : List Nat} (locks' : Mutex → Option Nat)
    (hSlot : LockSlot p proc (stack p) (Function.update (fun u => role u m) t x) lm l)
    (hLocked : ∀ m' u, locks' m' = some u ↔ if u = t ∧ m' = m then x.locked = true else locks m' = some u) :
    Custody dead proc stack (become role t m x) (Function.update pool (p, m) lm) locks'
      (Function.update line (p, m) l) := by
  have hStep := h.step hAlive hProc hSlot (fun _ _ _ _ _ => Iff.rfl) ?_ hLocked
  · rwa [Function.update_eq_self] at hStep
  · intro u m' hu hBusy
    by_cases hut : u = t
    · simp [hStack, hut]
    · rw [become_apart x hut] at hBusy
      exact h.top p u m' hAlive hu hBusy

theorem quiet {x : LockRole} (hSame : x.locked = (role t m).locked) (m' : Mutex) (u : Nat) :
    locks m' = some u ↔ if u = t ∧ m' = m then x.locked = true else locks m' = some u := by
  split
  · rename_i hSelf
    obtain ⟨rfl, rfl⟩ := hSelf
    rw [h.locked, hSame]
    constructor
    · rintro ⟨_, _, _, hLock⟩
      exact hLock
    · exact fun hLock => ⟨p, hProc, hAlive, hLock⟩
  · exact Iff.rfl

theorem enter_free (hRole : role t m = .out) (hFree : ((pool (p, m)).getD {}).lockEx = false) :
    Custody dead proc stack (become role t m .entering)
      (Function.update pool (p, m) (some ((pool (p, m)).getD {}))) locks (Function.update line (p, m) [t]) := by
  have hSlot := h.slot p m hAlive
  have hLine : line (p, m) = [] := by
    cases hLine : line (p, m) with
    | nil => rfl
    | cons u l =>
      have hHead : (line (p, m)).head? = some u := by rw [hLine]; rfl
      obtain ⟨x, hx, _⟩ := hSlot.lm_eq hHead
      rw [hx, Option.getD_some] at hFree
      rcases hSlot.lockEx x u hx hHead with hEx | hEntering
      · cases hFree.symm.trans hEx
      · -- whoever is entering is running, and the running coroutine is not entering
        have hu : proc u = some p := ((hSlot.mem u).mp (hLine ▸ List.mem_cons_self)).1
        have hTop := h.top p u m hAlive hu (by rw [hEntering]; rfl)
        rw [hStack] at hTop
        cases hTop
        cases hEntering.symm.trans hRole
  have hNone : pool (p, m) = none := by
    have hManager := hSlot.manager
    rw [hLine] at hManager
    exact Option.map_eq_none_iff.mp hManager
  rw [hLine] at hSlot
  exact h.act hAlive hProc hStack _ (hSlot.enter_free hProc (by rw [hNone]; rfl))
    (h.quiet hAlive hProc hStack (by rw [hRole]; rfl))

theorem enter_busy (hRole : role t m = .out) (hPool : pool (p, m) = some x) :
    Custody dead proc stack (become role t m .queued)
      (Function.update pool (p, m) (some { x with queue := x.queue ++ [t] })) locks
      (Function.update line (p, m) (line (p, m) ++ [t])) := by
  have hSlot := h.slot p m hAlive
  rw [hPool] at hSlot
  exact h.act hAlive hProc hStack _ (hSlot.enter_busy hProc hRole)
    (h.quiet hAlive hProc hStack (by rw [hRole]; rfl))

theorem setLockEx (hRole : role t m = .entering ∨ role t m = .waiting) :
    ∃ x, pool (p, m) = some x ∧ Custody dead proc stack (become role t m .marked)
      (Function.update pool (p, m) (some { x with lockEx := true })) locks
      (Function.update line (p, m) (line (p, m))) := by
  have hSlot := h.slot p m hAlive
  have hOn : some t ∈ stack p := hStack ▸ List.mem_cons_self
  have hHead : (line (p, m)).head? = some t := by
    refine hSlot.head_eq hProc ?_ ?_ fun _ => hOn
    · rcases hRole with hRole | hRole <;> rw [hRole] <;> rfl
    · rcases hRole with hRole | hRole <;> simp [hRole]
  obtain ⟨x, hx, _⟩ := hSlot.lm_eq hHead
  rw [hx] at hSlot
  refine ⟨x, hx, h.act hAlive hProc hStack _ (hSlot.setLockEx hProc ?_) (h.quiet hAlive hProc hStack ?_)⟩
  · exact hRole.imp_right fun hWaiting => ⟨hWaiting, hOn⟩
  · rcases hRole with hRole | hRole <;> rw [hRole] <;> rfl

theorem flock (hRole : role t m = .marked) (hOpen : locks m = none) :
    Custody dead proc stack (become role t m .holds) pool (Function.update locks m (some t)) line := by
  have hAct := h.act hAlive hProc hStack (Function.update locks m (some t))
    ((h.slot p m hAlive).flock (t := t) hRole) ?_
  · rwa [Function.update_eq_self, Function.update_eq_self] at hAct
  · intro m' u
    by_cases hm : m' = m
    · subst hm
      by_cases hu : u = t
      · simp [hu, LockRole.locked]
      · simp [hu, Ne.symm hu, hOpen]
    · simp [hm]

/-- `lock_release` up to `::flock`: what becomes of the manager, and whom it returns. -/
theorem leave (hRole : role t m = .holds) :
    ∃ x, pool (p, m) = some x ∧
      (x.queue = [] → Custody dead proc stack (become role t m (.leaves none)) (Function.update pool (p, m) none)
        locks (Function.update line (p, m) [])) ∧
      ∀ co rest', x.queue = co :: rest' → Custody dead proc stack (become role t m (.leaves (some co)))
        (Function.update pool (p, m) (some { x with queue := rest' })) locks
        (Function.update line (p, m) (co :: rest')) := by
  have hSlot := h.slot p m hAlive
  obtain ⟨x, hx, hLine⟩ := hSlot.lm_eq
    (hSlot.head_eq hProc (by rw [hRole]; rfl) (by simp [hRole]) (by simp [hRole]))
  have hQuiet : ∀ co, ∀ m' u, locks m' = some u ↔
      if u = t ∧ m' = m then (LockRole.leaves co).locked = true else locks m' = some u :=
    fun co => h.quiet hAlive hProc hStack (by rw [hRole]; rfl)
  rw [hx] at hSlot
  refine ⟨x, hx, fun hQueue => ?_, fun co rest' hQueue => ?_⟩
  · exact h.act hAlive hProc hStack _ (hSlot.leave_last hProc hRole hQueue) (hQuiet none)
  · refine h.act hAlive hProc hStack _ (hSlot.leave_next hProc hRole hQueue fun hQueued => ?_) (hQuiet (some co))
    have hMem : co ∈ line (p, m) := hLine ▸ hQueue ▸ List.mem_cons_of_mem _ List.mem_cons_self
    have hTop := h.top p co m hAlive ((hSlot.mem co).mp hMem).1 (by rw [hQueued]; rfl)
    rw [hStack] at hTop
    cases hTop
    cases hRole.symm.trans hQueued

theorem funlock {co : Option Nat} (hRole : role t m = .leaves co) :
    locks m = some t ∧ Custody dead proc stack (become role t m (co.elim .out .hands)) pool
      (Function.update locks m none) line := by
  have hLock : locks m = some t := (h.locked m t).mpr ⟨p, hProc, hAlive, by rw [hRole]; rfl⟩
  refine ⟨hLock, ?_⟩
  have hAct := h.act hAlive hProc hStack (Function.update locks m none)
    ((h.slot p m hAlive).funlock (t := t) hRole) ?_
  · rwa [Function.update_eq_self, Function.update_eq_self] at hAct
  · intro m' u
    by_cases hm : m' = m
    · subst hm
      by_cases hu : u = t
      · cases co <;> simp [hu, LockRole.locked]
      · simp [hu, hLock, Ne.symm hu]
    · simp [hm]

theorem yield (hNot : some t ∉ rest) (hRole : role t m = .queued)
    (hIdle : ∀ m', m' ≠ m → role t m' = .out ∨ role t m' = .holds) :
    Custody dead proc (Function.update stack p rest) (become role t m .waiting) pool locks line := by
  have hSlot := h.slot p m hAlive
  rw [hStack] at hSlot
  have hStep := h.step hAlive hProc (hSlot.yield hNot hRole) ?_ ?_ (h.quiet hAlive hProc hStack (m := m) ?_)
  · rwa [Function.update_eq_self, Function.update_eq_self] at hStep
  · intro u m' hm hu hw
    have hut : u ≠ t := by
      rintro rfl
      rcases hIdle m' hm with h' | h' <;> cases h'.symm.trans hw
    simp [hStack, hut]
  · intro u m' hu hBusy
    rw [nobody_busy (p := p) rfl (fun m' hm => ?_) (h.others_idle hAlive hStack) u m' hu] at hBusy
    · cases hBusy
    · rcases hIdle m' hm with h' | h' <;> rw [h'] <;> rfl
  · rw [hRole]
    rfl

theorem resume (hRole : role t m = .hands co) (hIdle : ∀ m', m' ≠ m → role t m' = .out ∨ role t m' = .holds)
    (hOff : ∀ m', m' ≠ m → role co m' ≠ .waiting) :
    Custody dead proc (Function.update stack p (some co :: some t :: rest)) (become role t m .out) pool locks line := by
  have hOthers := h.others_idle hAlive hStack
  have hSlot := (h.slot p m hAlive).resume hProc hRole fun u hut hu => ?_
  · rw [hStack] at hSlot
    have hStep := h.step hAlive hProc hSlot ?_ ?_ (h.quiet hAlive hProc hStack (m := m) ?_)
    · rwa [Function.update_eq_self, Function.update_eq_self] at hStep
    · intro u m' hm hu hw
      have huc : u ≠ co := by
        rintro rfl
        exact hOff m' hm hw
      simp [hStack, huc]
    · intro u m' hu hBusy
      rw [nobody_busy (p := p) rfl (fun m' hm => ?_) hOthers u m' hu] at hBusy
      · cases hBusy
      · rcases hIdle m' hm with h' | h' <;> rw [h'] <;> rfl
    · rw [hRole]
      rfl
  · exact LockRole.heir_of_idle (hOthers u m hut hu)

end Operations

end Custody

end TeaBot.Swoole
