import TeaBot.Captcha.StageRuns
import TeaBot.Captcha.Footprint

/-! # The two locks against each other

A coroutine that waits for the fast lock can only hold the per-user lock, and the other
way round, and there is one per-user lock. So all that can close is a cycle of two: a
`checkAnswer` that has the fast lock waits for the per-user lock of a coroutine that still
has to clean up its messages.
-/

namespace TeaBot.Captcha.Deadlock

open Foundation Foundation.System Responder

def other : Handle → Handle
  | .lockHandle => .fastLockHandle
  | .fastLockHandle => .lockHandle

@[simp] theorem other_other (h : Handle) : other (other h) = h := by
  cases h <;> rfl

theorem other_ne (h : Handle) : other h ≠ h := by
  cases h <;> exact nofun

theorem eq_or_eq_other (h h' : Handle) : h' = h ∨ h' = other h := by
  cases h <;> cases h' <;> first | exact .inl rfl | exact .inr rfl

def path (pr : Pair) : Handle → Path
  | .lockHandle => pr.lock
  | .fastLockHandle => pr.fast

variable {pr : Pair} {γ : Nat → Handle → Grip} {w : World} {t u : Nat} {h : Handle}

/-- Coroutine `t` waits with its handle `h` for a lock that `u` holds. -/
def Waits (γ : Nat → Handle → Grip) (w : World) (t : Nat) (h : Handle) (u : Nat) : Prop :=
  γ t h = .waiting ∧ ∃ i, w.opened t h = some i ∧ w.holder i = some (u, h)

/-- `kind` tells for what handle an inode was made. -/
structure Sound (pr : Pair) (kind : Nat → Handle) (γ : Nat → Handle → Grip) (w : World) : Prop where
  held : ∀ i u h, w.holder i = some (u, h) → w.opened u h = some i ∧ γ u h = .held
  single : ∀ u h, γ u h = .waiting → γ u (other h) ≠ .waiting
  file : ∀ h i, w.files (path pr h) = some i → kind i = h ∧ i < w.inodes
  opened : ∀ u h i, w.opened u h = some i → kind i = h ∧ i < w.inodes
  /-- The per-user lock file is never unlinked. -/
  same : ∀ u i, w.opened u .lockHandle = some i → w.files pr.lock = some i

namespace Sound

variable {kind : Nat → Handle}

theorem frame {w' : World} (hSound : Sound pr kind γ w) (hOpened : w'.opened = w.opened) (hHolder : w'.holder = w.holder)
    (hInodes : w.inodes ≤ w'.inodes) (hFiles : ∀ h i, w'.files (path pr h) = some i → w.files (path pr h) = some i)
    (hLock : ∀ i, w.files pr.lock = some i → w'.files pr.lock = some i) : Sound pr kind γ w' where
  held i u h hi := hOpened ▸ hSound.held i u h (hHolder ▸ hi)
  single := hSound.single
  file h i hi := ⟨(hSound.file h i (hFiles h i hi)).1, (hSound.file h i (hFiles h i hi)).2.trans_le hInodes⟩
  opened u h i hi := by
    rw [hOpened] at hi
    exact ⟨(hSound.opened u h i hi).1, (hSound.opened u h i hi).2.trans_le hInodes⟩
  same u i hi := hLock i (hSound.same u i (hOpened ▸ hi))

theorem ensure (hSound : Sound pr kind γ w) (h : Handle) :
    ∃ kind, Sound pr kind γ (w.ensure (path pr h)) := by
  cases hFile : w.files (path pr h) with
  | some i => exact ⟨kind, by rwa [World.ensure_of_some hFile]⟩
  | none =>
    cases hDir : w.hasDir (path pr h) with
    | false => exact ⟨kind, by simpa [World.ensure, hFile, hDir] using hSound⟩
    | true =>
      rw [World.ensure_of_none hFile hDir]
      have hOld : ∀ i, i < w.inodes → Function.update kind w.inodes h i = kind i := fun i hi =>
        Function.update_of_ne hi.ne _ _
      refine ⟨Function.update kind w.inodes h, hSound.held, hSound.single, fun h' i hi => ?_, fun u h' i hi => ?_,
        fun u i hi => ?_⟩
      · by_cases hh : path pr h' = path pr h
        · have hEq : h' = h := by cases h <;> cases h' <;> first | rfl | cases hh
          rw [hh] at hi
          dsimp only at hi
          rw [Function.update_self] at hi
          cases hi
          exact ⟨by rw [Function.update_self, hEq], Nat.lt_succ_self _⟩
        · dsimp only at hi
          rw [Function.update_of_ne hh] at hi
          obtain ⟨hKind, hLt⟩ := hSound.file h' i hi
          exact ⟨(hOld i hLt).trans hKind, Nat.lt_succ_of_lt hLt⟩
      · obtain ⟨hKind, hLt⟩ := hSound.opened u h' i hi
        exact ⟨(hOld i hLt).trans hKind, Nat.lt_succ_of_lt hLt⟩
      · have hLock := hSound.same u i hi
        have hNe : pr.lock ≠ path pr h := fun hEq => by rw [hEq, hFile] at hLock; cases hLock
        exact (Function.update_of_ne hNe _ _).trans hLock

end Sound

def regrip (γ : Nat → Handle → Grip) (t : Nat) (h : Handle) (g : Grip) (u : Nat) (h' : Handle) : Grip :=
  if u = t ∧ h' = h then g else γ u h'

namespace Sound

variable {kind : Nat → Handle}

theorem store {x : Option Nat} {g : Grip} (hSound : Sound pr kind γ w)
    (hOpened : ∀ i, x = some i → kind i = h ∧ i < w.inodes ∧ (h = .lockHandle → w.files pr.lock = some i))
    (hSingle : g = .waiting → γ t (other h) ≠ .waiting) :
    Sound pr kind (regrip γ t h g) (w.store t h x) where
  held i u h' hi := by
    simp only [World.store, World.release] at hi ⊢
    split at hi
    · cases hi
    · rename_i hNot
      have hNe : ¬ (u = t ∧ h' = h) := by
        rintro ⟨rfl, rfl⟩
        exact hNot hi
      rw [if_neg hNe, regrip, if_neg hNe]
      exact hSound.held i u h' hi
  single u h' hu := by
    unfold regrip at hu ⊢
    split at hu
    · rename_i hSelf
      obtain ⟨rfl, rfl⟩ := hSelf
      rw [if_neg (fun hEq => other_ne h' hEq.2)]
      exact hSingle hu
    · split
      · rename_i hSelf
        obtain ⟨rfl, rfl⟩ := hSelf
        intro hWaiting
        rw [other_other] at hSingle
        exact hSingle hWaiting hu
      · exact hSound.single u h' hu
  file := hSound.file
  opened u h' i hi := by
    simp only [World.store] at hi
    split at hi
    · rename_i hSelf
      rw [hSelf.2]
      exact ⟨(hOpened i hi).1, (hOpened i hi).2.1⟩
    · exact hSound.opened u h' i hi
  same u i hi := by
    simp only [World.store] at hi
    split at hi
    · rename_i hSelf
      exact (hOpened i hi).2.2 hSelf.2.symm
    · exact hSound.same u i hi

theorem holder_ne (hSound : Sound pr kind γ w) (hWaiting : γ t h = .waiting) (i : Nat) : w.holder i ≠ some (t, h) := by
  intro hHolder
  cases hWaiting.symm.trans (hSound.held i t h hHolder).2

theorem acquire (hSound : Sound pr kind γ w) (hWaiting : γ t h = .waiting) :
    Sound pr kind (regrip γ t h .held) (w.acquire t h) := by
  obtain ⟨hOpened, hFiles, hInodes⟩ := World.acquire_frame (w := w) t h
  constructor
  case held =>
    intro i u h' hi
    rw [hOpened]
    by_cases hSelf : u = t ∧ h' = h
    · obtain ⟨rfl, rfl⟩ := hSelf
      rcases World.holder_acquire hi with hOld | ⟨_, _, hOpen⟩
      · exact absurd hOld (hSound.holder_ne hWaiting i)
      · exact ⟨hOpen, if_pos ⟨rfl, rfl⟩⟩
    · rcases World.holder_acquire hi with hOld | ⟨hu, hh, _⟩
      · rw [regrip, if_neg hSelf]
        exact hSound.held i u h' hOld
      · exact absurd ⟨hu, hh⟩ hSelf
  case single =>
    intro u h' hu
    unfold regrip at hu ⊢
    split at hu
    · cases hu
    · split
      · exact nofun
      · exact hSound.single u h' hu
  case file =>
    rw [hFiles, hInodes]
    exact hSound.file
  case opened =>
    rw [hOpened, hInodes]
    exact hSound.opened
  case same =>
    rw [hOpened, hFiles]
    exact hSound.same

end Sound

/-! ## One operation -/

def grips (gs : List (Job × Local)) (u : Nat) (h : Handle) : Grip := (locals gs u).grip h

section Step

variable {gs : List (Job × Local)} {kind : Nat → Handle} {j : Job} {ℓ : Local} {o : Op} {ch : Choice}
  {r : Except Throwable o.Res} {w' : World}

theorem grip_after (h : Handle) : (ℓ.after o r).grip h = (ℓ.grip h).after h o := by
  cases h <;> rfl

theorem grip_local (i : Job) (h : Handle) : i.local.grip h = .free := by
  cases i with
  | task task => cases task <;> cases h <;> rfl
  | _ => cases h <;> rfl

theorem grip_spawned (h : Handle) : (spawnedLocal o r).grip h = .free := by
  rcases spawned_cases o r with ⟨_, hIdle⟩ | ⟨i, _, hLocal⟩
  · rw [hIdle]
    cases h <;> rfl
  · rw [hLocal]
    exact grip_local i h

theorem grips_advanced (hState : gs[t]? = some (j, ℓ)) (u : Nat) (h : Handle) :
    grips (advanced gs t j ℓ o r) u h = if u = t then (ℓ.grip h).after h o else grips gs u h := by
  unfold grips
  rcases locals_advanced_inv hState r u with ⟨rfl, hEq⟩ | ⟨hu, rfl, hEq⟩ | ⟨hu, hEq⟩ <;> rw [hEq]
  · rw [if_pos rfl, grip_after]
  · rw [if_neg hu, grip_spawned, locals_of_le le_rfl]
    cases h <;> rfl
  · rw [if_neg hu]

theorem grips_eq (hState : gs[t]? = some (j, ℓ)) (h : Handle) : grips gs t h = ℓ.grip h := by
  rw [grips, locals_eq hState]

theorem grips_regrip (hState : gs[t]? = some (j, ℓ)) {g : Grip} (hSelf : (ℓ.grip h).after h o = g)
    (hOther : ∀ g, Grip.after (other h) g o = g) : grips (advanced gs t j ℓ o r) = regrip (grips gs) t h g := by
  funext u h'
  rw [grips_advanced hState, regrip]
  by_cases hu : u = t
  · subst hu
    rcases eq_or_eq_other h h' with rfl | rfl
    · simp [hSelf]
    · simp [hOther, other_ne, grips_eq hState]
  · simp [hu]

theorem grips_same (hState : gs[t]? = some (j, ℓ)) (hLocking : World.locking o = false) :
    grips (advanced gs t j ℓ o r) = grips gs := by
  funext u h
  rw [grips_advanced hState]
  split
  · rename_i hu
    rw [hu, grips_eq hState]
    cases o <;> first | rfl | cases hLocking
  · rfl

variable {strict : Prop}

theorem path_of_fopen {p : Path} (hAdmits : Admits strict pr ℓ (.fopen h p)) : p = path pr h := by
  cases h with
  | lockHandle => exact hAdmits.2.2.1
  | fastLockHandle => exact hAdmits.2.2

theorem files_of_not_locking (hAdmits : Admits strict pr ℓ o) (hLocking : World.locking o = false)
    (hExec : exec t j o ch w = some (r, w')) :
    (∀ h i, w'.files (path pr h) = some i → w.files (path pr h) = some i) ∧
      ∀ i, w.files pr.lock = some i → w'.files pr.lock = some i := by
  have hMakes : ∀ h, ¬ World.makes (path pr h) o := by
    intro h hMakes
    cases o with
    | fopen h' p => cases hLocking
    | touch p | writeJson p v =>
      obtain ⟨_, _, hPath, _⟩ := hAdmits
      cases h <;> cases hPath.symm.trans hMakes
    | _ => cases hMakes
  constructor
  · intro h i hi
    rcases files_of_exec hExec (path pr h) with hSame | hMade | ⟨_, hNone⟩
    · rwa [hSame] at hi
    · exact absurd hMade (hMakes h)
    · rw [hNone] at hi
      cases hi
  · intro i hi
    rcases files_of_exec hExec pr.lock with hSame | hMade | ⟨rfl, _⟩
    · rwa [hSame]
    · exact absurd hMade (hMakes .lockHandle)
    · obtain ⟨_, _, hPath | ⟨hPath, _⟩⟩ := hAdmits <;> cases hPath

theorem store_opened (t : Nat) (h : Handle) : w.store t h (w.opened t h) = w.release t h := by
  have hEq : (fun u h' => if u = t ∧ h' = h then w.opened t h else w.opened u h') = w.opened := by
    funext u h'
    split
    · rename_i hSelf
      rw [hSelf.1, hSelf.2]
    · rfl
  rw [World.store, hEq]
  rfl

namespace Sound

theorem unflock (hSound : Sound pr kind γ w) : Sound pr kind (regrip γ t h .free) (w.release t h) := by
  rw [← store_opened]
  refine hSound.store (fun i hi => ⟨(hSound.opened t h i hi).1, (hSound.opened t h i hi).2, ?_⟩) nofun
  rintro rfl
  exact hSound.same t i hi

theorem close (hSound : Sound pr kind γ w) : Sound pr kind (regrip γ t h .free) (w.store t h none) :=
  hSound.store (g := .free) nofun nofun

theorem fopen (hSound : Sound pr kind γ w) (hSingle : γ t (other h) ≠ .waiting) :
    ∃ kind, Sound pr kind (regrip γ t h .waiting) (w.fopen t h (path pr h)) := by
  obtain ⟨kind', hMade⟩ := hSound.ensure h
  refine ⟨kind', hMade.store (fun i hi => ?_) fun _ => hSingle⟩
  obtain ⟨hKind, hLt⟩ := hMade.file h i hi
  refine ⟨hKind, hLt, ?_⟩
  rintro rfl
  exact hi

theorem step (hSound : Sound pr kind (grips gs) w) (hState : gs[t]? = some (j, ℓ)) (hAdmits : Admits strict pr ℓ o)
    (hExec : exec t j o ch w = some (r, w')) : ∃ kind, Sound pr kind (grips (advanced gs t j ℓ o r)) w' := by
  by_cases hLocking : World.locking o = false
  · -- the handles and what they hold are as before
    obtain ⟨hFiles, hLock⟩ := files_of_not_locking hAdmits hLocking hExec
    rw [grips_same hState hLocking]
    refine ⟨kind, ?_⟩
    rcases exec_eq_some hExec with ⟨e, _, rfl, rfl⟩ | ⟨a, _, rfl, rfl⟩
    · exact hSound.frame rfl rfl le_rfl hFiles hLock
    · obtain ⟨hOpened, hHolder⟩ := World.locks_effect (w := w.advance ch.elapsed) t hLocking
      exact hSound.frame hOpened hHolder (World.inodes_le_effect (w := w.advance ch.elapsed) t o) hFiles hLock
  · rcases exec_eq_some hExec with ⟨e, hRaises, _⟩ | ⟨a, _, rfl, rfl⟩
    · cases o with
      | exe call | genLatex str => exact absurd rfl hLocking
      | _ => cases hRaises
    · have hAdvance : Sound pr kind (grips gs) (w.advance ch.elapsed) :=
        hSound.frame rfl rfl le_rfl (fun _ _ hi => hi) fun _ hi => hi
      suffices hEffect : ∃ kind, Sound pr kind (grips (advanced gs t j ℓ o (.ok a)))
          ((w.advance ch.elapsed).effect t o) by
        obtain ⟨kind, hEffect⟩ := hEffect
        exact ⟨kind, hEffect.frame rfl rfl le_rfl (fun _ _ hi => hi) fun _ hi => hi⟩
      cases o with
      | fopen h p =>
        obtain rfl := path_of_fopen hAdmits
        rw [grips_regrip (h := h) (g := .waiting) hState (by simp [Grip.after]) (by simp [Grip.after, (other_ne h).symm])]
        refine hAdvance.fopen ?_
        rw [grips_eq hState]
        cases h with
        | lockHandle => exact hAdmits.1.1
        | fastLockHandle => exact hAdmits.1.2
      | flock h =>
        rw [grips_regrip (h := h) (g := .held) hState (by simp [Grip.after]) (by simp [Grip.after, (other_ne h).symm])]
        exact ⟨kind, hAdvance.acquire (by rw [grips_eq hState]; exact hAdmits)⟩
      | unflock h =>
        rw [grips_regrip (h := h) (g := .free) hState (by simp [Grip.after]) (by simp [Grip.after, (other_ne h).symm])]
        exact ⟨kind, hAdvance.unflock⟩
      | destruct =>
        have hGrips : grips (advanced gs t j ℓ .destruct (.ok a)) =
            regrip (regrip (grips gs) t .lockHandle .free) t .fastLockHandle .free := by
          funext u h
          rw [grips_advanced hState]
          cases h <;> simp [regrip, Grip.after]
        rw [hGrips]
        exact ⟨kind, hAdvance.close.close⟩
      | _ => exact absurd rfl hLocking

end Sound

end Step

/-! ## Runs -/

def holds (c : Conf) (t : Nat) (h : Handle) : Bool := (c.shared.opened t h).bind c.shared.holder = some (t, h)

def aboutToLock (c : Conf) (t : Nat) (h : Handle) : Bool :=
  match c.threads[t]? with
  | some (_, .op (.flock h') _) => h' = h
  | _ => false

/-- Coroutine `t` has the per-user lock or is about to take it. -/
def owns (c : Conf) (t : Nat) : Bool := holds c t .lockHandle || aboutToLock c t .lockHandle

def opensLock (c : Conf) (t : Nat) : Bool :=
  match c.threads[t]? with
  | some (_, .op (.fopen .lockHandle _) _) => true
  | _ => false

/-- The program may lock the fast lock before it gives the per-user lock back: its clean-up
test is ahead of it. -/
inductive LocksFast : Run Unit → Prop
  | here {k : Except Throwable Unit → Run Unit} : LocksFast (.op (.flock .fastLockHandle) k)
  | later {o : Op} {k : Except Throwable o.Res → Run Unit} {r : Except Throwable o.Res} :
      o ≠ .unflock .lockHandle → o ≠ .destruct → LocksFast (k r) → LocksFast (.op o k)

/-- The per-user lock file is opened with the fast lock in hand only while everybody else who
has the per-user lock, or is about to take it, has their clean-up test behind them. And
nobody opens it while another one who has the fast lock is about to take the per-user lock. -/
def Orderly (pr : Pair) (c : Conf) : Label Job Choice → Prop
  | .start j => j.Of False pr
  | .step t _ => opensLock c t = true → ∀ u, u ≠ t →
    (holds c t .fastLockHandle = true → owns c u = true → ∀ j q, c.threads[u]? = some (j, q) → ¬ LocksFast q) ∧
    (holds c u .fastLockHandle && aboutToLock c u .lockHandle) = false

/-- Some coroutines wait in `flock`, each for a lock that another of them holds. -/
def Deadlocked (c : Conf) : Prop :=
  ∃ S : Set Nat, S.Nonempty ∧ ∀ t ∈ S, ∃ u ∈ S, u ≠ t ∧ ∃ (j : Job) (h : Handle) (k : _) (i : Nat) (h' : Handle),
    c.threads[t]? = some (j, .op (.flock h) k) ∧ c.shared.opened t h = some i ∧ c.shared.holder i = some (u, h')

/-- No lock is held, and different paths have different inodes. -/
structure Unlocked (w : World) : Prop where
  opened : ∀ t h, w.opened t h = none
  holder : ∀ i, w.holder i = none
  bound : ∀ p i, w.files p = some i → i < w.inodes
  distinct : ∀ p q i, w.files p = some i → w.files q = some i → p = q

theorem Unlocked.sound (hUnlocked : Unlocked w) :
    Sound pr (fun i => if w.files pr.lock = some i then .lockHandle else .fastLockHandle) (grips []) w where
  held i u h hi := absurd hi (by rw [hUnlocked.holder]; exact nofun)
  single u h hu := by cases h <;> cases hu
  file h i hi := by
    refine ⟨?_, hUnlocked.bound _ i hi⟩
    cases h with
    | lockHandle => exact if_pos hi
    | fastLockHandle => exact if_neg fun hLock => nomatch hUnlocked.distinct pr.lock pr.fast i hLock hi
  opened u h i hi := absurd hi (by rw [hUnlocked.opened]; exact nofun)
  same u i hi := absurd hi (by rw [hUnlocked.opened]; exact nofun)

section Runs

variable {strict : Prop} {pr : Pair} {kind : Nat → Handle} {gs : List (Job × Local)} {c : Conf}

theorem flock_of_waiting (hTyped : Typed (stages strict pr) Finished gs c) (hSound : Sound pr kind (grips gs) c.shared)
    (hu : grips gs u h = .waiting) : ∃ j k, c.threads[u]? = some (j, .op (.flock h) k) := by
  cases hState : gs[u]? with
  | none =>
    rw [grips, locals_of_le (List.getElem?_eq_none_iff.mp hState)] at hu
    cases h <;> cases hu
  | some x =>
    obtain ⟨j, ℓ⟩ := x
    obtain ⟨q, hThread, hKeeps⟩ := hTyped.thread hState
    have hGrip : ℓ.grip h = .waiting := grips_eq hState h ▸ hu
    have hReady : ¬ ℓ.Ready := by
      rintro ⟨hFast, hLock⟩
      cases h with
      | lockHandle => exact hLock hGrip
      | fastLockHandle => exact hFast hGrip
    cases q with
    | ret a =>
      obtain ⟨hFast, hLock, _⟩ : Finished j _ ℓ := hKeeps
      exact absurd ⟨by simp [hFast], by simp [hLock]⟩ hReady
    | throw e =>
      obtain ⟨hFast, hLock, _⟩ : Finished j _ ℓ := hKeeps
      exact absurd ⟨by simp [hFast], by simp [hLock]⟩ hReady
    | op o k =>
      obtain ⟨hAdmits, _⟩ := hKeeps
      cases o with
      | flock h' =>
        rcases eq_or_eq_other h h' with rfl | rfl
        · exact ⟨j, k, hThread⟩
        · have hBoth : grips gs u (other h) = .waiting := grips_eq hState _ ▸ hAdmits
          exact absurd hBoth (hSound.single u h hu)
      | go task => cases task <;> exact absurd hAdmits.1 hReady
      | _ => exact absurd hAdmits.1 hReady

theorem sound_reach {s : World} (hUnlocked : Unlocked s) (hReach : system.Reach (Orderly pr) ⟨s, []⟩ c) :
    ∃ gs, Typed (stages False pr) Finished gs c ∧ Roles gs ∧ ∃ kind, Sound pr kind (grips gs) c.shared := by
  refine stages_reach (J := fun gs w => ∃ kind, Sound pr kind (grips gs) w) ?_ ?_ (.nil s) roles_nil
    ⟨_, hUnlocked.sound⟩ hReach
  · rintro c gs j _ ⟨kind, hSound⟩ hOk
    have hSame : grips (gs ++ [(j, j.local)]) = grips gs := by
      funext u h
      rw [grips, locals_start]
      split
      · rename_i hu
        rw [grip_local, grips, locals_of_le hu.ge]
        cases h <;> rfl
      · rfl
    exact ⟨hOk, kind, hSame ▸ hSound⟩
  · rintro c gs t ch j ℓ o k r w' _ _ ⟨kind, hSound⟩ _ _ hState hAdmits hExec
    exact hSound.step hState hAdmits hExec

theorem thread_of_aboutToLock (hNext : aboutToLock c t h = true) :
    ∃ j k, c.threads[t]? = some (j, .op (.flock h) k) := by
  unfold aboutToLock at hNext
  split at hNext
  · rename_i j h' k hThread
    cases of_decide_eq_true hNext
    exact ⟨j, k, hThread⟩
  · cases hNext

variable {j : Job}

theorem aboutToLock_of_thread {k : Except Throwable Unit → Run Unit}
    (hThread : c.threads[t]? = some (j, .op (.flock h) k)) : aboutToLock c t h = true := by
  simp [aboutToLock, hThread]

theorem holder_of_holds (hHolds : holds c t h = true) : ∃ i, c.shared.holder i = some (t, h) := by
  obtain ⟨i, _, hHolder⟩ := Option.bind_eq_some_iff.mp (of_decide_eq_true hHolds)
  exact ⟨i, hHolder⟩

theorem holds_of_holder {i : Nat} (hSound : Sound pr kind (grips gs) c.shared)
    (hHolder : c.shared.holder i = some (t, h)) : holds c t h = true := by
  simp [holds, (hSound.held i t h hHolder).1, hHolder]

theorem not_holds_of_le (hTyped : Typed (stages strict pr) Finished gs c) (hSound : Sound pr kind (grips gs) c.shared)
    (ht : c.threads.length ≤ t) : holds c t h ≠ true := by
  intro hHolds
  obtain ⟨i, hHolder⟩ := holder_of_holds hHolds
  have hGrip := (hSound.held i t h hHolder).2
  rw [grips, locals_of_le (hTyped.length ▸ ht)] at hGrip
  cases h <;> cases hGrip

theorem code_ne_flock (i : Job) (h : Handle) (k : Except Throwable Unit → Run Unit) :
    system.code i ≠ .op (.flock h) k := by
  cases i with
  | sections d bodies => cases bodies <;> exact nofun
  | task task =>
    cases task with
    | timer d rounds => exact nofun
    | deleteMessage chatId messageId => exact nofun
  | _ => exact nofun

theorem fopen_of_flock {ℓ : Local} {o : Op} {k : Except Throwable o.Res → Run Unit} {r : Except Throwable o.Res}
    {k' : Except Throwable Unit → Run Unit} (hSound : Sound pr kind (grips gs) c.shared) (hState : gs[t]? = some (j, ℓ))
    (hAdmits : Admits strict pr ℓ o) (hKeeps : (k r).Keeps (stages strict pr) (Finished j) (ℓ.after o r))
    (hNext : k r = .op (.flock .lockHandle) k') : ∃ p, o = .fopen .lockHandle p := by
  rw [hNext] at hKeeps
  have hWaiting : (ℓ.grip .lockHandle).after .lockHandle o = .waiting := grip_after .lockHandle ▸ hKeeps.1
  have hBefore : ∀ h, o = .flock h → ℓ.grip .lockHandle ≠ .waiting := by
    rintro h rfl hGrip
    cases h with
    | lockHandle => simp [Grip.after] at hWaiting
    | fastLockHandle =>
      refine hSound.single t .fastLockHandle ?_ ?_
      · rw [grips_eq hState]
        exact hAdmits
      · rw [grips_eq hState]
        exact hGrip
  cases o with
  | fopen h p =>
    cases h with
    | lockHandle => exact ⟨p, rfl⟩
    | fastLockHandle => exact absurd hWaiting hAdmits.1.2
  | flock h =>
    cases h with
    | lockHandle => cases hWaiting
    | fastLockHandle => exact absurd hWaiting (hBefore _ rfl)
  | unflock h =>
    cases h with
    | lockHandle => cases hWaiting
    | fastLockHandle => exact absurd hWaiting hAdmits.1.2
  | destruct => cases hWaiting
  | go task => cases task <;> exact absurd hWaiting hAdmits.1.2
  | _ => exact absurd hWaiting hAdmits.1.2

/-- Whoever has the fast lock and is about to take the per-user lock waits for nobody who
still has to clean up. -/
def Clear (c : Conf) : Prop :=
  ∀ v u j q, u ≠ v → holds c v .fastLockHandle = true → aboutToLock c v .lockHandle = true →
    owns c u = true → c.threads[u]? = some (j, q) → ¬ LocksFast q

theorem lt_of_owns (hTyped : Typed (stages strict pr) Finished gs c) (hSound : Sound pr kind (grips gs) c.shared)
    (hOwns : owns c u = true) : u < c.threads.length := by
  by_contra hLe
  rcases Bool.or_eq_true_iff.mp hOwns with hHolds | hAbout
  · exact not_holds_of_le hTyped hSound (not_lt.mp hLe) hHolds
  · obtain ⟨_, _, hThread⟩ := thread_of_aboutToLock hAbout
    exact hLe (List.getElem?_eq_some_iff.mp hThread).1

theorem Clear.start (hClear : Clear c) (hTyped : Typed (stages strict pr) Finished gs c)
    (hSound : Sound pr kind (grips gs) c.shared) (i : Job) :
    Clear ⟨c.shared, c.threads ++ [system.fresh i]⟩ := by
  have hOld : ∀ {u : Nat} {j : Job} {q : Run Unit}, (c.threads ++ [i].map system.fresh)[u]? = some (j, q) →
      c.threads[u]? = some (j, q) ∨ (c.threads.length ≤ u ∧ ∃ i, q = system.code i) := thread_append
  have hNext : ∀ u, aboutToLock ⟨c.shared, c.threads ++ [system.fresh i]⟩ u .lockHandle = true →
      aboutToLock c u .lockHandle = true := by
    intro u hu
    obtain ⟨j, k, hThread⟩ := thread_of_aboutToLock hu
    rcases hOld hThread with hSame | ⟨_, i, hCode⟩
    · exact aboutToLock_of_thread hSame
    · exact absurd hCode.symm (code_ne_flock i _ k)
  intro v u j q hNe hFast hWaits hOwns hThread
  have hOwns : owns c u = true := Bool.or_eq_true_iff.mpr ((Bool.or_eq_true_iff.mp hOwns).imp id (hNext u))
  rcases hOld hThread with hSame | ⟨hLe, _⟩
  · exact hClear v u j q hNe hFast (hNext v hWaits) hOwns hSame
  · exact absurd (lt_of_owns hTyped hSound hOwns) (not_lt.mpr hLe)

section Step

variable {t : Nat} {j : Job} {ℓ : Local} {o : Op} {k : Except Throwable o.Res → Run Unit} {r : Except Throwable o.Res}
  {ch : Choice} {s' : World} {c' : Conf}

theorem holds_before (hSound : Sound pr kind (grips gs) c.shared) (hExec : exec t j o ch c.shared = some (r, c'.shared))
    (hHolds : holds c' u h = true) :
    (holds c u h = true ∧ (u = t → o ≠ .unflock h ∧ o ≠ .destruct)) ∨ (u = t ∧ o = .flock h) := by
  obtain ⟨i, hHolder⟩ := holder_of_holds hHolds
  exact (holder_of_exec hExec hHolder).imp (fun hOld => ⟨holds_of_holder hSound hOld.1, hOld.2⟩) id

theorem aboutToLock_before (hSound : Sound pr kind (grips gs) c.shared) (hState : gs[t]? = some (j, ℓ))
    (hAdmits : Admits strict pr ℓ o) (hKeeps : (k r).Keeps (stages strict pr) (Finished j) (ℓ.after o r))
    (hThread : c.threads[t]? = some (j, .op o k))
    (hNext : c'.threads = c.threads.set t (j, k r) ++ (spawned o r).map system.fresh)
    (hAbout : aboutToLock c' u .lockHandle = true) :
    (u ≠ t ∧ aboutToLock c u .lockHandle = true) ∨ (u = t ∧ opensLock c t = true ∧ ∃ p, o = .fopen .lockHandle p) := by
  obtain ⟨j', k', hu⟩ := thread_of_aboutToLock hAbout
  rw [hNext] at hu
  rcases thread_set_append hThread hu with ⟨rfl, _, hEq⟩ | ⟨hNe, hSame⟩ | ⟨_, _, i, hCode⟩
  · obtain ⟨p, rfl⟩ := fopen_of_flock hSound hState hAdmits hKeeps hEq.symm
    exact .inr ⟨rfl, by simp [opensLock, hThread], p, rfl⟩
  · exact .inl ⟨hNe, aboutToLock_of_thread hSame⟩
  · exact absurd hCode.symm (code_ne_flock i _ k')

theorem Clear.step (hClear : Clear c) (hTyped : Typed (stages False pr) Finished gs c)
    (hSound : Sound pr kind (grips gs) c.shared) (hOk : Orderly pr c (.step t ch))
    (hStep : system.next c (.step t ch) = some c') : Clear c' := by
  obtain ⟨j, o, k, r, s', hThread, hExec, hEq⟩ := next_step_eq_some hStep
  obtain ⟨ℓ, hState, hAdmits, hKeeps⟩ := hTyped.state hThread
  have hExec : exec t j o ch c.shared = some (r, c'.shared) := hEq ▸ hExec
  have hNew : c'.threads = c.threads.set t (j, k r) ++ (spawned o r).map system.fresh := hEq ▸ rfl
  have hHolds := fun {u h} (hHolds : holds c' u h = true) => holds_before hSound hExec hHolds
  have hAbout := fun {u} (hAbout : aboutToLock c' u .lockHandle = true) =>
    aboutToLock_before hSound hState hAdmits (hKeeps r (answers_of_exec hExec)) hThread hNew hAbout
  intro v u j' q hNe hFast hWaits hOwns hu hLocks
  rw [hNew] at hu
  have hFast : holds c v .fastLockHandle = true := by
    rcases hHolds hFast with hOld | ⟨rfl, hLock⟩
    · exact hOld.1
    · rcases hAbout hWaits with ⟨hvt, _⟩ | ⟨_, _, p, hOpen⟩
      · exact absurd rfl hvt
      · cases hLock.symm.trans hOpen
  by_cases hut : u = t
  · -- the coroutine itself: what is ahead of it was ahead before
    subst hut
    obtain ⟨hvt, hWaits⟩ := (hAbout hWaits).resolve_right fun hv => hNe hv.1.symm
    have hq : q = k r := by
      rcases thread_set_append hThread hu with ⟨_, _, hq⟩ | ⟨hSelf, _⟩ | ⟨hSelf, _⟩
      · exact hq
      · exact absurd rfl hSelf
      · exact absurd rfl hSelf
    rw [hq] at hLocks
    rcases Bool.or_eq_true_iff.mp hOwns with hLock | hLock
    · rcases hHolds hLock with ⟨hOld, hKept⟩ | ⟨_, rfl⟩
      · obtain ⟨hUnlock, hDestruct⟩ := hKept rfl
        exact hClear v u j _ hNe hFast hWaits (by simp [owns, hOld]) hThread (.later hUnlock hDestruct hLocks)
      · exact hClear v u j _ hNe hFast hWaits (by simp [owns, aboutToLock_of_thread hThread]) hThread
          (.later nofun nofun hLocks)
    · obtain ⟨_, hOpens, _⟩ := (hAbout hLock).resolve_left fun hSelf => hSelf.1 rfl
      have hNone := (hOk hOpens v hvt).2
      simp [hFast, hWaits] at hNone
  · have hOwns : owns c u = true := by
      refine Bool.or_eq_true_iff.mpr ((Bool.or_eq_true_iff.mp hOwns).imp (fun hLock => ?_) fun hLock => ?_)
      · exact ((hHolds hLock).resolve_right fun hSelf => hut hSelf.1).1
      · exact ((hAbout hLock).resolve_right fun hSelf => hut hSelf.1).2
    have hSame : c.threads[u]? = some (j', q) := by
      rcases thread_set_append hThread hu with ⟨hSelf, _⟩ | ⟨_, hSame⟩ | ⟨_, hLe, _⟩
      · exact absurd hSelf hut
      · exact hSame
      · exact absurd (lt_of_owns hTyped hSound hOwns) (not_lt.mpr hLe)
    rcases hAbout hWaits with ⟨_, hWaits⟩ | ⟨rfl, hOpens, _⟩
    · exact hClear v u j' q hNe hFast hWaits hOwns hSame hLocks
    · exact (hOk hOpens u hNe).1 hFast hOwns j' q hSame hLocks

end Step

theorem clear_reach {s : World} (hUnlocked : Unlocked s) (hReach : system.Reach (Orderly pr) ⟨s, []⟩ c) : Clear c := by
  induction hReach with
  | refl => exact fun v u j q _ _ _ _ hThread => by cases hThread
  | @step c₁ c₂ l hPrev hOk hNext ih =>
    obtain ⟨gs, hTyped, _, kind, hSound⟩ := sound_reach hUnlocked hPrev
    cases l with
    | start i =>
      cases hNext
      exact ih.start hTyped hSound i
    | step t ch => exact ih.step hTyped hSound hOk hNext

theorem waits_of_flock (hTyped : Typed (stages strict pr) Finished gs c) (hSound : Sound pr kind (grips gs) c.shared)
    {i : Nat} {h' : Handle} {k : Except Throwable Unit → Run Unit}
    (hThread : c.threads[t]? = some (j, .op (.flock h) k)) (hOpened : c.shared.opened t h = some i)
    (hHolder : c.shared.holder i = some (u, h')) : Waits (grips gs) c.shared t h u := by
  obtain ⟨ℓ, hState, hAdmits, _⟩ := hTyped.state hThread
  have hKind := (hSound.opened t h i hOpened).1
  have hKind' := (hSound.opened u h' i (hSound.held i u h' hHolder).1).1
  rw [hKind.symm.trans hKind']
  refine ⟨?_, i, ?_, hHolder⟩
  · rw [grips_eq hState, ← hKind', hKind]
    exact hAdmits
  · rw [← hKind', hKind]
    exact hOpened

theorem never_deadlocked (pr : Pair) (s : World) (c : Conf) (hUnlocked : Unlocked s)
    (hReach : system.Reach (Orderly pr) ⟨s, []⟩ c) : ¬ Deadlocked c := by
  obtain ⟨gs, hTyped, _, kind, hSound⟩ := sound_reach hUnlocked hReach
  have hClear : Clear c := clear_reach hUnlocked hReach
  rintro ⟨S, ⟨t₀, ht₀⟩, hS⟩
  -- whoever is waited for waits with the other handle
  have hNext : ∀ t ∈ S, ∃ h, ∃ u ∈ S, Waits (grips gs) c.shared t h u := by
    intro t ht
    obtain ⟨u, hu, _, j, h, k, i, h', hThread, hOpened, hHolder⟩ := hS t ht
    exact ⟨h, u, hu, waits_of_flock hTyped hSound hThread hOpened hHolder⟩
  have hSwap : ∀ t u h, u ∈ S → Waits (grips gs) c.shared t h u →
      ∃ v ∈ S, Waits (grips gs) c.shared u (other h) v := by
    rintro t u h hu ⟨_, i, _, hHolder⟩
    obtain ⟨h', v, hv, hWaits⟩ := hNext u hu
    rcases eq_or_eq_other h h' with rfl | rfl
    · exact absurd hHolder (hSound.holder_ne hWaits.1 i)
    · exact ⟨v, hv, hWaits⟩
  obtain ⟨t, u, hu, hWaits⟩ : ∃ t, ∃ u ∈ S, Waits (grips gs) c.shared t .lockHandle u := by
    obtain ⟨h, u, hu, hWaits⟩ := hNext t₀ ht₀
    cases h with
    | lockHandle => exact ⟨t₀, u, hu, hWaits⟩
    | fastLockHandle =>
      obtain ⟨v, hv, hBack⟩ := hSwap t₀ u _ hu hWaits
      exact ⟨u, v, hv, hBack⟩
  obtain ⟨v, hv, hFast⟩ := hSwap t u _ hu hWaits
  obtain ⟨x, _, hLock⟩ := hSwap u v _ hv hFast
  -- there is only one per-user lock
  have hSame : x = u := by
    obtain ⟨_, i, hOpened, hHolder⟩ := hWaits
    obtain ⟨_, i', hOpened', hHolder'⟩ := hLock
    cases (hSound.same t i hOpened).symm.trans (hSound.same v i' hOpened')
    cases hHolder.symm.trans hHolder'
    rfl
  subst hSame
  -- `v` has the fast lock and waits for `x`, which has its clean-up test ahead
  obtain ⟨hGrip, _, _, hHolder⟩ := hFast
  obtain ⟨hGrip', _, _, hHolder'⟩ := hLock
  obtain ⟨j, k, hNext⟩ := flock_of_waiting hTyped hSound hGrip
  obtain ⟨j', k', hNext'⟩ := flock_of_waiting hTyped hSound hGrip'
  have hNe : x ≠ v := by
    rintro rfl
    cases (Prod.mk.inj (Option.some.inj (hNext.symm.trans hNext'))).2
  exact hClear v x j _ hNe (holds_of_holder hSound hHolder) (aboutToLock_of_thread hNext')
    (Bool.or_eq_true_iff.mpr (.inl (holds_of_holder hSound hHolder'))) hNext .here

end Runs

theorem unlocked_initial : Unlocked .initial := ⟨fun _ _ => rfl, fun _ => rfl, nofun, nofun⟩

def waitsFor (c : Conf) (t : Nat) (h : Handle) (u : Nat) : Bool :=
  aboutToLock c t h && (c.shared.opened t h).bind c.shared.holder = some (u, h)

/-- No step opens the per-user lock file with the fast lock in hand, or while somebody with
the fast lock is about to take the per-user lock. -/
def orderly (c : Conf) : Label Job Choice → Bool
  | .start _ => true
  | .step t _ => !opensLock c t || (!holds c t .fastLockHandle && (List.range c.threads.length).all fun u =>
      !(holds c u .fastLockHandle && aboutToLock c u .lockHandle))

theorem orderly_step {c : Conf} {ch : Choice} (hOk : orderly c (.step t ch) = true) : Orderly pr c (.step t ch) := by
  intro hOpens u _
  obtain ⟨hFast, hOthers⟩ : holds c t .fastLockHandle = false ∧ ∀ u < c.threads.length,
      holds c u .fastLockHandle = false ∨ aboutToLock c u .lockHandle = false := by
    simpa [orderly, hOpens] using hOk
  refine ⟨fun hHolds => absurd (hFast.symm.trans hHolds) nofun, ?_⟩
  by_cases hu : u < c.threads.length
  · exact Bool.and_eq_false_iff.mpr (hOthers u hu)
  · simp [aboutToLock, List.getElem?_eq_none (not_lt.mp hu)]

/-- `dropCaptcha` has cleaned up and is about to make its captcha; a message has the fast lock
and is about to open the per-user lock file. -/
def queued : List (Label Job Choice) :=
  .start (.dropCaptcha newcomer 1) :: steps 0 16 ++ .start (.message newcomer) :: steps 1 7

theorem not_locksFast {q : Run Unit} (hUses : q.Uses (· ≠ .flock .fastLockHandle)) : ¬ LocksFast q := by
  intro hLocks
  induction hLocks with
  | here => exact hUses.1 rfl
  | later _ _ _ ih => exact ih (hUses.2 _)

theorem cleanedUp_not_locksFast : ¬ LocksFast (withObject ((mantissa newcomer 1).bind fun _ => unlock)) := by
  refine not_locksFast (.tryFinally (.bind ?_ fun _ => .perform nofun) (.perform nofun))
  exact mantissa_uses nofun nofun nofun nofun nofun

theorem never_deadlocked_queued :
    ∃ c, system.Reach (Orderly (.of newcomer)) ⟨.initial, []⟩ c ∧ waitsFor c 1 .lockHandle 0 = true ∧
      holds c 1 .fastLockHandle = true ∧ ¬ Deadlocked c := by
  have hFirst : ((system.runWhile orderly ⟨.initial, []⟩ queued).bind fun c => c.threads[0]?) =
      some (.dropCaptcha newcomer 1, withObject ((mantissa newcomer 1).bind fun _ => unlock)) := rfl
  have hLast : ((system.runWhile orderly ⟨.initial, []⟩ queued).bind fun c => (system.next c (.step 1 {})).map (c, ·)).any
      (fun (c, c') => c.threads.length == 2 && !aboutToLock c 0 .lockHandle &&
        (waitsFor c' 1 .lockHandle 0 && holds c' 1 .fastLockHandle)) = true := by
    decide +kernel
  obtain ⟨⟨c, c'⟩, hRuns, hLast⟩ := (Option.any_eq_true _ _).mp hLast
  obtain ⟨_, hRun, hNext⟩ := Option.bind_eq_some_iff.mp hRuns
  obtain ⟨_, hNext, hPair⟩ := Option.map_eq_some_iff.mp hNext
  cases hPair
  rw [hRun, Option.bind_some] at hFirst
  simp only [Bool.and_eq_true, beq_iff_eq, Bool.not_eq_true'] at hLast
  obtain ⟨⟨hLength, hAbout⟩, hWaits, hHolds⟩ := hLast
  -- the message takes the fast lock along to a coroutine that has cleaned up
  have hOk : Orderly (.of newcomer) c (.step 1 {}) := by
    intro _ u hu
    rcases u with _ | _ | u
    · refine ⟨fun _ _ j q hThread => ?_, by simp [hAbout]⟩
      cases hFirst.symm.trans hThread
      exact cleanedUp_not_locksFast
    · exact absurd rfl hu
    · have hNone : c.threads[u + 2]? = none := List.getElem?_eq_none (by omega)
      exact ⟨fun _ _ j q hThread => absurd (hNone.symm.trans hThread) nofun, by simp [aboutToLock, hNone]⟩
  have hReach : system.Reach (Orderly (.of newcomer)) ⟨.initial, []⟩ c' := by
    refine .step (reach_of_runWhile (fun l hl c hOk => ?_) hRun) hOk hNext
    cases l with
    | start j =>
      have hj : j = .dropCaptcha newcomer 1 ∨ j = .message newcomer := by simpa [queued, steps] using hl
      rcases hj with rfl | rfl
      · exact ⟨rfl, nofun⟩
      · rfl
    | step t ch => exact orderly_step hOk
  exact ⟨c', hReach, hWaits, hHolds, never_deadlocked _ _ c' unlocked_initial hReach⟩

theorem eq_of_waitsFor {c : Conf} (hWaits : waitsFor c t h u = true) :
    ∃ j k i, c.threads[t]? = some (j, .op (.flock h) k) ∧ c.shared.opened t h = some i ∧
      c.shared.holder i = some (u, h) := by
  obtain ⟨hNext, hHeld⟩ := Bool.and_eq_true_iff.mp hWaits
  obtain ⟨j, k, hThread⟩ := thread_of_aboutToLock hNext
  obtain ⟨i, hOpened, hHolder⟩ := Option.bind_eq_some_iff.mp (of_decide_eq_true hHeld)
  exact ⟨j, k, i, hThread, hOpened, hHolder⟩

/-- The message holds the fast lock and waits for the per-user lock; `dropCaptcha` holds
that and waits for the fast lock to clean up. -/
def crossed : List (Label Job Choice) :=
  .start (.dropCaptcha newcomer 1) :: steps 0 8 ++ .start (.message newcomer) :: steps 1 8 ++ steps 0 1

theorem crossed_deadlocked :
    ∃ c, system.Reach (JobsOf True (.of newcomer)) ⟨.initial, []⟩ c ∧ Deadlocked c := by
  have hRun : (system.run ⟨.initial, []⟩ crossed).any
      (fun c => waitsFor c 0 .fastLockHandle 1 && waitsFor c 1 .lockHandle 0) = true := by
    decide +kernel
  obtain ⟨c, hc, hCrossed⟩ := (Option.any_eq_true _ _).mp hRun
  obtain ⟨h₀, h₁⟩ := Bool.and_eq_true_iff.mp hCrossed
  refine ⟨c, reach_of_run (fun l hl c => ?_) hc, {0, 1}, ⟨0, .inl rfl⟩, ?_⟩
  · cases l with
    | start j =>
      have hj : j = .dropCaptcha newcomer 1 ∨ j = .message newcomer := by simpa [crossed, steps] using hl
      rcases hj with rfl | rfl
      · exact ⟨rfl, fun _ => newcomer_proper⟩
      · rfl
    | step t ch => trivial
  · rintro t (rfl | rfl)
    · obtain ⟨j, k, i, hThread, hOpened, hHolder⟩ := eq_of_waitsFor h₀
      exact ⟨1, .inr rfl, nofun, j, _, k, i, _, hThread, hOpened, hHolder⟩
    · obtain ⟨j, k, i, hThread, hOpened, hHolder⟩ := eq_of_waitsFor h₁
      exact ⟨0, .inl rfl, nofun, j, _, k, i, _, hThread, hOpened, hHolder⟩

end TeaBot.Captcha.Deadlock
