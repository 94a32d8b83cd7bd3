import TeaBot.Captcha.World

/-! # Agreement on a lock file

All coroutines that wait for a lock or hold it have the same inode open, and it is the one
the path names, if it names any. Then at most one of them holds the lock.
-/

namespace TeaBot.Captcha

open Responder

/-- `φ` tells who waits for the lock and who holds it. -/
def Agreed (h : Handle) (p : Path) (φ : Nat → Grip) (w : World) : Prop :=
  ∃ i, ∀ t, φ t ≠ .free → w.opened t h = some i ∧
    (φ t = .held → w.holder i = some (t, h)) ∧ ∀ j, w.files p = some j → j = i

variable {h : Handle} {p : Path} {φ : Nat → Grip} {w : World} {t : Nat}

variable {w' : World}

section

variable (hAgreed : Agreed h p φ w)

include hAgreed

theorem Agreed.frame (hFiles : ∀ j, w'.files p = some j → w.files p = some j)
    (hOpened : ∀ u, w'.opened u h = w.opened u h)
    (hHolder : ∀ i u, w.holder i = some (u, h) → w'.holder i = some (u, h)) : Agreed h p φ w' := by
  obtain ⟨i, hi⟩ := hAgreed
  refine ⟨i, fun u hu => ?_⟩
  rw [hOpened]
  obtain ⟨hOpen, hHeld, hPath⟩ := hi u hu
  exact ⟨hOpen, fun hu' => hHolder i u (hHeld hu'), fun j hj => hPath j (hFiles j hj)⟩

theorem Agreed.eq_of_held {u : Nat} (ht : φ t = .held) (hu : φ u = .held) : t = u := by
  obtain ⟨i, hi⟩ := hAgreed
  have hHolder := (hi t (by simp [ht])).2.1 ht
  have hHolder' := (hi u (by simp [hu])).2.1 hu
  exact congrArg Prod.fst (Option.some.inj (hHolder.symm.trans hHolder'))

theorem Agreed.drop (hFiles : w'.files = w.files) (hOpened : ∀ u, u ≠ t → w'.opened u h = w.opened u h)
    (hHolder : ∀ i u, u ≠ t → w.holder i = some (u, h) → w'.holder i = some (u, h)) :
    Agreed h p (Function.update φ t .free) w' := by
  obtain ⟨i, hi⟩ := hAgreed
  refine ⟨i, fun u hu => ?_⟩
  by_cases hut : u = t
  · subst hut
    simp at hu
  · rw [Function.update_of_ne hut] at hu ⊢
    obtain ⟨hOpen, hHeld, hPath⟩ := hi u hu
    rw [hOpened u hut, hFiles]
    exact ⟨hOpen, fun hu' => hHolder i u hut (hHeld hu'), hPath⟩

theorem Agreed.fopen (hDir : w.hasDir p = true) (hFree : φ t = .free) (hNew : w.files p = none → ∀ u, φ u = .free) :
    Agreed h p (Function.update φ t .waiting) (w.fopen t h p) := by
  obtain ⟨i, hi⟩ := hAgreed
  have hHolder : ∀ k u, u ≠ t → w.holder k = some (u, h) →
      (w.fopen t h p).holder k = some (u, h) := by
    intro k u hu hk
    simp [World.fopen, World.store, World.release, hk, hu]
  have hOpened : ∀ u, u ≠ t → (w.fopen t h p).opened u = w.opened u := by
    intro u hu
    funext h'
    simp [World.fopen, World.store, hu]
  cases hFiles : w.files p with
  | some j =>
    have hEnsure : w.ensure p = w := World.ensure_of_some hFiles
    refine ⟨j, fun u hu => ?_⟩
    have hPath : ∀ k, (w.fopen t h p).files p = some k → k = j := by
      intro k hk
      simp only [World.fopen, World.store, World.release, hEnsure, hFiles] at hk
      exact (Option.some.inj hk).symm
    by_cases hut : u = t
    · subst hut
      refine ⟨by simp [World.fopen, World.store, hEnsure, hFiles], fun hHeld => ?_, hPath⟩
      simp at hHeld
    · rw [Function.update_of_ne hut] at hu ⊢
      obtain ⟨hOpen, hHeld, hSame⟩ := hi u hu
      rw [hSame j hFiles, hOpened u hut] at *
      exact ⟨hOpen, fun hu' => hHolder i u hut (hHeld hu'), hPath⟩
  | none =>
    have hEnsure := World.ensure_of_none hFiles hDir
    refine ⟨w.inodes, fun u hu => ?_⟩
    by_cases hut : u = t
    · subst hut
      refine ⟨by simp [World.fopen, World.store, hEnsure], fun hHeld => ?_, fun k hk => ?_⟩
      · simp at hHeld
      · simp only [World.fopen, World.store, World.release, hEnsure, Function.update_self] at hk
        exact (Option.some.inj hk).symm
    · rw [Function.update_of_ne hut] at hu
      exact absurd (hNew hFiles u) hu

theorem Agreed.flock (hWaiting : φ t = .waiting) (hFree : w.blocked t h = false) :
    Agreed h p (Function.update φ t .held) (w.acquire t h) := by
  obtain ⟨i, hi⟩ := hAgreed
  obtain ⟨hOpen, _, hPath⟩ := hi t (by simp [hWaiting])
  have hAcquire : w.acquire t h =
      { w with holder := Function.update w.holder i (some (t, h)) } := by
    simp only [World.acquire, hOpen]
  rw [hAcquire]
  refine ⟨i, fun u hu => ?_⟩
  by_cases hut : u = t
  · subst hut
    exact ⟨hOpen, fun _ => Function.update_self _ _ _, hPath⟩
  · rw [Function.update_of_ne hut] at hu ⊢
    obtain ⟨hOpen', hHeld, hPath'⟩ := hi u hu
    refine ⟨hOpen', fun hu' => ?_, hPath'⟩
    -- another holder would have blocked the call
    simp [World.blocked, hOpen, hHeld hu', hut] at hFree

/-- One operation of coroutine `t`. The file may be unlinked, but it is made anew only
when nobody is concerned with an older one. -/
theorem Agreed.step {j : Job} {o : Op} {ch : Choice} {r : Except Throwable o.Res}
    (hExec : exec t j o ch w = some (r, w'))
    (hOpen : ∀ q, o = .fopen h q → q = p ∧ w.hasDir p = true ∧ φ t = .free ∧ (w.files p = none → ∀ u, φ u = .free))
    (hWait : o = .flock h → φ t = .waiting)
    (hFiles : (∀ q, o ≠ .fopen h q) → ∀ i, w'.files p = some i → w.files p = some i) :
    Agreed h p (Function.update φ t ((φ t).after h o)) w' := by
  have hSame : (φ t).after h o = φ t → Function.update φ t ((φ t).after h o) = φ := fun hEq => by
    rw [hEq, Function.update_eq_self]
  by_cases hLocking : World.locking o = false
  · -- nothing happens to the handles
    obtain ⟨hOpened, hHolder⟩ := locks_of_exec hExec hLocking
    rw [hSame (by cases o <;> first | rfl | cases hLocking)]
    refine hAgreed.frame (hFiles ?_) (fun u => by rw [hOpened]) fun i u hi => by rwa [hHolder]
    rintro q rfl
    cases hLocking
  · rcases exec_eq_some hExec with ⟨e, hRaises, _⟩ | ⟨a, _, rfl, rfl⟩
    · exact absurd (raises_not_locking hRaises) hLocking
    · have hAdvance : Agreed h p φ (w.advance ch.elapsed) := hAgreed
      suffices hEffect : Agreed h p (Function.update φ t ((φ t).after h o)) ((w.advance ch.elapsed).effect t o) from
        hEffect
      cases o with
      | fopen h' q =>
        by_cases hh : h' = h
        · subst hh
          obtain ⟨rfl, hDir, hFree, hNew⟩ := hOpen q rfl
          rw [Grip.after, if_pos rfl]
          exact hAdvance.fopen hDir hFree hNew
        · rw [hSame (if_neg hh)]
          refine hAdvance.frame (hFiles fun q hq => hh (Op.fopen.inj hq).1) (fun u => ?_) fun i u hi => ?_
          · simp [World.effect, World.fopen, World.store, Ne.symm hh]
          · simp [World.effect, World.fopen, World.store, World.release, hi, Ne.symm hh]
      | flock h' =>
        have hFree := unblocked_of_exec (j := j) hExec
        by_cases hh : h' = h
        · subst hh
          rw [Grip.after, if_pos rfl]
          exact hAdvance.flock (hWait rfl) hFree
        · rw [hSame (if_neg hh)]
          obtain ⟨hOpened, hPaths, _⟩ := World.acquire_frame (w := w.advance ch.elapsed) t h'
          refine hAdvance.frame (fun i hi => ?_) (fun u => ?_) fun i u hi => ?_
          · rwa [World.effect, hPaths] at hi
          · rw [World.effect, hOpened]
          · -- a lock that is held cannot have been acquired
            simp only [World.effect, World.acquire]
            split
            · rename_i i₀ hi₀
              have hNe : i ≠ i₀ := by
                rintro rfl
                have hOpen : w.opened t h' = some i := hi₀
                have hHolder : w.holder i = some (u, h) := hi
                simp [World.blocked, hOpen, hHolder, Ne.symm hh] at hFree
              exact (Function.update_of_ne hNe _ _).trans hi
            · exact hi
      | unflock h' =>
        by_cases hh : h' = h
        · subst hh
          rw [Grip.after, if_pos rfl]
          refine hAdvance.drop rfl (fun _ _ => rfl) fun i u hu hi => ?_
          simp [World.effect, World.release, hi, hu]
        · rw [hSame (if_neg hh)]
          refine hAdvance.frame (fun _ hi => hi) (fun _ => rfl) fun i u hi => ?_
          simp [World.effect, World.release, hi, Ne.symm hh]
      | destruct =>
        refine hAdvance.drop rfl (fun u hu => ?_) fun i u hu hi => ?_
        · simp [World.effect, World.destruct, World.store, World.release, hu]
        · simp [World.effect, World.destruct, World.store, World.release, hi, hu]
      | _ => exact absurd rfl hLocking

end

end TeaBot.Captcha
