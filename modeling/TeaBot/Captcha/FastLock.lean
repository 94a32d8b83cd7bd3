import TeaBot.Captcha.Agreed
import TeaBot.Foundation.TypedRuns

/-! # The fast lock

`fastUnlock` releases the lock and only then unlinks its file, so a path can name another
inode than the one a waiting process has open. As long as nobody makes the file anew while
another process still waits for or holds an older one, all of them agree on the inode and
at most one is in its critical section.
-/

namespace TeaBot.Captcha.FastLock

open Foundation Foundation.System Responder

/-- What a critical section may do: anything but touch the lock or start coroutines. -/
def inner (p : Path) : Op → Bool
  | .fopen .. | .flock _ | .unflock _ | .destruct | .go _ | .beyond => false
  | .touch q | .writeJson q _ | .unlink q => q ≠ p
  | _ => true

/-- Between the return of `fastLock` and the call of `fastUnlock`: next is an operation of the
section, or the unlock at its end. -/
def InCritical (p : Path) : Run Unit → Prop
  | .op o _ => o = .unflock .fastLockHandle ∨ inner p o = true
  | _ => False

/-! ## What a process does with the lock -/

def Admits (p : Path) (g : Grip) : Op → Prop
  | .fopen h q => g = .free ∧ h = .fastLockHandle ∧ q = p
  | .flock h => g = .waiting ∧ h = .fastLockHandle
  | .unflock h => g = .held ∧ h = .fastLockHandle
  | .destruct => g ≠ .waiting
  | .unlink q => if q = p then g = .free else g = .held
  | o => g = .held ∧ inner p o = true

def locking (p : Path) : Discipline Op Op.Res Throwable Grip where
  admits := Admits p
  answers o r := ∀ e, r = .error e → raises o = true
  after g o _ := g.after .fastLockHandle o

variable {o : Op}

theorem admits_of_inner {p : Path} (h : inner p o = true) :
    Admits p .held o ∧ Grip.after .fastLockHandle .held o = .held := by
  cases o with
  | unlink q =>
    have hNe : q ≠ p := of_decide_eq_true h
    exact ⟨by rw [Admits, if_neg hNe], rfl⟩
  | fopen | flock | unflock | destruct | go | beyond => cases h
  | _ => exact ⟨⟨rfl, h⟩, rfl⟩

theorem held_of_inCritical {p : Path} {g : Grip} (hAdmits : Admits p g o)
    (h : o = .unflock .fastLockHandle ∨ inner p o = true) : g = .held := by
  rcases h with rfl | hInner
  · exact hAdmits.1
  · cases o with
    | unlink q =>
      have hNe : q ≠ p := of_decide_eq_true hInner
      rwa [Admits, if_neg hNe] at hAdmits
    | fopen | flock | unflock | destruct | go | beyond => cases hInner
    | _ => exact hAdmits.1

theorem eq_flock_of_waiting {p : Path} (h : Admits p .waiting o) : o = .flock .fastLockHandle := by
  cases o with
  | flock h' => rw [h.2]
  | fopen => cases h.1
  | unflock => cases h.1
  | destruct => exact absurd rfl h
  | unlink q =>
    rw [Admits] at h
    split at h <;> cases h
  | _ => cases h.1

variable {p : Path}

theorem raises_of_answers {e : Throwable} (h : (locking p).answers o (.error e)) : raises o = true := h e rfl

theorem sections_keeps (d : Data) {bodies : List (Run Unit)}
    (hBodies : ∀ body ∈ bodies, body.Uses fun o => inner (fastLockFile d) o = true) :
    (sections d bodies).Keeps (locking (fastLockFile d)) (fun _ g => g ≠ .waiting) .free := by
  induction bodies with
  | nil =>
    intro hEq
    cases hEq
  | cons body rest ih =>
    have hBody : body.Keeps (locking (fastLockFile d)) (fun _ g => g = .held) .held := by
      refine .of_uses (hBodies body List.mem_cons_self) ?_ ?_ rfl
      · rintro g o rfl hInner
        exact (admits_of_inner hInner).1
      · rintro g o r rfl hInner _
        exact (admits_of_inner hInner).2
    have hLock : (fastLock d).Keeps (locking (fastLockFile d)) (Prog.Silent .held) .free :=
      fastLock_silent (fun _ _ => raises_of_answers) ⟨rfl, rfl, rfl⟩ rfl ⟨rfl, rfl⟩ rfl
    have hUnlock : (fastUnlock d).Keeps (locking (fastLockFile d)) (Prog.Silent .free) .held :=
      fastUnlock_silent (fun _ _ => raises_of_answers) ⟨rfl, rfl⟩ rfl (by simp [locking, Admits, Grip.after]) rfl
    refine .silent_then hLock fun _ => hBody.bind ?_ ?_
    · rintro _ _ rfl
      exact .silent_then hUnlock fun _ => ih fun b hb => hBodies b (List.mem_cons_of_mem body hb)
    · rintro e _ rfl hEq
      cases hEq

theorem code_keeps (d : Data) {bodies : List (Run Unit)}
    (hBodies : ∀ body ∈ bodies, body.Uses fun o => inner (fastLockFile d) o = true) :
    (code (.sections d bodies)).Keeps (locking (fastLockFile d)) (fun _ g => g = .free) .free := by
  refine .tryFinally (sections_keeps d hBodies) fun out g hg => .perform hg fun r hr => ?_
  rfl

/-! ## All that wait or hold agree on the inode -/

variable {φ : Nat → Grip} {w : World} {t : Nat}

variable {j : Job}

theorem agreed_step {ch : Choice} {r : Except Throwable o.Res} {w' : World} (hAgreed : Agreed .fastLockHandle p φ w)
    (hDir : w.hasDir p = true) (hAdmits : Admits p (φ t) o)
    (hNew : ∀ h q, o = .fopen h q → w.files p = none → ∀ u, φ u = .free) (hExec : exec t j o ch w = some (r, w')) :
    Agreed .fastLockHandle p (Function.update φ t ((φ t).after .fastLockHandle o)) w' := by
  refine hAgreed.step hExec ?_ ?_ fun hOpen i hi => ?_
  · rintro q rfl
    obtain ⟨hFree, _, hPath⟩ := hAdmits
    exact ⟨hPath, hDir, hFree, hNew _ _ rfl⟩
  · rintro rfl
    exact hAdmits.1
  · rcases files_of_exec hExec p with hSame | hMakes | ⟨_, hNone⟩
    · rwa [hSame] at hi
    · -- a critical section makes other files only
      cases o with
      | fopen h q =>
        obtain ⟨_, rfl, _⟩ := hAdmits
        exact absurd rfl (hOpen q)
      | touch q | writeJson q v =>
        have hNe : q ≠ p := of_decide_eq_true hAdmits.2
        exact absurd hMakes hNe
      | _ => cases hMakes
    · rw [hNone] at hi
      cases hi

/-! ## Runs -/

/-- Processes of one chat and user, whose critical sections leave the lock alone. -/
def Sections (p : Path) : Job → Prop
  | .sections d bodies => fastLockFile d = p ∧ ∀ body ∈ bodies, body.Uses fun o => inner p o = true
  | _ => False

def concerned (c : Config World Op Op.Res Throwable Unit Job) (u : Nat) : Bool :=
  (match c.threads[u]? with
    | some (_, .op (.flock .fastLockHandle) _) => true
    | _ => false) ||
  (match c.shared.opened u .fastLockHandle with
    | some i => c.shared.holder i = some (u, .fastLockHandle)
    | none => false)

/-- The lock file is made anew only when no other process is concerned with one. -/
def undisturbed (p : Path) (c : Config World Op Op.Res Throwable Unit Job) : Label Job Choice → Bool
  | .start _ => true
  | .step t _ =>
    match c.threads[t]? with
    | some (_, .op (.fopen .fastLockHandle _) _) =>
      (c.shared.files p).isSome || (List.range c.threads.length).all fun u => u = t || !concerned c u
    | _ => true

def Undisturbed (p : Path) (c : Config World Op Op.Res Throwable Unit Job) : Label Job Choice → Prop
  | .start j => Sections p j
  | l => undisturbed p c l = true

/-- At most one process is in its critical section. -/
def Exclusive (p : Path) (c : Config World Op Op.Res Throwable Unit Job) : Prop :=
  ∀ (t u : Nat) (j j' : Job) (q q' : Run Unit), c.threads[t]? = some (j, q) → c.threads[u]? = some (j', q') →
    InCritical p q → InCritical p q' → t = u

def ends (_ : Job) (_ : Except Throwable Unit) (g : Grip) : Prop := g = .free

section Runs

variable {c : Config World Op Op.Res Throwable Unit Job} {gs : List (Job × Grip)}

theorem concerned_of_active (hTyped : Typed (locking p) ends gs c) (hAgreed : Agreed .fastLockHandle p (stateOf .free gs) c.shared)
    {u : Nat} (hu : stateOf .free gs u ≠ .free) : u < c.threads.length ∧ concerned c u = true := by
  cases hState : gs[u]? with
  | none => simp [stateOf, hState] at hu
  | some x =>
    obtain ⟨j, g⟩ := x
    obtain ⟨q, hThread, hKeeps⟩ := hTyped.thread hState
    rw [stateOf_eq hState] at hu
    refine ⟨(List.getElem?_eq_some_iff.mp hThread).1, ?_⟩
    cases g with
    | free => exact absurd rfl hu
    | waiting =>
      cases q with
      | ret a => cases hKeeps
      | throw e => cases hKeeps
      | op o k =>
        have ho := eq_flock_of_waiting hKeeps.1
        subst ho
        simp [concerned, hThread]
    | held =>
      obtain ⟨i, hi⟩ := hAgreed
      obtain ⟨hOpen, hHeld, _⟩ := hi u (by simp [stateOf_eq hState])
      simp [concerned, hOpen, hHeld (stateOf_eq hState)]

theorem free_of_undisturbed (hTyped : Typed (locking p) ends gs c)
    (hAgreed : Agreed .fastLockHandle p (stateOf .free gs) c.shared) {ch : Choice} {h : Handle} {q : Path}
    {k : Except Throwable Unit → Run Unit} (hOk : Undisturbed p c (.step t ch))
    (hThread : c.threads[t]? = some (j, .op (.fopen h q) k)) (hAdmits : Admits p (stateOf .free gs t) (.fopen h q))
    (hNone : c.shared.files p = none) (u : Nat) : stateOf .free gs u = .free := by
  obtain ⟨hFree, rfl, rfl⟩ := hAdmits
  simp only [Undisturbed, undisturbed, hThread, hNone, Option.isSome_none, Bool.false_or, List.all_eq_true,
    List.mem_range, Bool.or_eq_true, decide_eq_true_eq, Bool.not_eq_true'] at hOk
  by_contra hActive
  obtain ⟨hLt, hConcerned⟩ := concerned_of_active hTyped hAgreed hActive
  rcases hOk u hLt with rfl | hNot
  · exact hActive hFree
  · exact absurd (hConcerned.symm.trans hNot) nofun

variable {name : String}

theorem agreed_reach {s : World} (hReach : system.Reach (Undisturbed (.fastLockFile name)) ⟨s, []⟩ c) :
    ∃ gs, Typed (locking (.fastLockFile name)) ends gs c ∧
      Agreed .fastLockHandle (.fastLockFile name) (stateOf .free gs) c.shared := by
  have hCode : ∀ j, Sections (.fastLockFile name) j → (code j).Keeps (locking (.fastLockFile name)) (ends j) .free := by
    intro j hPre
    cases j with
    | sections d bodies =>
      obtain ⟨hPath, hBodies⟩ := hPre
      rw [← hPath] at hBodies ⊢
      exact code_keeps d hBodies
    | _ => cases hPre
  refine Typed.reach (J := fun gs w => Agreed .fastLockHandle (.fastLockFile name) (stateOf .free gs) w) hCode ?_ ?_ (.nil s) ?_ hReach
  · intro c gs j _ hAgreed hOk
    refine ⟨hOk, ?_⟩
    have hSame : stateOf Grip.free (gs ++ [(j, .free)]) = stateOf .free gs := by
      funext u
      rw [stateOf_append]
      split
      · rfl
      · rename_i hu
        have hNone : gs[u]? = none := by simpa using hu
        simp only [stateOf, hNone]
        cases u - gs.length <;> rfl
    rw [hSame]
    exact hAgreed
  · intro c gs t ch j g o k r w' hTyped hAgreed hOk hThread hState hAdmits hExec
    have hg : stateOf .free gs t = g := stateOf_eq hState
    have hSpawn : spawned o r = [] := by
      cases o with
      | go task => exact absurd hAdmits.2 Bool.false_ne_true
      | _ => rfl
    refine ⟨?_, ?_, ?_⟩
    · rintro e rfl
      exact (fail_of_exec (j := j) hExec).1
    · change ∀ i ∈ spawned o r, _
      rw [hSpawn]
      exact fun _ hi => absurd hi List.not_mem_nil
    · change Agreed _ _ (stateOf .free (_ ++ (spawned o r).map _)) w'
      rw [hSpawn, List.map_nil, List.append_nil, stateOf_set hState]
      rw [← hg] at hAdmits ⊢
      refine agreed_step (j := j) hAgreed rfl hAdmits ?_ hExec
      rintro h q rfl hNone u
      exact free_of_undisturbed hTyped hAgreed hOk hThread hAdmits hNone u
  · exact ⟨0, fun t ht => absurd rfl ht⟩

theorem held_of_critical (hTyped : Typed (locking p) ends gs c) {q : Run Unit} (hThread : c.threads[t]? = some (j, q))
    (hCritical : InCritical p q) : stateOf .free gs t = .held := by
  obtain ⟨g, hState, hKeeps⟩ := hTyped.state hThread
  rw [stateOf_eq hState]
  cases q with
  | ret a | throw e => cases hCritical
  | op o k => exact held_of_inCritical hKeeps.1 hCritical

theorem sections_exclusive (name : String) (s : World) (c : Config World Op Op.Res Throwable Unit Job)
    (hReach : system.Reach (Undisturbed (.fastLockFile name)) ⟨s, []⟩ c) : Exclusive (.fastLockFile name) c := by
  obtain ⟨gs, hTyped, hAgreed⟩ := agreed_reach hReach
  intro t u j j' q q' ht hu hCritical hCritical'
  exact hAgreed.eq_of_held (held_of_critical hTyped ht hCritical) (held_of_critical hTyped hu hCritical')

end Runs

/-! ## Three processes -/

def member : Data := { chatId := .int (-100), userId := .int 7 }

def lockName : String := bin2hex "-1007"

def process : Job := .sections member [pure (), pure ()]

def inside : Run Unit → Bool
  | .op (.unflock .fastLockHandle) _ => true
  | _ => false

theorem inCritical_of_inside {q : Run Unit} (h : inside q = true) : InCritical p q := by
  unfold inside at h
  split at h
  · exact .inl rfl
  · cases h

theorem sections_process : Sections (.fastLockFile lockName) process := by
  refine ⟨rfl, fun body hBody => ?_⟩
  simp only [List.mem_cons, List.not_mem_nil, or_false, or_self] at hBody
  subst hBody
  trivial

def go (t : Nat) : Label Job Choice := .step t {}

def orderly : List (Label Job Choice) :=
  [.start process, .start process, go 0, go 0, go 1, go 0, go 1, go 0]

theorem orderly_exclusive : ∃ c, system.runWhile (undisturbed (.fastLockFile lockName)) ⟨.initial, []⟩ orderly = some c ∧
    (c.threads[1]?.any fun x => inside x.2) = true ∧ Exclusive (.fastLockFile lockName) c := by
  have hRun : (system.runWhile (undisturbed (.fastLockFile lockName)) ⟨.initial, []⟩ orderly).any
      (fun c => c.threads[1]?.any fun x => inside x.2) = true := by decide +kernel
  obtain ⟨c, hc, hInside⟩ := (Option.any_eq_true _ _).mp hRun
  refine ⟨c, hc, hInside, sections_exclusive lockName .initial c (reach_of_runWhile (fun l hl c hOk => ?_) hc)⟩
  cases l with
  | start j =>
    have hj : j = process := by simpa [orderly, go] using hl
    exact hj ▸ sections_process
  | step t ch => exact hOk

def OnlySections (p : Path) (_ : Config World Op Op.Res Throwable Unit Job) : Label Job Choice → Prop
  | .start j => Sections p j
  | .step _ _ => True

/-- The second process gets the first one's lock, whose file the first then unlinks; the
third makes a new file. -/
def overtaken : List (Label Job Choice) :=
  [.start process, .start process, .start process, go 0, go 0, go 1, go 0, go 1, go 0, go 2, go 2]

theorem overtaken_not_exclusive : ∃ c, system.Reach (OnlySections (.fastLockFile lockName)) ⟨.initial, []⟩ c ∧
    ¬ Exclusive (.fastLockFile lockName) c := by
  have hRun : (system.run ⟨.initial, []⟩ overtaken).any
      (fun c => (c.threads[1]?.any fun x => inside x.2) && c.threads[2]?.any fun x => inside x.2) = true := by
    decide +kernel
  obtain ⟨c, hc, hInside⟩ := (Option.any_eq_true _ _).mp hRun
  obtain ⟨h₁, h₂⟩ := Bool.and_eq_true_iff.mp hInside
  obtain ⟨⟨j₁, q₁⟩, hThread₁, hInside₁⟩ := (Option.any_eq_true _ _).mp h₁
  obtain ⟨⟨j₂, q₂⟩, hThread₂, hInside₂⟩ := (Option.any_eq_true _ _).mp h₂
  refine ⟨c, reach_of_run (fun l hl c => ?_) hc, fun hExclusive => ?_⟩
  · cases l with
    | start j =>
      have hj : j = process := by simpa [overtaken, go] using hl
      exact hj ▸ sections_process
    | step t ch => trivial
  · have hEq := hExclusive 1 2 j₁ j₂ q₁ q₂ hThread₁ hThread₂ (inCritical_of_inside hInside₁)
      (inCritical_of_inside hInside₂)
    cases hEq

end TeaBot.Captcha.FastLock
