import TeaBot.Captcha.Agreed
import TeaBot.Captcha.StageRuns

/-! # One captcha, one outcome

The answer is checked under the per-user lock, so at most one `checkAnswer` removes the
file and welcomes the user. The timer decides on the kick under the fast lock alone, and
kicks after it has given that back.
-/

namespace TeaBot.Captcha.Verdict

open Foundation Foundation.System Responder

/-! ## Tickets -/

/-- At most one coroutine has the ticket, and it can be used once. -/
structure Ticket (P : Nat → Prop) (used : Nat) : Prop where
  unique : ∀ t u, P t → P u → t = u
  gone : 0 < used → ∀ t, ¬ P t
  once : used ≤ 1

namespace Ticket

variable {P P' : Nat → Prop} {used t u : Nat}

theorem mono (h : Ticket P used) (hSub : ∀ x, P' x → P x) : Ticket P' used where
  unique a b ha hb := h.unique a b (hSub a ha) (hSub b hb)
  gone hUsed x hx := h.gone hUsed x (hSub x hx)
  once := h.once

theorem unused (h : Ticket P used) (ht : P t) : used = 0 := by
  by_contra hUsed
  exact h.gone (by omega) t ht

theorem pass (h : Ticket P used) (ht : P t) (hOnly : ∀ x, P' x → x = u) : Ticket P' used where
  unique a b ha hb := (hOnly a ha).trans (hOnly b hb).symm
  gone hUsed := absurd (h.unused ht) (by omega)
  once := h.once

theorem use (h : Ticket P used) (ht : P t) (hSub : ∀ x, P' x → P x ∧ x ≠ t) : Ticket P' (used + 1) where
  unique a b ha hb := h.unique a b (hSub a ha).1 (hSub b hb).1
  gone _ x hx := (hSub x hx).2 (h.unique x t (hSub x hx).1 ht)
  once := by rw [h.unused ht]

end Ticket

/-! ## The outcomes in the trace -/

def isKick : Op → Bool
  | .exe (.kickChatMember ..) _ => true
  | _ => false

def welcomes : Op → Bool
  | .exe (.sendMessage _ text _) _ => isWelcome text
  | _ => false

def count (outcome : Op → Bool) (w : World) : Nat := w.trace.countP fun e => outcome e.event.op

/-! ## The stages -/

def unissued : Stage → Bool
  | .joining | .built | .issuing => true
  | _ => false

/-- The kick cannot be avoided any more. -/
def doomed : Stage → Bool
  | .overdue .. | .failing => true
  | _ => false

theorem doomed_cases {stage : Stage} (h : doomed stage = true) :
    (∃ s c, stage = .overdue s c) ∨ stage = .failing := by
  cases stage with
  | overdue s c => exact .inl ⟨s, c, rfl⟩
  | failing => exact .inr rfl
  | _ => cases h

def underWay (s : Stage) : Bool := s.dropping || s.watching || s = .failing

variable {s s' : Stage}

theorem unissued_of_moves {o : Op} {r : Except Throwable o.Res} (hMoves : s.Moves o r s') (h : unissued s' = true) :
    unissued s = true := by
  cases hMoves with
  | stay => exact h
  | build | touch => rfl
  | _ => cases h

theorem doomed_of_moves {o : Op} {r : Except Throwable o.Res} (hMoves : s.Moves o r s') (h : doomed s' = true) :
    doomed s = true ∨ o = .enterFailKick ∨ ∃ p, ∃ hOp : o = .fileExists p, hOp ▸ r = .ok true := by
  cases hMoves with
  | stay => exact .inl h
  | expire => exact .inr (.inr ⟨_, rfl, rfl⟩)
  | enter => exact .inr (.inl rfl)
  | _ => cases h

/-! ## The invariant -/

def lockGrips (gs : List (Job × Local)) (u : Nat) : Grip := (locals gs u).lock

structure Fair (pr : Pair) (gs : List (Job × Local)) (w : World) : Prop where
  agreed : Agreed .lockHandle pr.lock (lockGrips gs) w
  locked : ∀ u, lockGrips gs u ≠ .free → (w.files pr.lock).isSome = true
  rooted : ∀ u, (locals gs u).stage = .built ∨ (locals gs u).stage = .issuing ∨ (locals gs u).stage = .asking →
    w.dirs pr.dir = true
  dir : (w.files pr.info).isSome = true → w.dirs pr.dir = true
  bound : ∀ i, w.files pr.info = some i → i < w.inodes
  /-- Before the captcha is written there is nothing to answer. -/
  empty : ∀ u, unissued (locals gs u).stage = true → (w.json pr.info).isArray = false
  found : ∀ u, (locals gs u).stage = .found → (locals gs u).lock = .held ∧ (w.json pr.info).isArray = true
  kick : Ticket (fun u => underWay (locals gs u).stage = true) (count isKick w)
  welcome : Ticket (fun u => (locals gs u).stage = .removed) (count welcomes w)
  /-- Once the file is removed, everything else has lost its chance. -/
  closed : (∃ u, (locals gs u).stage = .removed) ∨ 0 < count welcomes w → w.files pr.info = none ∧
    (∀ u, unissued (locals gs u).stage = false ∧ doomed (locals gs u).stage = false) ∧ count isKick w = 0

variable {j : Job}

section Step

variable {pr : Pair} {gs : List (Job × Local)} {w w' : World} {t : Nat} {j : Job} {ℓ : Local} {o : Op} {ch : Choice}
  {r : Except Throwable o.Res}

theorem lockGrips_advanced (hState : gs[t]? = some (j, ℓ)) :
    lockGrips (advanced gs t j ℓ o r) = Function.update (lockGrips gs) t (ℓ.lock.after .lockHandle o) := by
  funext u
  unfold lockGrips
  rcases locals_advanced_inv hState r u with ⟨rfl, hEq⟩ | ⟨hu, rfl, hEq⟩ | ⟨hu, hEq⟩ <;> rw [hEq]
  · rw [Function.update_self]
    rfl
  · rw [Function.update_of_ne hu, locals_of_le le_rfl]
    rcases spawned_cases o r with ⟨_, hIdle⟩ | ⟨i, _, hLocal⟩
    · rw [hIdle]
    · rw [hLocal]
      cases i with
      | task task => cases task <;> rfl
      | _ => rfl
  · rw [Function.update_of_ne hu]

theorem lockFile_of_exec (hAdmits : Admits False pr ℓ o) (hExec : exec t j o ch w = some (r, w'))
    (hOpen : ∀ p, o ≠ .fopen .lockHandle p) : w'.files pr.lock = w.files pr.lock := by
  rcases files_of_exec hExec pr.lock with hSame | hMakes | ⟨rfl, _⟩
  · exact hSame
  · cases o with
    | fopen h p =>
      cases h with
      | lockHandle => exact absurd rfl (hOpen p)
      | fastLockHandle =>
        obtain ⟨_, _, hPath⟩ := hAdmits
        cases hPath.symm.trans hMakes
    | touch p | writeJson p v =>
      obtain ⟨_, _, hPath, _⟩ := hAdmits
      cases hPath.symm.trans hMakes
    | _ => cases hMakes
  · obtain ⟨_, _, hPath | ⟨hPath, _⟩⟩ := hAdmits <;> cases hPath

variable {p : Path}

section

variable (hFair : Fair pr gs w) (hState : gs[t]? = some (j, ℓ))

include hFair hState

theorem Fair.dir_of_lock (hAdmits : Admits False pr ℓ (.fopen .lockHandle p)) :
    p = pr.lock ∧ ℓ.lock = .free ∧ w.hasDir pr.lock = true := by
  obtain ⟨_, _, hPath, hFree, hStage⟩ := hAdmits
  refine ⟨hPath, hFree, hFair.rooted t ?_⟩
  rw [locals_eq hState]
  exact .inr hStage

theorem Fair.agreed_step (hAdmits : Admits False pr ℓ o) (hExec : exec t j o ch w = some (r, w')) :
    Agreed .lockHandle pr.lock (lockGrips (advanced gs t j ℓ o r)) w' := by
  have hLock : lockGrips gs t = ℓ.lock := by rw [lockGrips, locals_eq hState]
  rw [lockGrips_advanced hState, ← hLock]
  refine hFair.agreed.step hExec ?_ ?_ fun hOpen i hi => ?_
  · rintro q rfl
    obtain ⟨hPath, hFree, hDir⟩ := hFair.dir_of_lock hState hAdmits
    refine ⟨hPath, hDir, hLock.trans hFree, fun hNone u => ?_⟩
    by_contra hBusy
    have hSome := hFair.locked u hBusy
    rw [hNone] at hSome
    cases hSome
  · rintro rfl
    exact hLock.trans hAdmits
  · rwa [lockFile_of_exec hAdmits hExec hOpen] at hi

theorem Fair.locked_step (hAdmits : Admits False pr ℓ o) (hExec : exec t j o ch w = some (r, w')) (u : Nat)
    (hu : lockGrips (advanced gs t j ℓ o r) u ≠ .free) : (w'.files pr.lock).isSome = true := by
  by_cases hOpen : ∃ p, o = .fopen .lockHandle p
  · obtain ⟨p, rfl⟩ := hOpen
    obtain ⟨rfl, _, hDir⟩ := hFair.dir_of_lock hState hAdmits
    rcases exec_eq_some hExec with ⟨e, hRaises, _⟩ | ⟨a, _, rfl, rfl⟩
    · cases hRaises
    · exact World.files_ensure (w := w.advance ch.elapsed) hDir
  · rw [lockFile_of_exec hAdmits hExec fun p hp => hOpen ⟨p, hp⟩]
    rw [lockGrips_advanced hState] at hu
    by_cases hut : u = t
    · subst hut
      refine hFair.locked u ?_
      rw [Function.update_self] at hu
      rw [lockGrips, locals_eq hState]
      intro hFree
      cases o with
      | fopen h p =>
        cases h with
        | lockHandle => exact hOpen ⟨p, rfl⟩
        | fastLockHandle => exact hu hFree
      | flock h =>
        cases h with
        | lockHandle => cases hFree.symm.trans hAdmits
        | fastLockHandle => exact hu hFree
      | unflock h =>
        cases h with
        | lockHandle => exact hu rfl
        | fastLockHandle => exact hu hFree
      | destruct => exact hu rfl
      | _ => exact hu hFree
    · rw [Function.update_of_ne hut] at hu
      exact hFair.locked u hu

theorem Fair.dir_step (hAdmits : Admits False pr ℓ o) (hExec : exec t j o ch w = some (r, w'))
    (hFile : (w'.files pr.info).isSome = true) : w'.dirs pr.dir = true := by
  refine dirs_of_exec hExec (.inl ?_)
  rcases info_of_exec hAdmits hExec with hSame | ⟨_, hStage⟩ | ⟨_, hStage⟩ | ⟨_, _, _, hNone⟩
  · exact hFair.dir (hSame ▸ hFile)
  · exact hFair.rooted t (.inl (by rw [locals_eq hState, hStage]))
  · exact hFair.rooted t (.inr (.inl (by rw [locals_eq hState, hStage])))
  · rw [hNone] at hFile
    cases hFile

theorem Fair.rooted_step (hAdmits : Admits False pr ℓ o) (hExec : exec t j o ch w = some (r, w')) (u : Nat)
    (hu : (locals (advanced gs t j ℓ o r) u).stage = .built ∨ (locals (advanced gs t j ℓ o r) u).stage = .issuing ∨
      (locals (advanced gs t j ℓ o r) u).stage = .asking) : w'.dirs pr.dir = true := by
  have hRooted : ∀ s, ℓ.stage = s → s = .built ∨ s = .issuing ∨ s = .asking → w.dirs pr.dir = true := by
    rintro s hStage hs
    refine hFair.rooted t ?_
    rwa [locals_eq hState, hStage]
  rcases locals_advanced_inv hState r u with ⟨rfl, hEq⟩ | ⟨_, _, hEq⟩ | ⟨_, hEq⟩ <;> rw [hEq] at hu
  · refine dirs_of_exec hExec ?_
    change ℓ.stage.after o r = _ ∨ ℓ.stage.after o r = _ ∨ ℓ.stage.after o r = _ at hu
    have hMoves := Stage.moves_after ℓ.stage o r
    generalize hStage : ℓ.stage = s at hMoves hu
    generalize s.after o r = s' at hMoves hu
    cases hMoves with
    | stay => exact .inl (hRooted _ hStage hu)
    | build =>
      obtain ⟨_, _, hDir⟩ := hAdmits
      exact .inr (by rw [hDir])
    | touch => exact .inl (hRooted _ hStage (.inl rfl))
    | call =>
      obtain ⟨_, _, hPath⟩ := hAdmits
      have hExists := exists_of_exec (j := j) hExec
      exact .inl (hFair.dir (hPath ▸ hExists.symm))
    | _ => simp at hu
  · rcases spawned_stage o r with hOver | ⟨hTiming, _⟩
    · simp [hOver] at hu
    · simp [hTiming] at hu
  · exact dirs_of_exec hExec (.inl (hFair.rooted u hu))

end

/-- What is written to `info.json`, or removed, decides what can be read from it. -/
theorem Fair.json_step (hFair : Fair pr gs w) (hAdmits : Admits False pr ℓ o)
    (hExec : exec t j o ch w = some (r, w')) :
    w'.json pr.info = w.json pr.info ∨ ((∃ v, o = .writeJson pr.info v) ∧ ℓ.stage = .issuing) ∨
      (o = .unlink pr.info ∧ ℓ.stage = .found ∧ ℓ.lock = .held) := by
  rcases (json_of_exec hExec hFair.bound).1 with hSame | ⟨q, v, rfl⟩ | rfl
  · exact .inl hSame
  · obtain ⟨_, _, rfl, hStage, _⟩ := hAdmits
    exact .inr (.inl ⟨⟨v, rfl⟩, hStage⟩)
  · obtain ⟨_, _, hPath | ⟨_, hStage⟩⟩ := hAdmits
    · cases hPath
    · exact .inr (.inr ⟨rfl, hStage⟩)

theorem underWay_of_unissued (h : unissued s = true) : underWay s = true := by
  cases s <;> first | rfl | cases h

variable {u : Nat}

theorem unissued_advanced (hState : gs[t]? = some (j, ℓ))
    (hu : unissued (locals (advanced gs t j ℓ o r) u).stage = true) : unissued (locals gs u).stage = true := by
  refine stage_before (P := fun s => unissued s = true) hState (unissued_of_moves (Stage.moves_after ℓ.stage o r)) ?_ hu
  rcases spawned_stage o r with hOver | ⟨hTiming, _⟩
  · rw [hOver]
    exact nofun
  · rw [hTiming]
    exact nofun

theorem Fair.empty_step (hFair : Fair pr gs w) (hState : gs[t]? = some (j, ℓ)) (hAdmits : Admits False pr ℓ o)
    (hExec : exec t j o ch w = some (r, w')) (u : Nat)
    (hu : unissued (locals (advanced gs t j ℓ o r) u).stage = true) : (w'.json pr.info).isArray = false := by
  have hBefore := unissued_advanced hState hu
  rcases hFair.json_step hAdmits hExec with hSame | ⟨⟨v, rfl⟩, hStage⟩ | ⟨rfl, hStage, _⟩
  · rw [hSame]
    exact hFair.empty u hBefore
  · -- only one `dropCaptcha` is under way, and it has just written the file
    have hIssuing : underWay (locals gs t).stage = true := by rw [locals_eq hState, hStage]; rfl
    cases hFair.kick.unique u t (underWay_of_unissued hBefore) hIssuing
    rw [locals_advanced hState, if_pos rfl] at hu
    change unissued (ℓ.stage.after _ r) = true at hu
    rw [hStage] at hu
    cases hu
  · have hArray := (hFair.found t (by rw [locals_eq hState, hStage])).2
    cases hArray.symm.trans (hFair.empty u hBefore)

theorem found_self (hAdmits : Admits False pr ℓ o) (hBefore : ℓ.stage = .found → ℓ.lock = .held)
    (h : ℓ.stage.after o r = .found) :
    ℓ.lock.after .lockHandle o = .held ∧ o ≠ .unlink pr.info ∧
      (ℓ.stage = .found ∨ ∃ p v, ∃ hOp : o = .readJson p, hOp ▸ r = .ok v ∧ v.isArray = true) := by
  by_cases hFound : ℓ.stage = .found
  · rw [hFound] at h
    have hHeld := hBefore hFound
    refine ⟨?_, ?_, .inl hFound⟩
    · cases o with
      | fopen h' p =>
        cases h' with
        | lockHandle =>
          obtain ⟨_, _, _, hFree, _⟩ := hAdmits
          cases hHeld.symm.trans hFree
        | fastLockHandle => exact hHeld
      | flock h' =>
        cases h' with
        | lockHandle => cases hHeld.symm.trans hAdmits
        | fastLockHandle => exact hHeld
      | unflock h' =>
        cases h' with
        | lockHandle => cases h
        | fastLockHandle => exact hHeld
      | destruct => cases h
      | _ => exact hHeld
    · rintro rfl
      cases h
  · have hMoves := Stage.moves_after ℓ.stage o r
    rw [h] at hMoves
    generalize hStage : ℓ.stage = s at hMoves hFound
    cases hMoves with
    | stay => exact absurd rfl hFound
    | @find p v hArray =>
      obtain ⟨_, _, _, hLock⟩ := hAdmits
      exact ⟨hLock hStage, nofun, .inr ⟨p, v, rfl, rfl, hArray⟩⟩

theorem read_of_exec {v : Php} (h : exec t j (.readJson p) ch w = some (.ok v, w')) : v = w.json p := by
  rcases exec_eq_some h with ⟨e, hRaises, _⟩ | ⟨a, hRespond, hEq, _⟩
  · cases hRaises
  · cases hEq
    cases hOut : ch.outcome <;> simp only [hOut, World.respond, reduceCtorEq] at hRespond
    exact (Option.some.inj hRespond).symm

theorem Fair.found_step (hFair : Fair pr gs w) (hState : gs[t]? = some (j, ℓ)) (hAdmits : Admits False pr ℓ o)
    (hExec : exec t j o ch w = some (r, w')) (u : Nat) (hu : (locals (advanced gs t j ℓ o r) u).stage = .found) :
    (locals (advanced gs t j ℓ o r) u).lock = .held ∧ (w'.json pr.info).isArray = true := by
  have hJson := hFair.json_step hAdmits hExec
  have hSelf : ℓ.stage = .found → ℓ.lock = .held ∧ (w.json pr.info).isArray = true := fun hStage => by
    have hFound := hFair.found t (by rw [locals_eq hState, hStage])
    rwa [locals_eq hState] at hFound
  -- while somebody has the captcha in hand it is not written
  have hIssuing : ℓ.stage = .issuing → (w.json pr.info).isArray = false := fun hStage =>
    hFair.empty t (by rw [locals_eq hState, hStage]; rfl)
  rcases locals_advanced_inv hState r u with ⟨rfl, hEq⟩ | ⟨_, _, hEq⟩ | ⟨hut, hEq⟩ <;> rw [hEq] at hu ⊢
  · obtain ⟨hLock, hNot, hBefore⟩ := found_self hAdmits (fun hStage => (hSelf hStage).1) hu
    refine ⟨hLock, ?_⟩
    have hArray : (w.json pr.info).isArray = true := by
      rcases hBefore with hStage | ⟨p, v, rfl, rfl, hArray⟩
      · exact (hSelf hStage).2
      · obtain ⟨_, _, rfl, _⟩ := hAdmits
        rwa [← read_of_exec (j := j) hExec]
    rcases hJson with hSame | ⟨_, hStage⟩ | ⟨hOp, _⟩
    · rwa [hSame]
    · cases hArray.symm.trans (hIssuing hStage)
    · exact absurd hOp hNot
  · rcases spawned_stage o r with hOver | ⟨hTiming, _⟩
    · cases hOver.symm.trans hu
    · cases hTiming.symm.trans hu
  · obtain ⟨hLock, hArray⟩ := hFair.found u hu
    refine ⟨hLock, ?_⟩
    rcases hJson with hSame | ⟨_, hStage⟩ | ⟨_, _, hHeld⟩
    · rwa [hSame]
    · cases hArray.symm.trans (hIssuing hStage)
    · -- the per-user lock keeps all others from removing it
      have hHeld' : lockGrips gs t = .held := by rw [lockGrips, locals_eq hState, hHeld]
      exact absurd (hFair.agreed.eq_of_held hLock hHeld') hut

theorem count_of_exec (outcome : Op → Bool) (hExec : exec t j o ch w = some (r, w')) :
    count outcome w' = count outcome w + if outcome o then 1 else 0 := by
  rw [count, (trace_of_exec hExec).2, List.countP_cons]
  rfl

theorem underWay_of_moves (hAdmits : Admits False pr ℓ o) (hMoves : ℓ.stage.Moves o r s') (h : underWay s' = true) :
    underWay ℓ.stage = true := by
  generalize hStage : ℓ.stage = s at hMoves
  cases hMoves with
  | stay => exact h
  | build | touch | write | begin | look | again | expire => rfl
  | enter =>
    obtain ⟨_, _, _, _, hOverdue, _⟩ := hAdmits
    cases hStage.symm.trans hOverdue
    rfl
  | _ => cases h

theorem Fair.kick_step (hFair : Fair pr gs w) (hState : gs[t]? = some (j, ℓ)) (hAdmits : Admits False pr ℓ o)
    (hExec : exec t j o ch w = some (r, w')) :
    Ticket (fun u => underWay (locals (advanced gs t j ℓ o r) u).stage = true) (count isKick w') := by
  have hTicket := hFair.kick
  rw [count_of_exec isKick hExec]
  by_cases hTimer : ∃ d rounds, o = .go (.timer d rounds)
  · -- the ticket goes to the timer
    obtain ⟨d, rounds, rfl⟩ := hTimer
    obtain ⟨_, _, hWritten⟩ := hAdmits
    refine hTicket.pass (t := t) (u := gs.length) (by rw [locals_eq hState, hWritten]; rfl) fun u hu => ?_
    rcases locals_advanced_inv hState r u with ⟨_, hEq⟩ | ⟨_, hLast, _⟩ | ⟨hut, hEq⟩
    · rw [hEq] at hu
      change underWay (ℓ.stage.after _ r) = true at hu
      rw [hWritten] at hu
      cases hu
    · exact hLast
    · rw [hEq] at hu
      exact absurd (hTicket.unique u t hu (by rw [locals_eq hState, hWritten]; rfl)) hut
  · have hBefore : ∀ u, underWay (locals (advanced gs t j ℓ o r) u).stage = true →
        underWay (locals gs u).stage = true := by
      intro u hu
      refine stage_before (P := fun s => underWay s = true) hState ?_ ?_ hu
      · exact underWay_of_moves hAdmits (Stage.moves_after ℓ.stage o r)
      · rcases spawned_stage o r with hOver | ⟨_, hOp⟩
        · rw [hOver]
          exact nofun
        · exact absurd hOp hTimer
    by_cases hKick : isKick o = true
    · -- it is used
      have hFailing : ℓ.stage = .failing ∧ ℓ.stage.after o r = .over := by
        cases o with
        | exe call =>
          cases call with
          | kickChatMember userId chatId =>
            obtain ⟨_, _, hStage⟩ := hAdmits
            refine ⟨hStage, ?_⟩
            rw [hStage]
            cases r <;> rfl
          | _ => cases hKick
        | _ => cases hKick
      rw [if_pos hKick]
      refine hTicket.use (t := t) (by rw [locals_eq hState, hFailing.1]; rfl) fun u hu => ⟨hBefore u hu, ?_⟩
      rintro rfl
      rw [locals_advanced hState, if_pos rfl] at hu
      change underWay (ℓ.stage.after _ r) = true at hu
      rw [hFailing.2] at hu
      cases hu
    · rw [if_neg hKick]
      exact hTicket.mono hBefore

theorem removed_advanced (hState : gs[t]? = some (j, ℓ)) (hAdmits : Admits False pr ℓ o)
    (hu : (locals (advanced gs t j ℓ o r) u).stage = .removed) :
    (locals gs u).stage = .removed ∨ (u = t ∧ o = .unlink pr.info) := by
  rcases locals_advanced_inv hState r u with ⟨rfl, hEq⟩ | ⟨_, _, hEq⟩ | ⟨_, hEq⟩ <;> rw [hEq] at hu
  · have hMoves := Stage.moves_after ℓ.stage o r
    change ℓ.stage.after o r = .removed at hu
    rw [hu] at hMoves
    rw [locals_eq hState]
    generalize ℓ.stage = s at hMoves
    cases hMoves with
    | stay => exact .inl rfl
    | remove =>
      obtain ⟨_, _, hPath | ⟨hPath, _⟩⟩ := hAdmits
      · cases hPath
      · exact .inr ⟨rfl, by rw [hPath]⟩
  · rcases spawned_stage o r with hOver | ⟨hTiming, _⟩
    · cases hOver.symm.trans hu
    · cases hTiming.symm.trans hu
  · exact .inl hu

theorem found_of_unlink (hAdmits : Admits False pr ℓ (.unlink pr.info)) : ℓ.stage = .found := by
  obtain ⟨_, _, hPath | ⟨_, hStage, _⟩⟩ := hAdmits
  · cases hPath
  · exact hStage

theorem removed_of_welcomes (hAdmits : Admits False pr ℓ o) (hWelcome : welcomes o = true) :
    ℓ.stage = .removed ∧ ∀ r, ℓ.stage.after o r = .over := by
  cases o with
  | exe call =>
    cases call with
    | sendMessage chatId text replyTo =>
      obtain ⟨_, _, hStage⟩ := hAdmits
      refine ⟨hStage hWelcome, fun r => ?_⟩
      rw [hStage hWelcome]
      cases r <;> rfl
    | _ => cases hWelcome
  | _ => cases hWelcome

/-- As long as somebody has the captcha in hand, nobody has been welcomed. -/
theorem Fair.open_of_found (hFair : Fair pr gs w) (hu : (locals gs u).stage = .found) :
    (∀ x, (locals gs x).stage ≠ .removed) ∧ count welcomes w = 0 := by
  have hArray := (hFair.found u hu).2
  have hOpen : ¬ ((∃ x, (locals gs x).stage = .removed) ∨ 0 < count welcomes w) := by
    intro hClosed
    rw [World.json, (hFair.closed hClosed).1] at hArray
    cases hArray
  exact ⟨fun x hx => hOpen (.inl ⟨x, hx⟩), by by_contra hNe; exact hOpen (.inr (by omega))⟩

theorem Fair.welcome_step (hFair : Fair pr gs w) (hState : gs[t]? = some (j, ℓ)) (hAdmits : Admits False pr ℓ o)
    (hExec : exec t j o ch w = some (r, w')) :
    Ticket (fun u => (locals (advanced gs t j ℓ o r) u).stage = .removed) (count welcomes w') := by
  rw [count_of_exec welcomes hExec]
  by_cases hRemove : o = .unlink pr.info
  · subst hRemove
    have hFound : (locals gs t).stage = .found := by rw [locals_eq hState, found_of_unlink hAdmits]
    obtain ⟨hNone, hZero⟩ := hFair.open_of_found hFound
    have hOnly : ∀ u, (locals (advanced gs t j ℓ (.unlink pr.info) r) u).stage = .removed → u = t := fun u hu =>
      ((removed_advanced hState hAdmits hu).resolve_left (hNone u)).1
    have hCount : (count welcomes w + if welcomes (.unlink pr.info) then 1 else 0) = 0 := hZero
    rw [hCount]
    exact ⟨fun a b ha hb => (hOnly a ha).trans (hOnly b hb).symm, fun hPos => absurd hPos (lt_irrefl 0), Nat.zero_le 1⟩
  · have hBefore : ∀ u, (locals (advanced gs t j ℓ o r) u).stage = .removed → (locals gs u).stage = .removed :=
      fun u hu => (removed_advanced hState hAdmits hu).resolve_right fun hOp => hRemove hOp.2
    by_cases hWelcome : welcomes o = true
    · obtain ⟨hStage, hOver⟩ := removed_of_welcomes hAdmits hWelcome
      rw [if_pos hWelcome]
      refine hFair.welcome.use (t := t) (by rw [locals_eq hState, hStage]) fun u hu => ⟨hBefore u hu, ?_⟩
      rintro rfl
      rw [locals_advanced hState, if_pos rfl] at hu
      cases (hOver r).symm.trans hu
    · rw [if_neg hWelcome]
      exact hFair.welcome.mono hBefore

theorem doomed_advanced (hState : gs[t]? = some (j, ℓ)) (hu : doomed (locals (advanced gs t j ℓ o r) u).stage = true) :
    doomed (locals gs u).stage = true ∨ o = .enterFailKick ∨ ∃ p, ∃ hOp : o = .fileExists p, hOp ▸ r = .ok true := by
  rcases locals_advanced_inv hState r u with ⟨rfl, hEq⟩ | ⟨_, _, hEq⟩ | ⟨_, hEq⟩ <;> rw [hEq] at hu
  · rw [locals_eq hState]
    exact doomed_of_moves (Stage.moves_after ℓ.stage o r) hu
  · rcases spawned_stage o r with hOver | ⟨hTiming, _⟩
    · rw [hOver] at hu
      cases hu
    · rw [hTiming] at hu
      cases hu
  · exact .inl hu

theorem doomed_of_kick (hAdmits : Admits False pr ℓ o) (hKick : isKick o = true) : doomed ℓ.stage = true := by
  cases o with
  | exe call =>
    cases call with
    | kickChatMember userId chatId =>
      obtain ⟨_, _, hStage⟩ := hAdmits
      rw [hStage]
      rfl
    | _ => cases hKick
  | _ => cases hKick

theorem unlink_of_exec {r : Except Throwable Unit} (h : exec t j (.unlink p) ch w = some (r, w')) :
    w'.files p = none := by
  rcases exec_eq_some h with ⟨e, hRaises, _⟩ | ⟨a, _, rfl, rfl⟩
  · cases hRaises
  · exact Function.update_self _ _ _

theorem Fair.closed_remove {r : Except Throwable Unit} (hFair : Fair pr gs w) (hState : gs[t]? = some (j, ℓ))
    (hAdmits : Admits False pr ℓ (.unlink pr.info)) (hExec : exec t j (.unlink pr.info) ch w = some (r, w'))
    (hDoomed : ∀ u, doomed (locals gs u).stage = false) (hKick : count isKick w = 0) :
    w'.files pr.info = none ∧ (∀ u, unissued (locals (advanced gs t j ℓ (.unlink pr.info) r) u).stage = false ∧
      doomed (locals (advanced gs t j ℓ (.unlink pr.info) r) u).stage = false) ∧ count isKick w' = 0 := by
  have hFound : (locals gs t).stage = .found := by rw [locals_eq hState, found_of_unlink hAdmits]
  refine ⟨unlink_of_exec (j := j) hExec, fun u => ⟨?_, ?_⟩, ?_⟩
  · by_contra hUnissued
    have hEmpty := hFair.empty u (unissued_advanced hState (Bool.not_eq_false _ ▸ hUnissued))
    cases (hFair.found t hFound).2.symm.trans hEmpty
  · by_contra hNot
    rcases doomed_advanced hState (Bool.not_eq_false _ ▸ hNot) with hBefore | hOp | ⟨_, hOp, _⟩
    · cases hBefore.symm.trans (hDoomed u)
    · cases hOp
    · cases hOp
  · rw [count_of_exec isKick hExec, hKick]
    rfl

section

variable (hFair : Fair pr gs w) (hState : gs[t]? = some (j, ℓ)) (hAdmits : Admits False pr ℓ o)
  (hExec : exec t j o ch w = some (r, w'))
  (hRemove : o = .unlink pr.info → (∀ u, doomed (locals gs u).stage = false) ∧ count isKick w = 0)

include hFair hState hAdmits hExec hRemove

theorem Fair.closed_step
    (hClosed : (∃ u, (locals (advanced gs t j ℓ o r) u).stage = .removed) ∨ 0 < count welcomes w') :
    w'.files pr.info = none ∧ (∀ u, unissued (locals (advanced gs t j ℓ o r) u).stage = false ∧
      doomed (locals (advanced gs t j ℓ o r) u).stage = false) ∧ count isKick w' = 0 := by
  by_cases hOp : o = .unlink pr.info
  · subst hOp
    exact hFair.closed_remove hState hAdmits hExec (hRemove rfl).1 (hRemove rfl).2
  · have hBefore : (∃ u, (locals gs u).stage = .removed) ∨ 0 < count welcomes w := by
      rcases hClosed with ⟨u, hu⟩ | hPos
      · exact .inl ⟨u, (removed_advanced hState hAdmits hu).resolve_right fun h => hOp h.2⟩
      · by_cases hWelcome : welcomes o = true
        · exact .inl ⟨t, by rw [locals_eq hState, (removed_of_welcomes hAdmits hWelcome).1]⟩
        · rw [count_of_exec welcomes hExec, if_neg hWelcome] at hPos
          exact .inr hPos
    obtain ⟨hNone, hAll, hKick⟩ := hFair.closed hBefore
    have hStage : unissued ℓ.stage = false ∧ doomed ℓ.stage = false := by
      have hSelf := hAll t
      rwa [locals_eq hState] at hSelf
    refine ⟨?_, fun u => ⟨?_, ?_⟩, ?_⟩
    · rcases info_of_exec hAdmits hExec with hSame | ⟨_, hBuilt⟩ | ⟨_, hIssuing⟩ | ⟨_, _, _, hGone⟩
      · rw [hSame, hNone]
      · rw [hBuilt] at hStage
        cases hStage.1
      · rw [hIssuing] at hStage
        cases hStage.1
      · exact hGone
    · by_contra hUnissued
      cases (hAll u).1.symm.trans (unissued_advanced hState (Bool.not_eq_false _ ▸ hUnissued))
    · by_contra hNot
      rcases doomed_advanced hState (Bool.not_eq_false _ ▸ hNot) with hDoomed | rfl | ⟨p, rfl, rfl⟩
      · cases hDoomed.symm.trans (hAll u).2
      · obtain ⟨_, _, s, c, hOverdue, _⟩ := hAdmits
        rw [hOverdue] at hStage
        cases hStage.2
      · obtain ⟨_, _, rfl⟩ := hAdmits
        have hExists := exists_of_exec (j := j) hExec
        rw [hNone] at hExists
        cases hExists
    · rw [count_of_exec isKick hExec, hKick]
      by_cases hIsKick : isKick o = true
      · cases (doomed_of_kick hAdmits hIsKick).symm.trans hStage.2
      · rw [if_neg hIsKick]

theorem Fair.step :
    Fair pr (advanced gs t j ℓ o r) w' where
  agreed := hFair.agreed_step hState hAdmits hExec
  locked := hFair.locked_step hState hAdmits hExec
  rooted := hFair.rooted_step hState hAdmits hExec
  dir := hFair.dir_step hState hAdmits hExec
  bound := (json_of_exec hExec hFair.bound).2
  empty := hFair.empty_step hState hAdmits hExec
  found := hFair.found_step hState hAdmits hExec
  kick := hFair.kick_step hState hAdmits hExec
  welcome := hFair.welcome_step hState hAdmits hExec
  closed := hFair.closed_step hState hAdmits hExec hRemove

end

theorem Fair.launch (hFair : Fair pr gs w) (hLock : j.local.lock = .free)
    (hStage : j.local.stage = .calling ∨ j.local.stage = .over ∨ (j.local.stage = .asking ∧ w.dirs pr.dir = true)) :
    Fair pr (gs ++ [(j, j.local)]) w := by
  have hGrips : lockGrips (gs ++ [(j, j.local)]) = lockGrips gs := by
    funext u
    rw [lockGrips, locals_start]
    split
    · rename_i hu
      rw [hLock, lockGrips, locals_of_le hu.ge]
      rfl
    · rfl
  -- a stage other than these was there before
  have hBefore : ∀ {P : Stage → Prop} {u : Nat}, ¬ P .calling → ¬ P .over → ¬ P .asking →
      P (locals (gs ++ [(j, j.local)]) u).stage → P (locals gs u).stage := by
    intro P u hCalling hOver hAsking hu
    rw [locals_start] at hu
    split at hu
    · rcases hStage with h | h | ⟨h, _⟩ <;> rw [h] at hu
      · exact absurd hu hCalling
      · exact absurd hu hOver
      · exact absurd hu hAsking
    · exact hu
  constructor
  case agreed => exact hGrips ▸ hFair.agreed
  case locked => exact hGrips ▸ hFair.locked
  case rooted =>
    intro u hu
    rw [locals_start] at hu
    split at hu
    · rcases hStage with h | h | ⟨_, hDir⟩
      · simp [h] at hu
      · simp [h] at hu
      · exact hDir
    · exact hFair.rooted u hu
  case dir => exact hFair.dir
  case bound => exact hFair.bound
  case empty => exact fun u hu => hFair.empty u (hBefore (P := fun s => unissued s = true) nofun nofun nofun hu)
  case found =>
    intro u hu
    have hFound := hFair.found u (hBefore (P := fun s => s = .found) nofun nofun nofun hu)
    have hLt : u ≠ gs.length := by
      rintro rfl
      rw [locals_of_le le_rfl] at hFound
      cases hFound.1
    rwa [locals_start, if_neg hLt]
  case kick => exact hFair.kick.mono fun u hu => hBefore (P := fun s => underWay s = true) nofun nofun nofun hu
  case welcome => exact hFair.welcome.mono fun u hu => hBefore (P := fun s => s = .removed) nofun nofun nofun hu
  case closed =>
    intro hClosed
    obtain ⟨hNone, hAll, hKick⟩ := hFair.closed (hClosed.imp_left fun ⟨u, hu⟩ =>
      ⟨u, hBefore (P := fun s => s = .removed) nofun nofun nofun hu⟩)
    refine ⟨hNone, fun u => ⟨?_, ?_⟩, hKick⟩
    · by_contra hNot
      have hOld := hBefore (P := fun s => unissued s = true) nofun nofun nofun (Bool.not_eq_false _ ▸ hNot)
      cases hOld.symm.trans (hAll u).1
    · by_contra hNot
      have hOld := hBefore (P := fun s => doomed s = true) nofun nofun nofun (Bool.not_eq_false _ ▸ hNot)
      cases hOld.symm.trans (hAll u).2

end Step

/-! ## Runs -/

def destined : Run Unit → Bool
  | .op .enterFailKick _ | .op (.exe (.kickChatMember ..) _) _ => true
  | .op (.fopen _ _) k | .op (.flock _) k | .op (.unflock _) k | .op (.unlink _) k => destined (k (.ok ()))
  | _ => false

/-- Once the timer's last test has found the captcha, it will kick. -/
theorem destined_of_doomed {pr : Pair} {q : Run Unit} {ℓ : Local} (hDoomed : doomed ℓ.stage = true)
    (hKeeps : q.Keeps (stages False pr) (Finished j) ℓ) : destined q = true := by
  induction q generalizing ℓ with
  | ret a | throw e =>
    have hSettled : ℓ.stage.settled = true := hKeeps.2.2
    cases hStage : ℓ.stage <;> simp [hStage, doomed, Stage.settled] at hDoomed hSettled
  | op o k ih =>
    obtain ⟨hAdmits, hNext⟩ := hKeeps
    -- the fast lock may come between
    have hStay : ∀ r, Answers o r → doomed (ℓ.stage.after o r) = true → destined (k r) = true := fun r hr hStage =>
      ih r hStage (hNext r hr)
    have hBlocks : ¬ ℓ.stage.permits o = true → ∀ P : Prop, ¬ (ℓ.Ready ∧ ℓ.stage.permits o = true ∧ P) :=
      fun hNot _ h => hNot h.2.1
    obtain ⟨fast, lock, stage⟩ := ℓ
    have hCases := doomed_cases hDoomed
    cases o with
    | enterFailKick => rfl
    | fopen h p => exact hStay (.ok ()) (answers_ok (.fopen h p) (by simp) ()) hDoomed
    | flock h => exact hStay (.ok ()) (answers_ok (.flock h) (by simp) ()) hDoomed
    | unflock h =>
      refine hStay (.ok ()) (answers_ok (.unflock h) (by simp) ()) ?_
      rcases hCases with ⟨s, c, rfl⟩ | rfl <;> cases h <;> rfl
    | unlink p =>
      refine hStay (.ok ()) (answers_ok (.unlink p) (by simp) ()) ?_
      rcases hCases with ⟨s, c, rfl⟩ | rfl <;> cases p <;> rfl
    | exe call =>
      cases call with
      | kickChatMember userId chatId => rfl
      | _ => rcases hCases with ⟨s, c, rfl⟩ | rfl <;> exact absurd hAdmits (hBlocks Bool.false_ne_true _)
    | go task =>
      cases task with
      | deleteMessage chatId messageId =>
        rcases hCases with ⟨s, c, rfl⟩ | rfl <;> exact absurd hAdmits (hBlocks Bool.false_ne_true _)
      | timer d rounds =>
        obtain ⟨_, _, hWritten⟩ := hAdmits
        rcases hCases with ⟨s, c, rfl⟩ | rfl <;> cases hWritten
    | _ => rcases hCases with ⟨s, c, rfl⟩ | rfl <;> exact absurd hAdmits (hBlocks Bool.false_ne_true _)

/-- Calls for the same chat and user, but no join; `checkAnswer` alone needs the directory. -/
def Calls (pr : Pair) (c : Conf) : Label Job Choice → Prop
  | .start (.checkAnswer d) => Pair.of d = pr ∧ c.shared.dirs pr.dir = true
  | .start (.message d) | .start (.isHavingCaptcha d) => Pair.of d = pr
  | .start _ => False
  | .step _ _ => True

/-- The file is removed only as long as no timer is about to kick, or has kicked. -/
def early (c : Conf) : Label Job Choice → Bool
  | .start _ => true
  | .step t _ =>
    match c.threads[t]? with
    | some (_, .op (.unlink (.captchaFile _)) _) =>
      (c.threads.all fun x => !destined x.2) && c.shared.trace.all fun e => !isKick e.event.op
    | _ => true

def Early (pr : Pair) (c : Conf) (l : Label Job Choice) : Prop := Calls pr c l ∧ early c l = true

section Runs

variable {d : Data} {rounds : Nat} {s : World} {c : Conf}

theorem fair_join (hFile : s.files (Pair.of d).info = none) (hTrace : s.trace = []) :
    Fair (.of d) [(.dropCaptcha d rounds, Job.local (.dropCaptcha d rounds))] s := by
  have hLocals : ∀ u, locals [(.dropCaptcha d rounds, Job.local (.dropCaptcha d rounds))] u =
      if u = 0 then ⟨.free, .free, .joining⟩ else idle := by
    intro u
    cases u <;> rfl
  have hNot : ∀ {P : Stage → Prop} {u : Nat}, ¬ P .joining → ¬ P .over →
      ¬ P (locals [(.dropCaptcha d rounds, Job.local (.dropCaptcha d rounds))] u).stage := by
    intro P u hJoining hOver
    rw [hLocals]
    split
    · exact hJoining
    · exact hOver
  have hFree : ∀ u, lockGrips [(.dropCaptcha d rounds, Job.local (.dropCaptcha d rounds))] u = .free := by
    intro u
    rw [lockGrips, hLocals]
    split <;> rfl
  have hCount : ∀ outcome, count outcome s = 0 := fun outcome => by rw [count, hTrace]; rfl
  constructor
  case agreed => exact ⟨0, fun u hu => absurd (hFree u) hu⟩
  case locked => exact fun u hu => absurd (hFree u) hu
  case rooted =>
    exact fun u hu => absurd hu (hNot (P := fun s => s = .built ∨ s = .issuing ∨ s = .asking) (by simp) (by simp))
  case dir => simp [hFile]
  case bound => simp [hFile]
  case empty => simp [World.json, hFile, Php.isArray]
  case found => exact fun u hu => absurd hu (hNot (P := fun s => s = .found) (by simp) (by simp))
  case kick =>
    have hOnly : ∀ u, underWay (locals [(.dropCaptcha d rounds, Job.local (.dropCaptcha d rounds))] u).stage = true →
        u = 0 := by
      intro u hu
      by_contra hNe
      rw [hLocals, if_neg hNe] at hu
      cases hu
    rw [hCount]
    exact ⟨fun a b ha hb => (hOnly a ha).trans (hOnly b hb).symm, fun hPos => absurd hPos (lt_irrefl 0), Nat.zero_le 1⟩
  case welcome =>
    rw [hCount]
    exact ⟨fun a _ ha => absurd ha (hNot (P := fun s => s = .removed) (by simp) (by simp)), fun hPos => absurd hPos (lt_irrefl 0),
      Nat.zero_le 1⟩
  case closed =>
    rintro (⟨u, hu⟩ | hPos)
    · exact absurd hu (hNot (P := fun s => s = .removed) (by simp) (by simp))
    · rw [hCount] at hPos
      exact absurd hPos (lt_irrefl 0)

theorem open_of_early {pr : Pair} {gs : List (Job × Local)} {t : Nat} {ch : Choice}
    {k : Except Throwable Unit → Run Unit} (hTyped : Typed (stages False pr) Finished gs c)
    (hOk : early c (.step t ch) = true) (hThread : c.threads[t]? = some (j, .op (.unlink pr.info) k)) :
    (∀ u, doomed (locals gs u).stage = false) ∧ count isKick c.shared = 0 := by
  simp only [early, hThread, Pair.info, Bool.and_eq_true, List.all_eq_true, Bool.not_eq_true'] at hOk
  refine ⟨fun u => ?_, ?_⟩
  · by_contra hNot
    have hDoomed : doomed (locals gs u).stage = true := Bool.not_eq_false _ ▸ hNot
    cases hState : gs[u]? with
    | none =>
      rw [locals_of_le (List.getElem?_eq_none_iff.mp hState)] at hDoomed
      cases hDoomed
    | some x =>
      obtain ⟨q, hq, hKeeps⟩ := hTyped.thread hState
      rw [locals_eq hState] at hDoomed
      cases (destined_of_doomed hDoomed hKeeps).symm.trans (hOk.1 _ (List.mem_of_getElem? hq))
  · rw [count, List.countP_eq_zero]
    intro e he
    simp [hOk.2 e he]

theorem fair_reach (hFile : s.files (Pair.of d).info = none) (hTrace : s.trace = [])
    (hReach : system.Reach (Early (.of d)) ⟨s, [system.fresh (.dropCaptcha d rounds)]⟩ c) :
    ∃ gs, Typed (stages False (.of d)) Finished gs c ∧ Roles gs ∧ Fair (.of d) gs c.shared := by
  have hOf : Job.Of False (.of d) (.dropCaptcha d rounds) := ⟨rfl, nofun⟩
  have hTyped : Typed (stages False (.of d)) Finished [(.dropCaptcha d rounds, Job.local (.dropCaptcha d rounds))]
      ⟨s, [system.fresh (.dropCaptcha d rounds)]⟩ := by
    refine (Typed.nil s).append (M := system) s [.dropCaptcha d rounds] fun i hi => ?_
    exact List.mem_singleton.mp hi ▸ code_keeps hOf
  refine stages_reach ?_ ?_ hTyped (roles_nil.launch _) (fair_join hFile hTrace) hReach
  · rintro c gs j _ hFair ⟨hCall, _⟩
    cases j with
    | checkAnswer d' => exact ⟨hCall.1, hFair.launch rfl (.inr (.inr ⟨rfl, hCall.2⟩))⟩
    | message d' => exact ⟨hCall, hFair.launch rfl (.inl rfl)⟩
    | isHavingCaptcha d' => exact ⟨hCall, hFair.launch rfl (.inr (.inl rfl))⟩
    | _ => cases hCall
  · rintro c gs t ch j ℓ o k r w' hTyped _ hFair ⟨_, hEarly⟩ hThread hState hAdmits hExec
    refine hFair.step hState hAdmits hExec ?_
    rintro rfl
    exact open_of_early hTyped hEarly hThread

theorem one_outcome (d : Data) (rounds : Nat) (s : World) (c : Conf) (hFile : s.files (Pair.of d).info = none)
    (hTrace : s.trace = [])
    (hReach : system.Reach (Early (.of d)) ⟨s, [system.fresh (.dropCaptcha d rounds)]⟩ c) :
    count welcomes c.shared + count isKick c.shared ≤ 1 := by
  obtain ⟨gs, _, _, hFair⟩ := fair_reach hFile hTrace hReach
  have hWelcome := hFair.welcome.once
  have hKick := hFair.kick.once
  by_cases hNone : count welcomes c.shared = 0
  · omega
  · have hKicked := (hFair.closed (.inr (by omega))).2.2
    omega

end Runs

def accepted : List (Label Job Choice) :=
  issue 0 0 ++ steps 1 1 ++ .start (.message newcomer) :: steps 2 11 ++ [answer 2 .null] ++ steps 1 1 ++ [later 1 601]

theorem one_outcome_accepted :
    ∃ c, system.runWhile early ⟨.initial, [system.fresh (.dropCaptcha newcomer 2)]⟩ accepted = some c ∧
      count welcomes c.shared = 1 ∧ count welcomes c.shared + count isKick c.shared ≤ 1 := by
  have hRun : (system.runWhile early ⟨.initial, [system.fresh (.dropCaptcha newcomer 2)]⟩ accepted).any
      (fun c => count welcomes c.shared = 1) = true := by
    decide +kernel
  obtain ⟨c, hc, hWelcome⟩ := (Option.any_eq_true _ _).mp hRun
  refine ⟨c, hc, of_decide_eq_true hWelcome, one_outcome newcomer 2 .initial c rfl rfl ?_⟩
  refine reach_of_runWhile (fun l hl c hOk => ⟨?_, hOk⟩) hc
  cases l with
  | start j =>
    have hj : j = .message newcomer := by simpa [accepted, issue, steps, later, answer] using hl
    exact hj ▸ rfl
  | step t ch => trivial

/-- The timer has made its last test when the answer comes; the user is welcomed and then
kicked. -/
def overtaken : List (Label Job Choice) :=
  issue 0 0 ++ steps 1 1 ++ [later 1 601, later 1 1] ++ steps 1 5 ++
    .start (.message newcomer) :: steps 2 11 ++ [answer 2 .null] ++ steps 2 6 ++ [answer 2 .null, answer 2 .null] ++
    steps 2 4 ++ steps 1 3 ++ [answer 1 .null]

theorem overtaken_two_outcomes :
    ∃ c, system.Reach (Calls (.of newcomer)) ⟨.initial, [system.fresh (.dropCaptcha newcomer 2)]⟩ c ∧
      count welcomes c.shared = 1 ∧ count isKick c.shared = 1 := by
  have hRun : (system.run ⟨.initial, [system.fresh (.dropCaptcha newcomer 2)]⟩ overtaken).any
      (fun c => count welcomes c.shared = 1 ∧ count isKick c.shared = 1) = true := by
    decide +kernel
  obtain ⟨c, hc, hBoth⟩ := (Option.any_eq_true _ _).mp hRun
  refine ⟨c, reach_of_run (fun l hl c => ?_) hc, of_decide_eq_true hBoth⟩
  cases l with
  | start j =>
    have hj : j = .message newcomer := by simpa [overtaken, issue, steps, later, answer] using hl
    exact hj ▸ rfl
  | step t ch => trivial

end TeaBot.Captcha.Verdict
