import TeaBot.Captcha.Stages
import TeaBot.Foundation.TypedRuns

/-! # Runs of the coroutines of one chat and user -/

namespace TeaBot.Captcha

open Foundation Foundation.System Responder

abbrev Conf := Config World Op Op.Res Throwable Unit Job

def idle : Local := ⟨.free, .free, .over⟩

/-- The states of the coroutines; those that do not exist are idle. -/
def locals (gs : List (Job × Local)) (t : Nat) : Local := stateOf idle gs t

def spawnedLocal (o : Op) (r : Except Throwable o.Res) : Local :=
  ((spawned o r).head?.map Job.local).getD idle

def advanced (gs : List (Job × Local)) (t : Nat) (j : Job) (ℓ : Local) (o : Op) (r : Except Throwable o.Res) :
    List (Job × Local) :=
  gs.set t (j, ℓ.after o r) ++ (spawned o r).map fun i => (i, i.local)

section Locals

variable {gs : List (Job × Local)} {t u : Nat} {j : Job} {ℓ : Local} {o : Op} {r : Except Throwable o.Res}

theorem locals_eq (h : gs[t]? = some (j, ℓ)) : locals gs t = ℓ := stateOf_eq h

theorem locals_of_le (h : gs.length ≤ u) : locals gs u = idle := by
  simp [locals, stateOf, List.getElem?_eq_none h]

theorem locals_start (j : Job) (u : Nat) :
    locals (gs ++ [(j, j.local)]) u = if u = gs.length then j.local else locals gs u := by
  rw [locals, stateOf_append]
  split
  · rename_i hLt
    rw [if_neg (by omega)]
    rfl
  · rename_i hLe
    by_cases hu : u = gs.length
    · subst hu
      simp [stateOf]
    · obtain ⟨k, hk⟩ : ∃ k, u - gs.length = k + 1 := ⟨u - gs.length - 1, by omega⟩
      rw [if_neg hu, hk, locals_of_le (by omega)]
      rfl

theorem spawned_cases (o : Op) (r : Except Throwable o.Res) :
    (spawned o r = [] ∧ spawnedLocal o r = idle) ∨ ∃ i, spawned o r = [i] ∧ spawnedLocal o r = i.local := by
  unfold spawnedLocal
  unfold spawned
  split
  · exact .inr ⟨_, rfl, rfl⟩
  · exact .inl ⟨rfl, rfl⟩

theorem locals_advanced (h : gs[t]? = some (j, ℓ)) (u : Nat) : locals (advanced gs t j ℓ o r) u =
    if u = t then ℓ.after o r else if u = gs.length then spawnedLocal o r else locals gs u := by
  have hLt : t < gs.length := (List.getElem?_eq_some_iff.mp h).1
  have hSet : ∀ u, locals (gs.set t (j, ℓ.after o r)) u = if u = t then ℓ.after o r else locals gs u := by
    intro u
    rw [locals, stateOf_set h]
    exact Function.update_apply _ _ _ _
  rcases spawned_cases o r with ⟨hNone, hIdle⟩ | ⟨i, hSome, hLocal⟩
  · rw [advanced, hNone, hIdle, List.map_nil, List.append_nil, hSet]
    split
    · rfl
    · split
      · rename_i hu
        exact locals_of_le hu.ge
      · rfl
  · rw [advanced, hSome, hLocal, List.map_singleton, locals_start, hSet, List.length_set]
    by_cases hu : u = t
    · simp [hu, hLt.ne]
    · simp [hu]

theorem length_le_advanced : gs.length ≤ (advanced gs t j ℓ o r).length := by
  simp [advanced]

theorem job_advanced {i : Job} {ℓ' : Local} (h : gs[t]? = some (j, ℓ)) (hJob : gs[u]? = some (i, ℓ')) :
    ∃ ℓ'', (advanced gs t j ℓ o r)[u]? = some (i, ℓ'') := by
  have hLt := (List.getElem?_eq_some_iff.mp hJob).1
  rw [advanced, List.getElem?_append_left (by simpa using hLt)]
  by_cases hu : u = t
  · subst hu
    cases h.symm.trans hJob
    exact ⟨_, List.getElem?_set_self hLt⟩
  · exact ⟨ℓ', by rw [List.getElem?_set_ne (Ne.symm hu), hJob]⟩

theorem job_spawned {i : Job} (h : spawned o r = [i]) :
    (advanced gs t j ℓ o r)[gs.length]? = some (i, i.local) := by
  simp [advanced, h]

theorem locals_advanced_inv (h : gs[t]? = some (j, ℓ)) (r : Except Throwable o.Res) (u : Nat) :
    (u = t ∧ locals (advanced gs t j ℓ o r) u = ℓ.after o r) ∨
      (u ≠ t ∧ u = gs.length ∧ locals (advanced gs t j ℓ o r) u = spawnedLocal o r) ∨
      (u ≠ t ∧ locals (advanced gs t j ℓ o r) u = locals gs u) := by
  rw [locals_advanced h]
  split
  · exact .inl ⟨by assumption, rfl⟩
  · split
    · exact .inr (.inl ⟨by assumption, by assumption, rfl⟩)
    · exact .inr (.inr ⟨by assumption, rfl⟩)

end Locals

theorem spawned_stage (o : Op) (r : Except Throwable o.Res) :
    (spawnedLocal o r).stage = .over ∨ ((spawnedLocal o r).stage = .timing ∧ ∃ d rounds, o = .go (.timer d rounds)) := by
  cases o with
  | go task =>
    cases r with
    | error e => exact .inl rfl
    | ok a =>
      cases task with
      | deleteMessage chatId messageId => exact .inl rfl
      | timer d rounds => exact .inr ⟨rfl, d, rounds, rfl⟩
  | _ => exact .inl rfl

variable {j : Job} {u t : Nat} {ℓ : Local} {o : Op} {r : Except Throwable o.Res}

theorem stage_before {gs : List (Job × Local)} {P : Stage → Prop} (hState : gs[t]? = some (j, ℓ))
    (hMove : P (ℓ.stage.after o r) → P ℓ.stage) (hNew : ¬ P (spawnedLocal o r).stage)
    (h : P (locals (advanced gs t j ℓ o r) u).stage) : P (locals gs u).stage := by
  rcases locals_advanced_inv hState r u with ⟨rfl, hEq⟩ | ⟨_, _, hEq⟩ | ⟨_, hEq⟩ <;> rw [hEq] at h
  · rw [locals_eq hState]
    exact hMove h
  · exact absurd h hNew
  · exact h

/-! ## Roles -/

theorem dropping_local (h : j.local.stage.dropping = true) : ∃ d rounds, j = .dropCaptcha d rounds := by
  cases j with
  | dropCaptcha d rounds => exact ⟨d, rounds, rfl⟩
  | task task => cases task <;> cases h
  | _ => cases h

theorem watching_local (h : j.local.stage.watching = true) : ∃ d rounds, j = .task (.timer d rounds) := by
  cases j with
  | task task =>
    cases task with
    | timer d rounds => exact ⟨d, rounds, rfl⟩
    | deleteMessage chatId messageId => cases h
  | _ => cases h

/-- The stages of the coroutines go with their jobs. -/
structure Roles (gs : List (Job × Local)) : Prop where
  dropping : ∀ u, (locals gs u).stage.dropping = true → ∃ d rounds ℓ, gs[u]? = some (.dropCaptcha d rounds, ℓ)
  watching : ∀ u, (locals gs u).stage.watching = true → ∃ d rounds ℓ, gs[u]? = some (.task (.timer d rounds), ℓ)

theorem Roles.launch {gs : List (Job × Local)} (h : Roles gs) (j : Job) : Roles (gs ++ [(j, j.local)]) := by
  have hJob : ∀ {u : Nat} {i : Job} {ℓ : Local}, gs[u]? = some (i, ℓ) → (gs ++ [(j, j.local)])[u]? = some (i, ℓ) :=
    fun hi => by rw [List.getElem?_append_left (List.getElem?_eq_some_iff.mp hi).1, hi]
  constructor
  · intro u hu
    rw [locals_start] at hu
    split at hu
    · rename_i hLast
      obtain ⟨d, rounds, rfl⟩ := dropping_local hu
      exact ⟨d, rounds, _, by rw [hLast, List.getElem?_concat_length]⟩
    · obtain ⟨d, rounds, ℓ, hi⟩ := h.dropping u hu
      exact ⟨d, rounds, ℓ, hJob hi⟩
  · intro u hu
    rw [locals_start] at hu
    split at hu
    · rename_i hLast
      obtain ⟨d, rounds, rfl⟩ := watching_local hu
      exact ⟨d, rounds, _, by rw [hLast, List.getElem?_concat_length]⟩
    · obtain ⟨d, rounds, ℓ, hi⟩ := h.watching u hu
      exact ⟨d, rounds, ℓ, hJob hi⟩

section Advanced

variable {gs : List (Job × Local)} {t : Nat} {j : Job} {ℓ : Local} {o : Op} {r : Except Throwable o.Res}

theorem dropping_advanced (hState : gs[t]? = some (j, ℓ))
    (h : (locals (advanced gs t j ℓ o r) u).stage.dropping = true) :
    (locals gs u).stage.dropping = true := by
  refine stage_before (P := fun s => s.dropping = true) hState (Stage.moves_after ℓ.stage o r).dropping ?_ h
  rcases spawned_stage o r with hOver | ⟨hTiming, _⟩
  · rw [hOver]
    exact nofun
  · rw [hTiming]
    exact nofun

theorem watching_advanced (hState : gs[t]? = some (j, ℓ))
    (h : (locals (advanced gs t j ℓ o r) u).stage.watching = true) :
    ((locals gs u).stage.watching = true ∧ (u = t → o ≠ .enterFailKick)) ∨
      (u = gs.length ∧ ∃ d rounds, spawned o r = [.task (.timer d rounds)]) := by
  rcases locals_advanced_inv hState r u with ⟨rfl, hEq⟩ | ⟨_, hLast, hEq⟩ | ⟨hu, hEq⟩ <;> rw [hEq] at h
  · obtain ⟨hBefore, hNe⟩ := (Stage.moves_after ℓ.stage o r).watching h
    exact .inl ⟨by rw [locals_eq hState, hBefore], fun _ => hNe⟩
  · rcases spawned_cases o r with ⟨_, hIdle⟩ | ⟨i, hSpawned, hLocal⟩
    · rw [hIdle] at h
      cases h
    · rw [hLocal] at h
      obtain ⟨d, rounds, rfl⟩ := watching_local h
      exact .inr ⟨hLast, d, rounds, hSpawned⟩
  · exact .inl ⟨h, fun hEq => absurd hEq hu⟩

theorem Roles.step (h : Roles gs) (hState : gs[t]? = some (j, ℓ)) : Roles (advanced gs t j ℓ o r) where
  dropping u hu := by
    obtain ⟨d, rounds, ℓ', hJob⟩ := h.dropping u (dropping_advanced hState hu)
    exact ⟨d, rounds, job_advanced hState hJob⟩
  watching u hu := by
    rcases watching_advanced hState hu with ⟨hBefore, _⟩ | ⟨rfl, d, rounds, hSpawned⟩
    · obtain ⟨d, rounds, ℓ', hJob⟩ := h.watching u hBefore
      exact ⟨d, rounds, job_advanced hState hJob⟩
    · exact ⟨d, rounds, _, job_spawned hSpawned⟩

end Advanced

variable {pr : Pair} {strict : Prop}

theorem info_of_exec {ch : Choice} {w w' : World} (hAdmits : Admits strict pr ℓ o)
    (hExec : exec t j o ch w = some (r, w')) :
    w'.files pr.info = w.files pr.info ∨ (o = .touch pr.info ∧ ℓ.stage = .built) ∨
      ((∃ v, o = .writeJson pr.info v) ∧ ℓ.stage = .issuing) ∨
      (o = .unlink pr.info ∧ ℓ.stage = .found ∧ ℓ.lock = .held ∧ w'.files pr.info = none) := by
  rcases files_of_exec hExec pr.info with hSame | hMakes | ⟨rfl, hNone⟩
  · exact .inl hSame
  · cases o with
    | fopen h p =>
      cases h with
      | lockHandle =>
        obtain ⟨_, _, hPath, _⟩ := hAdmits
        cases hPath.symm.trans hMakes
      | fastLockHandle =>
        obtain ⟨_, _, hPath⟩ := hAdmits
        cases hPath.symm.trans hMakes
    | touch p =>
      obtain ⟨_, _, rfl, hStage⟩ := hAdmits
      exact .inr (.inl ⟨rfl, hStage⟩)
    | writeJson p v =>
      obtain ⟨_, _, rfl, hStage, _⟩ := hAdmits
      exact .inr (.inr (.inl ⟨⟨v, rfl⟩, hStage⟩))
    | _ => cases hMakes
  · obtain ⟨_, _, hPath | ⟨_, hStage, hLock⟩⟩ := hAdmits
    · cases hPath
    · exact .inr (.inr (.inr ⟨rfl, hStage, hLock, hNone⟩))

theorem settled_of_finished {q : Run Unit} (hKeeps : q.Keeps (stages strict pr) (Finished j) ℓ)
    (hFinished : q.finished = true) : ℓ.stage.settled = true := by
  cases q with
  | op o k => cases hFinished
  | ret a | throw e => exact hKeeps.2.2

theorem of_spawned (hAdmits : Admits strict pr ℓ o) : ∀ i ∈ spawned o r, i.Of strict pr := by
  intro i hi
  cases o with
  | go task =>
    cases r with
    | ok a =>
      cases List.mem_singleton.mp hi
      cases task with
      | deleteMessage chatId messageId => trivial
      | timer d rounds => exact hAdmits.2.1
    | error e => cases hi
  | _ => cases hi

theorem answers_of_exec {ch : Choice} {w w' : World} (hExec : exec t j o ch w = some (r, w')) : Answers o r := by
  refine ⟨ne_beyond_of_exec hExec, ?_⟩
  rintro e rfl
  exact (fail_of_exec hExec).1

/-- An invariant has to be checked against the start of a job and against one admitted
operation. -/
theorem stages_reach {ok : Conf → Label Job Choice → Prop} {J : List (Job × Local) → World → Prop}
    (hStart : ∀ (c : Conf) gs j, Typed (stages strict pr) Finished gs c → J gs c.shared → ok c (.start j) →
      j.Of strict pr ∧ J (gs ++ [(j, j.local)]) c.shared)
    (hStep : ∀ (c : Conf) gs t ch j ℓ o k r w', Typed (stages strict pr) Finished gs c → Roles gs → J gs c.shared →
      ok c (.step t ch) → c.threads[t]? = some (j, .op o k) → gs[t]? = some (j, ℓ) → Admits strict pr ℓ o →
      exec t j o ch c.shared = some (r, w') → J (advanced gs t j ℓ o r) w') {c₀ c : Conf} {gs₀ : List (Job × Local)}
    (hTyped : Typed (stages strict pr) Finished gs₀ c₀) (hRoles : Roles gs₀) (hJ : J gs₀ c₀.shared)
    (hReach : system.Reach ok c₀ c) : ∃ gs, Typed (stages strict pr) Finished gs c ∧ Roles gs ∧ J gs c.shared := by
  refine Typed.reach (M := system) (J := fun gs w => Roles gs ∧ J gs w) (fun j hOf => code_keeps hOf) ?_ ?_ hTyped
    ⟨hRoles, hJ⟩ hReach
  · intro c gs j hTyped hJ hOk
    obtain ⟨hOf, hJ'⟩ := hStart c gs j hTyped hJ.2 hOk
    exact ⟨hOf, hJ.1.launch j, hJ'⟩
  · intro c gs t ch j ℓ o k r w' hTyped hJ hOk hThread hState hAdmits hExec
    refine ⟨answers_of_exec (j := j) hExec, of_spawned hAdmits, hJ.1.step hState, ?_⟩
    exact hStep c gs t ch j ℓ o k r w' hTyped hJ.1 hJ.2 hOk hThread hState hAdmits hExec

theorem roles_nil : Roles [] := ⟨fun _ h => absurd h nofun, fun _ h => absurd h nofun⟩

/-- Jobs of one chat and user, and any steps. -/
def JobsOf (strict : Prop) (pr : Pair) (_ : Conf) : Label Job Choice → Prop
  | .start j => j.Of strict pr
  | .step _ _ => True

/-! ## A captcha -/

def newcomer : Data :=
  { chatId := .int (-100), userId := .int 7, fullName := .str "A", text := .str "1", msgId := .int 3 }

def steps (t n : Nat) : List (Label Job Choice) := List.replicate n (.step t {})

def later (t seconds : Nat) : Label Job Choice := .step t { elapsed := seconds * 1000000 }

def answer (t : Nat) (v : Php) : Label Job Choice := .step t { outcome := .answer v }

def sentAs (messageId : Int) : Php :=
  .obj [("ok", .bool true), ("result", .obj [("message_id", .int messageId)])]

/-- `dropCaptcha` in coroutine `t`, with `cleanUp` steps for the captcha message that was
there before. -/
def issue (t cleanUp : Nat) : List (Label Job Choice) :=
  steps t (16 + cleanUp) ++ [.step t { outcome := .point "1" 1 }, .step t { outcome := .latex none }, answer t (sentAs 5)] ++
    steps t 4

theorem newcomer_proper : Proper newcomer := ⟨⟨"A", rfl⟩, rfl, rfl⟩

end TeaBot.Captcha
