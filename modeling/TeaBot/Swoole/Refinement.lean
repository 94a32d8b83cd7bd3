import TeaBot.Loggers.UserHistory
import TeaBot.Swoole.Projection

/-! # The runtime refines the interleavings of the loggers

What a run of the coroutines does to files, locks and database, the loggers also do when
their operations are interleaved freely. Only the death of a process is no operation of
a logger.
-/

namespace TeaBot.Swoole

open Foundation Loggers

def caught (j : Job) (p : Run Unit) : Run Unit :=
  if j.ofConnection then catchError p fun _ => pure () else p

theorem caught_eq_op {j : Job} {p : Run Unit} {o : Op} {k : Except Throwable o.Res → Run Unit}
    (hEq : caught j p = .op o k) : ∃ k', p = .op o k' ∧ ∀ r, caught j (k' r) = k r := by
  by_cases hj : j.ofConnection
  · simp only [caught, hj, if_true, catchError] at hEq ⊢
    cases p with
    | ret a => cases hEq
    | throw e =>
      rw [Prog.tryCatch_throw] at hEq
      split at hEq <;> cases hEq
    | op o' k' =>
      cases hEq
      exact ⟨k', rfl, fun r => rfl⟩
  · rw [caught, if_neg hj] at hEq
    exact ⟨k, hEq, fun r => if_neg hj⟩

abbrev LoggerConfig := System.Config World Op Op.Res Throwable Unit Job

/-- The loggers of `σ` stand where the coroutines stand. -/
def Mirrors (gs : List (Task × Local)) (σ : LoggerConfig) : Prop :=
  gs.map (fun g => (g.1.job, g.2.prog)) = σ.threads.map fun th => (th.1, caught th.1 th.2)

namespace Mirrors

variable {h : Hashes} {gs : List (Task × Local)} {σ : LoggerConfig} {t : Nat} {task : Task} {d d' : Local}

theorem thread (hMirrors : Mirrors gs σ) (hGet : gs[t]? = some (task, d)) :
    ∃ p, σ.threads[t]? = some (task.job, p) ∧ d.prog = caught task.job p := by
  have hMap : (σ.threads.map fun th => (th.1, caught th.1 th.2))[t]? = some (task.job, d.prog) := by
    rw [← hMirrors, List.getElem?_map, hGet]
    rfl
  obtain ⟨⟨j, p⟩, hThread, hEq⟩ := Option.map_eq_some_iff.mp (List.getElem?_map ▸ hMap)
  obtain ⟨rfl, hProg⟩ := Prod.mk.inj hEq
  exact ⟨p, hThread, hProg.symm⟩

theorem stay (hMirrors : Mirrors gs σ) (hGet : gs[t]? = some (task, d)) (hProg : d'.prog = d.prog) :
    Mirrors (gs.set t (task, d')) σ := by
  have hMap : (gs.map fun g => (g.1.job, g.2.prog))[t]? = some (task.job, d'.prog) := by
    rw [List.getElem?_map, hGet, hProg]
    rfl
  rw [Mirrors, List.map_set, set_of_getElem? hMap]
  exact hMirrors

theorem set (hMirrors : Mirrors gs σ) (w : World) {p : Run Unit} (hProg : d'.prog = caught task.job p) :
    Mirrors (gs.set t (task, d')) ⟨w, σ.threads.set t (task.job, p)⟩ := by
  rw [Mirrors, List.map_set, List.map_set, ← hProg, hMirrors]

theorem append (hMirrors : Mirrors gs σ) (w : World) (new : List Task) :
    Mirrors (gs ++ new.map fun i => (i, Local.initial h i))
      ⟨w, σ.threads ++ (new.map Task.job).map (system h).fresh⟩ := by
  rw [Mirrors, List.map_append, List.map_append, hMirrors, List.map_map, List.map_map, List.map_map]
  rfl

end Mirrors

def starting (J : Job → Prop) : Config → System.Label Task (Bool × Choice) → Prop
  | _, .start task => J task.job
  | _, .step .. => True

def loggersStarting (J : Job → Prop) : LoggerConfig → System.Label Job Choice → Prop
  | _, .start j => J j
  | _, .step .. => True

variable {task : Task}

section Simulation

variable {h : Hashes} {J : Job → Prop} {w : World} {gs : List (Task × Local)} {s s' : Procs Runtime}

def Simulated (h : Hashes) (J : Job → Prop) (w : World) (gs : List (Task × Local)) (s : Procs Runtime) : Prop :=
  ∃ σ, (system h).Reach (loggersStarting J) ⟨w, []⟩ σ ∧ σ.shared = s.shared.world ∧ Mirrors gs σ

theorem Simulated.start (hSim : Simulated h J w gs s) (hTask : J task.job) :
    Simulated h J w (gs ++ [(task, Local.initial h task)]) s := by
  obtain ⟨σ, hReach, hWorld, hMirrors⟩ := hSim
  exact ⟨_, hReach.step (l := .start task.job) hTask rfl, hWorld, hMirrors.append σ.shared [task]⟩

theorem Simulated.step {t : Nat} {d d' : Local} {new : List Task} (hSim : Simulated h J w gs s)
    (hGet : gs[t]? = some (task, d)) (hSeen : Seen h t task d d' new s s') (hAlive : s'.dead task.proc = false) :
    Simulated h J w (gs.set t (task, d') ++ new.map fun i => (i, Local.initial h i)) s' := by
  obtain ⟨σ, hReach, hWorld, hMirrors⟩ := hSim
  cases hSeen with
  | silent hProg _ hNew hSame _ _ =>
    subst hNew
    rw [List.map_nil, List.append_nil]
    exact ⟨σ, hReach, hWorld.trans hSame.symm, hMirrors.stay hGet hProg⟩
  | @visible o k ch r hProg hExec hNext _ hNew _ _ =>
    obtain ⟨p, hThread, hCaught⟩ := hMirrors.thread hGet
    obtain ⟨k', rfl, hRest⟩ := caught_eq_op (hCaught.symm.trans hProg)
    have hJobs : (Loggers.spawned o r) = new.map Task.job := by
      rw [hNew, List.map_map]
      exact (List.map_id _).symm
    have hStep : (system h).next σ (.step t ch) =
        some ⟨s'.shared.world, σ.threads.set t (task.job, k' r) ++ (new.map Task.job).map (system h).fresh⟩ := by
      have hExec' : (system h).exec t task.job o ch σ.shared = some (r, s'.shared.world) := hWorld ▸ hExec
      have hSpawned : (system h).spawned o r = new.map Task.job := hJobs
      simp only [System.next, hThread, hExec', hSpawned]
    exact ⟨_, hReach.step (l := .step t ch) trivial hStep, rfl,
      (hMirrors.set s'.shared.world (hNext.trans (hRest r).symm)).append s'.shared.world new⟩
  | ended _ _ _ _ _ hDead =>
    rw [hDead, Function.update_self] at hAlive
    cases hAlive

theorem Seen.alive {t : Nat} {d d' : Local} {new : List Task} (hSeen : Seen h t task d d' new s s')
    (hAlive : ∀ p, s'.dead p = false) : ∀ p, s.dead p = false := by
  cases hSeen with
  | silent _ _ _ _ _ hDead | visible _ _ _ _ _ _ hDead => exact hDead ▸ hAlive
  | ended _ _ _ _ _ hDead =>
    have hSelf := hAlive task.proc
    rw [hDead, Function.update_self] at hSelf
    cases hSelf

theorem simulated_reach {c : Config} (hLocks : ∀ m, w.locks m = none) (hChans : w.chans = [])
    (hReach : (machine h).Reach (starting J) (initial w) c) (hAlive : ∀ p, c.shared.dead p = false) :
    ∃ gs, Placed gs c ∧ Simulated h J w gs c.shared := by
  obtain ⟨gs, hPlaced, _, hSim⟩ : ∃ gs, Placed gs c ∧ Inv gs c.shared ∧
      ((∀ p, c.shared.dead p = false) → Simulated h J w gs c.shared) := by
    have hCode : ∀ task, True → ((machine h).code task).Keeps steps (fun _ d => d.phase = .ended)
        (Local.initial h task) := fun task _ => code_keeps h task
    refine System.Typed.reach (J := fun gs s => Inv gs s ∧ ((∀ p, s.dead p = false) → Simulated h J w gs s)) hCode ?_
      ?_ (.nil _) ⟨inv_initial hLocks hChans, ?_⟩ hReach
    · exact fun c gs task _ hJ hTask => ⟨trivial, hJ.1.start h task, fun hAlive => (hJ.2 hAlive).start hTask⟩
    · intro c gs t ch task d o k r s' _ hJ _ _ hGet hAdmits hExec
      obtain ⟨hAnswers, hNew⟩ := hJ.1.step_inv hGet hAdmits hExec
      have hSeen := step_seen hJ.1 hGet hAdmits hExec
      exact ⟨hAnswers, fun _ _ => trivial, hNew, fun hAlive =>
        (hJ.2 (hSeen.alive hAlive)).step hGet hSeen (hAlive task.proc)⟩
    · exact fun _ => ⟨⟨w, []⟩, .refl, rfl, rfl⟩
  exact ⟨gs, hPlaced, hSim hAlive⟩

end Simulation

theorem reach_starting {h : Hashes} {J : Job → Prop} {w : World} {c : Config} {ls : Schedule}
    (hStart : ∀ task, .start task ∈ ls → J task.job) (hRun : (machine h).run (initial w) ls = some c) :
    (machine h).Reach (starting J) (initial w) c := by
  refine System.reach_of_run (fun l hl c => ?_) hRun
  cases l with
  | start task => exact hStart task hl
  | step t ch => trivial

/-- While no process has died, the world is one that the loggers of the same jobs reach by
an interleaving of their own operations. -/
theorem runtime_refines_loggers (h : Hashes) (J : Job → Prop) (w : World) (hLocks : ∀ m, w.locks m = none)
    (hChans : w.chans = []) (c : Config) (hReach : (machine h).Reach (starting J) (initial w) c)
    (hAlive : ∀ p, c.shared.dead p = false) :
    ∃ σ, (system h).Reach (loggersStarting J) ⟨w, []⟩ σ ∧ σ.shared = c.shared.shared.world ∧
      σ.threads.map Prod.fst = c.threads.map fun th => th.1.job := by
  obtain ⟨gs, hPlaced, σ, hLoggers, hWorld, hMirrors⟩ := simulated_reach hLocks hChans hReach hAlive
  refine ⟨σ, hLoggers, hWorld, ?_⟩
  have hJobs := congrArg (List.map Prod.fst) hMirrors
  have hTasks := congrArg (List.map Task.job) hPlaced.jobs
  simp only [List.map_map, Function.comp_def] at hJobs hTasks
  exact hJobs.symm.trans hTasks

def greeting : Job :=
  .resolveUser { data := some { userId := .int 1, firstName := .str "A", isBot := .bool false }, dateTime := "" }

/-- The first of two messages is committed, the second waits for the lock in another process. -/
def greetings : Schedule := [.start ⟨0, greeting⟩, .start ⟨1, greeting⟩] ++ onward 0 19 ++ onward 1 3

theorem greetings_fresh (hStart : .start task ∈ greetings) : UserHistory.FreshCall task.job := by
  have hTask : task = ⟨0, greeting⟩ ∨ task = ⟨1, greeting⟩ := by simpa [greetings, onward] using hStart
  have hJob : task.job = greeting := by rcases hTask with rfl | rfl <;> rfl
  rw [hJob]
  exact ⟨_, _, 1, rfl, rfl, none, some "A", none, rfl, rfl, rfl⟩

theorem greetings_refine_loggers : ∃ c σ,
    (machine plainHashes).Reach (starting UserHistory.FreshCall) (initial .initial) c ∧
    Runs c 1 ⟨1, greeting⟩ (.own (.flock (.new "tg_users" "1"))) ∧
    (system plainHashes).Reach (loggersStarting UserHistory.FreshCall) ⟨.initial, []⟩ σ ∧
    σ.shared = c.shared.shared.world := by
  have hRun : ((machine plainHashes).run (initial .initial) greetings).map
      (fun c => (glance 1 1 c, c.shared.dead)) =
      some ((some (⟨1, greeting⟩, .own (.flock (.new "tg_users" "1"))), [some 1], false), fun _ => false) := by
    rfl
  obtain ⟨c, hc, hSee⟩ := Option.map_eq_some_iff.mp hRun
  obtain ⟨hSee, hAlive⟩ := Prod.mk.inj hSee
  have hReach := reach_starting (fun _ => greetings_fresh) hc
  obtain ⟨σ, hLoggers, hWorld, _⟩ :=
    runtime_refines_loggers _ _ .initial (fun _ => rfl) rfl c hReach (congrFun hAlive)
  exact ⟨c, σ, hReach, runs_of_glance ⟨1, greeting⟩ hSee, hLoggers, hWorld⟩

/-- Whatever the coroutines of the pool do in whatever order, the rows of every user tell
what the committed calls said. -/
theorem user_history_on_runtime (h : Hashes) (c : Config)
    (hReach : (machine h).Reach (starting UserHistory.FreshCall) (initial .initial) c)
    (hAlive : ∀ p, c.shared.dead p = false) (n : Int) :
    UserHistory.Consistent c.shared.shared.world n := by
  obtain ⟨gs, _, σ, hLoggers, hWorld, _⟩ := simulated_reach (fun _ => rfl) rfl hReach hAlive
  have hCalls : loggersStarting UserHistory.FreshCall = UserHistory.calls := by
    funext _ l
    cases l <;> rfl
  have hProved := UserHistory.proved_reach (UserHistory.proved_start h) (hCalls ▸ hLoggers)
  rw [← hWorld]
  exact UserHistory.consistent_of_inv hProved.inv n

theorem greetings_consistent : ∃ c,
    (machine plainHashes).Reach (starting UserHistory.FreshCall) (initial .initial) c ∧
    (UserHistory.usersOf c.shared.shared.world.db 1).length = 1 ∧
    UserHistory.Consistent c.shared.shared.world 1 := by
  have hRun : ((machine plainHashes).run (initial .initial) greetings).map
      (fun c => ((UserHistory.usersOf c.shared.shared.world.db 1).length, c.shared.dead)) =
      some (1, fun _ => false) := by
    rfl
  obtain ⟨c, hc, hSee⟩ := Option.map_eq_some_iff.mp hRun
  obtain ⟨hRows, hAlive⟩ := Prod.mk.inj hSee
  have hReach := reach_starting (fun _ => greetings_fresh) hc
  exact ⟨c, hReach, hRows, user_history_on_runtime _ c hReach (congrFun hAlive) 1⟩

end TeaBot.Swoole
