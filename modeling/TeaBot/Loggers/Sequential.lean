import TeaBot.Loggers.Versions

/-! # Calls one after the other

A single coroutine with a database that does not fail: every operation is carried out,
and a statement is refused only by the schema.
-/

namespace TeaBot.Loggers

open Foundation Foundation.Sql

def waits : Throwable := .error "Error" "the operation has to wait"

def serve (h : Hashes) (j : Job) (o : Op) (w : World) : Except Throwable o.Res × World :=
  (carry h 0 j w o .ok).getD (.error waits, w)

namespace World

def opened (w : World) (m : Mutex) : World :=
  { w with locks := Function.update w.locks m (some 0), tx := Function.update w.tx 0 (some []) }

def closed (w : World) (m : Mutex) (j : Job) (committed : Bool) : World :=
  (if committed then (w.commit 0 j).2 else (w.rollback 0).2).release 0 m

theorem release_release (w : World) (m : Mutex) : (w.release 0 m).release 0 m = w.release 0 m := by
  by_cases h : w.locks m = some 0
  · simp [release, h]
  · simp [release, h]

end World

section

variable {h : Hashes} {j : Job} {α : Type}

variable {w' : World}

theorem eval_perform {o : Op} {w : World} {r : Except Throwable o.Res} (hServe : serve h j o w = (r, w')) :
    (perform o).eval (serve h j) w = (r, w') := by
  rw [perform, Prog.eval_perform, hServe]

theorem eval_perform_bind {o : Op} {f : o.Res → Run α} {w : World} {a : o.Res} (hServe : serve h j o w = (.ok a, w')) :
    ((perform o).bind f).eval (serve h j) w = (f a).eval (serve h j) w' :=
  Prog.eval_bind_ok (eval_perform hServe)

variable {body : Run α}

theorem eval_scoped {m : Mutex} {w : World} {r : Except Throwable α} (hBody : body.eval (serve h j) w = (r, w')) :
    (m.scoped body).eval (serve h j) w = (r, w'.release 0 m) := by
  have hClose : serve h j (.fclose m) w' = (.ok (), w'.release 0 m) := rfl
  cases r with
  | ok a => exact (Prog.eval_bind_ok (Prog.eval_tryCatch_ok hBody)).trans (eval_perform_bind hClose)
  | error e =>
    exact Prog.eval_bind_error ((Prog.eval_tryCatch_error hBody).trans (eval_perform_bind hClose))

theorem eval_inTransaction {m : Mutex} {w w₁ : World} {r : Except Throwable α} {log : List (Write Tbl Col)}
    (hTx : w.tx 0 = none) (hFree : w.locks m = none) (hBody : body.eval (serve h j) (w.opened m) = (r, w₁))
    (hLog : w₁.tx 0 = some log) (hRaise : ∀ e, r = .error e → e.isException = true) :
    (inTransaction m body).eval (serve h j) w = (r, w₁.closed m j r.isOk) := by
  have hLock : serve h j (.lock m) w = (.ok (), { w with locks := Function.update w.locks m (some 0) }) := by
    simp [serve, carry, hFree]
  have hBegin : serve h j .beginTransaction { w with locks := Function.update w.locks m (some 0) } =
      (.ok (), w.opened m) := by
    simp [serve, carry, World.beginTransaction, World.opened, hTx]
  have hUnlock : ∀ w', serve h j (.unlock m) w' = (.ok (), w'.release 0 m) := fun _ => rfl
  rw [World.closed, ← World.release_release]
  refine eval_scoped ?_
  cases r with
  | ok a =>
    have hCommit : serve h j .commit w₁ = (.ok (), (w₁.commit 0 j).2) := by
      simp [serve, carry, World.commit, hLog]
    refine (eval_perform_bind hLock).trans ((Prog.eval_bind_ok (Prog.eval_tryCatch_ok ?_)).trans
      (eval_perform_bind (hUnlock _)))
    exact (eval_perform_bind hBegin).trans ((Prog.eval_bind_ok hBody).trans (eval_perform_bind hCommit))
  | error e =>
    have hRollback : serve h j .rollback w₁ = (.ok (), (w₁.rollback 0).2) := by
      simp [serve, carry, World.rollback, hLog]
    refine (eval_perform_bind hLock).trans (Prog.eval_bind_error ((Prog.eval_tryCatch_error
      ((eval_perform_bind hBegin).trans (Prog.eval_bind_error hBody))).trans ?_))
    rw [if_pos (hRaise e rfl)]
    exact (eval_perform_bind hRollback).trans (eval_perform_bind (hUnlock _))

/-- Inside the transaction that was opened in `w`: the tables are still those of `w`. -/
structure Within (w : World) (m : Mutex) (log : List (Write Tbl Col)) (w₁ : World) : Prop where
  tx : w₁.tx 0 = some log
  db : w₁.db = w.db
  locks : w₁.locks = Function.update w.locks m (some 0)
  next : ∀ tb, w.next tb ≤ w₁.next tb

theorem Within.opened (w : World) (m : Mutex) : Within w m [] (w.opened m) :=
  ⟨by simp [World.opened], rfl, rfl, fun _ => le_rfl⟩

variable {w w₁ : World} {m : Mutex} {log : List (Write Tbl Col)}

theorem Within.view (hIn : Within w m log w₁) : w₁.view 0 = schema.applyAll log w.db := by
  simp [World.view, hIn.tx, hIn.db]

theorem Within.write (hIn : Within w m log w₁) (ws : List (Write Tbl Col)) :
    Within w m (log ++ ws) (w₁.write 0 ws) := by
  rw [World.write, hIn.tx]
  exact ⟨by simp, hIn.db, hIn.locks, hIn.next⟩

theorem Within.takeId (hIn : Within w m log w₁) (tb : Tbl) : Within w m log (w₁.takeId 0 tb) := by
  refine ⟨hIn.tx, hIn.db, hIn.locks, fun tb' => (hIn.next tb').trans ?_⟩
  by_cases hTb : tb' = tb
  · subst hTb
    simp [World.takeId]
  · simp [World.takeId, hTb]

theorem Within.insert (hIn : Within w m log w₁) (tb : Tbl) (ws : List (Write Tbl Col)) :
    Within w m (log ++ ws) ((w₁.takeId 0 tb).write 0 ws) := (hIn.takeId tb).write ws

variable {params : List Php}

theorem serve_insert {tb : Tbl} {cols : List Col} {ws : List (Write Tbl Col)}
    (hWrites : schema.writes (w.view 0) w.next (.insert tb cols) (params.map bindParam) = .ok ws) :
    serve h j (.execute (.insert tb cols) params) w = (.ok (), (w.takeId 0 tb).write 0 ws) := by
  simp [serve, carry, World.execute, hWrites]

theorem serve_update {tb : Tbl} {clause : List (SetToken Col)} {key : Col} {ws : List (Write Tbl Col)}
    (hWrites : schema.writes (w.view 0) w.next (.update tb clause key) (params.map bindParam) = .ok ws) :
    serve h j (.execute (.update tb clause key) params) w = (.ok (), w.write 0 ws) := by
  simp [serve, carry, World.execute, hWrites]

theorem serve_refused {stmt : Stmt Tbl Col} {e : Sql.Error Col}
    (hWrites : schema.writes (w.view 0) w.next stmt (params.map bindParam) = .error e) :
    serve h j (.execute stmt params) w = (.error (pdoException e), w) := by
  simp [serve, carry, World.execute, hWrites]

/-- Between two calls nothing is open or locked. -/
structure Quiet (w : World) : Prop where
  tx : w.tx 0 = none
  locks : ∀ m, w.locks m = none

theorem Within.closed_locks (hIn : Within w m log w₁) (hQuiet : Quiet w) (w₂ : World)
    (hLocks : w₂.locks = w₁.locks) (hTx : w₂.tx 0 = none) : Quiet (w₂.release 0 m) := by
  refine ⟨by rw [World.release_tx, hTx], fun m' => ?_⟩
  have hHeld : w₂.locks m = some 0 := by rw [hLocks, hIn.locks, Function.update_self]
  rw [World.release, if_pos hHeld]
  by_cases hm : m' = m
  · subst hm
    exact Function.update_self _ _ _
  · simp only [Function.update_of_ne hm, hLocks, hIn.locks]
    exact hQuiet.locks m'

/-- The end of a call: what it wrote is in the tables, or nothing is. -/
theorem eval_inTransaction_ok {a : α} (hQuiet : Quiet w) (hBody : body.eval (serve h j) (w.opened m) = (.ok a, w₁))
    (hIn : Within w m log w₁) :
    ∃ w', (inTransaction m body).eval (serve h j) w = (.ok a, w') ∧ Quiet w' ∧
      w'.db = schema.applyAll log w.db ∧ w'.next = w₁.next := by
  refine ⟨_, eval_inTransaction hQuiet.tx (hQuiet.locks m) hBody hIn.tx nofun, ?_, ?_, ?_⟩
  · refine hIn.closed_locks hQuiet _ ?_ ?_ <;> simp [World.commit, hIn.tx, Except.isOk, Except.toBool]
  · simp only [World.closed, Except.isOk, Except.toBool, if_true, World.commit, hIn.tx, World.release_db, hIn.db]
  · simp only [World.closed, Except.isOk, Except.toBool, if_true, World.commit, hIn.tx, World.release_next]

theorem eval_inTransaction_error {e : Throwable} (hQuiet : Quiet w)
    (hBody : body.eval (serve h j) (w.opened m) = (.error e, w₁)) (hIn : Within w m log w₁)
    (hRaise : e.isException = true) :
    ∃ w', (inTransaction m body).eval (serve h j) w = (.error e, w') ∧ Quiet w' ∧ w'.db = w.db ∧
      ∀ tb, w.next tb ≤ w'.next tb := by
  refine ⟨_, eval_inTransaction hQuiet.tx (hQuiet.locks m) hBody hIn.tx ?_, ?_, ?_, ?_⟩
  · rintro _ ⟨⟩
    exact hRaise
  · refine hIn.closed_locks hQuiet _ ?_ ?_ <;> simp [World.rollback, hIn.tx, Except.isOk, Except.toBool]
  · simp only [World.closed, Except.isOk, Except.toBool, World.rollback, hIn.tx, World.release_db, hIn.db,
      Bool.false_eq_true, if_false]
  · simp only [World.closed, Except.isOk, Except.toBool, World.rollback, hIn.tx, World.release_next,
      Bool.false_eq_true, if_false]
    exact hIn.next

end

end TeaBot.Loggers
