import TeaBot.Loggers.Forwarded
import TeaBot.Loggers.Sequential

/-! # Failing calls of `resolveMessage`

The handler names `Exception`, and raises a new object of the same class instead of the
one it has caught.
-/

namespace TeaBot.Loggers.GroupMessage

open Foundation Foundation.Sql

def inside : Op → Bool
  | .fetchWhere .. | .execute .. | .lastInsertId | .connect => true
  | _ => false

variable {s : LoggedWorld}

variable {α : Type} {w₁ : World}

section Body

variable {h : Hashes} {j : Job} {w w' : World} {ch : Choice} {date : Php → Except Throwable String} {dateTime : String}
  {userId groupId : Int} {d : Data}

theorem ofExcept_uses {P : Op → Prop} (r : Except Throwable α) : (Prog.ofExcept r : Run α).Uses P := by
  cases r <;> trivial

theorem saveForwardMsgState_inside (msgId : Nat) : (saveForwardMsgState date msgId d).Uses fun o => inside o = true :=
  .bind (.perform rfl) fun _ => trivial

theorem insertMessageData_inside (msgId : Nat) :
    (insertMessageData date msgId d dateTime).Uses fun o => inside o = true := by
  unfold insertMessageData
  split
  · refine .bind (.bind (ofExcept_uses _) fun _ => ?_) fun _ => trivial
    exact .bind (.perform rfl) fun _ => .perform rfl
  · trivial

theorem internal_inside :
    (resolveMessageInternal date dateTime userId groupId d).Uses fun o => inside o = true := by
  refine .bind (.perform rfl) fun r => ?_
  cases r with
  | some _ => trivial
  | none =>
    refine .bind (.bind (.perform rfl) fun _ => .perform rfl) fun msgId => ?_
    have hRest : ((incrementMsgCounter userId groupId).bind fun _ =>
        (insertMessageData date msgId d dateTime).bind fun _ => .ret ()).Uses fun o => inside o = true := by
      refine .bind (.bind (.perform rfl) fun _ => .perform rfl) fun _ => ?_
      exact .bind (insertMessageData_inside msgId) fun _ => trivial
    dsimp only
    split
    · exact .bind (saveForwardMsgState_inside msgId) fun _ => hRest
    · exact hRest

/-- The transaction is open, and nothing of it is in the tables. -/
structure Open (w w' : World) : Prop where
  db : w'.db = w.db
  tx : ∃ log, w'.tx 0 = some log
  locks : w'.locks = w.locks

theorem Open.step {o : Op} {r : Except Throwable o.Res} (hOpen : Open w w₁) (hInside : inside o = true)
    (hExec : exec h 0 j o ch w₁ = some (r, w')) : Open w w' := by
  have hSync : o.sync = false := by
    cases o <;> first | rfl | cases hInside
  obtain ⟨log, hTx⟩ := hOpen.tx
  have hLocks : w'.locks = w.locks := (exec_async hSync hExec).1.locks.trans hOpen.locks
  cases o with
  | execute stmt params =>
    rcases exec_execute hExec with ⟨_, _, rfl⟩ | ⟨ws, _, _, rfl⟩
    · exact hOpen
    · cases stmt <;> refine ⟨?_, ?_, hLocks⟩ <;> simp [World.write, World.takeId, hTx, hOpen.db]
  | fetchWhere | lastInsertId | connect =>
    rcases exec_eq_some hExec with ⟨_, _, _, rfl⟩ | hCarry
    · exact hOpen
    · have hSame := carry_untouched rfl hCarry
      exact ⟨hSame.db.trans hOpen.db, ⟨log, by rw [hSame.tx, hTx]⟩, hLocks⟩
  | _ => cases hInside

variable {s' : LoggedWorld} {out : Except Throwable Unit}

theorem internal_open (hTx : ∃ log, s.state.tx 0 = some log)
    (hRun : LoggedRun h j (resolveMessageInternal date dateTime userId groupId d) s out s') :
    Open s.state s'.state := by
  refine hRun.invariant (I := fun s' : LoggedWorld => Open s.state s'.state) internal_inside ?_ ⟨rfl, hTx, rfl⟩
  rintro o r s₁ s₂ hInside ⟨ch, hExec, _⟩ hOpen
  exact hOpen.step hInside hExec

theorem internal_log (hRun : LoggedRun h j (resolveMessageInternal date dateTime userId groupId d) s out s') :
    ∀ x ∈ s'.log, x ∈ s.log ∨ inside x.1 = true := by
  refine hRun.invariant (I := fun s' : LoggedWorld => ∀ x ∈ s'.log, x ∈ s.log ∨ inside x.1 = true) internal_inside ?_
    fun x hx => .inl hx
  rintro o r s₁ s₂ hInside ⟨ch, _, hLog⟩ hSo x hx
  rw [hLog] at hx
  rcases List.mem_append.mp hx with hOld | hNew
  · exact hSo x hOld
  · cases List.mem_singleton.mp hNew
    exact .inr hInside

end Body

/-! ## The way out -/

variable {m : Mutex}

section Exit

variable {h : Hashes} {j : Job} {s s' : LoggedWorld}

variable {r : Except Throwable Unit}

theorem logged_lock (hRun : LoggedRun h j (perform (.lock m)) s r s') :
    r = .ok () ∧ s' = ⟨{ s.state with locks := Function.update s.state.locks m (some 0) }, s.log ++ [(.lock m, .ok)]⟩ := by
  obtain ⟨ch, hExec, hLog⟩ := logged_perform hRun
  obtain ⟨_, hr, hState⟩ := exec_lock hExec
  obtain ⟨w', log'⟩ := s'
  cases ch with
  | ok =>
    cases hState
    cases hLog
    exact ⟨hr, rfl⟩
  | _ => cases hExec

theorem logged_begin (hTx : s.state.tx 0 = none) (hRun : LoggedRun h j (perform .beginTransaction) s r s') :
    (r = .ok () ∧ s' = ⟨{ s.state with tx := Function.update s.state.tx 0 (some []) }, s.log ++ [(.beginTransaction, .ok)]⟩) ∨
      ∃ e, r = .error e ∧ s'.log = s.log ++ [(.beginTransaction, .fail e)] := by
  obtain ⟨ch, hExec, hLog⟩ := logged_perform hRun
  obtain ⟨w', log'⟩ := s'
  cases ch with
  | ok =>
    simp only [exec, carry, World.beginTransaction, hTx] at hExec
    cases hExec
    cases hLog
    exact .inl ⟨rfl, rfl⟩
  | fail e =>
    simp only [exec] at hExec
    split at hExec
    · cases hExec
      exact .inr ⟨e, rfl, hLog⟩
    · cases hExec
  | _ => cases hExec

theorem logged_rollback {log : List (Write Tbl Col)} (hTx : s.state.tx 0 = some log)
    (hRun : LoggedRun h j (perform .rollback) s r s') :
    (r = .ok () ∧ s' = ⟨{ s.state with tx := Function.update s.state.tx 0 none }, s.log ++ [(.rollback, .ok)]⟩) ∨
      ∃ e, r = .error e ∧ s' = ⟨s.state, s.log ++ [(.rollback, .fail e)]⟩ := by
  obtain ⟨ch, hExec, hLog⟩ := logged_perform hRun
  obtain ⟨w', log'⟩ := s'
  cases ch with
  | ok =>
    simp only [exec, carry, World.rollback, hTx] at hExec
    cases hExec
    cases hLog
    exact .inl ⟨rfl, rfl⟩
  | fail e =>
    simp only [exec] at hExec
    split at hExec
    · cases hExec
      cases hLog
      exact .inr ⟨e, rfl, rfl⟩
    · cases hExec
  | _ => cases hExec

theorem logged_unlock (hRun : LoggedRun h j (perform (.unlock m)) s r s') :
    r = .ok () ∧ s'.state = s.state.release 0 m ∧ ∃ ch, s'.log = s.log ++ [(.unlock m, ch)] := by
  obtain ⟨ch, hExec, hLog⟩ := logged_perform hRun
  obtain ⟨hr, hState⟩ := exec_unlock hExec
  exact ⟨hr, hState, ch, hLog⟩

theorem logged_scoped {body : Run α} {out : Except Throwable α} (hRun : LoggedRun h j (m.scoped body) s out s') :
    ∃ s₁, LoggedRun h j body s out s₁ ∧ s'.state = s₁.state.release 0 m ∧ ∃ ch, s'.log = s₁.log ++ [(.fclose m, ch)] := by
  rcases hRun.tryFinally_cases with ⟨out₁, s₁, hBody, ⟨rfl, hClose⟩ | ⟨e, rfl, hClose⟩⟩
  · obtain ⟨ch, hExec, hLog⟩ := logged_perform hClose
    exact ⟨s₁, hBody, (exec_fclose hExec).2, ch, hLog⟩
  · obtain ⟨ch, hExec, _⟩ := logged_perform hClose
    cases (exec_fclose hExec).1

end Exit

/-- Nothing is left of the call, and the caller gets what was raised. -/
structure Clean (m : Mutex) (w : World) (e : Throwable) (out : Except Throwable Unit) (w' : World) : Prop where
  tables : w'.db = w.db
  closed : w'.tx 0 = none
  free : w'.locks m = none
  raised : out = .error e

section Runs

variable {h : Hashes} {j : Job} {w w' : World} {date : Php → Except Throwable String} {dateTime : String}
  {userId groupId : Int} {d : Data} {log : List (Op × Choice)} {e : Throwable} {out : Except Throwable Unit}

def Raised (h : Hashes) (j : Job) (date : Php → Except Throwable String) (dateTime : String) (userId groupId : Int)
    (d : Data) (w : World) (log : List (Op × Choice)) (e : Throwable) : Prop :=
  ∃ s, LoggedRun h j (resolveMessageInternal date dateTime userId groupId d)
    ⟨w.opened (messageMutex groupId d), [(.lock (messageMutex groupId d), .ok), (.beginTransaction, .ok)]⟩ (.error e) s ∧
    s.log <+: log

theorem attempt_raised {out : Except Throwable (Option Throwable)} (hTx : w.tx 0 = none)
    (hRaised : Raised h j date dateTime userId groupId d w log e) (hLog : s.log <+: log)
    (hRun : LoggedRun h j (attempt date dateTime userId groupId d)
      ⟨{ w with locks := Function.update w.locks (messageMutex groupId d) (some 0) },
        [(.lock (messageMutex groupId d), .ok)]⟩ out s) :
    out = .error e ∧ Open (w.opened (messageMutex groupId d)) s.state ∧ ∀ ch, (.rollback, ch) ∉ s.log := by
  obtain ⟨s₁, hBody, hPrefix⟩ := hRaised
  obtain ⟨rest₁, hRest₁⟩ := hPrefix
  obtain ⟨rest, hRest⟩ := hLog
  rcases hRun.bind_cases with ⟨e', rfl, hBegin⟩ | ⟨_, s₂, hBegin, hOpened⟩
  · -- a failed beginTransaction never gets to the body
    rcases logged_begin hTx hBegin with ⟨hEq, _⟩ | ⟨e', _, hEq⟩
    · cases hEq
    · obtain ⟨l, hl⟩ := hBody.exists_log
      rw [hl] at hRest₁
      rw [hEq] at hRest
      have hSecond := congrArg (fun l => l[1]?) (hRest₁.trans hRest.symm)
      cases hSecond
  · rcases logged_begin hTx hBegin with ⟨_, rfl⟩ | ⟨_, hEq, _⟩
    · have hSame : ∀ {out' : Except Throwable Unit} {s₂ : LoggedWorld}, LoggedRun h j
          (resolveMessageInternal date dateTime userId groupId d)
          ⟨w.opened (messageMutex groupId d), [(.lock (messageMutex groupId d), .ok), (.beginTransaction, .ok)]⟩ out' s₂ →
          s₂.log <+: s.log → out' = .error e ∧ s₂ = s₁ := by
        rintro out' s₂ hOther ⟨l, hl⟩
        rw [← hl, List.append_assoc] at hRest
        obtain ⟨hOut, hState⟩ := hBody.log_unique hOther (hRest₁.trans hRest.symm)
        exact ⟨hOut.symm, hState.symm⟩
      rcases hOpened.bind_cases with ⟨e', rfl, hInternal⟩ | ⟨_, s₂, hInternal, hDone⟩
      · obtain ⟨hEq, rfl⟩ := hSame hInternal List.prefix_rfl
        cases hEq
        have hOpen : (w.opened (messageMutex groupId d)).tx 0 = some [] := by simp [World.opened]
        refine ⟨rfl, internal_open ⟨[], hOpen⟩ hInternal, fun ch hMem => ?_⟩
        rcases internal_log hInternal _ hMem with hOld | hInside
        · simp at hOld
        · cases hInside
      · cases (hSame hInternal hDone.log_grows).1
    · cases hEq

theorem renewed_eq_iff (hException : e.isException = true) : renewed e = e ↔ e.getMessage = "" := by
  cases e with
  | error cls msg => cases hException
  | exception cls msg => simp [renewed, Throwable.getMessage, eq_comm]

theorem ended_clean (hOpen : Open (w.opened m) w₁) :
    let w' := { w₁ with tx := Function.update w₁.tx 0 none }.release 0 m
    w'.db = w.db ∧ w'.tx 0 = none ∧ w'.locks m = none := by
  have hHeld : w₁.locks m = some 0 := by
    rw [hOpen.locks]
    simp [World.opened]
  refine ⟨?_, ?_, ?_⟩
  · rw [World.release_db]
    exact hOpen.db
  · simp
  · simp [World.release, hHeld]

/-- A failure of the body is clean exactly if it is an exception without a message and the
rollback works. -/
theorem failure_clean_iff (hTx : w.tx 0 = none)
    (hRun : LoggedRun h j (resolveMessage date dateTime userId groupId d) ⟨w, []⟩ out ⟨w', log⟩)
    (hRaised : Raised h j date dateTime userId groupId d w log e) :
    Clean (messageMutex groupId d) w e out w' ↔ e.isException = true ∧ e.getMessage = "" ∧ (.rollback, .ok) ∈ log := by
  obtain ⟨s₁, hBody, hState, ch₁, hLog⟩ := logged_scoped hRun
  rcases hBody.bind_cases with ⟨_, _, hLock⟩ | ⟨_, s₂, hLock, hRest⟩
  · cases (logged_lock hLock).1
  obtain ⟨_, rfl⟩ := logged_lock hLock
  have hEnd : s₁.log <+: log := ⟨_, hLog.symm⟩
  have hLeft : ∀ {s : LoggedWorld}, Open (w.opened (messageMutex groupId d)) s.state → s₁.state = s.state →
      ¬ Clean (messageMutex groupId d) w e out w' := by
    intro s hOpen hSame hClean
    obtain ⟨l, hl⟩ := hOpen.tx
    have hClosed := hClean.closed
    rw [show w' = _ from hState, hSame, World.release_tx, hl] at hClosed
    cases hClosed
  rcases hRest.bind_cases with ⟨e', rfl, hTry⟩ | ⟨e', s₃, hTry, hAfter⟩
  · rcases hTry.tryCatch_cases with ⟨_, hEq, _⟩ | ⟨e₁, s₂, hAttempt, hHandler⟩
    · cases hEq
    obtain ⟨hEq, hOpen, hNone⟩ := attempt_raised hTx hRaised (hHandler.log_grows.trans hEnd) hAttempt
    cases hEq
    split at hHandler
    · -- the rollback raises
      rename_i hException
      rcases hHandler.bind_cases with ⟨_, hEq, hRollback⟩ | ⟨_, _, _, hRet⟩
      · obtain ⟨l, hl⟩ := hOpen.tx
        rcases logged_rollback hl hRollback with ⟨hEq, _⟩ | ⟨e₂, _, rfl⟩
        · cases hEq
        · refine iff_of_false (hLeft hOpen rfl) fun hAll => ?_
          have hMem := hAll.2.2
          rw [show log = _ from hLog] at hMem
          simp [hNone] at hMem
      · cases hRet
    · rename_i hError
      cases hHandler
      exact iff_of_false (hLeft hOpen rfl) fun hAll => hError hAll.1
  · rcases hTry.tryCatch_cases with ⟨_, hEq, hAttempt⟩ | ⟨e₁, s₂, hAttempt, hHandler⟩
    · cases (attempt_raised hTx hRaised (hAfter.log_grows.trans hEnd) hAttempt).1
    obtain ⟨hEq, hOpen, hNone⟩ := attempt_raised hTx hRaised
      ((hHandler.log_grows.trans hAfter.log_grows).trans hEnd) hAttempt
    cases hEq
    split at hHandler
    · rename_i hException
      rcases hHandler.bind_cases with ⟨_, hEq, _⟩ | ⟨_, _, hRollback, hRet⟩
      · cases hEq
      cases hRet
      obtain ⟨l, hl⟩ := hOpen.tx
      rcases logged_rollback hl hRollback with ⟨_, rfl⟩ | ⟨_, hEq, _⟩
      · rcases hAfter.bind_cases with ⟨_, _, hUnlock⟩ | ⟨_, s₄, hUnlock, hThrow⟩
        · cases (logged_unlock hUnlock).1
        obtain ⟨_, hReleased, ch₂, hLog₂⟩ := logged_unlock hUnlock
        cases hThrow
        rw [hReleased, World.release_release] at hState
        have hMem : (.rollback, .ok) ∈ log := by
          rw [show log = _ from hLog, hLog₂]
          simp
        have hEnded := ended_clean hOpen
        rw [← show w' = _ from hState] at hEnded
        have hSame := renewed_eq_iff hException
        exact ⟨fun hClean => ⟨hException, hSame.mp (Except.error.inj hClean.raised), hMem⟩,
          fun hAll => ⟨hEnded.1, hEnded.2.1, hEnded.2.2, congrArg Except.error (hSame.mpr hAll.2.1)⟩⟩
      · cases hEq
    · cases hHandler

end Runs

def plainText : Data := { msgId := .int 5, msgType := .str "text", text := .str "hi", isForwardedMsg := .bool false }

def anyDate (v : Php) : Except Throwable String := .ok v.toStr

theorem lookup_failure (msg : String) : ∃ w' log,
    LoggedRun plainHashes (.groupLogger {} "") (resolveMessage anyDate "" 1 1 plainText) ⟨memberWorld, []⟩
      (.error (.exception "PDOException" "")) ⟨w', log⟩ ∧
      Raised plainHashes (.groupLogger {} "") anyDate "" 1 1 plainText memberWorld log (.exception "PDOException" msg) ∧
      (.rollback, .ok) ∈ log := by
  have hRun := Prog.replay_runs (rfl : (resolveMessage anyDate "" 1 1 plainText).replay
    (exec plainHashes 0 (.groupLogger {} "")) [.ok, .ok, .fail (.exception "PDOException" msg), .ok, .ok, .ok]
    ⟨memberWorld, []⟩ = some (_, ⟨_, _⟩))
  have hBody := Prog.replay_runs (rfl : (resolveMessageInternal anyDate "" 1 1 plainText).replay
    (exec plainHashes 0 (.groupLogger {} "")) [.fail (.exception "PDOException" msg)]
    ⟨memberWorld.opened (messageMutex 1 plainText), [(.lock (messageMutex 1 plainText), .ok), (.beginTransaction, .ok)]⟩ =
      some (_, _))
  refine ⟨_, _, hRun, ⟨_, hBody, [(.rollback, .ok), (.unlock _, .ok), (.fclose _, .ok)], rfl⟩, ?_⟩
  exact List.mem_cons_of_mem _ (List.mem_cons_of_mem _ (List.mem_cons_of_mem _ List.mem_cons_self))

theorem silent_failure_clean : ∃ out w',
    Clean (messageMutex 1 plainText) memberWorld (.exception "PDOException" "") out w' := by
  obtain ⟨w', log, hRun, hRaised, hRollback⟩ := lookup_failure ""
  exact ⟨_, w', (failure_clean_iff rfl hRun hRaised).mpr ⟨rfl, rfl, hRollback⟩⟩

/-- A forwarded message: the error of `saveForwardMsgState` leaves the transaction open. And
a PDO exception loses its message. -/
theorem failures_not_clean :
    (∃ out w' log, LoggedRun plainHashes (.groupLogger {} "") (resolveForwarded "message") ⟨memberWorld, []⟩ out ⟨w', log⟩ ∧
      Raised plainHashes (.groupLogger {} "") anyDate "2020-01-01 00:00:00" 1 1
        (Data.constructGeneralInput (forwardSample "message")) memberWorld log User.uninitialised ∧ w'.tx 0 ≠ none) ∧
    ∃ out w' log, LoggedRun plainHashes (.groupLogger {} "") (resolveMessage anyDate "" 1 1 plainText) ⟨memberWorld, []⟩
      out ⟨w', log⟩ ∧ Raised plainHashes (.groupLogger {} "") anyDate "" 1 1 plainText memberWorld log
        (.exception "PDOException" "MySQL server has gone away") ∧
      out ≠ .error (.exception "PDOException" "MySQL server has gone away") := by
  constructor
  · have hRun := Prog.replay_runs (rfl : (resolveForwarded "message").replay
      (exec plainHashes 0 (.groupLogger {} "")) (List.replicate 7 .ok) ⟨memberWorld, []⟩ = some (_, ⟨_, _⟩))
    have hBody := Prog.replay_runs (rfl : (resolveMessageInternal anyDate "2020-01-01 00:00:00" 1 1
      (Data.constructGeneralInput (forwardSample "message"))).replay
      (exec plainHashes 0 (.groupLogger {} "")) (List.replicate 4 .ok) ⟨memberWorld.opened (messageMutex 1
        (Data.constructGeneralInput (forwardSample "message"))), [(.lock (messageMutex 1
        (Data.constructGeneralInput (forwardSample "message"))), .ok), (.beginTransaction, .ok)]⟩ = some (_, _))
    exact ⟨_, _, _, hRun, ⟨_, hBody, [(.fclose _, .ok)], rfl⟩, Option.some_ne_none _⟩
  · obtain ⟨w', log, hRun, hRaised, _⟩ := lookup_failure "MySQL server has gone away"
    exact ⟨_, w', log, hRun, hRaised, by simp⟩

end TeaBot.Loggers.GroupMessage
