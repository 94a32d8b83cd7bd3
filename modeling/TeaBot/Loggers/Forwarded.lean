import TeaBot.Loggers.Alone
import TeaBot.Loggers.GroupMessage
import TeaBot.Loggers.Sync

/-! # Forwarded messages

`saveForwardMsgState` asks a `User` without `Data` to resolve itself, which is an error
and not an exception. No forwarded message gets past it.
-/

namespace TeaBot.Loggers.GroupMessage

open Foundation Foundation.Sql

/-- The message of an update as `Data` picks it. -/
def messageOf (input : Php) : Php := Data.coalesce (input.get (.str "message")) (input.get (.str "edited_message"))

/-- An update with a message, new or edited, that has been forwarded. -/
structure Forwarded (input : Php) : Prop where
  update : (input.get (.str "update_id")).isset = true
  message : (input.get (.str "message")).isset = true ∨ (input.get (.str "edited_message")).isset = true
  source : ((messageOf input).get (.str "forward_from")).isset = true

def messageRows (w : World) (groupId : Int) (msgId : Php) : List (Row Col) :=
  (w.db .tgGroupMessages).filter fun row =>
    schema.matches .tgGroupMessages .groupId (.int groupId) row && schema.matches .tgGroupMessages .tgMsgId (bindParam msgId) row

def forwardRows (w : World) (row : Row Col) : List (Row Col) :=
  (w.db .tgGroupMessageFwd).filter fun f => f .msgId = row .id

def forwardedDate (date : Php → Except Throwable String) (msg : Php) : Except Throwable Value :=
  let forwardDate := msg.get (.str "forward_date")
  if forwardDate.isset then (date forwardDate).map .str else .ok .null

/-- One row for the message, marked as forwarded, and one for where it came from. -/
def ForwardStored (date : Php → Except Throwable String) (input : Php) (groupId : Int) (w : World) : Prop :=
  let msg := messageOf input
  ∃ row f user, messageRows w groupId (msg.read "message_id") = [row] ∧ row .isForwardedMsg = .str "1" ∧
    forwardRows w row = [f] ∧ user ∈ w.db .tgUsers ∧
    schema.matches .tgUsers .tgUserId (bindParam ((msg.get (.str "forward_from")).read "id")) user = true ∧
    f .userId = user .id ∧ forwardedDate date msg = .ok (f .tgForwardedDate)

section Runs

variable {h : Hashes} {j : Job} {w w' : World}

variable {r : Except Throwable Unit}

theorem alone_begin (hTx : w.tx 0 = none) (hStep : alone h j .beginTransaction w r w') :
    r = .ok () ∧ w'.db = w.db ∧ w'.tx 0 = some [] := by
  obtain ⟨ch, hCarry⟩ := alone_carry rfl hStep
  cases ch with
  | ok =>
    simp only [carry, World.beginTransaction, hTx] at hCarry
    obtain ⟨rfl, rfl⟩ := Prod.mk.inj (Option.some.inj hCarry)
    exact ⟨rfl, rfl, by simp⟩
  | _ => cases hCarry

theorem alone_fetchWhere {tb : Tbl} {cols : List Col} {conds : List (Col × Php)} {r : Except Throwable (Option (Col → Php))}
    (hStep : alone h j (.fetchWhere tb cols conds) w r w') : r = .ok (w.fetchWhere h.collate 0 tb cols conds) ∧ w' = w := by
  obtain ⟨ch, hCarry⟩ := alone_carry rfl hStep
  cases ch <;> cases hCarry
  exact ⟨rfl, rfl⟩

theorem alone_commit {log : List (Write Tbl Col)} (hTx : w.tx 0 = some log) (hStep : alone h j .commit w r w') :
    r = .ok () ∧ w'.db = schema.applyAll log w.db := by
  obtain ⟨ch, hCarry⟩ := alone_carry rfl hStep
  cases ch with
  | ok =>
    simp only [carry, World.commit, hTx] at hCarry
    obtain ⟨rfl, rfl⟩ := Prod.mk.inj (Option.some.inj hCarry)
    exact ⟨rfl, rfl⟩
  | _ => cases hCarry

def attempt (date : Php → Except Throwable String) (dateTime : String) (userId groupId : Int) (d : Data) :
    Run (Option Throwable) :=
  (perform .beginTransaction).bind fun _ =>
    (resolveMessageInternal date dateTime userId groupId d).bind fun _ => (perform .commit).bind fun _ => .ret none

variable {date : Php → Except Throwable String} {dateTime : String} {userId groupId : Int} {d : Data}

theorem fetchWhere_isSome (collate : String → List Nat) (w : World) (groupId : Int) (msgId : Php) (cols : List Col) (hTx : w.tx 0 = some []) :
    (w.fetchWhere collate 0 .tgGroupMessages cols [(.groupId, .int groupId), (.tgMsgId, msgId)]).isSome = true ↔
      messageRows w groupId msgId ≠ [] := by
  have hView : w.view 0 = w.db := by simp [World.view, hTx]
  rw [World.fetchWhere, Option.isSome_map, List.find?_isSome, hView, messageRows, ne_eq, List.filter_eq_nil_iff]
  simp [bindParam, schema.selects_bigint (show schema.type .tgGroupMessages .groupId = .bigint true from rfl),
    schema.selects_bigint (show schema.type .tgGroupMessages .tgMsgId = .bigint true from rfl)]

variable {out : Except Throwable Unit}

theorem internal_stored (hTx : w.tx 0 = some []) (hStored : messageRows w groupId d.msgId ≠ [])
    (hRun : Alone h j (resolveMessageInternal date dateTime userId groupId d) w out w') : out = .ok () ∧ w' = w := by
  rcases hRun.bind_cases with ⟨e, rfl, hFetch⟩ | ⟨r, w₁, hFetch, hRest⟩
  · cases (alone_fetchWhere (Prog.Runs.perform_iff.mp hFetch)).1
  · obtain ⟨hr, rfl⟩ := alone_fetchWhere (Prog.Runs.perform_iff.mp hFetch)
    obtain ⟨row, hRow⟩ := Option.isSome_iff_exists.mp
      ((fetchWhere_isSome h.collate _ groupId d.msgId [.id, .hasEditedMsg] hTx).mpr hStored)
    rw [Except.ok.inj hr, hRow] at hRest
    cases hRest
    exact ⟨rfl, rfl⟩

theorem internal_forwarded (hTx : w.tx 0 = some []) (hForwarded : d.isForwardedMsg.truthy = true)
    (hRun : Alone h j (resolveMessageInternal date dateTime userId groupId d) w (.ok ()) w') :
    messageRows w groupId d.msgId ≠ [] := by
  rcases hRun.bind_cases with ⟨e, hEq, _⟩ | ⟨r, w₁, hFetch, hRest⟩
  · cases hEq
  · obtain ⟨hr, rfl⟩ := alone_fetchWhere (Prog.Runs.perform_iff.mp hFetch)
    refine (fetchWhere_isSome h.collate _ groupId d.msgId [.id, .hasEditedMsg] hTx).mp ?_
    rw [← Except.ok.inj hr]
    cases r with
    | some row => rfl
    | none =>
      -- the message is inserted, and then the user cannot be resolved
      rcases hRest.bind_cases with ⟨e, hEq, _⟩ | ⟨msgId, w₂, _, hRest⟩
      · cases hEq
      · rw [if_pos hForwarded] at hRest
        rcases hRest.bind_cases with ⟨e, hEq, _⟩ | ⟨_, w₃, hSave, _⟩
        · cases hEq
        · rcases hSave.bind_cases with ⟨e, hEq, _⟩ | ⟨_, w₄, _, hThrow⟩
          · cases hEq
          · cases hThrow

theorem attempt_stored {out : Except Throwable (Option Throwable)} (hTx : w.tx 0 = none)
    (hStored : messageRows w groupId d.msgId ≠ []) (hRun : Alone h j (attempt date dateTime userId groupId d) w out w') :
    out = .ok none ∧ w'.db = w.db := by
  rcases hRun.bind_cases with ⟨e, rfl, hBegin⟩ | ⟨_, w₁, hBegin, hOpened⟩
  · cases (alone_begin hTx (Prog.Runs.perform_iff.mp hBegin)).1
  obtain ⟨_, hDb, hOpen⟩ := alone_begin hTx (Prog.Runs.perform_iff.mp hBegin)
  rw [messageRows, ← hDb] at hStored
  rcases hOpened.bind_cases with ⟨e, rfl, hInternal⟩ | ⟨_, w₂, hInternal, hDone⟩
  · cases (internal_stored hOpen hStored hInternal).1
  obtain ⟨_, rfl⟩ := internal_stored hOpen hStored hInternal
  rcases hDone.bind_cases with ⟨e, rfl, hCommit⟩ | ⟨_, w₃, hCommit, hRet⟩
  · cases (alone_commit hOpen (Prog.Runs.perform_iff.mp hCommit)).1
  cases hRet
  exact ⟨rfl, (alone_commit hOpen (Prog.Runs.perform_iff.mp hCommit)).2.trans hDb⟩

variable {e : Option Throwable}

theorem attempt_none (hRun : Alone h j (attempt date dateTime userId groupId d) w (.ok e) w') : e = none := by
  rcases hRun.bind_cases with ⟨_, hEq, _⟩ | ⟨_, w₁, _, hOpened⟩
  · cases hEq
  rcases hOpened.bind_cases with ⟨_, hEq, _⟩ | ⟨_, w₂, _, hDone⟩
  · cases hEq
  rcases hDone.bind_cases with ⟨_, hEq, _⟩ | ⟨_, w₃, _, hRet⟩
  · cases hEq
  cases hRet
  rfl

theorem attempt_forwarded (hTx : w.tx 0 = none) (hForwarded : d.isForwardedMsg.truthy = true)
    (hRun : Alone h j (attempt date dateTime userId groupId d) w (.ok e) w') : messageRows w groupId d.msgId ≠ [] := by
  rcases hRun.bind_cases with ⟨_, hEq, _⟩ | ⟨_, w₁, hBegin, hRun⟩
  · cases hEq
  obtain ⟨_, hDb, hOpen⟩ := alone_begin hTx (Prog.Runs.perform_iff.mp hBegin)
  rcases hRun.bind_cases with ⟨_, hEq, _⟩ | ⟨_, w₂, hInternal, _⟩
  · cases hEq
  rw [messageRows, ← hDb]
  exact internal_forwarded hOpen hForwarded hInternal

theorem resolveMessage_cases (hRun : Alone h j (resolveMessage date dateTime userId groupId d) w out w') :
    ∃ w₁ out₁ w₂, Untouched w w₁ ∧ Alone h j (attempt date dateTime userId groupId d) w₁ out₁ w₂ ∧
      (out = .ok () ↔ out₁ = .ok none) ∧ (out₁ = .ok none → w'.db = w₂.db) := by
  obtain ⟨w₃, hBody, hClose⟩ := alone_scoped hRun
  rcases hBody.bind_cases with ⟨e, rfl, hLock⟩ | ⟨_, w₁, hLock, hRest⟩
  · obtain ⟨ch, _, hExec⟩ := Prog.Runs.perform_iff.mp hLock
    cases (exec_lock hExec).2.1
  have hFirst := alone_untouched rfl (Prog.Runs.perform_iff.mp hLock)
  obtain ⟨out₁, w₂, hAttempt, hCaught⟩ : ∃ out₁ w₂, Alone h j (attempt date dateTime userId groupId d) w₁ out₁ w₂ ∧
      ((out₁ = .ok none ∧ out = .ok () ∧ w₃.db = w₂.db) ∨ (out₁ ≠ .ok none ∧ out ≠ .ok ())) := by
    rcases hRest.bind_cases with ⟨e, rfl, hTry⟩ | ⟨e, w₄, hTry, hEnd⟩
    · rcases hTry.tryCatch_cases with ⟨_, hEq, _⟩ | ⟨e', w₂, hAttempt, _⟩
      · cases hEq
      · exact ⟨_, w₂, hAttempt, .inr ⟨nofun, nofun⟩⟩
    · rcases hEnd.bind_cases with ⟨_, _, hUnlock⟩ | ⟨_, w₅, hUnlock, hMatch⟩
      · obtain ⟨ch, _, hExec⟩ := Prog.Runs.perform_iff.mp hUnlock
        cases (exec_unlock hExec).1
      have hSame := alone_untouched rfl (Prog.Runs.perform_iff.mp hUnlock)
      rcases hTry.tryCatch_cases with ⟨_, hEq, hAttempt⟩ | ⟨e', w₂, hAttempt, hHandler⟩
      · cases hEq
        obtain rfl := attempt_none hAttempt
        cases hMatch
        exact ⟨_, w₄, hAttempt, .inl ⟨rfl, rfl, hSame.db⟩⟩
      · -- the handler returns the exception, or passes an error on
        refine ⟨_, w₂, hAttempt, .inr ⟨nofun, ?_⟩⟩
        split at hHandler
        · rcases hHandler.bind_cases with ⟨_, hEq, _⟩ | ⟨_, w₆, _, hRet⟩
          · cases hEq
          · cases hRet
            cases hMatch
            exact nofun
        · cases hHandler
  refine ⟨w₁, out₁, w₂, hFirst, hAttempt, ?_, ?_⟩
  · rcases hCaught with ⟨rfl, rfl, _⟩ | ⟨hNot, hNot'⟩
    · simp
    · simp [hNot, hNot']
  · rintro rfl
    rcases hCaught with ⟨_, _, hDb⟩ | ⟨hNot, _⟩
    · exact hClose.db.trans hDb
    · exact absurd rfl hNot

theorem data_forwarded {input : Php} (hForward : Forwarded input) :
    (Data.constructGeneralInput input).msgId = (messageOf input).read "message_id" ∧
      (Data.constructGeneralInput input).isForwardedMsg = .bool true := by
  have hMessage : ((input.get (.str "update_id")).isset &&
      ((input.get (.str "message")).isset || (input.get (.str "edited_message")).isset)) = true := by
    simpa [hForward.update] using hForward.message
  rw [Data.constructGeneralInput, if_pos hMessage]
  exact ⟨rfl, congrArg Php.bool hForward.source⟩

/-- The call succeeds and leaves the rows of the forwarded message exactly when it has
found them there, and never succeeds on a message that is not stored yet. -/
theorem forwarded_stored_iff {input : Php} {out : Except Throwable Unit} (hTx : w.tx 0 = none)
    (hForward : Forwarded input)
    (hRun : Alone h j (resolveMessage date dateTime userId groupId (Data.constructGeneralInput input)) w out w') :
    ((out = .ok () ∧ ForwardStored date input groupId w') ↔ ForwardStored date input groupId w) ∧
      (messageRows w groupId ((messageOf input).read "message_id") = [] → out ≠ .ok ()) := by
  obtain ⟨hId, hFlag⟩ := data_forwarded hForward
  obtain ⟨w₁, out₁, w₂, hSame, hAttempt, hOut, hDb⟩ := resolveMessage_cases hRun
  have hTx₁ : w₁.tx 0 = none := by rw [hSame.tx, hTx]
  have hRows : messageRows w₁ groupId (Data.constructGeneralInput input).msgId =
      messageRows w groupId ((messageOf input).read "message_id") := by
    rw [messageRows, hSame.db, hId]
    rfl
  -- a call that finds the message leaves the tables as they are
  have hFound : messageRows w groupId ((messageOf input).read "message_id") ≠ [] → out = .ok () ∧ w'.db = w.db := by
    intro hStored
    obtain ⟨rfl, hAttemptDb⟩ := attempt_stored hTx₁ (hRows ▸ hStored) hAttempt
    exact ⟨hOut.mpr rfl, by rw [hDb rfl, hAttemptDb, hSame.db]⟩
  have hKnown : out = .ok () → messageRows w groupId ((messageOf input).read "message_id") ≠ [] := by
    intro hOk
    rw [hOut.mp hOk] at hAttempt
    exact hRows ▸ attempt_forwarded hTx₁ (by rw [hFlag]; rfl) hAttempt
  have hFrame : w'.db = w.db → (ForwardStored date input groupId w' ↔ ForwardStored date input groupId w) := by
    intro hEq
    simp only [ForwardStored, messageRows, forwardRows, hEq]
  refine ⟨⟨?_, ?_⟩, fun hNew hOk => hKnown hOk hNew⟩
  · rintro ⟨hOk, hStored⟩
    exact (hFrame (hFound (hKnown hOk)).2).mp hStored
  · intro hStored
    obtain ⟨row, _, _, hRow, _⟩ := id hStored
    obtain ⟨hOk, hEq⟩ := hFound (by rw [hRow]; exact List.cons_ne_nil _ _)
    exact ⟨hOk, (hFrame hEq).mpr hStored⟩

end Runs

def memberWorld : World :=
  { World.initial with
    db := fun
      | .tgUsers => [schema.newRow .tgUsers [(.tgUserId, .int 7), (.firstName, .str "A"), (.createdAt, .str "")] 1]
      | .tgGroups => [schema.newRow .tgGroups [(.tgGroupId, .int (-100)), (.name, .str "G"), (.createdAt, .str "")] 1]
      | _ => []
    next := fun _ => 2 }

def forwardSample (key : String) : Php :=
  .obj [("update_id", .int 1), (key, .obj [("message_id", .int 5), ("date", .int 1600000000), ("text", .str "hi"),
    ("from", .obj [("id", .int 7), ("first_name", .str "A")]), ("chat", .obj [("id", .int (-100)), ("type", .str "group")]),
    ("forward_from", .obj [("id", .int 7), ("first_name", .str "A")]), ("forward_date", .int 1500000000)])]

def resolveForwarded (key : String) : Run Unit :=
  resolveMessage (fun v => .ok v.toStr) "2020-01-01 00:00:00" 1 1 (Data.constructGeneralInput (forwardSample key))

def forwardChoices : List Choice := List.replicate 7 .ok

theorem edited_forward_not_stored :
    ∃ out w', Alone plainHashes (.groupLogger {} "") (resolveForwarded "edited_message") memberWorld out w' ∧
      messageRows memberWorld 1 (.int 5) = [] ∧ out ≠ .ok () ∧
      ¬ (out = .ok () ∧ ForwardStored (fun v => .ok v.toStr) (forwardSample "edited_message") 1 w') := by
  have hOut : (script plainHashes (.groupLogger {} "") (resolveForwarded "edited_message") forwardChoices memberWorld).map
      (·.1) = some (.error User.uninitialised) := by
    decide +kernel
  have hRun := afterScript_alone hOut
  obtain ⟨hIff, hNever⟩ := forwarded_stored_iff rfl ⟨rfl, .inr rfl, rfl⟩ hRun
  refine ⟨_, _, hRun, rfl, hNever rfl, fun hStored => ?_⟩
  obtain ⟨row, _, _, hRow, _⟩ := hIff.mp hStored
  cases hRow

/-- The sender and the group are stored, nothing refuses, and the message is lost. -/
theorem forwarded_message_lost :
    ∃ w', Alone plainHashes (.groupLogger {} "") (resolveForwarded "message") memberWorld (.error User.uninitialised) w' ∧
      messageRows w' 1 (.int 5) = [] := by
  have hOut : (script plainHashes (.groupLogger {} "") (resolveForwarded "message") forwardChoices memberWorld).map
      (·.1) = some (.error User.uninitialised) := by
    decide +kernel
  have hRows : (messageRows (afterScript plainHashes (.groupLogger {} "") (resolveForwarded "message") forwardChoices
      memberWorld) 1 (.int 5)).isEmpty = true := by
    decide +kernel
  exact ⟨_, afterScript_alone hOut, List.isEmpty_iff.mp hRows⟩

end TeaBot.Loggers.GroupMessage
