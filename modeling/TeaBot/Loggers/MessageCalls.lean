import TeaBot.Foundation.Typestate
import TeaBot.Loggers.GroupMessage
import TeaBot.Loggers.World

/-! # The stages of `resolveMessage`

A call looks the message up under its lock and either finds it or writes, in one
transaction, the message, the two counters and the content of a text. Whatever raises on
the way leads to the rollback, or out of the call with the transaction left open.
-/

namespace TeaBot.Loggers.GroupMessage

open Foundation Foundation.Sql

/-- A call with a message that is not forwarded. -/
structure Call where
  userId : Int
  groupId : Int
  msgId : Int
  msgType : String
  data : Data
  dateTime : String
  hasId : data.msgId = .int msgId
  hasType : data.msgType = .str msgType
  notForwarded : data.isForwardedMsg.truthy = false

namespace Call

def mutex (c : Call) : Mutex := messageMutex c.groupId c.data

def params (c : Call) : List Php :=
  [.int c.groupId, .int c.userId, c.data.msgId, c.data.replyTo.get (.str "message_id"), c.data.msgType,
    bit c.data.isEditedMsg, bit c.data.isForwardedMsg, .str c.dateTime]

end Call

inductive Stage
  | outside
  | locked
  | opened
  /-- The message has been found. -/
  | stored
  | missing
  | inserted
  /-- `lastInsertId` has told the key of the new message. -/
  | numbered (n : Nat)
  | countedUser (n : Nat)
  | countedGroup (n : Nat)
  /-- The content is inserted too. -/
  | complete
  | committed
  | failing
  | returned
  | ended

namespace Stage

def Admits (c : Call) : Stage → Op → Prop
  | .outside, .lock m => m = c.mutex
  | .locked, .beginTransaction => True
  | .opened, .fetchWhere tb _ conds =>
    tb = .tgGroupMessages ∧ conds = [(.groupId, .int c.groupId), (.tgMsgId, c.data.msgId)]
  | .stored, .commit => True
  | .missing, .execute stmt params => stmt = .insert .tgGroupMessages insertCols ∧ params = c.params
  | .inserted, .lastInsertId => True
  | .numbered _, .execute stmt params => stmt = .increment .tgUsers .groupMsgCount .id ∧ params = [.int c.userId]
  | .countedUser _, .execute stmt params => stmt = .increment .tgGroups .msgCount .id ∧ params = [.int c.groupId]
  | .countedGroup n, .execute stmt params =>
    c.msgType = "text" ∧ stmt = .insert .tgGroupMessageData dataCols ∧ ∃ rest, params = .int n :: rest
  | .countedGroup _, .commit => c.msgType ≠ "text"
  | .complete, .lastInsertId => True
  | .complete, .commit => True
  | .failing, .rollback => True
  | .countedGroup _, .rollback => True
  | .committed, .unlock m => m = c.mutex
  | .failing, .unlock m => m = c.mutex
  | _, .fclose m => m = c.mutex
  | _, _ => False

def after : Stage → (o : Op) → Except Throwable o.Res → Stage
  | .outside, .lock _, .ok _ => .locked
  | .locked, .beginTransaction, .ok _ => .opened
  | .opened, .fetchWhere .., .ok (some _) => .stored
  | .opened, .fetchWhere .., .ok none => .missing
  | .missing, .execute .., .ok _ => .inserted
  | .inserted, .lastInsertId, .ok n => .numbered n
  | .numbered n, .execute .., .ok _ => .countedUser n
  | .countedUser n, .execute .., .ok _ => .countedGroup n
  | .countedGroup _, .execute .., .ok _ => .complete
  | .complete, .lastInsertId, .ok _ => .complete
  | _, .commit, .ok _ => .committed
  | .committed, .unlock _, _ => .returned
  | .failing, .unlock _, _ => .ended
  | .committed, .fclose _, _ => .returned
  | .returned, .fclose _, _ => .returned
  | _, .fclose _, _ => .ended
  | _, _, _ => .failing

def done : Stage → Bool
  | .committed | .returned => true
  | _ => false

end Stage

def stages (c : Call) : Discipline Op Op.Res Throwable Stage where
  admits := Stage.Admits c
  answers o r := ∀ e, r = .error e → o.raises e = true
  after := Stage.after

section Program

variable {c : Call} {α : Type} {date : Php → Except Throwable String}

variable {s : Stage}

theorem perform_then {o : Op} {f : o.Res → Run α} {Q : Except Throwable α → Stage → Prop} (hAdmits : s.Admits c o)
    (hFail : ∀ e, Q (.error e) (s.after o (.error e))) (hf : ∀ a, (f a).Keeps (stages c) Q (s.after o (.ok a))) :
    ((perform o).bind f).Keeps (stages c) Q s :=
  .perform_bind hAdmits (fun e _ => hFail e) fun a _ => hf a

def Yields (good : α → Stage) (out : Except Throwable α) (s : Stage) : Prop :=
  match out with
  | .ok a => s = good a
  | .error _ => s = .failing

theorem insertMessage_keeps :
    (insertMessage c.userId c.groupId c.data c.dateTime).Keeps (stages c) (Yields .numbered) .missing := by
  refine perform_then ⟨rfl, rfl⟩ (fun _ => rfl) fun _ => .perform trivial fun r _ => ?_
  cases r <;> rfl

theorem incrementMsgCounter_keeps (n : Nat) :
    (incrementMsgCounter c.userId c.groupId).Keeps (stages c) (Yields fun _ => .countedGroup n) (.numbered n) := by
  refine perform_then ⟨rfl, rfl⟩ (fun _ => rfl) fun _ => .perform ⟨rfl, rfl⟩ fun r _ => ?_
  cases r <;> rfl

/-- Ready for the commit or, when something has raised, for the rollback. `date` may raise
with everything counted. -/
def Ready (c : Call) (out : Except Throwable α) (s : Stage) : Prop :=
  match out with
  | .ok _ => s = .stored ∨ s = .complete ∨ (∃ n, s = .countedGroup n) ∧ c.msgType ≠ "text"
  | .error _ => s = .failing ∨ ∃ n, s = .countedGroup n

theorem insertMessageData_keeps (n : Nat) :
    (insertMessageData date n c.data c.dateTime).Keeps (stages c) (Ready c) (.countedGroup n) := by
  unfold insertMessageData
  rw [c.hasType]
  by_cases hText : c.msgType = "text"
  · rw [if_pos (congrArg Php.str hText)]
    refine .bind (Q := Ready c) ?_ (fun _ _ hReady => hReady) fun _ _ hReady => hReady
    refine .bind (.ofExcept (Q := fun _ s => s = .countedGroup n) rfl) ?_ fun _ _ hs => .inr ⟨n, hs⟩
    rintro tgDate _ rfl
    refine perform_then ⟨hText, rfl, _, rfl⟩ (fun _ => .inl rfl) fun _ => .perform trivial fun r _ => ?_
    cases r with
    | ok _ => exact .inr (.inl rfl)
    | error _ => exact .inl rfl
  · rw [if_neg fun hEq => hText (Php.str.inj hEq)]
    exact .inr (.inr ⟨⟨n, rfl⟩, hText⟩)

theorem internal_keeps :
    (resolveMessageInternal date c.dateTime c.userId c.groupId c.data).Keeps (stages c) (Ready c) .opened := by
  refine perform_then ⟨rfl, rfl⟩ (fun _ => .inl rfl) fun r => ?_
  cases r with
  | some row => exact .inl rfl
  | none =>
    refine .bind insertMessage_keeps ?_ fun _ _ hs => .inl hs
    rintro n _ rfl
    rw [c.notForwarded]
    refine .bind (incrementMsgCounter_keeps n) ?_ fun _ _ hs => .inl hs
    rintro _ _ rfl
    exact .bind (insertMessageData_keeps n) (fun _ _ hReady => hReady) fun _ _ hReady => hReady

theorem admits_fclose (s : Stage) : s.Admits c (.fclose c.mutex) := by
  cases s <;> rfl

theorem done_fclose (s : Stage) (m : Mutex) (r : Except Throwable Unit) : (s.after (.fclose m) r).done = s.done := by
  cases s <;> rfl

theorem commit_keeps (hReady : Ready c (.ok () : Except Throwable Unit) s) :
    (perform .commit).Keeps (stages c) (Yields fun _ => .committed) s := by
  have hAdmits : s.Admits c .commit := by
    rcases hReady with rfl | rfl | ⟨⟨n, rfl⟩, hText⟩
    · trivial
    · trivial
    · exact hText
  refine .perform hAdmits fun r _ => ?_
  rcases hReady with rfl | rfl | ⟨⟨n, rfl⟩, _⟩ <;> cases r <;> rfl

theorem rollback_keeps {e : Throwable} (hReady : Ready c (.error e : Except Throwable Unit) s) :
    (perform .rollback).Keeps (stages c) (fun _ s' => s' = .failing) s := by
  rcases hReady with rfl | ⟨n, rfl⟩
  · exact .perform trivial fun r _ => by cases r <;> rfl
  · exact .perform trivial fun r _ => by cases r <;> rfl

def Attempted (out : Except Throwable (Option Throwable)) (s : Stage) : Prop :=
  match out with
  | .ok none => s = .committed
  | .ok (some _) => s = .failing
  | .error _ => s.done = false

theorem resolveMessage_keeps :
    (resolveMessage date c.dateTime c.userId c.groupId c.data).Keeps (stages c)
      (fun out s => out = .ok () ↔ s.done = true) .outside := by
  have hRaised : ∀ {e : Throwable} {s : Stage}, s.done = false →
      ((.error e : Except Throwable Unit) = .ok () ↔ s.done = true) := by
    intro e s hs
    simp [hs]
  refine .tryFinally (Q := fun out s => out = .ok () ↔ s.done = true) ?_ fun out s hOut => ?_
  · refine perform_then rfl (fun _ => hRaised rfl) fun _ => .bind (Q := Attempted) ?_ ?_ fun _ _ hs => hRaised hs
    · refine .tryCatch (Q := fun out s => match out with
          | .ok e => e = none ∧ s = .committed
          | .error e => Ready c (.error e : Except Throwable Unit) s) ?_ ?_ ?_
      · refine perform_then trivial (fun _ => .inl rfl) fun _ => .bind internal_keeps ?_ fun _ _ hReady => hReady
        intro a s hReady
        refine .bind (commit_keeps hReady) ?_ fun _ _ hs => .inl hs
        exact fun _ _ hs => ⟨rfl, hs⟩
      · rintro _ _ ⟨rfl, rfl⟩
        rfl
      · intro e s hReady
        by_cases hException : e.isException = true
        · rw [if_pos hException]
          refine .bind (rollback_keeps hReady) (fun _ _ hs => hs) ?_
          rintro _ _ rfl
          rfl
        · rw [if_neg hException]
          rcases hReady with rfl | ⟨n, rfl⟩ <;> rfl
    · rintro (_ | e) s hs
      · obtain rfl : s = .committed := hs
        refine ⟨rfl, fun r hr => ?_⟩
        cases r with
        | ok _ => exact iff_of_true rfl rfl
        | error e => exact absurd (hr e rfl) Bool.false_ne_true
      · obtain rfl : s = .failing := hs
        exact perform_then rfl (fun _ => hRaised rfl) fun _ => hRaised rfl
  · refine .perform (admits_fclose s) fun r hr => ?_
    cases r with
    | ok _ => exact hOut.trans (by rw [← done_fclose s c.mutex (.ok ())]; rfl)
    | error e => exact absurd (hr e rfl) Bool.false_ne_true

end Program

end TeaBot.Loggers.GroupMessage
