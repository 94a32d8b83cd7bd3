import TeaBot.Foundation.TypedRuns
import TeaBot.Loggers.Forwarded
import TeaBot.Loggers.MessageSteps

/-! # Concurrent calls of `resolveMessage`

Every call has a connection of its own. Whoever else is at work and whatever raises, the
counters agree with the stored messages.
-/

namespace TeaBot.Loggers.GroupMessage

open Foundation Foundation.Sql Foundation.System

def messages (h : Hashes) (date : Php → Except Throwable String) :
    System World Op Op.Res Throwable Unit Call Choice where
  code c := resolveMessage date c.dateTime c.userId c.groupId c.data
  exec t c := exec h t (.groupLogger c.data c.dateTime)
  spawned _ _ := []

abbrev Calls := Config World Op Op.Res Throwable Unit Call

/-- The message had a row to begin with, or a call for it has returned. -/
def EverStored (w₀ : World) (c : Calls) (groupId msgId : Int) : Prop :=
  messagesAt w₀.db groupId msgId ≠ [] ∨
    ∃ x ∈ c.threads, x.2 = .ret () ∧ groupId = x.1.groupId ∧ msgId = x.1.msgId

def Committed (gs : List (Call × (Call × Stage))) (groupId msgId : Int) : Prop :=
  ∃ (t : Nat) (c : Call) (s : Stage), gs[t]? = some (c, (c, s)) ∧ s.done = true ∧ groupId = c.groupId ∧ msgId = c.msgId

structure Invariant (w₀ : World) (gs : List (Call × (Call × Stage))) (w : World) : Prop where
  agree : Agree w.db
  numbered : Numbered w
  fresh : ∀ t, gs.length ≤ t → w.tx t = none
  facts : ∀ (t : Nat) (c : Call) (d : Call × Stage), gs[t]? = some (c, d) → d.1 = c ∧ d.2.Facts c t w
  rows : ∀ groupId msgId, messagesAt w.db groupId msgId ≠ [] ↔
    messagesAt w₀.db groupId msgId ≠ [] ∨ Committed gs groupId msgId

section Runs

variable {h : Hashes} {date : Php → Except Throwable String} {w₀ w w' : World}
variable {gs : List (Call × (Call × Stage))} {t : Nat} {c : Call} {s s' : Stage}

theorem mutex_congr {c' : Call} (hGroup : c'.groupId = c.groupId) (hMsg : c'.msgId = c.msgId) : c'.mutex = c.mutex := by
  rw [Call.mutex, Call.mutex, messageMutex, messageMutex, c.hasId, c'.hasId, hGroup, hMsg]

theorem committed_append (groupId msgId : Int) :
    Committed (gs ++ [(c, (c, .outside))]) groupId msgId ↔ Committed gs groupId msgId := by
  constructor
  · rintro ⟨t, c', s, hAt, hDone, hKey⟩
    by_cases ht : t < gs.length
    · rw [List.getElem?_append_left ht] at hAt
      exact ⟨t, c', s, hAt, hDone, hKey⟩
    · rw [List.getElem?_append_right (by omega)] at hAt
      cases List.mem_singleton.mp (List.mem_of_getElem? hAt)
      cases hDone
  · rintro ⟨t, c', s, hAt, hDone, hKey⟩
    exact ⟨t, c', s, (List.getElem?_append_left (List.getElem?_eq_some_iff.mp hAt).1).trans hAt, hDone, hKey⟩

theorem committed_set (hAt : gs[t]? = some (c, (c, s))) (hDone : s.done = true → s'.done = true) (groupId msgId : Int) :
    Committed (gs.set t (c, (c, s'))) groupId msgId ↔ Committed gs groupId msgId ∨
      (s.done = false ∧ s'.done = true ∧ groupId = c.groupId ∧ msgId = c.msgId) := by
  have hLt := (List.getElem?_eq_some_iff.mp hAt).1
  constructor
  · rintro ⟨u, c', s₁, hu, hDone₁, hKey⟩
    by_cases hEq : u = t
    · subst hEq
      rw [List.getElem?_set_self hLt] at hu
      cases hu
      cases hs : s.done with
      | true => exact .inl ⟨u, c, s, hAt, hs, hKey⟩
      | false => exact .inr ⟨rfl, hDone₁, hKey⟩
    · rw [List.getElem?_set_ne (Ne.symm hEq)] at hu
      exact .inl ⟨u, c', s₁, hu, hDone₁, hKey⟩
  · rintro (⟨u, c', s₁, hu, hDone₁, hKey⟩ | ⟨_, hDone', hKey⟩)
    · by_cases hEq : u = t
      · subst hEq
        cases hAt.symm.trans hu
        exact ⟨u, c, s', List.getElem?_set_self hLt, hDone hDone₁, hKey⟩
      · exact ⟨u, c', s₁, (List.getElem?_set_ne (Ne.symm hEq)).trans hu, hDone₁, hKey⟩
    · exact ⟨t, c, s', List.getElem?_set_self hLt, hDone', hKey⟩

theorem Invariant.init (hTx : ∀ t, w₀.tx t = none)
    (hKeys : ∀ row ∈ w₀.db .tgGroupMessages, ∃ k : Nat, row .id = .int k ∧ k < w₀.next .tgGroupMessages)
    (hAgree : Agree w₀.db) : Invariant w₀ [] w₀ := by
  have hNone : ∀ t r, pendingRow w₀ t ≠ some r := by
    intro t r hr
    rw [pendingRow, hTx t] at hr
    cases hr
  refine ⟨hAgree, ⟨hKeys, fun t r hr => absurd hr (hNone t r), fun t r hr => absurd hr (hNone t r),
    fun t _ r _ hr => absurd hr (hNone t r)⟩, fun t _ => hTx t, fun _ _ _ hAt => absurd hAt (by simp), fun groupId msgId => ?_⟩
  refine ⟨.inl, fun hRows => hRows.resolve_right ?_⟩
  rintro ⟨_, _, _, hAt, _⟩
  cases hAt

theorem Invariant.start (hInv : Invariant w₀ gs w) (c : Call) : Invariant w₀ (gs ++ [(c, (c, .outside))]) w where
  agree := hInv.agree
  numbered := hInv.numbered
  fresh t ht := hInv.fresh t (by simp at ht; omega)
  facts t c' d hAt := by
    by_cases ht : t < gs.length
    · rw [List.getElem?_append_left ht] at hAt
      exact hInv.facts t c' d hAt
    · rw [List.getElem?_append_right (by omega)] at hAt
      cases List.mem_singleton.mp (List.mem_of_getElem? hAt)
      exact ⟨rfl, hInv.fresh t (by omega)⟩
  rows groupId msgId := by
    rw [committed_append]
    exact hInv.rows groupId msgId

theorem Invariant.step (hInv : Invariant w₀ gs w) (hAt : gs[t]? = some (c, (c, s))) (hOthers : Others t w w')
    (hStep : Stepped c t s s' w w') : Invariant w₀ (gs.set t (c, (c, s'))) w' where
  agree := hStep.agree
  numbered := hStep.numbered
  fresh u hu := by
    rw [List.length_set] at hu
    have hLt := (List.getElem?_eq_some_iff.mp hAt).1
    rw [hOthers.tx u (by omega)]
    exact hInv.fresh u hu
  facts u c' d hu := by
    by_cases hEq : u = t
    · subst hEq
      rw [List.getElem?_set_self (List.getElem?_eq_some_iff.mp hAt).1] at hu
      cases hu
      exact ⟨rfl, hStep.facts⟩
    · rw [List.getElem?_set_ne (Ne.symm hEq)] at hu
      obtain ⟨hCall, hFacts⟩ := hInv.facts u c' d hu
      refine ⟨hCall, hFacts.others hOthers hEq fun hLock => not_iff_not.mp ?_⟩
      refine (hStep.rows _ _).trans ⟨fun hRows => hRows.resolve_right ?_, .inl⟩
      -- a commit of the same message would be made under the same lock
      rintro ⟨hNot, hYes, hGroup, hMsg⟩
      rw [mutex_congr hGroup hMsg, hStep.holds hNot hYes] at hLock
      exact hEq (Option.some.inj hLock).symm
  rows groupId msgId := by
    rw [hStep.rows, hInv.rows, committed_set hAt hStep.done, or_assoc]

theorem invariant_reach {c : Calls} (hInit : Invariant w₀ [] w₀)
    (hReach : (messages h date).Reach (fun _ _ => True) ⟨w₀, []⟩ c) :
    ∃ gs, Typed (Discipline.family stages) (fun j out x => x.1 = j ∧ (out = .ok () ↔ x.2.done = true)) gs c ∧
      Invariant w₀ gs c.shared := by
  have hCode : ∀ j, True → ((messages h date).code j).Keeps (Discipline.family stages)
      (fun out x => x.1 = j ∧ (out = .ok () ↔ x.2.done = true)) (j, .outside) :=
    fun _ _ => resolveMessage_keeps.family
  refine Typed.reach hCode ?_ ?_ (.nil w₀) hInit hReach
  · exact fun _ _ j _ hInv _ => ⟨trivial, hInv.start j⟩
  · intro c gs t ch j d o k r w' _ hInv _ _ hAt hAdmits hExec
    obtain ⟨rfl, hFacts⟩ := hInv.facts t j d hAt
    have hStep := step_call hInv.agree hInv.numbered hFacts hAdmits hExec
    refine ⟨fun _ => exec_raises hExec, fun _ hj => absurd hj List.not_mem_nil, ?_⟩
    change Invariant w₀ (gs.set t _ ++ []) w'
    rw [List.append_nil]
    exact hInv.step hAt (exec_others hExec) hStep

theorem committed_iff {c : Calls}
    (hTyped : Typed (Discipline.family stages) (fun j out x => x.1 = j ∧ (out = .ok () ↔ x.2.done = true)) gs c)
    (hIdle : ∀ x ∈ c.threads, x.2.finished = true) (groupId msgId : Int) :
    Committed gs groupId msgId ↔ ∃ x ∈ c.threads, x.2 = .ret () ∧ groupId = x.1.groupId ∧ msgId = x.1.msgId := by
  constructor
  · rintro ⟨t, j, s, hAt, hDone, hKey⟩
    obtain ⟨p, hThread, hKeeps⟩ := hTyped.thread hAt
    have hMem := List.mem_of_getElem? hThread
    cases p with
    | ret a => exact ⟨_, hMem, rfl, hKey⟩
    | throw e => cases hKeeps.2.mpr hDone
    | op o k => cases hIdle _ hMem
  · rintro ⟨⟨j, p⟩, hMem, rfl, hKey⟩
    obtain ⟨t, hThread⟩ := List.mem_iff_getElem?.mp hMem
    obtain ⟨⟨j', s⟩, hAt, hCall, hDone⟩ := hTyped.state hThread
    obtain rfl : j' = j := hCall
    exact ⟨t, j', s, hAt, hDone.mp rfl, hKey⟩

/-- The counters and contents agree with the messages throughout, and when no call is in
progress there is one row for each message ever stored. -/
theorem store_and_counters_agree (h : Hashes) (date : Php → Except Throwable String) {c : Calls}
    (hTx : ∀ t, w₀.tx t = none)
    (hKeys : ∀ row ∈ w₀.db .tgGroupMessages, ∃ k : Nat, row .id = .int k ∧ k < w₀.next .tgGroupMessages)
    (hAgree : Agree w₀.db) (hReach : (messages h date).Reach (fun _ _ => True) ⟨w₀, []⟩ c) :
    Agree c.shared.db ∧ ((∀ x ∈ c.threads, x.2.finished = true) → ∀ groupId msgId,
      (EverStored w₀ c groupId msgId → (messagesAt c.shared.db groupId msgId).length = 1) ∧
      (¬ EverStored w₀ c groupId msgId → messagesAt c.shared.db groupId msgId = [])) := by
  obtain ⟨gs, hTyped, hInv⟩ := invariant_reach (Invariant.init hTx hKeys hAgree) hReach
  refine ⟨hInv.agree, fun hIdle groupId msgId => ?_⟩
  have hRows : messagesAt c.shared.db groupId msgId ≠ [] ↔ EverStored w₀ c groupId msgId := by
    rw [hInv.rows, committed_iff hTyped hIdle]
    rfl
  refine ⟨fun hEver => ?_, fun hNever => not_not.mp fun hNe => hNever (hRows.mp hNe)⟩
  have hSome := List.length_pos_iff.mpr (hRows.mpr hEver)
  have hOnce := hInv.agree.once groupId msgId
  omega

end Runs

def hello : Call where
  userId := 1
  groupId := 1
  msgId := 5
  msgType := "text"
  data := { msgId := .int 5, msgType := .str "text", text := .str "hello", isForwardedMsg := .bool false }
  dateTime := "2020-01-01 00:00:00"
  hasId := rfl
  hasType := rfl
  notForwarded := rfl

def picture : Call where
  userId := 1
  groupId := 1
  msgId := 6
  msgType := "photo"
  data := { msgId := .int 6, msgType := .str "photo", isForwardedMsg := .bool false }
  dateTime := "2020-01-01 00:00:00"
  hasId := rfl
  hasType := rfl
  notForwarded := rfl

/-- Call 0 fails at the second counter, and call 1 stores message 6 meanwhile; call 2 is a
second delivery of message 5 and stores it. -/
def messageLabels : List (Label Call Choice) :=
  [.start hello, .start picture, .step 0 .ok, .step 1 .ok] ++
    (List.replicate 5 [.step 0 .ok, .step 1 .ok]).flatten ++ [.step 0 (.fail (.exception "PDOException" ""))] ++
    List.replicate 3 (.step 0 .ok) ++ [.start hello] ++ List.replicate 4 (.step 1 .ok) ++ List.replicate 12 (.step 2 .ok)

def messageRun : Option Calls :=
  (messages plainHashes fun v => .ok v.toStr).run ⟨memberWorld, []⟩ messageLabels

theorem memberWorld_agree : Agree memberWorld.db where
  once _ _ := Nat.zero_le 1
  groups row hRow := by
    obtain rfl := List.mem_singleton.mp hRow
    rfl
  users row hRow := by
    obtain rfl := List.mem_singleton.mp hRow
    rfl
  texts _ hr := absurd hr List.not_mem_nil
  owned _ hx := absurd hx List.not_mem_nil

theorem redelivered_message_stored_once : ∃ c, messageRun = some c ∧ Agree c.shared.db ∧
    (∀ x ∈ c.threads, x.2.finished = true) ∧ (messagesAt c.shared.db 1 5).length = 1 := by
  have hRun : messageRun.any (fun c => c.threads.all (·.2.finished) && c.threads.any fun x =>
      x.2.thrown.isNone && decide (1 = x.1.groupId ∧ 5 = x.1.msgId)) = true := by
    decide +kernel
  obtain ⟨c, hc, hEnd⟩ := (Option.any_eq_true _ _).mp hRun
  obtain ⟨hAll, hAny⟩ := Bool.and_eq_true_iff.mp hEnd
  have hIdle := List.all_eq_true.mp hAll
  obtain ⟨⟨j, p⟩, hMem, hReturned⟩ := List.any_eq_true.mp hAny
  obtain ⟨hNone, hKey⟩ := Bool.and_eq_true_iff.mp hReturned
  have hRet : p = .ret () := by
    cases p with
    | ret a => rfl
    | throw e => cases hNone
    | op o k => cases hIdle _ hMem
  have hReach := reach_of_run (fun _ _ _ => trivial) hc
  obtain ⟨hAgree, hRows⟩ := store_and_counters_agree _ _ (fun _ => rfl) (fun _ hRow => absurd hRow List.not_mem_nil)
    memberWorld_agree hReach
  exact ⟨c, hc, hAgree, hIdle, (hRows hIdle 1 5).1 (.inr ⟨_, hMem, hRet, of_decide_eq_true hKey⟩)⟩

end TeaBot.Loggers.GroupMessage
