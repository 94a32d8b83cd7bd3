import Mathlib.Data.List.Basic
import TeaBot.Loggers.MessageCalls
import TeaBot.Loggers.Versions

/-! # What a committed message changes

The counters agree with the stored messages, and a commit adds one message together with
its share of the counters and, for a text, its content.
-/

namespace TeaBot.Loggers.GroupMessage

open Foundation Foundation.Sql

def keyed (groupId msgId : Int) (row : Row Col) : Bool := row .groupId = .int groupId ∧ row .tgMsgId = .int msgId

def messagesAt (db : Tables Tbl Col) (groupId msgId : Int) : List (Row Col) :=
  (db .tgGroupMessages).filter (keyed groupId msgId)

structure Agree (db : Tables Tbl Col) : Prop where
  once : ∀ groupId msgId, (messagesAt db groupId msgId).length ≤ 1
  groups : ∀ row ∈ db .tgGroups,
    row .msgCount = .int ((db .tgGroupMessages).countP fun r => r .groupId = row .id : Nat)
  users : ∀ row ∈ db .tgUsers,
    row .groupMsgCount = .int ((db .tgGroupMessages).countP fun r => r .userId = row .id : Nat)
  texts : ∀ r ∈ db .tgGroupMessages,
    (db .tgGroupMessageData).countP (fun x => x .msgId = r .id) = if r .msgType = .str "text" then 1 else 0
  owned : ∀ x ∈ db .tgGroupMessageData, ∃ r ∈ db .tgGroupMessages, r .id = x .msgId

def bump (c : Col) (k : Int) (row : Row Col) : Row Col :=
  if row .id = .int k then row.set [(c, (row c).succ)] else row

structure Added (c : Call) (r : Row Col) (xs : List (Row Col)) (db db' : Tables Tbl Col) : Prop where
  messages : db' .tgGroupMessages = db .tgGroupMessages ++ [r]
  users : db' .tgUsers = (db .tgUsers).map (bump .groupMsgCount c.userId)
  groups : db' .tgGroups = (db .tgGroups).map (bump .msgCount c.groupId)
  data : db' .tgGroupMessageData = db .tgGroupMessageData ++ xs

structure Records (c : Call) (r : Row Col) (n : Nat) : Prop where
  id : r .id = .int n
  group : r .groupId = .int c.groupId
  user : r .userId = .int c.userId
  msg : r .tgMsgId = .int c.msgId
  type : r .msgType = .str c.msgType

section Counters

variable {cc rc : Col} {k : Int}

theorem bump_id (hCol : cc ≠ .id) (row : Row Col) : bump cc k row .id = row .id := by
  unfold bump
  split
  · have hNot : (Col.id == cc) = false := beq_eq_false_iff_ne.mpr hCol.symm
    simp [Row.set, List.lookup_cons, hNot]
  · rfl

theorem counts_added (hCol : cc ≠ .id) {rows messages : List (Row Col)} {r : Row Col}
    (hCounts : ∀ row ∈ rows, row cc = .int (messages.countP fun m => m rc = row .id : Nat)) (hRef : r rc = .int k) :
    ∀ row ∈ rows.map (bump cc k), row cc = .int ((messages ++ [r]).countP fun m => m rc = row .id : Nat) := by
  intro row' hRow'
  obtain ⟨row, hRow, rfl⟩ := List.mem_map.mp hRow'
  have hCount := hCounts row hRow
  rw [bump_id hCol, List.countP_append]
  by_cases hId : row .id = .int k
  · have hBump : bump cc k row cc = (row cc).succ := by simp [bump, hId, Row.set]
    rw [hBump, hCount, hId]
    simp [Value.succ, hRef]
  · have hBump : bump cc k row = row := if_neg hId
    rw [hBump, hCount]
    simp [hRef, Ne.symm hId]

end Counters

section Commit

variable {c : Call} {r : Row Col} {n : Nat} {xs : List (Row Col)} {db db' : Tables Tbl Col}

theorem Agree.added (hAgree : Agree db) (hNew : Records c r n) (hAdded : Added c r xs db db')
    (hUnused : ∀ row ∈ db .tgGroupMessages, row .id ≠ .int n)
    (hAbsent : messagesAt db c.groupId c.msgId = []) (hOwn : ∀ x ∈ xs, x .msgId = .int n)
    (hCount : xs.length = if c.msgType = "text" then 1 else 0) : Agree db' where
  once groupId msgId := by
    rw [messagesAt, hAdded.messages, List.filter_append, List.length_append]
    have hOld := hAgree.once groupId msgId
    by_cases hKey : keyed groupId msgId r = true
    · obtain ⟨hGroup, hMsg⟩ := of_decide_eq_true hKey
      cases hGroup.symm.trans hNew.group
      cases hMsg.symm.trans hNew.msg
      have hNone : (db .tgGroupMessages).filter (keyed c.groupId c.msgId) = [] := hAbsent
      simp [hNone, hKey]
    · have hNot : [r].filter (keyed groupId msgId) = [] := by simpa using hKey
      rw [hNot]
      exact hOld
  groups := by
    rw [hAdded.groups, hAdded.messages]
    exact counts_added (by decide) hAgree.groups hNew.group
  users := by
    rw [hAdded.users, hAdded.messages]
    exact counts_added (by decide) hAgree.users hNew.user
  texts := by
    rw [hAdded.messages, hAdded.data]
    intro r' hr'
    rw [List.countP_append]
    rcases List.mem_append.mp hr' with hOld | hLast
    · have hNone : xs.countP (fun x => x .msgId = r' .id) = 0 := by
        refine List.countP_eq_zero.mpr fun x hx => ?_
        simpa [hOwn x hx] using (hUnused r' hOld).symm
      rw [hAgree.texts r' hOld, hNone, Nat.add_zero]
    · rw [List.mem_singleton.mp hLast, hNew.type, hNew.id]
      have hNone : (db .tgGroupMessageData).countP (fun x => x .msgId = .int n) = 0 := by
        refine List.countP_eq_zero.mpr fun x hx => ?_
        obtain ⟨r', hr', hId⟩ := hAgree.owned x hx
        simpa [← hId] using hUnused r' hr'
      have hAll : xs.countP (fun x => x .msgId = .int n) = xs.length :=
        List.countP_eq_length.mpr fun x hx => by simpa using hOwn x hx
      rw [hNone, hAll, hCount, Nat.zero_add]
      simp
  owned := by
    rw [hAdded.messages, hAdded.data]
    intro x hx
    rcases List.mem_append.mp hx with hOld | hLast
    · obtain ⟨r', hr', hId⟩ := hAgree.owned x hOld
      exact ⟨r', List.mem_append_left _ hr', hId⟩
    · exact ⟨r, List.mem_append_right _ (List.mem_singleton_self r), hNew.id.trans (hOwn x hLast).symm⟩

theorem Added.stored_iff (hAdded : Added c r xs db db') (hNew : Records c r n) (groupId msgId : Int) :
    messagesAt db' groupId msgId ≠ [] ↔
      messagesAt db groupId msgId ≠ [] ∨ (groupId = c.groupId ∧ msgId = c.msgId) := by
  have hKey : keyed groupId msgId r = true ↔ groupId = c.groupId ∧ msgId = c.msgId := by
    rw [keyed, decide_eq_true_iff, hNew.group, hNew.msg, Value.int.injEq, Value.int.injEq, eq_comm, eq_comm (a := c.msgId)]
  rw [← hKey, messagesAt, hAdded.messages, List.filter_append, ne_eq, List.append_eq_nil_iff, not_and_or]
  simp [messagesAt]

end Commit

/-! ## The statements -/

section Statements

variable {c : Call} {view : Tables Tbl Col} {next : Tbl → Nat} {ws : List (Write Tbl Col)}

def userCounted (c : Call) : Write Tbl Col := .increment .tgUsers .groupMsgCount .id (.int c.userId)

def groupCounted (c : Call) : Write Tbl Col := .increment .tgGroups .msgCount .id (.int c.groupId)

theorem apply_counted (tb : Tbl) (cc : Col) (k : Int) (db : Tables Tbl Col) :
    schema.apply (.increment tb cc .id (.int k)) db = Function.update db tb ((db tb).map (bump cc k)) := by
  have hBump : ∀ row : Row Col,
      (if schema.matches tb .id (.int k) row then row.set [(cc, (row cc).succ)] else row) = bump cc k row :=
    fun row => if_congr (matches_id tb rfl row) rfl rfl
  simp only [Schema.apply, hBump]

theorem added_log (c : Call) (r : Row Col) (xs : List (Row Col)) (db : Tables Tbl Col) :
    Added c r xs db (schema.applyAll
      (.insert .tgGroupMessages r :: userCounted c :: groupCounted c :: xs.map (.insert .tgGroupMessageData)) db) := by
  rw [Schema.applyAll_cons, Schema.applyAll_cons, Schema.applyAll_cons, Schema.applyAll_inserts, userCounted,
    groupCounted, apply_counted, apply_counted]
  constructor <;> simp [Schema.apply]

theorem insertMessage_writes
    (h : schema.writes view next (.insert .tgGroupMessages insertCols) (c.params.map bindParam) = .ok ws) :
    ∃ r, ws = [.insert .tgGroupMessages r] ∧ Records c r (next .tgGroupMessages) := by
  obtain ⟨rfl, hCells, _⟩ := schema.writes_insert h
  have hCell := fun (d : Column Col) (hd : d ∈ (table .tgGroupMessages).columns) => hCells d hd
  have hGroup := hCell { name := .groupId, type := .bigint true, nullable := true } (by simp [table]) (by decide)
  have hUser := hCell { name := .userId, type := .bigint true, nullable := true } (by simp [table]) (by decide)
  have hMsg := hCell { name := .tgMsgId, type := .bigint true, nullable := true } (by simp [table]) (by decide)
  have hType := hCell { name := .msgType, type := .varchar 255 .utf8, nullable := true } (by simp [table]) (by decide)
  rw [Call.params, c.hasId, c.hasType] at hMsg hType ⊢
  exact ⟨_, rfl, rfl, Column.stored_bigint rfl hGroup, Column.stored_bigint rfl hUser, Column.stored_bigint rfl hMsg,
    Column.stored_varchar (v := .str c.msgType) rfl hType⟩

theorem saveData_writes {n : Nat} {rest : List Php}
    (h : schema.writes view next (.insert .tgGroupMessageData dataCols) ((.int n :: rest).map bindParam) = .ok ws) :
    ∃ x, ws = [.insert .tgGroupMessageData x] ∧ x .msgId = .int n := by
  obtain ⟨rfl, hCells, _⟩ := schema.writes_insert h
  have hMsg := hCells { name := .msgId, type := .bigint true } (by simp [schema, table]) (by decide)
  have hCheck : Column.check ({ name := .msgId, type := .bigint true } : Column Col) (.int n) = none := hMsg
  exact ⟨_, rfl, Column.stored_bigint rfl hCheck⟩

theorem fetched_iff (collate : String → List Nat) (c : Call) {w : World} {t : Nat} (hTx : w.tx t = some [])
    (cols : List Col) :
    (w.fetchWhere collate t .tgGroupMessages cols [(.groupId, .int c.groupId), (.tgMsgId, c.data.msgId)]).isSome = true ↔
      messagesAt w.db c.groupId c.msgId ≠ [] := by
  have hView : w.view t = w.db := by simp [World.view, hTx]
  have hKeyed : ∀ row : Row Col, ([(.groupId, .int c.groupId), (.tgMsgId, c.data.msgId)].all fun p : Col × Php =>
      schema.selects collate .tgGroupMessages p.1 (bindParam p.2) row) = keyed c.groupId c.msgId row := by
    intro row
    have hGroup := selects_bigint (t := .tgGroupMessages) (c := .groupId) rfl collate (v := .int c.groupId) rfl row
    have hMsg := selects_bigint (t := .tgGroupMessages) (c := .tgMsgId) rfl collate (v := .int c.msgId) rfl row
    rw [c.hasId, Bool.eq_iff_iff, keyed, decide_eq_true_iff, ← hGroup, ← hMsg]
    simp [bindParam]
  rw [World.fetchWhere, Option.isSome_map, hView]
  simp only [hKeyed]
  rw [List.find?_isSome, messagesAt, ne_eq, List.filter_eq_nil_iff]
  simp

end Statements

end TeaBot.Loggers.GroupMessage
