import TeaBot.Foundation.Integrity
import TeaBot.Php

/-! # The schema of `database.sql`

The tables that the loggers read and write, column by column. Keys that only speed up
lookups are left out; unique and foreign keys are kept.
-/

namespace TeaBot

open Foundation.Sql

inductive Tbl
  | tgFiles
  | tgGroups
  | tgGroupAdmins
  | tgGroupHistory
  | tgGroupMessages
  | tgGroupMessageData
  | tgGroupMessageFwd
  | tgUsers
  | tgUserHistory
  deriving DecidableEq, Repr

inductive Col
  | id | tgFileId | tgUniqId | md5Sum | sha1Sum | fileType | ext | size | hitCount | description
  | tgGroupId | username | name | link | photo | msgCount
  | userId | groupId | role | info
  | tgMsgId | replyToTgMsgId | msgType | hasEditedMsg | isForwardedMsg
  | msgId | text | textEntities | file | isEdited | tgDate | tgForwardedDate
  | tgUserId | firstName | lastName | groupMsgCount | privateMsgCount | isBot
  | createdAt | updatedAt
  deriving DecidableEq, Repr

def Col.sqlName : Col → String
  | .id => "id" | .tgFileId => "tg_file_id" | .tgUniqId => "tg_uniq_id" | .md5Sum => "md5_sum"
  | .sha1Sum => "sha1_sum" | .fileType => "file_type" | .ext => "ext" | .size => "size"
  | .hitCount => "hit_count" | .description => "description" | .tgGroupId => "tg_group_id"
  | .username => "username" | .name => "name" | .link => "link" | .photo => "photo"
  | .msgCount => "msg_count" | .userId => "user_id" | .groupId => "group_id" | .role => "role"
  | .info => "info" | .tgMsgId => "tg_msg_id" | .replyToTgMsgId => "reply_to_tg_msg_id"
  | .msgType => "msg_type" | .hasEditedMsg => "has_edited_msg" | .isForwardedMsg => "is_forwarded_msg"
  | .msgId => "msg_id" | .text => "text" | .textEntities => "text_entities" | .file => "file"
  | .isEdited => "is_edited" | .tgDate => "tg_date" | .tgForwardedDate => "tg_forwarded_date"
  | .tgUserId => "tg_user_id" | .firstName => "first_name" | .lastName => "last_name"
  | .groupMsgCount => "group_msg_count" | .privateMsgCount => "private_msg_count" | .isBot => "is_bot"
  | .createdAt => "created_at" | .updatedAt => "updated_at"

def flag : ColumnType := .enum ["0", "1"]

def key : Column Col := { name := .id, type := .bigint true }

def createdAt : Column Col := { name := .createdAt, type := .other }

def updatedAt : Column Col := { name := .updatedAt, type := .other, nullable := true }

def photo : Column Col := { name := .photo, type := .bigint true, nullable := true }

def table : Tbl → Table Tbl Col
  | .tgFiles =>
    { columns := [key,
        { name := .tgFileId, type := .varchar 255 .utf8 },
        { name := .tgUniqId, type := .varchar 255 .utf8, nullable := true },
        { name := .md5Sum, type := .other },
        { name := .sha1Sum, type := .other },
        { name := .fileType, type := .varchar 64 .utf8, default := some (.str "unknown") },
        { name := .ext, type := .varchar 32 .utf8, nullable := true },
        { name := .size, type := .bigint true, nullable := true },
        { name := .hitCount, type := .bigint true, default := some (.int 1) },
        { name := .description, type := .other, nullable := true },
        createdAt, updatedAt] }
  | .tgGroups =>
    { columns := [key,
        { name := .tgGroupId, type := .bigint false },
        { name := .username, type := .varchar 255 .utf8, nullable := true },
        { name := .name, type := .varchar 255 .utf8mb4 },
        { name := .link, type := .varchar 255 .utf8, nullable := true },
        photo,
        { name := .msgCount, type := .bigint true, default := some (.int 0) },
        createdAt, updatedAt]
      unique := [.tgGroupId]
      foreign := [(.photo, .tgFiles)] }
  | .tgGroupAdmins =>
    { columns := [key,
        { name := .userId, type := .bigint true },
        { name := .groupId, type := .bigint true },
        { name := .role
          type := .enum ["creator", "administrator", "member", "restricted", "left", "kicked"]
          default := some (.str "administrator") },
        { name := .info, type := .other, nullable := true },
        createdAt, updatedAt]
      foreign := [(.userId, .tgUsers), (.groupId, .tgGroups)] }
  | .tgGroupHistory =>
    { columns := [key,
        { name := .groupId, type := .bigint true },
        { name := .username, type := .varchar 255 .utf8, nullable := true },
        { name := .name, type := .varchar 255 .utf8mb4 },
        { name := .link, type := .varchar 255 .utf8, nullable := true },
        photo, createdAt]
      foreign := [(.groupId, .tgGroups), (.photo, .tgFiles)] }
  | .tgGroupMessages =>
    { columns := [key,
        { name := .groupId, type := .bigint true, nullable := true },
        { name := .userId, type := .bigint true, nullable := true },
        { name := .tgMsgId, type := .bigint true, nullable := true },
        { name := .replyToTgMsgId, type := .bigint true, nullable := true },
        { name := .msgType, type := .varchar 255 .utf8, nullable := true },
        { name := .hasEditedMsg, type := flag, default := some (.str "0") },
        { name := .isForwardedMsg, type := flag, default := some (.str "0") },
        createdAt, updatedAt]
      foreign := [(.groupId, .tgGroups), (.userId, .tgUsers)] }
  | .tgGroupMessageData =>
    { columns := [key,
        { name := .msgId, type := .bigint true },
        { name := .text, type := .other, nullable := true },
        { name := .textEntities, type := .other, nullable := true },
        { name := .file, type := .bigint true, nullable := true },
        { name := .isEdited, type := flag, default := some (.str "0") },
        { name := .tgDate, type := .other, nullable := true },
        createdAt]
      foreign := [(.msgId, .tgGroupMessages), (.file, .tgFiles)] }
  | .tgGroupMessageFwd =>
    { columns := [key,
        { name := .userId, type := .bigint true },
        { name := .msgId, type := .bigint true },
        { name := .tgForwardedDate, type := .other, nullable := true }]
      foreign := [(.userId, .tgUsers), (.msgId, .tgGroupMessages)] }
  | .tgUsers =>
    { columns := [key,
        { name := .tgUserId, type := .bigint true },
        { name := .username, type := .varchar 255 .utf8, nullable := true },
        { name := .firstName, type := .varchar 255 .utf8mb4 },
        { name := .lastName, type := .varchar 255 .utf8mb4, nullable := true },
        photo,
        { name := .groupMsgCount, type := .bigint true, default := some (.int 0) },
        { name := .privateMsgCount, type := .bigint true, default := some (.int 0) },
        { name := .isBot, type := flag, default := some (.str "0") },
        createdAt, updatedAt]
      unique := [.tgUserId]
      foreign := [(.photo, .tgFiles)] }
  | .tgUserHistory =>
    { columns := [key,
        { name := .userId, type := .bigint true },
        { name := .username, type := .varchar 72 .latin1, nullable := true },
        { name := .firstName, type := .varchar 255 .utf8mb4 },
        { name := .lastName, type := .varchar 255 .utf8mb4, nullable := true },
        photo, createdAt]
      foreign := [(.userId, .tgUsers), (.photo, .tgFiles)] }

def schema : Schema Tbl Col := { table := table, id := .id }

theorem schema_wellFormed : schema.WellFormed where
  names t := by cases t <;> decide
  defaults t d hd v hv := by
    have hAll : (schema.table t).columns.all (fun d => d.default.all fun v => d.check v = none ∧ d.stored v = v) = true := by
      cases t <;> decide
    have hHere := List.all_eq_true.mp hAll d hd
    rw [hv] at hHere
    obtain ⟨hCheck, hStored⟩ := of_decide_eq_true hHere
    exact ⟨hCheck, hStored⟩
  key t d hd hId := by
    have hAll : (schema.table t).columns.all (fun d => d.name ≠ .id ∨ d.type = .bigint true) = true := by
      cases t <;> decide
    exact ⟨true, (of_decide_eq_true (List.all_eq_true.mp hAll d hd)).resolve_left fun hNe => hNe hId⟩

/-- `PDO::ERRMODE_EXCEPTION`: every refused statement raises a `PDOException`. -/
def pdoException : Error Col → Throwable
  | .malformed => .exception "PDOException" "SQLSTATE[42000]: Syntax error or access violation"
  | .unknownColumn c => .exception "PDOException"
      ("SQLSTATE[42S22]: Column not found: 1054 Unknown column '" ++ c.sqlName ++ "' in 'field list'")
  | .parameterNumber => .exception "PDOException"
      "SQLSTATE[HY093]: Invalid parameter number: number of bound variables does not match number of tokens"
  | .dataError c => .exception "PDOException"
      ("SQLSTATE[22001]: String data, right truncated: 1406 Data too long for column '" ++ c.sqlName ++ "'")
  | .nullColumn c => .exception "PDOException"
      ("SQLSTATE[23000]: Integrity constraint violation: 1048 Column '" ++ c.sqlName ++ "' cannot be null")
  | .noDefault c => .exception "PDOException"
      ("SQLSTATE[HY000]: General error: 1364 Field '" ++ c.sqlName ++ "' doesn't have a default value")
  | .duplicate c => .exception "PDOException"
      ("SQLSTATE[23000]: Integrity constraint violation: 1062 Duplicate entry for key '" ++ c.sqlName ++ "'")
  | .foreignKey c => .exception "PDOException"
      ("SQLSTATE[23000]: Integrity constraint violation: 1452 a foreign key constraint fails: '" ++
        c.sqlName ++ "'")

@[simp] theorem pdoException_isException (e : Error Col) : (pdoException e).isException = true := by
  cases e <;> rfl

/-- What PDO sends for a PHP value passed to `execute`. -/
def bindParam : Php → Value
  | .null => .null
  | .bool b => .str (if b then "1" else "")
  | .int n => .int n
  | .float q => .str (floatText q)
  | .str s => .str s
  | .arr _ => .str "Array"

/-- With `ATTR_EMULATE_PREPARES` a fetched integer column is a PHP string. -/
def fetchValue : Value → Php
  | .null => .null
  | .int n => .str (toString n)
  | .str s => .str s

end TeaBot
