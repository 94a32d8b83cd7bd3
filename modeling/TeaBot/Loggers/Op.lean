import TeaBot.Database
import TeaBot.Exe
import TeaBot.Foundation.History

/-! # What the loggers do to the outside

The objects the coroutines of a logger worker carry, the coroutines themselves, and
the operations at which they may be suspended or raise. `Dlog` output is left out.
-/

namespace TeaBot.Loggers

open Foundation Foundation.Sql

/-- `TeaBot\Telegram\Mutex`: the lock file is `<dir>/<tableName>/<uniqueId>.lock`. -/
structure Mutex where
  tableName : String
  uniqueId : String
  deriving DecidableEq, Repr

def Mutex.new (tableName uniqueId : String) : Mutex where
  tableName := tableName
  uniqueId := String.ofList (uniqueId.toList.map fun c => if c = '-' then '_' else c)

def Mutex.lockFile (dir : String) (m : Mutex) : String :=
  dir ++ "/" ++ m.tableName ++ "/" ++ m.uniqueId ++ ".lock"

/-- The array that `resolveUser` returns and keeps in `$this->u`. -/
structure UserInfo where
  id : Php
  photo : Php
  groupMsgCount : Php
  privateMsgCount : Php
  deriving DecidableEq

/-- `LoggerUtils\User`. `data` is a typed property without a default: until `setData`
it is uninitialised. `dateTime` is the clock reading of the call. -/
structure User where
  data : Option Data
  dateTime : String
  needHistory : Bool := false
  historyId : Option Nat := none
  hasInsertAct : Bool := false
  u : Option UserInfo := none
  deriving DecidableEq

structure GroupInfo where
  id : Php
  link : Php
  photo : Php
  msgCount : Php
  deriving DecidableEq

/-- `LoggerUtils\Group`. -/
structure Group where
  data : Option Data
  dateTime : String
  needHistory : Bool := false
  historyId : Option Nat := none
  hasInsertAct : Bool := false
  u : Option GroupInfo := none
  deriving DecidableEq

/-- What a coroutine of a logger worker runs. -/
inductive Job
  | resolveUser (self : User)
  | resolveGroup (self : Group)
  | userTrackPhoto (self : User)
  | groupTrackPhoto (self : Group)
  | trackAdmins (self : Group)
  /-- The closure that `trackAdmins` starts for one administrator. -/
  | adminUser (k : Key) (v : Php) (chan : Nat) (dateTime : String)
  | resolveFile (tgFileId dateTime : String)
  | groupLogger (data : Data) (dateTime : String)
  deriving DecidableEq

/-- What one administrator's coroutine pushes: its values under its own key. -/
structure AdminRow where
  k : Key
  userId : Php
  role : Php
  info : Php
  deriving DecidableEq

inductive Op
  | lock (m : Mutex)
  | unlock (m : Mutex)
  /-- `Mutex::__destruct`: closing the handle drops its lock. -/
  | fclose (m : Mutex)
  /-- `DB::pdo()` -/
  | connect
  | beginTransaction
  | commit
  | rollback
  /-- `SELECT cols FROM t WHERE key = ?`, executed and fetched once. -/
  | fetch (t : Tbl) (cols : List Col) (key : Col) (v : Php)
  /-- The same with the conditions joined by `AND`. -/
  | fetchWhere (t : Tbl) (cols : List Col) (conds : List (Col × Php))
  | execute (stmt : Stmt Tbl Col) (params : List Php)
  /-- A multi-row `INSERT` with named placeholders. -/
  | executeNamed (t : Tbl) (cols : List Col) (rows : List (List String)) (params : List (String × Php))
  | lastInsertId
  | exe (call : Api)
  /-- Append to `TELEGRAM_DAEMON_ERROR_LOG` under its lock. -/
  | errorLog (text : String)
  /-- `SaberGM::download(url, file)`; the answer is `getSuccess()`. -/
  | download (filePath file : String)
  /-- `filesize` with what it has told this coroutine before, which PHP's stat cache may hold still. -/
  | filesize (file : String) (cached : Option Nat)
  | md5File (file : String)
  | sha1File (file : String)
  | mimeContentType (file : String)
  | rename (source target : String)
  | go (job : Job)
  | newChannel (capacity : Nat)
  | push (chan : Nat) (row : AdminRow)
  | pop (chan : Nat)

@[reducible] def Op.Res : Op → Type
  | .fetch .. => Option (Col → Php)
  | .fetchWhere .. => Option (Col → Php)
  | .lastInsertId => Nat
  | .exe _ => Php
  | .download .. => Bool
  | .filesize .. => Nat
  | .md5File _ => String
  | .sha1File _ => String
  | .mimeContentType _ => String
  | .rename .. => Bool
  | .newChannel _ => Nat
  | .pop _ => AdminRow
  | _ => Unit

abbrev Run (α : Type) := Prog Op Op.Res Throwable α

abbrev Answered := Event Op Op.Res Throwable

def perform (o : Op) : Run (Op.Res o) := Prog.perform o

/-- The body of a function that owns the mutex `m` in a local variable: however it
exits, the destructor closes the handle. -/
def Mutex.scoped {α : Type} (m : Mutex) (body : Run α) : Run α :=
  Prog.tryFinally body (perform (.fclose m))

/-- `catch (Exception $e)`: errors pass through. -/
def catchException {α : Type} (body : Run α) (handler : Throwable → Run α) : Run α :=
  body.tryCatch fun e => if e.isException then handler e else .throw e

/-- The shape that `resolveUser` and `resolveGroup` share. -/
def inTransaction {α : Type} (m : Mutex) (body : Run α) : Run α :=
  m.scoped do
    perform (.lock m)
    let ret ← catchException
      (do
        perform .beginTransaction
        let ret ← body
        perform .commit
        pure ret)
      fun e => do
        perform .rollback
        perform (.unlock m)
        .throw e
    perform (.unlock m)
    pure ret

/-- An `UPDATE` text and its parameters while they are put together. -/
structure UpdateQuery where
  clause : List (SetToken Col) := []
  params : List Php := []
  doUpdate : Bool := false
  deriving DecidableEq

def UpdateQuery.add (q : UpdateQuery) (c : Col) (v : Php) : UpdateQuery where
  clause := q.clause ++ (if q.doUpdate then [.comma] else []) ++ [.assign c]
  params := q.params ++ [v]
  doUpdate := true

/-- One field check of the update trackers: `if ($old !== $new) { .. "c = ?" .. }`. -/
def UpdateQuery.track (q : UpdateQuery) (c : Col) (old new : Php) : UpdateQuery :=
  if old ≠ new then q.add c new else q

/-- `",updated_at = ? WHERE id = ?"` -/
def UpdateQuery.finish (q : UpdateQuery) (t : Tbl) (dateTime : String) (id : Php) : Op :=
  .execute (.update t (q.clause ++ [.comma, .assign .updatedAt]) .id) (q.params ++ [.str dateTime, id])

end TeaBot.Loggers
