import TeaBot.Loggers.User

/-! # `LoggerUtils\Group`

The counterpart of `User` for groups, and the administrators' snapshot that one
coroutine per administrator fills through a channel.
-/

namespace TeaBot.Loggers.Group

open Foundation Foundation.Sql

def uninitialised : Throwable :=
  .error "Error" "Typed property TeaBot\\Telegram\\LoggerUtils\\Group::$data must not be accessed before initialization"

/-- The two field checks of `trackGroupUpdate`; the second names the column `first_name`. -/
def updateQuery (u : Col → Php) (d : Data) : UpdateQuery :=
  (({} : UpdateQuery).track .username (u .username) d.chatUsername).track
    .firstName (u .name) d.chatTitle

def trackGroupUpdate (self : Group) (d : Data) (u : Col → Php) : Run Group :=
  if (updateQuery u d).doUpdate then do
    perform ((updateQuery u d).finish .tgGroups self.dateTime (u .id))
    pure { self with needHistory := true }
  else pure self

def insertCols : List Col := [.tgGroupId, .username, .name, .msgCount, .createdAt]

def insertGroup (self : Group) (d : Data) : Run (Group × Nat) := do
  perform (.execute (.insert .tgGroups insertCols)
    [d.chatId, d.chatUsername, d.chatTitle, .int 0, .str self.dateTime])
  let groupId ← perform .lastInsertId
  pure ({ self with needHistory := true }, groupId)

def historyCols : List Col := [.groupId, .username, .name, .link, .photo, .createdAt]

def createGroupHistory (self : Group) (d : Data) (groupId : Php) : Run Group := do
  let groupId ← intArg groupId
  perform (.execute (.insert .tgGroupHistory historyCols)
    [.int groupId, d.chatUsername, d.chatTitle, (self.u.map (·.link)).getD .null,
      (self.u.map (·.photo)).getD .null, .str self.dateTime])
  let historyId ← perform .lastInsertId
  pure { self with historyId := some historyId }

def selectCols : List Col := [.id, .username, .name, .link, .photo, .msgCount]

/-- The two branches of `resolveGroupInternal`: a stored group, or a new one. -/
def resolveRow (self : Group) (d : Data) : Option (Col → Php) → Run (Group × GroupInfo)
  | some row => do
    let self ← trackGroupUpdate self d row
    let u : GroupInfo := ⟨row .id, row .link, row .photo, row .msgCount⟩
    pure ({ self with u := some u }, u)
  | none => do
    let (self, groupId) ← insertGroup self d
    let u : GroupInfo := ⟨.int groupId, .null, .null, .int 0⟩
    pure ({ self with u := some u, hasInsertAct := true }, u)

def recordHistory (d : Data) : Group × GroupInfo → Run (Group × GroupInfo)
  | (self, u) =>
    if self.needHistory then do
      let self ← createGroupHistory self d u.id
      pure (self, u)
    else pure (self, u)

def resolveGroupInternal (self : Group) (d : Data) : Run (Group × GroupInfo) := do
  let row ← perform (.fetch .tgGroups selectCols .tgGroupId d.chatId)
  let r ← resolveRow self d row
  recordHistory d r

def groupMutex (d : Data) : Mutex := Mutex.new "tg_groups" d.chatId.toStr

def resolveGroup (self : Group) : Run (Group × GroupInfo) :=
  match self.data with
  | none => .throw uninitialised
  | some d =>
    (groupMutex d).scoped do
      perform (.lock (groupMutex d))
      let ret ← catchException
        (do
          perform .beginTransaction
          let ret ← resolveGroupInternal self d
          perform .commit
          pure ret)
        fun e => do
          perform .rollback
          perform (.unlock (groupMutex d))
          .throw e
      perform (.unlock (groupMutex d))
      pure ret

/-! ## The group photo -/

def savePhoto (self : Group) (d : Data) (u : GroupInfo) : Option Nat → Run Unit
  | none => pure ()
  | some fileId =>
    if u.photo ≠ .int fileId then
      match self.historyId with
      | none => do
        perform (.execute (.update .tgGroups [.assign .photo] .id) [.int fileId, u.id])
        let _ ← createGroupHistory self d u.id
        pure ()
      | some historyId =>
        perform (.execute (.updateJoin .tgGroups .tgGroupHistory .groupId .photo)
          [.int fileId, .int fileId, .int historyId])
    else pure ()

def refreshPhoto (md5 : String → String) (self : Group) (d : Data) (u : GroupInfo) : Run Unit := do
  let j ← perform (.exe (.getChat d.chatId))
  let photo := ((j.get (.str "result")).get (.str "photo")).get (.str "big_file_id")
  if photo.isset then
    let tgFileId ← strArg photo
    let fileId ← File.resolveFile md5 tgFileId self.dateTime
    savePhoto self d u fileId
  else pure ()

def rowMutex (u : GroupInfo) : Mutex := Mutex.new "tg_groups" ("id_" ++ u.id.toStr)

def trackPhoto (md5 : String → String) (self : Group) : Run Unit :=
  match self.u, self.data with
  | some u, some d =>
    (rowMutex u).scoped do
      perform (.lock (rowMutex u))
      refreshPhoto md5 self d u
      perform (.unlock (rowMutex u))
  | _, _ => .throw (.error "Error" "$this->u has not been set!")

/-! ## The administrators -/

/-- `unset($info["status"], $info["user"])`, encoded unless nothing is left. Only an
array gets here: anything else has already failed as a user's `Data`. -/
def adminInfo : Php → Php
  | .arr entries =>
    match (entries.erase (.str "status")).erase (.str "user") with
    | .nil => .null
    | rest => .str (Php.arr rest).jsonEncode
  | v => v

def adminUser (md5 : String → String) (k : Key) (v : Php) (chan : Nat) (dateTime : String) : Run Unit := do
  perform .connect
  let d ← Prog.ofExcept (Data.constructUserData (v.read "user"))
  let (user, u) ← User.resolveUser { data := some d, dateTime := dateTime }
  perform (.push chan ⟨k, u.id, v.read "status", adminInfo v⟩)
  User.trackPhoto md5 user

def startAll (chan : Nat) (dateTime : String) : PhpArray → Run Unit
  | .nil => pure ()
  | .cons k v rest => do
    perform (.go (.adminUser k v chan dateTime))
    startAll chan dateTime rest

def popAll (chan : Nat) : Nat → Run (List AdminRow)
  | 0 => pure []
  | n + 1 => do
    let row ← perform (.pop chan)
    let rows ← popAll chan n
    pure (row :: rows)

def adminCols : List Col := [.userId, .groupId, .role, .info, .createdAt]

/-- `(:user_id_k, :group_id, :role_k, :info_k, :created_at)` -/
def AdminRow.placeholders (r : AdminRow) : List String :=
  [":user_id_" ++ r.k.text, ":group_id", ":role_" ++ r.k.text, ":info_" ++ r.k.text, ":created_at"]

def AdminRow.params (r : AdminRow) : List (String × Php) :=
  [(":user_id_" ++ r.k.text, r.userId), (":role_" ++ r.k.text, r.role),
    (":info_" ++ r.k.text, r.info)]

def replaceAdmins (u : GroupInfo) (dateTime : String) (rows : List AdminRow) : Run Unit := do
  perform (.execute (.delete .tgGroupAdmins .groupId) [u.id])
  if rows = [] then pure ()
  else
    perform (.executeNamed .tgGroupAdmins adminCols (rows.map AdminRow.placeholders)
      (rows.flatMap AdminRow.params ++ [(":group_id", u.id), (":created_at", .str dateTime)]))

def refreshAdmins (self : Group) (d : Data) (u : GroupInfo) : Run Unit := do
  let j ← perform (.exe (.getChatAdministrators d.chatId))
  match j.get (.str "result") with
  | .arr admins => do
    let chan ← perform (.newChannel admins.values.length)
    startAll chan self.dateTime admins
    let rows ← popAll chan admins.values.length
    replaceAdmins u self.dateTime rows
  | _ => pure ()

def adminsMutex (u : GroupInfo) : Mutex := Mutex.new "tg_group_admins" u.id.toStr

def trackAdmins (self : Group) : Run Unit :=
  match self.u, self.data with
  | some u, some d =>
    (adminsMutex u).scoped do
      perform (.lock (adminsMutex u))
      refreshAdmins self d u
      perform (.unlock (adminsMutex u))
  | _, _ => .throw (.error "Error" "$this->u has not been set!")

end TeaBot.Loggers.Group
