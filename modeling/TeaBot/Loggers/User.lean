import TeaBot.Loggers.File

/-! # `LoggerUtils\User`

`resolveUser` keeps `tg_users` and `tg_user_history` in one transaction under the
mutex of the Telegram id; `trackPhoto` works in autocommit under the mutex of the row.
-/

namespace TeaBot.Loggers.User

open Foundation Foundation.Sql

def uninitialised : Throwable :=
  .error "Error" "Typed property TeaBot\\Telegram\\LoggerUtils\\User::$data must not be accessed before initialization"

/-- The three field checks of `trackUserUpdate`. -/
def updateQuery (u : Col → Php) (d : Data) : UpdateQuery :=
  ((({} : UpdateQuery).track .username (u .username) d.username).track
    .firstName (u .firstName) d.firstName).track .lastName (u .lastName) d.lastName

def trackUserUpdate (self : User) (d : Data) (u : Col → Php) : Run User :=
  if (updateQuery u d).doUpdate then do
    perform ((updateQuery u d).finish .tgUsers self.dateTime (u .id))
    pure { self with needHistory := true }
  else pure self

def insertCols : List Col :=
  [.tgUserId, .username, .firstName, .lastName, .groupMsgCount, .privateMsgCount, .isBot, .createdAt]

def insertUser (self : User) (d : Data) : Run (User × Nat) := do
  perform (.execute (.insert .tgUsers insertCols)
    [d.userId, d.username, d.firstName, d.lastName, .int 0, .int 0,
      .int (if d.isBot.truthy then 1 else 0), .str self.dateTime])
  let userId ← perform .lastInsertId
  pure ({ self with needHistory := true }, userId)

def historyCols : List Col := [.userId, .username, .firstName, .lastName, .photo, .createdAt]

def createUserHistory (self : User) (d : Data) (userId : Php) : Run User := do
  let userId ← intArg userId
  perform (.execute (.insert .tgUserHistory historyCols)
    [.int userId, d.username, d.firstName, d.lastName, (self.u.map (·.photo)).getD .null,
      .str self.dateTime])
  let historyId ← perform .lastInsertId
  pure { self with historyId := some historyId }

def selectCols : List Col :=
  [.id, .username, .firstName, .lastName, .photo, .groupMsgCount, .privateMsgCount]

/-- The two branches of `resolveUserInternal`: a stored user, or a new one. -/
def resolveRow (self : User) (d : Data) : Option (Col → Php) → Run (User × UserInfo)
  | some row => do
    let self ← trackUserUpdate self d row
    let u : UserInfo := ⟨row .id, row .photo, row .groupMsgCount, row .privateMsgCount⟩
    pure ({ self with u := some u }, u)
  | none => do
    let (self, userId) ← insertUser self d
    let u : UserInfo := ⟨.int userId, .null, .int 0, .int 0⟩
    pure ({ self with u := some u, hasInsertAct := true }, u)

def recordHistory (d : Data) : User × UserInfo → Run (User × UserInfo)
  | (self, u) =>
    if self.needHistory then do
      let self ← createUserHistory self d u.id
      pure (self, u)
    else pure (self, u)

def resolveUserInternal (self : User) (d : Data) : Run (User × UserInfo) := do
  let row ← perform (.fetch .tgUsers selectCols .tgUserId d.userId)
  let r ← resolveRow self d row
  recordHistory d r

def userMutex (d : Data) : Mutex := Mutex.new "tg_users" d.userId.toStr

def resolveUser (self : User) : Run (User × UserInfo) :=
  match self.data with
  | none => .throw uninitialised
  | some d =>
    (userMutex d).scoped do
      perform (.lock (userMutex d))
      let ret ← catchException
        (do
          perform .beginTransaction
          let ret ← resolveUserInternal self d
          perform .commit
          pure ret)
        fun e => do
          perform .rollback
          perform (.unlock (userMutex d))
          .throw e
      perform (.unlock (userMutex d))
      pure ret

/-! ## The profile photo -/

def area (p : Php) : Except Throwable Rat :=
  match p.read "width", p.read "height" with
  | .arr _, _ => .error (.error "Error" "Unsupported operand types")
  | _, .arr _ => .error (.error "Error" "Unsupported operand types")
  | w, h => .ok (File.number w * File.number h)

/-- `usort` by falling area and then `$photo[0]`; a single entry is not compared. -/
def highestResolution : List Php → Except Throwable Php
  | [] => .ok .null
  | [p] => .ok p
  | p :: rest => do
    let best ← highestResolution rest
    let a ← area p
    let b ← area best
    pure (if b ≤ a then p else best)

/-- The `file_id` of the highest resolution, `null` when there is none to take. -/
def profilePhoto (j : Php) : Except Throwable Php :=
  match ((j.get (.str "result")).get (.str "photos")).get (.int 0) with
  | .arr sizes => do
    let photo ← highestResolution sizes.values
    pure (photo.get (.str "file_id"))
  | _ => .ok .null

def savePhoto (self : User) (d : Data) (u : UserInfo) : Option Nat → Run Unit
  | none => pure ()
  | some fileId =>
    if u.photo ≠ .int fileId then
      match self.historyId with
      | none => do
        perform (.execute (.update .tgUsers [.assign .photo] .id) [.int fileId, u.id])
        let _ ← createUserHistory self d u.id
        pure ()
      | some historyId =>
        perform (.execute (.updateJoin .tgUsers .tgUserHistory .userId .photo)
          [.int fileId, .int fileId, .int historyId])
    else pure ()

def refreshPhoto (md5 : String → String) (self : User) (d : Data) (u : UserInfo) : Run Unit := do
  let j ← perform (.exe (.getUserProfilePhotos d.userId))
  let photo ← Prog.ofExcept (profilePhoto j)
  if photo.isset then
    let tgFileId ← strArg photo
    let fileId ← File.resolveFile md5 tgFileId self.dateTime
    savePhoto self d u fileId
  else pure ()

def rowMutex (u : UserInfo) : Mutex := Mutex.new "tg_users" ("id_" ++ u.id.toStr)

def trackPhoto (md5 : String → String) (self : User) : Run Unit :=
  match self.u, self.data with
  | some u, some d =>
    (rowMutex u).scoped do
      perform (.lock (rowMutex u))
      refreshPhoto md5 self d u
      perform (.unlock (rowMutex u))
  | _, _ => .throw (.error "Error" "$this->u has not been set!")

end TeaBot.Loggers.User
