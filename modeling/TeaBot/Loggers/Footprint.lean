import TeaBot.Loggers.Logger

/-! # What the parts of the loggers touch

The tables an operation writes to, and the parts of the code that neither lock nor use a
channel and write to a few tables only.
-/

namespace TeaBot.Loggers

open Foundation Foundation.Sql

/-- Neither a lock nor the administrators' channel is concerned. -/
def Op.plain : Op → Bool
  | .lock _ | .unlock _ | .fclose _ | .newChannel _ | .push .. | .pop _ => false
  | .go (.adminUser ..) => false
  | _ => true

abbrev Plain (o : Op) : Prop := o.plain = true

/-- The tables an operation writes to. -/
def Op.targets : Op → List Tbl
  | .execute stmt _ => stmt.tables
  | .executeNamed tb .. => [tb]
  | _ => []

/-- Statements on the given tables and what needs no database. -/
def Op.confined (ts : List Tbl) : Op → Bool
  | .lock _ | .unlock _ | .fclose _ | .newChannel _ | .push .. | .pop _ | .go _ => false
  | .beginTransaction | .commit | .rollback => false
  | o => o.targets.all (· ∈ ts)

abbrev Confined (ts : List Tbl) (o : Op) : Prop := o.confined ts = true

theorem Confined.plain {ts : List Tbl} {o : Op} (h : Confined ts o) : Plain o := by
  cases o <;> first | rfl | cases h

/-- What needs no database at all. -/
def Op.offline : Op → Bool
  | .exe _ | .errorLog _ | .download .. | .filesize .. | .md5File _ | .sha1File _ | .mimeContentType _ | .rename .. => true
  | _ => false

abbrev Offline (o : Op) : Prop := o.offline = true

theorem Offline.confined {ts : List Tbl} {o : Op} (h : Offline o) : Confined ts o := by
  cases o <;> first | rfl | cases h

theorem inTransaction_uses {α : Type} {P : Op → Prop} {m : Mutex} {body : Run α}
    (hMutex : P (.lock m) ∧ P (.unlock m) ∧ P (.fclose m)) (hTx : P .beginTransaction ∧ P .commit ∧ P .rollback)
    (h : body.Uses P) : (inTransaction m body).Uses P := by
  obtain ⟨hLock, hUnlock, hClose⟩ := hMutex
  obtain ⟨hBegin, hCommit, hRollback⟩ := hTx
  refine .tryFinally (.bind (.perform hLock) fun _ => .bind (.tryCatch ?_ fun e => ?_) fun _ =>
    .bind (.perform hUnlock) fun _ => trivial) (.perform hClose)
  · exact .bind (.perform hBegin) fun _ => .bind h fun _ => .bind (.perform hCommit) fun _ => trivial
  · split
    · exact .bind (.perform hRollback) fun _ => .bind (.perform hUnlock) fun _ => trivial
    · trivial

theorem User.createUserHistory_confined (self : User) (d : Data) (id : Php) :
    (User.createUserHistory self d id).Uses (Confined [.tgUsers, .tgUserHistory]) :=
  .bind (intArg_uses id) fun _ => .bind (.perform rfl) fun _ => .bind (.perform rfl) fun _ => trivial

theorem Group.createGroupHistory_confined (self : Group) (d : Data) (id : Php) :
    (Group.createGroupHistory self d id).Uses (Confined [.tgGroups, .tgGroupHistory]) :=
  .bind (intArg_uses id) fun _ => .bind (.perform rfl) fun _ => .bind (.perform rfl) fun _ => trivial

theorem User.resolveUserInternal_confined (self : User) (d : Data) :
    (User.resolveUserInternal self d).Uses (Confined [.tgUsers, .tgUserHistory]) := by
  refine .bind (.perform rfl) fun row => .bind ?_ fun ⟨self, u⟩ => ?_
  · cases row with
    | some row =>
      refine .bind ?_ fun _ => trivial
      unfold User.trackUserUpdate
      split
      · exact .bind (.perform rfl) fun _ => trivial
      · trivial
    | none => exact .bind (.bind (.perform rfl) fun _ => .bind (.perform rfl) fun _ => trivial) fun _ => trivial
  · simp only [User.recordHistory]
    split
    · exact .bind (User.createUserHistory_confined self d u.id) fun _ => trivial
    · trivial

theorem Group.resolveGroupInternal_confined (self : Group) (d : Data) :
    (Group.resolveGroupInternal self d).Uses (Confined [.tgGroups, .tgGroupHistory]) := by
  refine .bind (.perform rfl) fun row => .bind ?_ fun ⟨self, u⟩ => ?_
  · cases row with
    | some row =>
      refine .bind ?_ fun _ => trivial
      unfold Group.trackGroupUpdate
      split
      · exact .bind (.perform rfl) fun _ => trivial
      · trivial
    | none => exact .bind (.bind (.perform rfl) fun _ => .bind (.perform rfl) fun _ => trivial) fun _ => trivial
  · simp only [Group.recordHistory]
    split
    · exact .bind (Group.createGroupHistory_confined self d u.id) fun _ => trivial
    · trivial

theorem File.attempt_offline (j : Php) (tmpFile : String) (stat : Option Nat) :
    (File.attempt j tmpFile stat).Uses Offline := by
  refine .bind (.tryCatch (.perform rfl) fun e => ?_) fun success => ?_
  · split <;> trivial
  · split
    · exact .bind (.perform rfl) fun _ => trivial
    · trivial

theorem File.store_offline (j : Php) (ext : Option String) (tmpFile : String) : (File.store j ext tmpFile).Uses Offline := by
  refine .bind (.perform rfl) fun _ => .bind (.perform rfl) fun _ => .bind (.perform rfl) fun moved => ?_
  split
  · trivial
  · refine .bind (.perform rfl) fun kept => ?_
    split <;> trivial

theorem File.downloadFrom_offline (j : Php) (ext : Option String) (tmpFile : String) (fuel downTry : Nat)
    (stat : Option Nat) : (File.downloadFrom j ext tmpFile fuel downTry stat).Uses Offline := by
  induction fuel generalizing downTry stat with
  | zero => trivial
  | succ fuel ih =>
    refine .bind (File.attempt_offline j tmpFile stat) fun ⟨complete, stat⟩ => ?_
    dsimp only
    split
    · exact File.store_offline j ext tmpFile
    · split
      · trivial
      · exact ih (downTry + 1) stat

theorem File.downloadFile_offline (tgFileId uniqId : String) : (File.downloadFile tgFileId uniqId).Uses Offline := by
  refine .bind (.perform rfl) fun answer => ?_
  dsimp only
  split
  · exact File.downloadFrom_offline _ _ _ _ _ _
  · trivial

theorem File.resolveOrDownload_confined (tgFileId uniqId dateTime : String) :
    (File.resolveOrDownload tgFileId uniqId dateTime).Uses (Confined [.tgFiles]) := by
  refine .bind (.perform rfl) fun row => ?_
  cases row with
  | some u => trivial
  | none =>
    refine .bind ((File.downloadFile_offline tgFileId uniqId).mono fun _ => Offline.confined) fun found => ?_
    cases found with
    | none => trivial
    | some u =>
      refine .bind (.bind (.perform rfl) fun _ => ?_) fun _ => trivial
      exact .bind (.perform rfl) fun _ => .perform rfl

theorem User.savePhoto_confined (self : User) (d : Data) (u : UserInfo) (fileId : Option Nat) :
    (User.savePhoto self d u fileId).Uses (Confined [.tgUsers, .tgUserHistory]) := by
  cases fileId with
  | none => trivial
  | some fileId =>
    simp only [User.savePhoto]
    split
    · split
      · exact .bind (.perform rfl) fun _ => .bind (User.createUserHistory_confined self d u.id) fun _ => trivial
      · exact .perform rfl
    · trivial

theorem Group.savePhoto_confined (self : Group) (d : Data) (u : GroupInfo) (fileId : Option Nat) :
    (Group.savePhoto self d u fileId).Uses (Confined [.tgGroups, .tgGroupHistory]) := by
  cases fileId with
  | none => trivial
  | some fileId =>
    simp only [Group.savePhoto]
    split
    · split
      · exact .bind (.perform rfl) fun _ => .bind (Group.createGroupHistory_confined self d u.id) fun _ => trivial
      · exact .perform rfl
    · trivial

end TeaBot.Loggers
