import TeaBot.Foundation.History
import TeaBot.Loggers.Footprint
import TeaBot.Loggers.UserCalls

/-! # Text updates through `Logger::run`

What becomes of one text update of a private chat or a supergroup, from any sound state
and with a database that does not fail.
-/

namespace TeaBot.Loggers.Accounting

open Foundation Foundation.Sql GroupTitle UserCalls

/-! ## Updates -/

structure Sender where
  id : Nat
  firstName : String
  lastName : Option String
  username : Option String

inductive ChatKind
  | direct
  | supergroup (title : String)

def ChatKind.type : ChatKind → String
  | .direct => "private"
  | .supergroup _ => "supergroup"

structure Chat where
  id : Int
  kind : ChatKind
  username : Option String

def messageOf (input : Php) : Php := Data.coalesce (input.get (.str "message")) (input.get (.str "edited_message"))

/-- An update whose message has a text, with the parts of `from` and `chat` that Telegram
always sends. Whatever else it contains is left open. -/
structure TextUpdate where
  input : Php
  sender : Sender
  chat : Chat
  updateId : (input.get (.str "update_id")).isset = true
  text : ((messageOf input).get (.str "text")).isset = true
  senderId : ((messageOf input).get (.str "from")).get (.str "id") = .int sender.id
  firstName : ((messageOf input).get (.str "from")).get (.str "first_name") = .str sender.firstName
  lastName : ((messageOf input).get (.str "from")).get (.str "last_name") = .ofOption sender.lastName
  username : ((messageOf input).get (.str "from")).get (.str "username") = .ofOption sender.username
  chatId : ((messageOf input).get (.str "chat")).get (.str "id") = .int chat.id
  chatType : ((messageOf input).get (.str "chat")).get (.str "type") = .str chat.kind.type
  title : ∀ s, chat.kind = .supergroup s → ((messageOf input).get (.str "chat")).get (.str "title") = .str s
  chatUsername : ((messageOf input).get (.str "chat")).get (.str "username") = .ofOption chat.username

variable {title : String}

namespace TextUpdate

variable (u : TextUpdate)

def data : Data := Data.constructGeneralInput u.input

def userCall (dateTime : String) : UserCall :=
  ⟨u.sender.id, u.sender.username, u.sender.firstName, u.sender.lastName, dateTime⟩

def groupCall (title dateTime : String) : GroupCall := ⟨u.chat.id, u.chat.username, some title, dateTime⟩

theorem read_eq_get {v : Php} {k : String} (hSet : (v.get (.str k)).isset = true) (k' : String) :
    v.read k' = v.get (.str k') := by
  cases v with
  | str s => cases hSet
  | _ => rfl

theorem data_eq : u.data = Data.buildGeneralMsg (messageOf u.input) u.input := by
  have hSome : ((u.input.get (.str "message")).isset || (u.input.get (.str "edited_message")).isset) = true := by
    by_contra hNone
    simp only [Bool.or_eq_true, not_or, Bool.not_eq_true] at hNone
    have hMessage : messageOf u.input = .null := by
      rw [messageOf, Data.coalesce, hNone.1, if_neg Bool.false_ne_true]
      simpa [Php.isset] using hNone.2
    have hText := u.text
    rw [hMessage] at hText
    cases hText
  rw [data, Data.constructGeneralInput, u.updateId, hSome]
  rfl

theorem msgType_eq : u.data.msgType = .str "text" := by
  have hType : Data.msgTypeOf (messageOf u.input) = "text" := if_pos u.text
  rw [data_eq]
  exact congrArg Php.str hType

theorem sender_read (k : String) :
    ((messageOf u.input).read "from").read k = ((messageOf u.input).get (.str "from")).get (.str k) := by
  have hId : (((messageOf u.input).get (.str "from")).get (.str "id")).isset = true := by
    rw [u.senderId]
    rfl
  rw [read_eq_get u.text, read_eq_get hId]

theorem chat_read (k : String) :
    ((messageOf u.input).read "chat").read k = ((messageOf u.input).get (.str "chat")).get (.str k) := by
  have hId : (((messageOf u.input).get (.str "chat")).get (.str "id")).isset = true := by
    rw [u.chatId]
    rfl
  rw [read_eq_get u.text, read_eq_get hId]

theorem chatType_eq : u.data.chatType = .str u.chat.kind.type := by
  rw [data_eq]
  exact (u.chat_read "type").trans u.chatType

theorem reads_user (dateTime : String) : (u.userCall dateTime).Reads u.data := by
  rw [data_eq]
  exact ⟨(u.sender_read "id").trans u.senderId, u.username, (u.sender_read "first_name").trans u.firstName, u.lastName⟩

theorem reads_group (hKind : u.chat.kind = .supergroup title) (dateTime : String) :
    (u.groupCall title dateTime).Reads u.data := by
  rw [data_eq]
  refine ⟨(u.chat_read "id").trans u.chatId, u.chatUsername, ?_⟩
  change Data.coalesce (((messageOf u.input).get (.str "chat")).get (.str "title")) _ = _
  rw [u.title title hKind]
  rfl

theorem run_direct (hKind : u.chat.kind = .direct) (dateTime : String) :
    Logger.run u.data dateTime = PrivateLogger.run dateTime := by
  rw [Logger.run, u.msgType_eq, u.chatType_eq, hKind]
  rfl

theorem run_supergroup (hKind : u.chat.kind = .supergroup title) (dateTime : String) :
    Logger.run u.data dateTime = GroupLogger.run u.data dateTime := by
  rw [Logger.run, u.msgType_eq, u.chatType_eq, hKind]
  rfl

end TextUpdate

/-! ## The two calls -/

section Calls

variable {h : Hashes} {j : Job} {w w' : World} {log : List (Write Tbl Col)}

variable {d : Data} {a : User × UserInfo}

theorem user_frame {c : UserCall} (hWrote : UserCalls.Wrote w c d a log) {tb : Tbl} (hUsers : tb ≠ .tgUsers)
    (hHistory : tb ≠ .tgUserHistory) : schema.applyAll log w.db tb = w.db tb := by
  refine schema.applyAll_of_ne (fun x hx => ?_) w.db
  have hTables : x.table = .tgUsers ∨ x.table = .tgUserHistory := by
    cases hWrote with
    | same => cases hx
    | inserted | updated => rcases List.mem_pair.mp hx with rfl | rfl <;> simp [Write.table]
  rcases hTables with hEq | hEq <;> rw [hEq]
  exacts [hUsers.symm, hHistory.symm]

variable {c : GroupCall}

theorem group_frame {a : Group × GroupInfo} (hWrote : GroupTitle.Wrote w c d a log) {tb : Tbl}
    (hGroups : tb ≠ .tgGroups) (hHistory : tb ≠ .tgGroupHistory) : schema.applyAll log w.db tb = w.db tb := by
  refine schema.applyAll_of_ne (fun x hx => ?_) w.db
  have hTables : x.table = .tgGroups ∨ x.table = .tgGroupHistory := by
    cases hWrote with
    | same => cases hx
    | inserted | updated => rcases List.mem_pair.mp hx with rfl | rfl <;> simp [Write.table]
  rcases hTables with hEq | hEq <;> rw [hEq]
  exacts [hGroups.symm, hHistory.symm]

theorem user_stored {c : UserCall} (hWrote : UserCalls.Wrote w c d a log) :
    ∃ r ∈ schema.applyAll log w.db .tgUsers, r .tgUserId = .int c.userId ∧ .ofRow r = c.identity := by
  cases hWrote with
  | same hMem hOwner hId hIdentity => exact ⟨_, hMem, hOwner, hIdentity⟩
  | inserted hNew hRow => exact ⟨_, by simp [Schema.apply], hRow.owner, hRow.identity⟩
  | updated hMem hOwner hId hSets hIdentity =>
    refine ⟨_, ?_, ?_, hIdentity⟩
    · rw [Schema.applyAll_cons, Schema.applyAll_cons, Schema.applyAll_nil]
      exact mem_apply_insert.mpr (.inl (mem_updated hMem hId _))
    · rw [Row.set, hSets .tgUserId (by decide), Option.getD_none, hOwner]

theorem group_stored {a : Group × GroupInfo} (hWrote : GroupTitle.Wrote w c d a log) :
    ∃ r ∈ schema.applyAll log w.db .tgGroups, r .tgGroupId = .int c.chatId ∧ .ofRow r = c.identity := by
  cases hWrote with
  | same hMem hOwner hId hIdentity => exact ⟨_, hMem, hOwner, hIdentity⟩
  | inserted hNew hRow => exact ⟨_, by simp [Schema.apply], hRow.owner, hRow.identity⟩
  | @updated _ _ r _ k hMem hOwner hId hName =>
    refine ⟨r.set (updateSets c c.dateTime), ?_, hOwner, congrArg (GroupIdentity.mk c.identity.username) hName⟩
    rw [Schema.applyAll_cons, Schema.applyAll_cons, Schema.applyAll_nil]
    exact mem_apply_insert.mpr (.inl (mem_updated hMem hId _))

theorem other_users {c : UserCall} (hWrote : UserCalls.Wrote w c d a log) (hValid : schema.Valid w.db w.next) {n : Int}
    (hn : n ≠ c.userId) {P : Identity → Prop} :
    (∃ r ∈ schema.applyAll log w.db .tgUsers, r .tgUserId = .int n ∧ P (.ofRow r)) ↔
      ∃ r ∈ w.db .tgUsers, r .tgUserId = .int n ∧ P (.ofRow r) := by
  cases hWrote with
  | same => rfl
  | @inserted _ _ row _ hNew hRow =>
    have hOther : row .tgUserId ≠ .int n := fun hEq => hn (Value.int.inj (hEq.symm.trans hRow.owner))
    simp [Schema.apply, or_and_right, exists_or, hOther]
  | @updated _ _ row version k sets hMem hOwner hId hSets =>
    have hOwners : ∀ r ∈ w.db .tgUsers, schema.matches .tgUsers .id (.str (toString k)) r = true →
        r .tgUserId ≠ .int n := by
      intro r hr hMatch hOwner'
      have hEq := hValid.eq_of_id hr hMem (((matches_id .tgUsers (asInt_toString k) r).mp hMatch).trans hId.symm)
      exact hn (Value.int.inj (hOwner'.symm.trans (hEq ▸ hOwner)))
    have hRows : schema.applyAll [.update .tgUsers .id (.str (toString k)) sets, .insert .tgUserHistory version] w.db
        .tgUsers = (w.db .tgUsers).map fun r =>
          if schema.matches .tgUsers .id (.str (toString k)) r = true then r.set sets else r := by
      simp [Schema.apply]
    simp only [hRows, List.mem_map, exists_exists_and_eq_and]
    refine exists_congr fun r => and_congr_right fun hr => ?_
    split
    · rename_i hMatch
      have hKept : r.set sets .tgUserId = r .tgUserId := by rw [Row.set, hSets .tgUserId (by decide), Option.getD_none]
      rw [hKept]
      simp [hOwners r hr hMatch]
    · rfl

/-! ## What is started -/

def refresh (x : Event Op Op.Res Throwable) : Option Job :=
  match x.op with
  | .go (.groupTrackPhoto self) => some (.groupTrackPhoto self)
  | .go (.trackAdmins self) => some (.trackAdmins self)
  | _ => none

abbrev StartsNothing (o : Op) : Prop := ∀ job, o ≠ .go job

theorem Confined.startsNothing {ts : List Tbl} {o : Op} (h : Confined ts o) : StartsNothing o := by
  rintro job rfl
  cases h

variable {α : Type}

theorem inTransaction_startsNothing {m : Mutex} {body : Run α} (h : body.Uses StartsNothing) :
    (inTransaction m body).Uses StartsNothing :=
  inTransaction_uses (by simp [StartsNothing]) (by simp [StartsNothing]) h

theorem refresh_nothing {p : Run α} (hUses : p.Uses StartsNothing) (h : Hashes) (j : Job) (w : World) :
    (p.record (serve h j) w).filterMap refresh = [] := by
  refine List.filterMap_eq_nil_iff.mpr fun x hx => ?_
  have hNothing := hUses.record w x hx
  obtain ⟨o, r⟩ := x
  cases o with
  | go job => exact absurd rfl (hNothing job)
  | _ => rfl

theorem resolveUser_startsNothing (d : Data) (dateTime : String) :
    (User.resolveUser (UserCalls.fresh d dateTime)).Uses StartsNothing :=
  inTransaction_startsNothing ((User.resolveUserInternal_confined _ d).mono fun _ => Confined.startsNothing)

theorem resolveGroup_startsNothing (d : Data) (dateTime : String) :
    (Group.resolveGroup (GroupTitle.fresh d dateTime)).Uses StartsNothing :=
  inTransaction_startsNothing ((Group.resolveGroupInternal_confined _ d).mono fun _ => Confined.startsNothing)

def refreshes (h : Hashes) (j : Job) (p : Run Unit) (w : World) : List Job :=
  (p.record (serve h j) w).filterMap refresh

theorem refreshes_bind_ok {q : Run α} {f : α → Run Unit} {a : α} (hEval : q.eval (serve h j) w = (.ok a, w'))
    (hNone : (q.record (serve h j) w).filterMap refresh = []) :
    refreshes h j (q.bind f) w = refreshes h j (f a) w' := by
  rw [refreshes, Prog.record_bind_ok hEval, List.filterMap_append, hNone]
  rfl

theorem refreshes_bind_error {q : Run α} {f : α → Run Unit} {e : Throwable}
    (hEval : q.eval (serve h j) w = (.error e, w')) (hNone : (q.record (serve h j) w).filterMap refresh = []) :
    refreshes h j (q.bind f) w = [] := by
  rw [refreshes, Prog.record_bind_error hEval, hNone]

def refreshUser : User × UserInfo → Run Unit
  | (user, userII) => Prog.when (everyTenth userII.privateMsgCount) (perform (.go (.userTrackPhoto user)))

def refreshGroup : Group × GroupInfo → Run Unit
  | (group, groupII) => Prog.when (everyTenth groupII.msgCount) do
    perform (.go (.groupTrackPhoto group))
    perform (.go (.trackAdmins group))

def groupPart (d : Data) (dateTime : String) : Run Unit :=
  (Group.resolveGroup (GroupTitle.fresh d dateTime)).bind refreshGroup

theorem groupLogger_eq (d : Data) (dateTime : String) :
    GroupLogger.run d dateTime = (perform .connect).bind fun _ =>
      (User.resolveUser (UserCalls.fresh d dateTime)).bind fun a =>
        (refreshUser a).bind fun _ => groupPart d dateTime := rfl

theorem eval_refreshUser (a : User × UserInfo) : (refreshUser a).eval (serve h j) w = (.ok (), w) ∧
    ((refreshUser a).record (serve h j) w).filterMap refresh = [] := by
  obtain ⟨user, userII⟩ := a
  simp only [refreshUser, Prog.when]
  split <;> exact ⟨rfl, rfl⟩

theorem eval_refreshGroup (a : Group × GroupInfo) : (refreshGroup a).eval (serve h j) w = (.ok (), w) ∧
    refreshes h j (refreshGroup a) w =
      if everyTenth a.2.msgCount then [.groupTrackPhoto a.1, .trackAdmins a.1] else [] := by
  obtain ⟨group, groupII⟩ := a
  simp only [refreshes, refreshGroup, Prog.when]
  split <;> exact ⟨rfl, rfl⟩

variable {dateTime : String}

theorem groupPart_cases (hSteady : Steady w) (hReads : c.Reads d) (hDate : c.dateTime = dateTime) (h : Hashes)
    (j : Job) :
    (GroupTitle.Accepted w c ∧ ∃ a log w', (groupPart d dateTime).eval (serve h j) w = (.ok (), w') ∧ Steady w' ∧
      w'.db = schema.applyAll log w.db ∧ GroupTitle.Wrote w c d a log ∧
      refreshes h j (groupPart d dateTime) w =
        if everyTenth a.2.msgCount then [.groupTrackPhoto a.1, .trackAdmins a.1] else []) ∨
    (¬ GroupTitle.Accepted w c ∧ ∃ e w', (groupPart d dateTime).eval (serve h j) w = (.error e, w') ∧ Steady w' ∧
      w'.db = w.db ∧ refreshes h j (groupPart d dateTime) w = []) := by
  subst hDate
  have hNone := refresh_nothing (resolveGroup_startsNothing d c.dateTime) h j w
  rcases GroupTitle.resolveGroup_cases hSteady hReads h j with
    ⟨hAccepted, a, log, w', hEval, hSteady', hDb, hWrote⟩ | ⟨hNot, e, w', hEval, hSteady', hDb⟩
  · obtain ⟨hOk, hStarts⟩ := eval_refreshGroup (h := h) (j := j) (w := w') a
    exact .inl ⟨hAccepted, a, log, w', (Prog.eval_bind_ok hEval).trans hOk, hSteady', hDb, hWrote,
      (refreshes_bind_ok hEval hNone).trans hStarts⟩
  · exact .inr ⟨hNot, e, w', Prog.eval_bind_error hEval, hSteady', hDb, refreshes_bind_error hEval hNone⟩

/-- The user's half comes first: it is refused, or its writes are committed and the rest is
up to the group. -/
theorem groupLogger_parts (hSteady : Steady w) {cu : UserCall} (hUser : cu.Reads d) (hDate : cu.dateTime = dateTime)
    (h : Hashes) (j : Job) :
    (UserCalls.Accepted w cu ∧ ∃ a log w₁, Steady w₁ ∧ w₁.db = schema.applyAll log w.db ∧ UserCalls.Wrote w cu d a log ∧
      (GroupLogger.run d dateTime).eval (serve h j) w = (groupPart d dateTime).eval (serve h j) w₁ ∧
      refreshes h j (GroupLogger.run d dateTime) w = refreshes h j (groupPart d dateTime) w₁) ∨
    (¬ UserCalls.Accepted w cu ∧ ∃ e w₁, Steady w₁ ∧ w₁.db = w.db ∧
      (GroupLogger.run d dateTime).eval (serve h j) w = (.error e, w₁) ∧
      refreshes h j (GroupLogger.run d dateTime) w = []) := by
  subst hDate
  have hNone := refresh_nothing (resolveUser_startsNothing d cu.dateTime) h j w
  have hConnect : (perform .connect).eval (serve h j) w = (.ok (), w) := rfl
  rcases UserCalls.resolveUser_cases hSteady hUser h j with
    ⟨hAccepted, a, log, w₁, hEval, hSteady₁, hDb, hWrote⟩ | ⟨hNot, e, w₁, hEval, hSteady₁, hDb⟩
  · obtain ⟨hOk, hQuiet⟩ := eval_refreshUser (h := h) (j := j) (w := w₁) a
    refine .inl ⟨hAccepted, a, log, w₁, hSteady₁, hDb, hWrote, ?_, ?_⟩
    · rw [groupLogger_eq, Prog.eval_bind_ok hConnect, Prog.eval_bind_ok hEval, Prog.eval_bind_ok hOk]
    · rw [groupLogger_eq, refreshes_bind_ok hConnect rfl, refreshes_bind_ok hEval hNone, refreshes_bind_ok hOk hQuiet]
  · refine .inr ⟨hNot, e, w₁, hSteady₁, hDb, ?_, ?_⟩
    · rw [groupLogger_eq, Prog.eval_bind_ok hConnect, Prog.eval_bind_error hEval]
    · rw [groupLogger_eq, refreshes_bind_ok hConnect rfl, refreshes_bind_error hEval hNone]

theorem groupLogger_cases (hSteady : Steady w) {cu : UserCall} {cg : GroupCall} (hUser : cu.Reads d)
    (hGroup : cg.Reads d) (hUserDate : cu.dateTime = dateTime) (hGroupDate : cg.dateTime = dateTime) (h : Hashes)
    (j : Job) :
    ((UserCalls.Accepted w cu ∧ GroupTitle.Accepted w cg) ∧
      ∃ w', (GroupLogger.run d dateTime).eval (serve h j) w = (.ok (), w') ∧
        ∃ r ∈ w'.db .tgUsers, r .tgUserId = .int cu.userId ∧ .ofRow r = cu.identity) ∨
    (¬ (UserCalls.Accepted w cu ∧ GroupTitle.Accepted w cg) ∧
      ∃ e w', (GroupLogger.run d dateTime).eval (serve h j) w = (.error e, w')) := by
  rcases groupLogger_parts hSteady hUser hUserDate h j with
    ⟨hAccepted, ua, ulog, w₁, hSteady₁, hDb, hWrote, hRun, _⟩ | ⟨hNot, e, w₁, _, _, hRun, _⟩
  · have hGroups : w₁.db .tgGroups = w.db .tgGroups := by
      rw [hDb]
      exact user_frame hWrote (by decide) (by decide)
    have hSame : GroupTitle.Accepted w₁ cg ↔ GroupTitle.Accepted w cg := by
      simp only [GroupTitle.Accepted, groupsOf, hGroups]
    rw [hRun]
    rcases groupPart_cases hSteady₁ hGroup hGroupDate h j with
      ⟨hAccepted', a, log, w', hEval, _, hDb', hWrote', _⟩ | ⟨hNot, e, w', hEval, _⟩
    · refine .inl ⟨⟨hAccepted, hSame.mp hAccepted'⟩, w', hEval, ?_⟩
      rw [hDb', group_frame hWrote' (by decide) (by decide), hDb]
      exact user_stored hWrote
    · exact .inr ⟨fun hBoth => hNot (hSame.mpr hBoth.2), e, w', hEval⟩
  · exact .inr ⟨fun hBoth => hNot hBoth.1, e, w₁, hRun⟩

end Calls

/-! ## Accounting -/

/-- The update is one of a supergroup, and the tables take its sender and its group. -/
def TextUpdate.Accepted (u : TextUpdate) (dateTime : String) (w : World) : Prop :=
  ∃ title, u.chat.kind = .supergroup title ∧ UserCalls.Accepted w (u.userCall dateTime) ∧
    GroupTitle.Accepted w (u.groupCall title dateTime)

def TextUpdate.handle (h : Hashes) (u : TextUpdate) (dateTime : String) (w : World) : Except Throwable Unit × World :=
  (Logger.run u.data dateTime).eval (serve h (.groupLogger u.data dateTime)) w

def Accounted (u : TextUpdate) (w : World) : Prop :=
  ∃ r ∈ w.db .tgUsers, r .tgUserId = .int u.sender.id ∧ r .username = bindParam (.ofOption u.sender.username) ∧
    r .firstName = .str u.sender.firstName ∧ r .lastName = bindParam (.ofOption u.sender.lastName)

variable {u : TextUpdate}

/-- A private message throws: `PrivateLogger` never gives the user its data. -/
theorem handle_direct (hKind : u.chat.kind = .direct) (h : Hashes) (dateTime : String) (w : World) :
    u.handle h dateTime w = (.error User.uninitialised, w) := by
  rw [TextUpdate.handle, u.run_direct hKind]
  rfl

theorem handle_supergroup (hKind : u.chat.kind = .supergroup title) (h : Hashes) (dateTime : String) (w : World) :
    u.handle h dateTime w =
      (GroupLogger.run u.data dateTime).eval (serve h (.groupLogger u.data dateTime)) w := by
  rw [TextUpdate.handle, u.run_supergroup hKind]

theorem accepted_supergroup (hKind : u.chat.kind = .supergroup title) (dateTime : String) (w : World) :
    u.Accepted dateTime w ↔
      UserCalls.Accepted w (u.userCall dateTime) ∧ GroupTitle.Accepted w (u.groupCall title dateTime) := by
  refine ⟨?_, fun hBoth => ⟨title, hKind, hBoth⟩⟩
  rintro ⟨title', hKind', hBoth⟩
  cases hKind.symm.trans hKind'
  exact hBoth

/-- `Logger::run` accounts a text update to its sender exactly when the chat is a
supergroup and the tables accept the sender's fields and the group's. -/
theorem logger_accounts_iff (h : Hashes) (u : TextUpdate) (dateTime : String) {w : World} (hSteady : Steady w) :
    (∃ w', u.handle h dateTime w = (.ok (), w') ∧ Accounted u w') ↔ u.Accepted dateTime w := by
  cases hKind : u.chat.kind with
  | direct =>
    rw [handle_direct hKind]
    constructor
    · rintro ⟨w', hOk, _⟩
      cases hOk
    · rintro ⟨title, hTitle, _⟩
      cases hKind.symm.trans hTitle
  | supergroup title =>
    rw [handle_supergroup hKind, accepted_supergroup hKind]
    rcases groupLogger_cases hSteady (u.reads_user dateTime) (u.reads_group hKind dateTime) rfl rfl h
      (.groupLogger u.data dateTime) with ⟨hBoth, w', hRun, r, hMem, hOwner, hIdentity⟩ | ⟨hNot, e, w', hRun⟩
    · refine ⟨fun _ => hBoth, fun _ => ⟨w', hRun, r, hMem, hOwner, ?_, ?_, ?_⟩⟩
      · exact congrArg Identity.username hIdentity
      · exact congrArg Identity.firstName hIdentity
      · exact congrArg Identity.lastName hIdentity
    · refine ⟨?_, fun hBoth => absurd hBoth hNot⟩
      rintro ⟨w'', hOk, _⟩
      cases hRun.symm.trans hOk

def sampleInput (msgId : Nat) (chat : List (String × Php)) : Php :=
  .obj [("update_id", .int msgId), ("message", .obj
    [("message_id", .int msgId), ("date", .int 1577836800), ("text", .str "hello"),
      ("from", .obj [("id", .int 7), ("is_bot", .bool false), ("first_name", .str "A")]), ("chat", .obj chat)])]

def directSample : TextUpdate where
  input := sampleInput 1 [("id", .int 7), ("type", .str "private"), ("first_name", .str "A")]
  sender := ⟨7, "A", none, none⟩
  chat := ⟨7, .direct, none⟩
  updateId := rfl
  text := rfl
  senderId := rfl
  firstName := rfl
  lastName := rfl
  username := rfl
  chatId := rfl
  chatType := rfl
  title := nofun
  chatUsername := rfl

def groupSample (msgId : Nat) : TextUpdate where
  input := sampleInput msgId [("id", .int (-100)), ("type", .str "supergroup"), ("title", .str "T")]
  sender := ⟨7, "A", none, none⟩
  chat := ⟨-100, .supergroup "T", none⟩
  updateId := rfl
  text := rfl
  senderId := rfl
  firstName := rfl
  lastName := rfl
  username := rfl
  chatId := rfl
  chatType := rfl
  title := by
    rintro s ⟨⟩
    rfl
  chatUsername := rfl

theorem groupSample_accepted (msgId : Nat) (dateTime : String) {w : World}
    (hName : ∀ r ∈ groupsOf w.db (-100), r .name = .str "T") : (groupSample msgId).Accepted dateTime w := by
  have hFirst : textFits 255 .utf8mb4 "A" = true := by decide
  exact ⟨"T", rfl, .inl ⟨nofun, hFirst, nofun⟩, ⟨nofun, "T", rfl, by decide⟩, hName⟩

theorem logger_accounts_sample :
    (groupSample 1).Accepted "2020-01-01 00:00:00" .initial ∧
      ∃ w', (groupSample 1).handle plainHashes "2020-01-01 00:00:00" .initial = (.ok (), w') ∧
        Accounted (groupSample 1) w' := by
  have hAccepted : (groupSample 1).Accepted "2020-01-01 00:00:00" .initial := groupSample_accepted 1 _ nofun
  exact ⟨hAccepted, (logger_accounts_iff _ _ _ steady_initial).mpr hAccepted⟩

theorem private_message_throws :
    (directSample.handle plainHashes "2020-01-01 00:00:00" .initial).1 = .error User.uninitialised ∧
      (directSample.handle plainHashes "2020-01-01 00:00:00" .initial).2.db .tgUsers = [] := by
  rw [handle_direct rfl]
  exact ⟨rfl, rfl⟩

end TeaBot.Loggers.Accounting
