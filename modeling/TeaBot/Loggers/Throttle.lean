import Mathlib.Data.List.Nodup
import TeaBot.Loggers.Accounting

/-! # How often a group is refreshed

`GroupLogger::run` refreshes a group when its `msg_count` is a multiple of ten. Nothing
that `Logger::run` calls advances that counter, so every message that the tables take
refreshes the group. Which ones they take can be read off the messages.
-/

namespace TeaBot.Loggers.Accounting

open Foundation Foundation.Sql GroupTitle UserCalls

/-- Text messages of one supergroup, each with the clock reading of its handling. -/
structure Talk where
  chatId : Int
  messages : List (TextUpdate × String)
  inGroup : ∀ m ∈ messages, m.1.chat.id = chatId ∧ ∃ title, m.1.chat.kind = .supergroup title
  distinct : (messages.map fun m => (messageOf m.1.input).get (.str "message_id")).Nodup

/-- For how many of the messages, handled one after the other, a coroutine as in `p` is started. -/
def startedFor (h : Hashes) (p : Job → Bool) : List (TextUpdate × String) → World → Nat
  | [], _ => 0
  | (u, dateTime) :: rest, w =>
    (if (refreshes h (.groupLogger u.data dateTime) (Logger.run u.data dateTime) w).any p then 1 else 0) +
      startedFor h p rest (u.handle h dateTime w).2

def Job.isGroupPhoto : Job → Bool
  | .groupTrackPhoto _ => true
  | _ => false

def Job.isAdmins : Job → Bool
  | .trackAdmins _ => true
  | _ => false

/-! ## The messages that the tables take -/

def Sender.fits (s : Sender) : Bool :=
  s.username.all (textFits 72 .latin1) && textFits 255 .utf8mb4 s.firstName && s.lastName.all (textFits 255 .utf8mb4)

def Sender.identity (s : Sender) : Identity :=
  ⟨bindParam (.ofOption s.username), .str s.firstName, bindParam (.ofOption s.lastName)⟩

def stored (w : World) (s : Sender) : Bool :=
  (w.db .tgUsers).any fun r => r .tgUserId = .int s.id && Identity.ofRow r = s.identity

/-- The fields fit, or they were on record at the start and none of the messages before has
replaced them. -/
def Sender.taken (w : World) (before : List Sender) (s : Sender) : Bool :=
  s.fits || (stored w s && !before.any fun b => b.id = s.id && b.fits)

def Chat.title (c : Chat) : Option String :=
  match c.kind with
  | .supergroup title => some title
  | .direct => none

def Chat.fits (c : Chat) : Bool :=
  c.username.all (textFits 255 .utf8) && c.title.any (textFits 255 .utf8mb4)

/-- The messages that could be taken, by their senders' fields and the group's. -/
def fitting (w : World) : List Sender → List TextUpdate → List TextUpdate
  | _, [] => []
  | before, u :: rest =>
    if u.sender.taken w before && u.chat.fits then u :: fitting w (u.sender :: before) rest
    else fitting w (u.sender :: before) rest

/-- The first of them gives the group its title, and a message with another one is refused. -/
def sameTitle : List TextUpdate → List TextUpdate
  | [] => []
  | u :: rest => u :: rest.filter fun v => v.chat.title = u.chat.title

def Talk.taken (talk : Talk) (w : World) : List TextUpdate := sameTitle (fitting w [] (talk.messages.map Prod.fst))

theorem Sender.fits_iff (u : TextUpdate) (dateTime : String) : u.sender.fits = true ↔ (u.userCall dateTime).Fits := by
  simp only [Sender.fits, UserCall.Fits, TextUpdate.userCall, Bool.and_eq_true, Option.all_eq_true, and_assoc]

theorem Chat.title_of_kind {c : Chat} {title : String} (hKind : c.kind = .supergroup title) : c.title = some title := by
  rw [Chat.title, hKind]

theorem Chat.fits_iff {u : TextUpdate} {title : String} (hKind : u.chat.kind = .supergroup title) (dateTime : String) :
    u.chat.fits = true ↔ (u.groupCall title dateTime).Fits := by
  simp [Chat.fits, GroupCall.Fits, TextUpdate.groupCall, Chat.title_of_kind hKind, Option.all_eq_true]

variable {s : Sender}

theorem Sender.fits_of_identity {s' : Sender} (hEq : s.identity = s'.identity) : s.fits = s'.fits := by
  have hOption : ∀ o o' : Option String, bindParam (.ofOption o) = bindParam (.ofOption o') → o = o' := by
    intro o o' h
    cases o <;> cases o' <;> simp_all [Php.ofOption, bindParam]
  obtain ⟨hUsername, hFirst, hLast⟩ := Identity.mk.inj hEq
  rw [Sender.fits, Sender.fits, hOption _ _ hUsername, Value.str.inj hFirst, hOption _ _ hLast]

variable {w : World}

theorem stored_iff :
    stored w s = true ↔ ∃ r ∈ w.db .tgUsers, r .tgUserId = .int s.id ∧ Identity.ofRow r = s.identity := by
  simp [stored]

/-! ## One message -/

/-- What the tables hold after the messages of `before`, as far as it matters to the ones
that follow: whose odd names are still on record, and the group's title. -/
structure Follows (w₀ : World) (n : Int) (before : List Sender) (title : Option String) (w : World) : Prop
    extends Steady w where
  zero : ∀ r ∈ w.db .tgGroups, r .tgGroupId = .int n → r .msgCount = .int 0
  users : ∀ s : Sender, s.fits = false →
    stored w s = (stored w₀ s && !before.any fun b => b.id = s.id && b.fits)
  titles : (groupsOf w.db n).map (· .name) = title.toList.map Value.str

theorem everyTenth_zero {v : Php} {x : Value} (hShown : v.intParam = x.asInt) (hZero : x = .int 0) :
    everyTenth v = true := by
  rw [everyTenth, hShown, hZero]
  rfl

variable {n : Int}

section Group

variable {w w' : World} {c : GroupCall} {d : Data} {a : Group × GroupInfo} {log : List (Write Tbl Col)}

theorem wrote_everyTenth (hWrote : GroupTitle.Wrote w c d a log)
    (hZero : ∀ r ∈ w.db .tgGroups, r .tgGroupId = .int c.chatId → r .msgCount = .int 0) :
    everyTenth a.2.msgCount = true := by
  cases hWrote with
  | same hMem hOwner hId hIdentity hResult => exact everyTenth_zero hResult.msgCount (hZero _ hMem hOwner)
  | inserted hNew hRow hVersion hResult => exact everyTenth_zero hResult.msgCount hRow.msgCount
  | updated hMem hOwner hId hName hVersion hResult =>
    exact everyTenth_zero hResult.msgCount (hZero _ hMem hOwner)

theorem wrote_zero (hWrote : GroupTitle.Wrote w c d a log)
    (hZero : ∀ r ∈ w.db .tgGroups, r .tgGroupId = .int n → r .msgCount = .int 0) :
    ∀ r ∈ schema.applyAll log w.db .tgGroups, r .tgGroupId = .int n → r .msgCount = .int 0 := by
  intro r hr hOwner
  cases hWrote with
  | same => exact hZero r hr hOwner
  | @inserted _ _ row _ hNew hRow =>
    have hMem : r ∈ w.db .tgGroups ∨ r = row := by simpa [Schema.apply] using hr
    rcases hMem with hMem | rfl
    · exact hZero r hMem hOwner
    · exact hRow.msgCount
  | @updated _ _ _ _ k =>
    have hMem : r ∈ schema.apply (.update .tgGroups .id (.str (toString k)) (updateSets c c.dateTime)) w.db .tgGroups := by
      simpa [Schema.apply] using hr
    rw [apply_update] at hMem
    obtain ⟨row, hRow, rfl⟩ := List.mem_map.mp hMem
    by_cases hMatch : Tbl.tgGroups = .tgGroups ∧ schema.matches .tgGroups .id (.str (toString k)) row = true
    · rw [if_pos hMatch] at hOwner ⊢
      exact hZero row hRow hOwner
    · rw [if_neg hMatch] at hOwner ⊢
      exact hZero row hRow hOwner

theorem groupsOf_eq (hSteady : Steady w) {r : Row Col} (hMem : r ∈ w.db .tgGroups) (hOwner : r .tgGroupId = .int n) :
    groupsOf w.db n = [r] := by
  have hIn : r ∈ groupsOf w.db n := List.mem_filter.mpr ⟨hMem, decide_eq_true hOwner⟩
  have hSame : ∀ r' ∈ groupsOf w.db n, r' = r := by
    intro r' hr'
    obtain ⟨hMem', hOwner'⟩ := List.mem_filter.mp hr'
    exact hSteady.valid.eq_of_unique (t := .tgGroups) (c := .tgGroupId) (by decide) hMem' hMem
      ((of_decide_eq_true hOwner').trans hOwner.symm)
  have hNodup : (groupsOf w.db n).Nodup :=
    (List.Nodup.of_map _ (hSteady.valid.unique .tgGroups .tgGroupId (by decide))).filter _
  have hReplicate := List.eq_replicate_of_mem hSame
  have hOne : (groupsOf w.db n).length ≤ 1 := List.nodup_replicate.mp (hReplicate ▸ hNodup)
  rw [hReplicate, le_antisymm hOne (List.length_pos_of_mem hIn)]
  rfl

end Group

section Step

variable {w₀ w w' : World} {n : Int} {before : List Sender} {title : Option String} {u : TextUpdate}

theorem taken_iff (hFollows : Follows w₀ n before title w) (u : TextUpdate) (dateTime : String) :
    UserCalls.Accepted w (u.userCall dateTime) ↔ u.sender.taken w₀ before = true := by
  have hAccepted : UserCalls.Accepted w (u.userCall dateTime) ↔ u.sender.fits = true ∨ stored w u.sender = true :=
    or_congr (Sender.fits_iff u dateTime).symm stored_iff.symm
  rw [hAccepted, Sender.taken]
  cases hFits : u.sender.fits with
  | true => simp
  | false => simp [hFollows.users _ hFits]

theorem group_accepted_iff (hFollows : Follows w₀ n before title w) (hChat : u.chat.id = n) {t : String}
    (hKind : u.chat.kind = .supergroup t) (dateTime : String) :
    GroupTitle.Accepted w (u.groupCall t dateTime) ↔ u.chat.fits = true ∧ ∀ t' ∈ title, t' = t := by
  refine and_congr (Chat.fits_iff hKind dateTime).symm ?_
  have hNames : (∀ r ∈ groupsOf w.db n, r .name = .str t) ↔ ∀ x ∈ (groupsOf w.db n).map (· .name), x = .str t := by
    simp
  have hId : (u.groupCall t dateTime).chatId = n := hChat
  have hName : (u.groupCall t dateTime).identity.name = .str t := rfl
  rw [hId, hName, hNames, hFollows.titles]
  cases title <;> simp

theorem stored_iff_row (hSteady : Steady w) {r : Row Col} (hMem : r ∈ w.db .tgUsers)
    (hOwner : r .tgUserId = .int s.id) :
    stored w s = true ↔ Identity.ofRow r = s.identity := by
  rw [stored_iff]
  refine ⟨?_, fun hEq => ⟨r, hMem, hOwner, hEq⟩⟩
  rintro ⟨r', hMem', hOwner', hEq⟩
  rwa [← hSteady.valid.eq_of_unique (t := .tgUsers) (c := .tgUserId) (by decide) hMem' hMem
    (hOwner'.trans hOwner.symm)]

theorem stored_after {d : Data} {a : User × UserInfo} {log : List (Write Tbl Col)} (hSteady : Steady w)
    (hSteady' : Steady w') {dateTime : String} (hAccepted : UserCalls.Accepted w (u.userCall dateTime))
    (hWrote : UserCalls.Wrote w (u.userCall dateTime) d a log)
    (hDb : w'.db .tgUsers = schema.applyAll log w.db .tgUsers) (hFits : s.fits = false) :
    stored w' s = (stored w s && !(u.sender.id = s.id && u.sender.fits)) := by
  by_cases hId : u.sender.id = s.id
  · obtain ⟨r', hMem', hOwner', hShows⟩ := user_stored hWrote
    have hAfter : stored w' s = true ↔ u.sender.identity = s.identity := by
      rw [stored_iff_row hSteady' (hDb ▸ hMem') (hOwner'.trans (congrArg (fun k : Nat => Value.int k) hId)), hShows]
      rfl
    cases hSender : u.sender.fits with
    | true =>
      have hNot : stored w' s ≠ true := fun h => by
        rw [Sender.fits_of_identity (hAfter.mp h), hFits] at hSender
        cases hSender
      simp [hId, hNot]
    | false =>
      rcases hAccepted with hFit | ⟨r, hMem, hOwner, hSame⟩
      · rw [← Sender.fits_iff, hSender] at hFit
        cases hFit
      · have hBefore : stored w s = true ↔ u.sender.identity = s.identity := by
          rw [stored_iff_row hSteady hMem (hOwner.trans (congrArg (fun k : Nat => Value.int k) hId)), hSame]
          rfl
        simp [Bool.eq_iff_iff.mpr (hAfter.trans hBefore.symm)]
  · have hOther : (s.id : Int) ≠ (u.userCall dateTime).userId := fun hEq => hId (Int.ofNat.inj hEq).symm
    have hSame : stored w' s = true ↔ stored w s = true := by
      rw [stored_iff, stored_iff, hDb]
      exact other_users hWrote hSteady.valid hOther (P := (· = s.identity))
    simp [hId, Bool.eq_iff_iff.mpr hSame]

theorem Follows.users_after (hFollows : Follows w₀ n before title w) (hFits : s.fits = false)
    (hStored : stored w' s = (stored w s && !(u.sender.id = s.id && u.sender.fits))) :
    stored w' s = (stored w₀ s && !(u.sender :: before).any fun b => b.id = s.id && b.fits) := by
  rw [hStored, hFollows.users s hFits, List.any_cons, Bool.not_or, Bool.and_assoc, Bool.and_comm (!before.any _)]

/-- Whether the message is taken, and the title of the group from then on. -/
def takes (w₀ : World) (before : List Sender) (title : Option String) (u : TextUpdate) : Bool :=
  u.sender.taken w₀ before && u.chat.fits && title.all fun t => u.chat.title = some t

theorem takes_iff (hFollows : Follows w₀ n before title w) (hChat : u.chat.id = n) {t : String}
    (hKind : u.chat.kind = .supergroup t) (dateTime : String) : takes w₀ before title u = true ↔
      UserCalls.Accepted w (u.userCall dateTime) ∧ GroupTitle.Accepted w (u.groupCall t dateTime) := by
  rw [taken_iff hFollows, group_accepted_iff hFollows hChat hKind, takes, Chat.title_of_kind hKind]
  cases title <;> simp [and_assoc, @eq_comm _ t]

theorem handle_cases (hFollows : Follows w₀ n before title w) (hChat : u.chat.id = n) {t : String}
    (hKind : u.chat.kind = .supergroup t) (h : Hashes) (dateTime : String) :
    if takes w₀ before title u then
      Follows w₀ n (u.sender :: before) (some t) (u.handle h dateTime w).2 ∧
        ∃ g, refreshes h (.groupLogger u.data dateTime) (Logger.run u.data dateTime) w =
          [.groupTrackPhoto g, .trackAdmins g]
    else
      Follows w₀ n (u.sender :: before) title (u.handle h dateTime w).2 ∧
        refreshes h (.groupLogger u.data dateTime) (Logger.run u.data dateTime) w = [] := by
  have hTakes := takes_iff hFollows hChat hKind dateTime
  rw [handle_supergroup hKind h dateTime w, u.run_supergroup hKind]
  rcases groupLogger_parts hFollows.toSteady (u.reads_user dateTime) (rfl : _ = dateTime) h
    (.groupLogger u.data dateTime) with
    ⟨hAccepted, ua, ulog, w₁, hSteady₁, hDb, hWrote, hRun, hStarts⟩ | ⟨hNot, e, w₁, hSteady₁, hDb, hRun, hStarts⟩
  · have hGroups : w₁.db .tgGroups = w.db .tgGroups := by
      rw [hDb]
      exact user_frame hWrote (by decide) (by decide)
    have hUsers : ∀ {w'}, Steady w' → w'.db .tgUsers = w₁.db .tgUsers → ∀ s : Sender, s.fits = false → stored w' s =
        (stored w₀ s && !(u.sender :: before).any fun b => b.id = s.id && b.fits) := fun hSteady' hSame s hs =>
      hFollows.users_after hs (stored_after hFollows.toSteady hSteady' hAccepted hWrote (hSame.trans (hDb ▸ rfl)) hs)
    have hZero : ∀ r ∈ w₁.db .tgGroups, r .tgGroupId = .int n → r .msgCount = .int 0 := hGroups ▸ hFollows.zero
    have hSame : GroupTitle.Accepted w₁ (u.groupCall t dateTime) ↔ GroupTitle.Accepted w (u.groupCall t dateTime) := by
      simp only [GroupTitle.Accepted, groupsOf, hGroups]
    rw [hRun, hStarts]
    rcases groupPart_cases hSteady₁ (u.reads_group hKind dateTime) (rfl : _ = dateTime) h
      (.groupLogger u.data dateTime) with
      ⟨hGroup, a, log, w', hEval, hSteady', hDb', hWrote', hStarted⟩ | ⟨hNot, e, w', hEval, hSteady', hDb', hStarted⟩
    · rw [if_pos (hTakes.mpr ⟨hAccepted, hSame.mp hGroup⟩), hEval]
      have hTenth : everyTenth a.2.msgCount = true :=
        wrote_everyTenth hWrote' fun r hr hOwner => hZero r hr (hOwner.trans (congrArg Value.int hChat))
      rw [hTenth] at hStarted
      obtain ⟨r, hMem, hOwner, hShows⟩ := group_stored hWrote'
      refine ⟨⟨hSteady', hDb' ▸ wrote_zero hWrote' hZero, hUsers hSteady' ?_, ?_⟩, a.1, hStarted⟩
      · rw [hDb']
        exact group_frame hWrote' (by decide) (by decide)
      · rw [groupsOf_eq hSteady' (hDb' ▸ hMem) (hOwner.trans (congrArg Value.int hChat))]
        exact congrArg (fun v => [v]) (congrArg GroupIdentity.name hShows)
    · rw [if_neg fun hBoth => hNot (hSame.mpr (hTakes.mp hBoth).2), hEval]
      refine ⟨⟨hSteady', hDb' ▸ hZero, hUsers hSteady' (congrFun hDb' _), ?_⟩, hStarted⟩
      rw [groupsOf, hDb', hGroups]
      exact hFollows.titles
  · rw [if_neg fun hBoth => hNot (hTakes.mp hBoth).1]
    refine ⟨?_, hStarts⟩
    have hFits : u.sender.fits = false := by
      by_contra hFit
      exact hNot (.inl ((Sender.fits_iff u dateTime).mp (Bool.eq_true_of_not_eq_false hFit)))
    rw [hRun]
    refine ⟨hSteady₁, hDb ▸ hFollows.zero, fun s hs => hFollows.users_after hs ?_, hDb ▸ hFollows.titles⟩
    simp [stored, hDb, hFits]

end Step

/-! ## A whole talk -/

/-- The messages that are taken of those that could be, given the group's title so far. -/
def takenFrom : Option String → List TextUpdate → List TextUpdate
  | none, l => sameTitle l
  | some t, l => l.filter fun v => v.chat.title = some t

theorem startedFor_eq {h : Hashes} {p : Job → Bool} (hp : ∀ g, [Job.groupTrackPhoto g, .trackAdmins g].any p = true)
    {ms : List (TextUpdate × String)} (hGroup : ∀ m ∈ ms, m.1.chat.id = n ∧ ∃ title, m.1.chat.kind = .supergroup title)
    {w₀ : World} {before : List Sender} {title : Option String} (hFollows : Follows w₀ n before title w) :
    startedFor h p ms w = (takenFrom title (fitting w₀ before (ms.map Prod.fst))).length := by
  induction ms generalizing w before title with
  | nil => cases title <;> rfl
  | cons m rest ih =>
    obtain ⟨⟨hChat, t, hKind⟩, hRest⟩ := List.forall_mem_cons.mp hGroup
    obtain ⟨u, dateTime⟩ := m
    have hCases := handle_cases hFollows hChat hKind h dateTime
    have hTitle := Chat.title_of_kind hKind
    rw [List.map_cons, fitting, startedFor]
    cases hTakes : takes w₀ before title u with
    | true =>
      rw [hTakes, if_pos rfl] at hCases
      obtain ⟨hNext, g, hStarts⟩ := hCases
      simp only [takes, Bool.and_eq_true] at hTakes
      obtain ⟨hFits, hSame⟩ := hTakes
      rw [hStarts, hp g, if_pos rfl, ih hRest hNext, if_pos (by simpa using hFits), Nat.add_comm]
      cases title with
      | none => simp [takenFrom, sameTitle, hTitle]
      | some t' =>
        obtain rfl : t = t' := by simpa [hTitle] using hSame
        simp [takenFrom, hTitle]
    | false =>
      rw [hTakes, if_neg Bool.false_ne_true] at hCases
      obtain ⟨hNext, hStarts⟩ := hCases
      rw [hStarts, List.any_nil, if_neg Bool.false_ne_true, ih hRest hNext, Nat.zero_add]
      split
      · rename_i hFits
        cases title with
        | none => simp_all [takes]
        | some t' => simp_all [takes, takenFrom]
      · rfl

theorem follows_start (hSteady : Steady w) (hNew : ∀ r ∈ w.db .tgGroups, r .tgGroupId ≠ .int n) :
    Follows w n [] none w := by
  refine ⟨hSteady, fun r hr hOwner => absurd hOwner (hNew r hr), by simp, ?_⟩
  have hNone : groupsOf w.db n = [] := List.filter_eq_nil_iff.mpr fun r hr hEq => hNew r hr (of_decide_eq_true hEq)
  rw [hNone]
  rfl

theorem Talk.startedFor_eq (h : Hashes) (talk : Talk) (hSteady : Steady w)
    (hNew : ∀ r ∈ w.db .tgGroups, r .tgGroupId ≠ .int talk.chatId) {p : Job → Bool}
    (hp : ∀ g, [Job.groupTrackPhoto g, .trackAdmins g].any p = true) :
    startedFor h p talk.messages w = (talk.taken w).length :=
  Accounting.startedFor_eq hp talk.inGroup (follows_start hSteady hNew)

/-- The two refreshes are started for at most every tenth message exactly when no more
messages than that are taken: those whose fields fit and whose title is that of the first. -/
theorem refreshes_throttled_iff (h : Hashes) (talk : Talk) {w : World} (hSteady : Steady w)
    (hNew : ∀ r ∈ w.db .tgGroups, r .tgGroupId ≠ .int talk.chatId) :
    (startedFor h Job.isGroupPhoto talk.messages w ≤ (talk.messages.length + 9) / 10 ∧
      startedFor h Job.isAdmins talk.messages w ≤ (talk.messages.length + 9) / 10) ↔
    (talk.taken w).length ≤ (talk.messages.length + 9) / 10 := by
  rw [talk.startedFor_eq h hSteady hNew fun _ => rfl, talk.startedFor_eq h hSteady hNew fun _ => rfl]
  exact and_self_iff

def titledSample (msgId : Nat) (title : String) : TextUpdate where
  input := sampleInput msgId [("id", .int (-100)), ("type", .str "supergroup"), ("title", .str title)]
  sender := ⟨7, "A", none, none⟩
  chat := ⟨-100, .supergroup title, none⟩
  updateId := rfl
  text := rfl
  senderId := rfl
  firstName := rfl
  lastName := rfl
  username := rfl
  chatId := rfl
  chatType := rfl
  title := by
    rintro s ⟨⟩
    rfl
  chatUsername := rfl

def talkSample (titles : List String) : Talk where
  chatId := -100
  messages := titles.zipIdx.map fun x => (titledSample x.2 x.1, "2020-01-01 00:00:00")
  inGroup := by
    intro m hm
    obtain ⟨x, _, rfl⟩ := List.mem_map.mp hm
    exact ⟨rfl, x.1, rfl⟩
  distinct := by
    have hIds : (titles.zipIdx.map fun x => (titledSample x.2 x.1, "2020-01-01 00:00:00")).map
        (fun m => (messageOf m.1.input).get (.str "message_id")) =
          (titles.zipIdx.map Prod.snd).map fun i : Nat => Php.int i := by
      rw [List.map_map, List.map_map]
      rfl
    rw [hIds, List.zipIdx_map_snd]
    exact List.Nodup.map (fun i j hEq => Int.ofNat.inj (Php.int.inj hEq)) List.nodup_range'

/-- The group is renamed after its second message; of eleven messages only those two refresh it. -/
def renamedTalk : Talk := talkSample (["T", "T"] ++ List.replicate 9 "U")

theorem renamed_talk_throttled :
    (renamedTalk.taken .initial).length = 2 ∧ renamedTalk.messages.length = 11 ∧
      startedFor plainHashes Job.isGroupPhoto renamedTalk.messages .initial ≤ 2 ∧
      startedFor plainHashes Job.isAdmins renamedTalk.messages .initial ≤ 2 := by
  have hTaken : (renamedTalk.taken .initial).length = 2 := by decide +kernel
  exact ⟨hTaken, rfl, (refreshes_throttled_iff _ renamedTalk steady_initial nofun).mpr hTaken.le⟩

/-- Two messages, and both of them start both refreshes. -/
theorem both_messages_refresh :
    startedFor plainHashes Job.isGroupPhoto (talkSample ["T", "T"]).messages .initial = 2 ∧
      startedFor plainHashes Job.isAdmins (talkSample ["T", "T"]).messages .initial = 2 := by
  decide +kernel

end TeaBot.Loggers.Accounting
