import TeaBot.Loggers.Detached
import TeaBot.Loggers.Sequential

/-! # Which throwables leave the handler of a connection

PDO raises exceptions and `logger_handler` catches errors. The coroutine of a connection
therefore ends normally exactly when nothing outside raises on its way.
-/

namespace TeaBot.Loggers

open Foundation

/-- Nothing leaves the coroutine of the connection or one that it has started, and what
`Logger::run` raises there is reported. -/
structure Isolated (data : Php) (date : String) (tr : List Answered) (out : Except Throwable Unit)
    (others : List (Except Throwable Unit)) : Prop where
  ends : out = .ok ()
  reported : ∀ before after e, tr = before ++ after →
    (Logger.run (Data.constructGeneralInput data) date).Exec before (.error e) →
    ⟨.errorLog (errorMsg date e (data.json jsonStringSlashes)), .ok ()⟩ ∈ after
  others : ∀ o ∈ others, o = .ok ()

/-! ## Exceptions come from outside -/

def Clean (h : List Answered) : Prop := ∀ e ∈ h, ¬ Failed e

/-- A program ends with an exception exactly when an operation has raised. -/
def Sound {α : Type} (out : Except Throwable α) (h : List Answered) : Prop :=
  (∃ t, out = .error t ∧ t.isException = true) ↔ ¬ Clean h

abbrev Honest {α : Type} (p : Run α) : Prop :=
  ∀ h, Clean h → p.Guarded Possible (fun _ _ => True) Sound h

variable {h : List Answered}

theorem clean_append {e : Answered} : Clean (h ++ [e]) ↔ Clean h ∧ ¬ Failed e := by
  simp [Clean, or_imp, forall_and]

variable {o : Op}

theorem not_failed_ok {a : o.Res} : ¬ Failed ⟨o, .ok a⟩ := nofun

variable {t : Throwable}

theorem failed_error : Failed ⟨o, .error t⟩ := ⟨t, rfl⟩

variable {α : Type}

theorem Sound.ok {a : α} (hSound : Sound (.ok a) h) : Clean h := by
  by_contra hNot
  obtain ⟨t, ht, _⟩ := hSound.mpr hNot
  cases ht

theorem sound_error {β : Type} (hSound : Sound (.error t : Except Throwable α) h) :
    Sound (.error t : Except Throwable β) h := by
  simpa [Sound] using hSound

theorem sound_of_failed (hException : t.isException = true) (hNot : ¬ Clean h) :
    Sound (.error t : Except Throwable α) h :=
  ⟨fun _ => hNot, fun _ => ⟨t, rfl, hException⟩⟩

theorem Sound.append {out : Except Throwable α} {e : Answered} (hSound : Sound out h) (he : ¬ Failed e) :
    Sound out (h ++ [e]) := by
  rw [Sound, clean_append, and_iff_left he]
  exact hSound

theorem sound_of_clean {out : Except Throwable α} (hClean : Clean h)
    (hOut : ∀ t, out = .error t → t.isException = false) : Sound out h := by
  constructor
  · rintro ⟨t, ht, hException⟩
    rw [hOut t ht] at hException
    cases hException
  · exact fun hNot => absurd hClean hNot

variable {e : Throwable}

namespace Honest

variable {α β : Type}

theorem ret (a : α) : Honest (.ret a) := fun _ hClean => sound_of_clean hClean nofun

theorem throw (h : e.isException = false) : Honest (.throw e : Run α) := by
  intro _ hClean
  refine sound_of_clean hClean fun t ht => ?_
  cases ht
  exact h

theorem perform (h : ∀ t, o.raises t = true → t.isException = true) : Honest (perform o) := by
  intro hist hClean
  refine .perform trivial fun r hr => ?_
  cases r with
  | ok a => exact sound_of_clean (clean_append.mpr ⟨hClean, not_failed_ok⟩) nofun
  | error t =>
    constructor
    · exact fun _ hAll => (clean_append.mp hAll).2 failed_error
    · exact fun _ => ⟨t, rfl, h t (hr t rfl)⟩

theorem bind {p : Run α} {f : α → Run β} (hp : Honest p) (hf : ∀ a, Honest (f a)) : Honest (p.bind f) :=
  fun h hClean => (hp h hClean).bind (fun a h' hSound => hf a h' hSound.ok) fun _ _ => sound_error

theorem when {b : Bool} {p : Run Unit} (hp : Honest p) : Honest (Prog.when b p) := by
  cases b with
  | true => exact hp
  | false => exact ret ()

theorem intArg (v : Php) : Honest (intArg v) := by
  unfold TeaBot.intArg
  split
  · exact ret _
  · exact throw rfl

theorem silent_bind {f : o.Res → Run α} {Q : Except Throwable α → List Answered → Prop}
    (hSilent : ∀ t, o.raises t = false) (hf : ∀ a, (f a).Guarded Possible (fun _ _ => True) Q (h ++ [⟨o, .ok a⟩])) :
    ((Loggers.perform o).bind f).Guarded Possible (fun _ _ => True) Q h :=
  .perform_bind trivial (fun t hr => absurd (hr t rfl) (by simp [hSilent])) fun a _ => hf a

variable {m : Mutex}

theorem mutex_scoped {body : Run α} (h : Honest body) : Honest (m.scoped body) := by
  intro hist hClean
  refine .bind (.tryCatch (h hist hClean) (fun _ _ hSound => hSound) fun e h' hSound => ?_) ?_
    fun _ _ hSound => hSound
  · exact silent_bind (fun _ => rfl) fun _ => hSound.append not_failed_ok
  · exact fun a h' hSound => silent_bind (fun _ => rfl) fun _ => hSound.append not_failed_ok

theorem rethrow (hException : e.isException = true) (hNot : ¬ Clean h) :
    ((Loggers.perform .rollback).bind fun _ => (Loggers.perform (.unlock m)).bind fun _ =>
      (.throw e : Run α)).Guarded Possible (fun _ _ => True) Sound h := by
  have hNot' : ∀ e', ¬ Clean (h ++ [e']) := fun e' hClean => hNot (clean_append.mp hClean).1
  refine ⟨trivial, fun r hr => ?_⟩
  cases r with
  | ok _ =>
    refine silent_bind (fun _ => rfl) fun _ => ?_
    exact sound_of_failed hException fun hClean => hNot' _ (clean_append.mp hClean).1
  | error t => exact sound_of_failed (hr t rfl) (hNot' _)

theorem inTransaction {body : Run α} (h : Honest body) : Honest (inTransaction m body) := by
  refine mutex_scoped (bind (perform nofun) fun _ => bind ?_ fun _ => bind (perform nofun) fun _ => ret _)
  intro hist hClean
  refine .tryCatch ?_ (fun _ _ hSound => hSound) fun e h' hSound => ?_
  · exact bind (perform fun _ => id) (fun _ => bind h fun _ => bind (perform fun _ => id) fun _ => ret _)
      hist hClean
  · split
    · rename_i hException
      exact rethrow hException (hSound.mp ⟨e, rfl, hException⟩)
    · exact hSound

end Honest

theorem resolveUser_honest (self : User) : Honest (User.resolveUser self) := by
  obtain ⟨data, date, _, _, _, _⟩ := self
  cases data with
  | none => exact .throw rfl
  | some d =>
    refine Honest.inTransaction (.bind (.perform fun _ => id) fun row => .bind ?_ fun r => ?_)
    · cases row with
      | some row =>
        refine .bind ?_ fun _ => .ret _
        unfold User.trackUserUpdate
        split
        · exact .bind (.perform fun _ => id) fun _ => .ret _
        · exact .ret _
      | none =>
        refine .bind (.bind (.perform fun _ => id) fun _ => ?_) fun _ => .ret _
        exact .bind (.perform fun _ => id) fun _ => .ret _
    · obtain ⟨self, u⟩ := r
      simp only [User.recordHistory]
      split
      · refine .bind (.bind (.intArg _) fun _ => ?_) fun _ => .ret _
        exact .bind (.perform fun _ => id) fun _ => .bind (.perform fun _ => id) fun _ => .ret _
      · exact .ret _

theorem resolveGroup_honest (self : Group) : Honest (Group.resolveGroup self) := by
  obtain ⟨data, date, _, _, _, _⟩ := self
  cases data with
  | none => exact .throw rfl
  | some d =>
    refine Honest.inTransaction (.bind (.perform fun _ => id) fun row => .bind ?_ fun r => ?_)
    · cases row with
      | some row =>
        refine .bind ?_ fun _ => .ret _
        unfold Group.trackGroupUpdate
        split
        · exact .bind (.perform fun _ => id) fun _ => .ret _
        · exact .ret _
      | none =>
        refine .bind (.bind (.perform fun _ => id) fun _ => ?_) fun _ => .ret _
        exact .bind (.perform fun _ => id) fun _ => .ret _
    · obtain ⟨self, u⟩ := r
      simp only [Group.recordHistory]
      split
      · refine .bind (.bind (.intArg _) fun _ => ?_) fun _ => .ret _
        exact .bind (.perform fun _ => id) fun _ => .bind (.perform fun _ => id) fun _ => .ret _
      · exact .ret _

theorem groupLogger_honest (d : Data) (date : String) : Honest (GroupLogger.run d date) := by
  refine .bind (.perform fun _ => id) fun _ => .bind (resolveUser_honest _) fun ⟨user, userII⟩ => ?_
  refine .bind (.when (.perform nofun)) fun _ => .bind (resolveGroup_honest _) fun ⟨group, groupII⟩ => ?_
  exact .when (.bind (.perform nofun) fun _ => .perform nofun)

theorem logger_honest (d : Data) (date : String) : Honest (Logger.run d date) := by
  unfold Logger.run
  split
  · split
    · exact .bind (.perform fun _ => id) fun _ => .bind (resolveUser_honest _) fun _ => .ret _
    · split
      · exact groupLogger_honest d date
      · exact .ret _
  · exact .ret _

/-! ## The report -/

abbrev Bare (p : Run Unit) : Prop :=
  ∀ h, Clean h → p.Guarded Possible (fun _ _ => True) (fun out h' => out = .ok () ↔ Clean h') h

theorem sendParts_bare (chatId : Int) (parts : List (List UInt8)) (j : Php) : Bare (sendParts chatId parts j) := by
  induction parts generalizing j with
  | nil => exact fun h hClean => ⟨fun _ => hClean, fun _ => rfl⟩
  | cons msg rest ih =>
    refine fun h hClean => ⟨trivial, fun r _ => ?_⟩
    cases r with
    | ok j => exact ih j _ (clean_append.mpr ⟨hClean, not_failed_ok⟩)
    | error t => exact ⟨nofun, fun hAll => absurd failed_error (clean_append.mp hAll).2⟩

theorem sendToAll_bare (text : String) (chatIds : List Int) : Bare (sendToAll text chatIds) := by
  induction chatIds with
  | nil => exact fun h hClean => ⟨fun _ => hClean, fun _ => rfl⟩
  | cons chatId rest ih =>
    refine fun h hClean => (sendParts_bare chatId _ _ h hClean).bind ?_ ?_
    · exact fun _ h' hIff => ih h' (hIff.mp rfl)
    · exact fun e h' hIff => hIff

variable {chatIds : List Int} {date : String} {tr : List Answered} {out : Except Throwable Unit}

theorem report_outcome {rawData : String} (hClean : Clean h) (hPossible : ∀ e ∈ tr, Possible e)
    (hExec : (telegramDaemonErrorReport chatIds date e rawData).Exec tr out) :
    ⟨.errorLog (errorMsg date e rawData), .ok ()⟩ ∈ tr ∧ (out = .ok () ↔ Clean (h ++ tr)) := by
  cases hExec with
  | @op _ _ r tr _ hRest =>
    obtain ⟨hLog, hTail⟩ := List.forall_mem_cons.mp hPossible
    cases r with
    | ok _ =>
      refine ⟨List.mem_cons_self, ?_⟩
      have hFirst : Clean (h ++ [⟨.errorLog (errorMsg date e rawData), .ok ()⟩]) :=
        clean_append.mpr ⟨hClean, not_failed_ok⟩
      have hSent := (sendToAll_bare _ chatIds _ hFirst).post hRest hTail
      simpa using hSent
    | error t => exact absurd (hLog t rfl) Bool.false_ne_true

theorem clean_nil : Clean [] := fun _ h => absurd h List.not_mem_nil

theorem logger_sound {d : Data} (hPossible : ∀ e ∈ tr, Possible e) (hExec : (Logger.run d date).Exec tr out) :
    Sound out tr :=
  (logger_honest d date [] clean_nil).post hExec hPossible

variable {data : Php}

theorem logger_not_array (hData : data.isArray = false)
    (hExec : (Logger.run (Data.constructGeneralInput data) date).Exec tr out) : out = .ok () := by
  have hRun : Logger.run (Data.constructGeneralInput data) date = .ret () := by
    cases data <;> first | rfl | cases hData
  rw [hRun] at hExec
  cases hExec
  rfl

theorem handler_ends_iff (hExec : (loggerHandler chatIds data date).Exec tr out) (hPossible : ∀ e ∈ tr, Possible e) :
    (out = .ok () ↔ Clean tr) ∧ (out = .ok () → ∀ before after e, tr = before ++ after →
      (Logger.run (Data.constructGeneralInput data) date).Exec before (.error e) →
      ⟨.errorLog (errorMsg date e (data.json jsonStringSlashes)), .ok ()⟩ ∈ after) := by
  unfold loggerHandler at hExec
  split at hExec
  · rcases hExec.tryCatch_cases with ⟨a, rfl, hRun⟩ | ⟨e, tr₁, tr₂, rfl, hRun, hCatch⟩
    · refine ⟨⟨fun _ => (logger_sound hPossible hRun).ok, fun _ => rfl⟩, ?_⟩
      rintro _ before after e hTr hRaise
      have hSplit : before ++ after = tr ++ [] := by rw [List.append_nil, hTr]
      exact absurd (hRaise.unique hRun hSplit).2 nofun
    · have hSound := logger_sound (fun e he => hPossible e (List.mem_append_left _ he)) hRun
      split at hCatch
      · -- the exception passes the `catch` of the handler
        rename_i hException
        cases hCatch
        have hNot : ¬ Clean (tr₁ ++ []) := by
          rw [List.append_nil]
          exact hSound.mp ⟨e, rfl, hException⟩
        exact ⟨⟨nofun, fun hClean => absurd hClean hNot⟩, nofun⟩
      · rename_i hError
        have hClean : Clean tr₁ := by
          by_contra hNot
          obtain ⟨t, ht, hException⟩ := hSound.mpr hNot
          cases ht
          exact hError hException
        obtain ⟨hLog, hEnds⟩ := report_outcome hClean
          (fun e he => hPossible e (List.mem_append_right _ he)) hCatch
        refine ⟨hEnds, ?_⟩
        rintro _ before after e' hTr hRaise
        obtain ⟨rfl, hSame⟩ := hRaise.unique hRun hTr.symm
        cases hSame
        rw [List.append_cancel_left hTr] at hLog
        exact hLog
  · rename_i hData
    cases hExec
    refine ⟨⟨fun _ => clean_nil, fun _ => rfl⟩, ?_⟩
    rintro _ before after e _ hRaise
    exact absurd (logger_not_array (Bool.eq_false_iff.mpr hData) hRaise) nofun

theorem groupLogger_smooth (d : Data) (date : String) : Smooth (fun _ => True) (GroupLogger.run d date) := by
  refine .step rfl fun _ _ => (resolveUser_smooth rfl).bind fun ⟨user, userII⟩ hUser => ?_
  have hPhoto : Smooth (fun _ => True) (perform (.go (.userTrackPhoto user))) :=
    .launch ⟨userII, d, hUser⟩
  refine hPhoto.when.bind fun _ _ => (resolveGroup_smooth rfl).bind fun ⟨group, groupII⟩ hGroup => .when ?_
  exact .go ⟨groupII, d, hGroup⟩ (.launch ⟨groupII, d, hGroup⟩)

theorem logger_launches (d : Data) (date : String) :
    (Logger.run d date).Guarded Genuine (fun _ o => Launches o) (fun _ _ => True) [] := by
  unfold Logger.run
  split
  · split
    · exact .perform_bind trivial (fun _ _ => trivial) fun _ _ => trivial
    · split
      · exact (groupLogger_smooth d date [] calm_nil).mono fun _ _ _ => trivial
      · trivial
  · trivial

theorem sendParts_launches (chatId : Int) (parts : List (List UInt8)) (j : Php) :
    (sendParts chatId parts j).Uses Launches := by
  induction parts generalizing j with
  | nil => trivial
  | cons msg rest ih => exact .bind (.perform trivial) ih

theorem sendToAll_launches (text : String) (chatIds : List Int) : (sendToAll text chatIds).Uses Launches := by
  induction chatIds with
  | nil => trivial
  | cons chatId rest ih => exact .bind (sendParts_launches chatId _ _) fun _ => ih

theorem handler_launches (hExec : (loggerHandler chatIds data date).Exec tr out) (hGenuine : ∀ e ∈ tr, Genuine e) :
    ∀ job ∈ started tr, Launched job := by
  have hReport : ∀ e, (telegramDaemonErrorReport chatIds date e (data.json jsonStringSlashes)).Uses Launches :=
    fun e => .bind (.perform trivial) fun _ => sendToAll_launches _ chatIds
  refine started_launched (Q := fun _ _ => True) ?_ hExec hGenuine
  unfold loggerHandler
  split
  · refine .tryCatch (logger_launches _ date) (fun _ _ _ => trivial) fun e h _ => ?_
    split
    · trivial
    · exact (Prog.Keeps.traced (hReport e) fun _ _ _ ho => ho).mono fun _ _ _ => trivial
  · trivial

/-- Nothing leaves the coroutines of a connection exactly when no operation of its own
raises, no operation of one that it has started is fatal there, and the administrators among
them have proper entries. -/
theorem handler_isolates_iff (md5 : String → String) (chatIds : List Int) (data : Php) (date : String)
    (tr : List Answered) (out : Except Throwable Unit) (rs : List Ran)
    (hExec : (loggerHandler chatIds data date).Exec tr out) (hGenuine : ∀ e ∈ tr, Genuine e)
    (hOthers : Coroutines md5 (started tr) rs) :
    Isolated data date tr out (rs.map (·.out)) ↔
      (∀ e ∈ tr, ¬ Failed e) ∧ ∀ r ∈ rs, r.job.proper = true ∧ ∀ e ∈ r.trace, e.op.fatal e.answer = false := by
  have hOwn := handler_ends_iff hExec fun e he => (hGenuine e he).possible
  have hRan := hOthers.ends_iff (handler_launches hExec hGenuine)
  constructor
  · intro hIso
    exact ⟨hOwn.1.mp hIso.ends, fun r hr => (hRan r hr).mp (hIso.others _ (List.mem_map_of_mem hr))⟩
  · rintro ⟨hClean, hSettled⟩
    refine ⟨hOwn.1.mpr hClean, hOwn.2 (hOwn.1.mpr hClean), List.forall_mem_map.mpr fun r hr => ?_⟩
    exact (hRan r hr).mpr (hSettled r hr)

def textUpdate (chat : Php) : Php :=
  .obj [("update_id", .int 1), ("message", .obj
    [("message_id", .int 4), ("text", .str "hi"),
      ("from", .obj [("id", .int 7), ("first_name", .str "A")]), ("chat", chat)])]

def privateText : Php := textUpdate (.obj [("id", .int 7), ("type", .str "private")])

def titledText (title : String) : Php :=
  textUpdate (.obj [("id", .int (-100)), ("type", .str "supergroup"), ("title", .str title)])

def handleAlone (data : Php) (w : World) : List Answered × Except Throwable Unit × World :=
  let answer := serve plainHashes (.groupLogger (Data.constructGeneralInput data) "2020-01-01 00:00:00")
  ((loggerHandler [] data "2020-01-01 00:00:00").record answer w,
    (loggerHandler [] data "2020-01-01 00:00:00").eval answer w)

theorem exec_handleAlone (data : Php) (w : World) :
    (loggerHandler [] data "2020-01-01 00:00:00").Exec (handleAlone data w).1 (handleAlone data w).2.1 :=
  Prog.exec_record _ _ w

def isPossible (e : Answered) : Bool :=
  match e.answer with
  | .ok _ => true
  | .error t => e.op.raises t

theorem possible_of_isPossible {e : Answered} (h : isPossible e = true) : Possible e := by
  obtain ⟨o, r⟩ := e
  rintro t hr
  cases r with
  | ok a => cases hr
  | error t' =>
    cases hr
    exact h

def isGenuine (e : Answered) : Bool := isPossible e && e.op.keyed e.answer

theorem genuine_of_all (h : tr.all isGenuine = true) : ∀ e ∈ tr, Genuine e := by
  intro e he
  obtain ⟨hPossible, hKeyed⟩ := Bool.and_eq_true_iff.mp (List.all_eq_true.mp h e he)
  exact ⟨possible_of_isPossible hPossible, hKeyed⟩

theorem clean_of_all (h : tr.all (fun e => e.answer.isOk) = true) : Clean tr := by
  rintro e he ⟨t, ht⟩
  have hOk := List.all_eq_true.mp h e he
  rw [ht] at hOk
  cases hOk

def answerAlone (j : Job) (o : Op) (w : World) : Except Throwable o.Res × World :=
  match o with
  | .exe (.getUserProfilePhotos _) =>
    (.ok (.obj [("result", .obj [("photos", .arr (.cons (.int 0)
      (.arr (.cons (.int 0) (.obj [("file_id", .str "f")]) .nil)) .nil))])]), w)
  | .exe _ => (.ok .null, w)
  | o => serve plainHashes j o w

def ranAlone (w : World) (j : Job) : Ran :=
  ⟨j, (code id j).record (answerAlone j) w, ((code id j).eval (answerAlone j) w).1⟩

theorem coroutines_alone (w : World) {js : List Job} (h : js.all (fun j => (ranAlone w j).trace.all isGenuine &&
    decide (started (ranAlone w j).trace = [])) = true) : Coroutines id js (js.map (ranAlone w)) := by
  induction js with
  | nil => exact .nil
  | cons j js ih =>
    obtain ⟨hHead, hTail⟩ := Bool.and_eq_true_iff.mp h
    obtain ⟨hGenuine, hNone⟩ := Bool.and_eq_true_iff.mp hHead
    refine .cons (Prog.exec_record (answerAlone j) _ w) (genuine_of_all hGenuine) ?_
    rw [show started ((code id j).record (answerAlone j) w) = [] from of_decide_eq_true hNone]
    exact ih hTail

/-- A private message makes `PrivateLogger` raise an `Error`, which is reported. The first
message of a group starts three coroutines, of which none raises. -/
theorem handler_isolates_two_messages :
    ((∃ text, ⟨.errorLog text, .ok ()⟩ ∈ (handleAlone privateText World.initial).1) ∧
      Isolated privateText "2020-01-01 00:00:00" (handleAlone privateText World.initial).1 (.ok ()) []) ∧
    let (tr, out, w) := handleAlone (titledText "T") World.initial
    (started tr).length = 3 ∧
      Isolated (titledText "T") "2020-01-01 00:00:00" tr out (((started tr).map (ranAlone w)).map (·.out)) := by
  refine ⟨⟨⟨_, .tail _ (.head _)⟩, ?_⟩, by decide +kernel, ?_⟩
  · exact (handler_isolates_iff id [] privateText "2020-01-01 00:00:00" (handleAlone privateText World.initial).1 _ []
      (exec_handleAlone privateText World.initial) (genuine_of_all (by decide +kernel)) .nil).mpr
      ⟨clean_of_all (by decide +kernel), nofun⟩
  · have hSettled : ((started (handleAlone (titledText "T") World.initial).1).map
        (ranAlone (handleAlone (titledText "T") World.initial).2.2)).all (fun r =>
          r.job.proper && r.trace.all fun e => !e.op.fatal e.answer) = true := by
      decide +kernel
    refine (handler_isolates_iff id [] (titledText "T") "2020-01-01 00:00:00"
      (handleAlone (titledText "T") World.initial).1 _ _ (exec_handleAlone (titledText "T") World.initial)
      (genuine_of_all (by decide +kernel)) (coroutines_alone _ (by decide +kernel))).mpr
      ⟨clean_of_all (by decide +kernel), fun r hr => ?_⟩
    obtain ⟨hProper, hCalm⟩ := Bool.and_eq_true_iff.mp (List.all_eq_true.mp hSettled r hr)
    exact ⟨hProper, fun e he => by simpa using List.all_eq_true.mp hCalm e he⟩

/-- A group is renamed. The refused `UPDATE` is rolled back, and its exception leaves
the coroutine. -/
theorem handler_lets_exception_pass :
    let w := (handleAlone (titledText "Old") World.initial).2.2
    (handleAlone (titledText "New") w).2.1 = .error (pdoException (.unknownColumn .firstName)) ∧
      (∀ e ∈ (handleAlone (titledText "New") w).1, Genuine e) ∧
      ∀ others, ¬ Isolated (titledText "New") "2020-01-01 00:00:00" (handleAlone (titledText "New") w).1
        (handleAlone (titledText "New") w).2.1 others := by
  have hOut : (handleAlone (titledText "New") (handleAlone (titledText "Old") World.initial).2.2).2.1 =
      .error (pdoException (.unknownColumn .firstName)) := by decide +kernel
  refine ⟨hOut, genuine_of_all (by decide +kernel), fun others hIsolated => ?_⟩
  rw [hOut] at hIsolated
  exact absurd hIsolated.ends nofun

end TeaBot.Loggers
