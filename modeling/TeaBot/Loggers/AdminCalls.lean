import TeaBot.Loggers.AdminRows
import TeaBot.Loggers.Footprint
import TeaBot.Loggers.Isolation
import TeaBot.Loggers.Untouched

/-! # What `trackAdmins` and its coroutines ask for

`trackAdmins` starts a coroutine for every administrator, waits for as many messages and
only then replaces the rows of the group by two statements outside a transaction. The
coroutines neither touch these rows nor use the channel for more than one message, which
tells the user that their own `resolveUser` has returned.
-/

namespace TeaBot.Loggers.Admins

open Foundation Foundation.Sql

inductive Phase
  | untouched
  | cleared
  | filled
  /-- The `DELETE` has raised. -/
  | notCleared
  /-- The `INSERT` has raised. -/
  | notFilled
  deriving DecidableEq

structure Progress where
  answer : Option Php := none
  chan : Option Nat := none
  jobs : List Job := []
  rows : List AdminRow := []
  phase : Phase := .untouched

namespace Progress

def Admits (self : Group) (p : Progress) : Op → Prop
  | .exe _ => p.answer = none
  | .newChannel _ => p.chan = none
  | .go job => ∃ chan k v, p.chan = some chan ∧ job = .adminUser k v chan self.dateTime
  | .pop chan => p.chan = some chan ∧ p.phase = .untouched
  | .execute stmt params =>
    p.phase = .untouched ∧ ∃ u, self.u = some u ∧ stmt = .delete .tgGroupAdmins .groupId ∧ params = [u.id]
  | .executeNamed tb cols names params =>
    p.phase = .cleared ∧ ∃ u, self.u = some u ∧ tb = .tgGroupAdmins ∧ cols = Group.adminCols ∧
      names = p.rows.map Group.AdminRow.placeholders ∧ params = adminParams u self.dateTime p.rows
  | .push .. | .beginTransaction | .commit | .rollback => False
  | _ => True

def after (p : Progress) : (o : Op) → Except Throwable o.Res → Progress
  | .exe _, .ok v => { p with answer := some v }
  | .newChannel _, .ok chan => { p with chan := some chan }
  | .go job, .ok _ => { p with jobs := p.jobs ++ [job] }
  | .pop _, .ok row => { p with rows := p.rows ++ [row] }
  | .execute .., .ok _ => { p with phase := .cleared }
  | .execute .., .error _ => { p with phase := .notCleared }
  | .executeNamed .., .ok _ => { p with phase := .filled }
  | .executeNamed .., .error _ => { p with phase := .notFilled }
  | _, _ => p

end Progress

def progress (self : Group) : Discipline Op Op.Res Throwable Progress where
  admits := Progress.Admits self
  answers o r := ∀ e, r = .error e → o.raises e = true
  after := Progress.after

def adminJobs (chan : Nat) (dateTime : String) : PhpArray → List Job
  | .nil => []
  | .cons k v rest => .adminUser k v chan dateTime :: adminJobs chan dateTime rest

/-- One coroutine was started for every entry, as many messages were received, and the
rows were replaced by them. -/
structure Replaced (g : Group) (admins : PhpArray) (p : Progress) : Prop where
  jobs : ∃ chan, p.jobs = adminJobs chan g.dateTime admins
  rows : p.rows.length = admins.values.length
  phase : p.phase = if p.rows = [] then .cleared else .filled

def Settled (self : Group) (p : Progress) : Prop :=
  ∀ v admins, p.answer = some v → v.get (.str "result") = .arr admins → Replaced self admins p

variable {o : Op}

section Program

variable {self : Group} {α : Type}

variable {p : Progress}

theorem silent_bind {f : o.Res → Run α} {Q : Except Throwable α → Progress → Prop} (hSilent : ∀ e, o.raises e = false)
    (hAdmits : p.Admits self o) (hf : ∀ a, (f a).Keeps (progress self) Q (p.after o (.ok a))) :
    ((perform o).bind f).Keeps (progress self) Q p := by
  refine ⟨hAdmits, fun r hr => ?_⟩
  cases r with
  | ok a => exact hf a
  | error e => exact absurd (hr e rfl) (by simp [hSilent])

theorem startAll_keeps (chan : Nat) : (admins : PhpArray) → (p : Progress) → p.chan = some chan →
    (Group.startAll chan self.dateTime admins).Keeps (progress self)
      (fun out p' => out = .ok () ∧ p' = { p with jobs := p.jobs ++ adminJobs chan self.dateTime admins }) p
  | .nil, p, _ => by simp [Group.startAll, adminJobs, Prog.Keeps]
  | .cons k v rest, p, hChan => by
    refine silent_bind (fun _ => rfl) ⟨chan, k, v, hChan, rfl⟩ fun _ =>
      (startAll_keeps chan rest { p with jobs := p.jobs ++ [.adminUser k v chan self.dateTime] } hChan).mono ?_
    rintro out _ ⟨rfl, rfl⟩
    simp [adminJobs]

theorem popAll_keeps (chan n : Nat) (hChan : p.chan = some chan) (hPhase : p.phase = .untouched) :
    (Group.popAll chan n).Keeps (progress self)
      (fun out p' => ∃ rows, out = .ok rows ∧ rows.length = n ∧ p' = { p with rows := p.rows ++ rows }) p := by
  induction n generalizing p with
  | zero => exact ⟨[], rfl, rfl, by simp⟩
  | succ n ih =>
    refine silent_bind (fun _ => rfl) ⟨hChan, hPhase⟩ fun row => .bind (ih hChan hPhase) ?_ ?_
    · rintro rows _ ⟨_, hEq, hLength, rfl⟩
      cases hEq
      exact ⟨row :: rows, rfl, congrArg Nat.succ hLength, by simp [Progress.after]⟩
    · rintro e _ ⟨_, hEq, _⟩
      cases hEq

theorem replaceAdmins_keeps {u : GroupInfo} (hU : self.u = some u) (hPhase : p.phase = .untouched) :
    (Group.replaceAdmins u self.dateTime p.rows).Keeps (progress self)
      (fun out p' => out = .ok () → p' = { p with phase := if p.rows = [] then .cleared else .filled }) p := by
  refine .bind (.perform (Q := fun out p' => ∀ a, out = .ok a → p' = { p with phase := .cleared })
    ⟨hPhase, u, hU, rfl, rfl⟩ ?_) ?_ fun _ _ _ => nofun
  · rintro (_ | _) _ a ha
    · cases ha
    · rfl
  · rintro a _ hp
    rw [hp a rfl]
    by_cases hRows : p.rows = []
    · simp only [hRows, if_true]
      exact fun _ => rfl
    · simp only [hRows, if_false]
      refine .perform ⟨rfl, u, hU, rfl, rfl, rfl, rfl⟩ ?_
      rintro (_ | _) _ hOk
      · cases hOk
      · rfl

theorem refreshAdmins_keeps {d : Data} {u : GroupInfo} (hU : self.u = some u) :
    (Group.refreshAdmins self d u).Keeps (progress self) (fun out p => out = .ok () → Settled self p) {} := by
  refine .bind (.perform (Q := fun out p => ∀ v, out = .ok v → p = { answer := some v }) rfl ?_) ?_
    fun _ _ _ => nofun
  · rintro (_ | _) _ v hv
    · cases hv
    · cases hv
      rfl
  · rintro v _ hp
    rw [hp v rfl]
    split
    · rename_i admins hResult
      refine silent_bind (fun _ => rfl) rfl fun chan => .bind (startAll_keeps chan admins _ rfl) ?_ ?_
      · rintro _ _ ⟨_, rfl⟩
        refine .bind (popAll_keeps chan _ rfl rfl) ?_ ?_
        · rintro rows _ ⟨_, hEq, hLength, rfl⟩
          cases hEq
          refine (replaceAdmins_keeps (p := { answer := some v, chan := some chan, rows := rows
                                              jobs := adminJobs chan self.dateTime admins }) hU rfl).mono ?_
          intro out p' hOut hOk v' admins' hAnswer hResult'
          rw [hOut hOk] at hAnswer ⊢
          cases hAnswer
          cases hResult.symm.trans hResult'
          exact ⟨⟨chan, rfl⟩, hLength, rfl⟩
        · rintro e _ ⟨_, hEq, _⟩
          cases hEq
      · rintro e _ ⟨hEq, _⟩
        cases hEq
    · rename_i hNot
      intro _ v' admins hAnswer hResult
      cases hAnswer
      exact absurd hResult (hNot admins)

theorem trackAdmins_keeps (md5 : String → String) :
    (code md5 (.trackAdmins self)).Keeps (progress self) (fun out p => out = .ok () → Settled self p) {} := by
  refine .bind (Q := fun _ p => p = {}) (.perform trivial fun r _ => ?_) ?_ fun _ _ _ => nofun
  · cases r <;> rfl
  rintro _ _ rfl
  unfold Group.trackAdmins
  split
  · rename_i u d hU _
    refine .tryFinally (Q := fun out p => out = .ok () → Settled self p) ?_ fun out p hOut => ?_
    · refine silent_bind (fun _ => rfl) trivial fun _ => .bind (refreshAdmins_keeps hU) ?_ fun _ _ _ => nofun
      intro a p hp
      refine .perform trivial fun r hr _ => ?_
      cases r with
      | ok _ => exact hp rfl
      | error e => exact absurd (hr e rfl) Bool.false_ne_true
    · refine .perform trivial fun r hr hOk => ?_
      cases r with
      | ok _ => exact hOut hOk
      | error e => exact absurd (hr e rfl) Bool.false_ne_true
  · exact nofun

end Program

/-! ## The coroutine of one administrator -/

def detached : Op → Bool
  | .newChannel _ | .push .. | .pop _ | .go _ => false
  | o => .tgGroupAdmins ∉ o.targets

abbrev Detached (o : Op) : Prop := detached o = true

def pushed : Answered → Option AdminRow
  | ⟨.push _ row, .ok _⟩ => some row
  | _ => none

/-- The first thing the coroutine has done is the `resolveUser` of the entry's user,
which has returned `u`. -/
def ResolvedBy (v : Php) (dateTime : String) (h : List Answered) (u : UserInfo) : Prop :=
  ∃ d user tr rest, Data.constructUserData (v.read "user") = .ok d ∧ h = ⟨.connect, .ok ()⟩ :: tr ++ rest ∧
    (User.resolveUser { data := some d, dateTime := dateTime }).Exec tr (.ok (user, u))

def message (k : Key) (v : Php) (u : UserInfo) : AdminRow := ⟨k, u.id, v.read "status", Group.adminInfo v⟩

def Announces (k : Key) (v : Php) (chan : Nat) (dateTime : String) (h : List Answered) : Op → Prop
  | .push c row =>
    c = chan ∧ h.filterMap pushed = [] ∧ ∃ u, row = message k v u ∧ ResolvedBy v dateTime h u
  | o => Detached o

theorem announces_of_detached {k : Key} {v : Php} {chan : Nat} {dateTime : String} {h : List Answered}
    (ho : Detached o) :
    Announces k v chan dateTime h o := by
  cases o <;> first | exact ho | cases ho

theorem detached_of_confined {ts : List Tbl} (hts : .tgGroupAdmins ∉ ts) (h : Confined ts o) : Detached o := by
  have hTargets : o.targets.all (· ∈ ts) = true → decide (.tgGroupAdmins ∉ o.targets) = true := by
    simp only [List.all_eq_true, decide_eq_true_eq]
    exact fun hAll hMem => hts (hAll _ hMem)
  cases o <;> first | exact hTargets h | cases h

theorem pushed_of_detached {e : Answered} (he : Detached e.op) : pushed e = none := by
  unfold pushed
  split
  · cases he
  · rfl

theorem resolveUser_detached (d : Data) (dateTime : String) :
    (User.resolveUser { data := some d, dateTime := dateTime }).Uses Detached :=
  inTransaction_uses ⟨rfl, rfl, rfl⟩ ⟨rfl, rfl, rfl⟩
    ((User.resolveUserInternal_confined _ d).mono fun _ => detached_of_confined (by decide))

theorem trackPhoto_detached (md5 : String → String) (user : User) : (User.trackPhoto md5 user).Uses Detached := by
  unfold User.trackPhoto
  split
  · rename_i u d _ _
    refine .tryFinally (.bind (.perform rfl) fun _ => .bind ?_ fun _ => .perform rfl) (.perform rfl)
    refine .bind (.perform rfl) fun answer => .bind (.ofExcept _) fun photo => ?_
    split
    · refine .bind (strArg_uses _) fun tgFileId => .bind ?_ fun fileId => ?_
      · refine .tryFinally (.bind (.perform rfl) fun _ => .bind ?_ fun _ => .bind (.perform rfl) fun _ => trivial)
          (.perform rfl)
        exact (File.resolveOrDownload_confined _ _ _).mono fun _ => detached_of_confined (by decide)
      · exact (User.savePhoto_confined _ d u fileId).mono fun _ => detached_of_confined (by decide)
    · trivial
  · trivial

theorem adminUser_guarded (md5 : String → String) (k : Key) (v : Php) (chan : Nat) (dateTime : String) :
    (code md5 (.adminUser k v chan dateTime)).Guarded Possible (Announces k v chan dateTime) (fun _ _ => True) [] := by
  refine .bind (Q := fun out h => ∀ a, out = .ok a → h = [⟨.connect, .ok ()⟩]) (.perform rfl ?_) ?_ fun _ _ _ => trivial
  · rintro r _ a rfl
    rfl
  intro a h hConnect
  rw [hConnect a rfl]
  refine .bind (.ofExcept (Q := fun out h => out = Data.constructUserData (v.read "user") ∧ h = [⟨.connect, .ok ()⟩])
    ⟨rfl, rfl⟩) ?_ fun _ _ _ => trivial
  rintro d _ ⟨hUser, rfl⟩
  refine .bind (.traced (resolveUser_detached d dateTime) fun _ _ _ => announces_of_detached) ?_ fun _ _ _ => trivial
  rintro ⟨user, u⟩ _ ⟨tr, rfl, hExec, hTr⟩
  have hPushed : (⟨.connect, .ok ()⟩ :: tr : List Answered).filterMap pushed = [] := by
    refine List.filterMap_eq_nil_iff.mpr fun e he => ?_
    rcases List.mem_cons.mp he with rfl | he
    · rfl
    · exact pushed_of_detached (hTr e he)
  refine ⟨⟨rfl, hPushed, u, rfl, d, user, tr, [], hUser.symm, by simp, hExec⟩, fun r _ => ?_⟩
  cases r with
  | ok _ => exact (Prog.Keeps.traced (trackPhoto_detached md5 user) fun _ _ _ => announces_of_detached).mono fun _ _ _ => trivial
  | error e => trivial

end TeaBot.Loggers.Admins
