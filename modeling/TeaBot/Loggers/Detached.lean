import TeaBot.Loggers.Handler
import TeaBot.Loggers.World

/-! # Coroutines without a handler

Nothing catches what leaves a coroutine that was started with `go`. Which coroutines end
normally can be read off the operations they have made: none has raised but a download that
is tried again, and no answer about photos has a shape that raises.
-/

namespace TeaBot.Loggers

open Foundation Foundation.Sql

def Failed (e : Answered) : Prop := ∃ t, e.answer = .error t

def Possible (e : Answered) : Prop := ∀ t, e.answer = .error t → e.op.raises t = true

def Op.keyed : (o : Op) → Except Throwable o.Res → Bool
  | .fetch .., .ok row => row.all fun u => (u .id).intParam.isSome
  | _, _ => true

/-- What an operation can do and what the server can answer. -/
structure Genuine (e : Answered) : Prop where
  possible : Possible e
  keyed : e.op.keyed e.answer = true

def started (tr : List Answered) : List Job := tr.flatMap fun e => spawned e.op e.answer

/-! ## What raises -/

def measured (p : Php) : Bool := !(p.read "width").isArray && !(p.read "height").isArray

/-- Two sizes or more are compared, and one of them has an array for its width or height. -/
def incomparable (sizes : List Php) : Bool := decide (2 ≤ sizes.length) && sizes.any fun p => !measured p

/-- The sizes cannot be compared, or the `file_id` of the largest is an array. -/
def badProfilePhotos (j : Php) : Bool :=
  match ((j.get (.str "result")).get (.str "photos")).get (.int 0) with
  | .arr sizes => incomparable sizes.values ||
    (User.highestResolution sizes.values).toOption.any fun p => (p.get (.str "file_id")).isArray
  | _ => false

def badChatPhoto (j : Php) : Bool :=
  (((j.get (.str "result")).get (.str "photo")).get (.str "big_file_id")).isArray

/-- The operation raises, or the next thing the code does with its answer. -/
def Op.fatal : (o : Op) → Except Throwable o.Res → Bool
  | .download .., .error t => !t.isException
  | _, .error _ => true
  | .exe (.getUserProfilePhotos _), .ok j => badProfilePhotos j
  | .exe (.getChat _), .ok j => badChatPhoto j
  | _, _ => false

/-- The entry of an administrator that its coroutine is given has a user with an id, a first
name and `is_bot`. -/
def Job.proper : Job → Bool
  | .adminUser _ v _ _ =>
    match v.read "user" with
    | .arr entries => Data.requiredFields.all fun f => (entries.lookup (.str f)).isSome
    | _ => false
  | _ => true

variable {chan : Nat} {k : Key} {v : Php} {dateTime : String}

theorem constructUserData_ok (h : (Job.adminUser k v chan dateTime).proper = true) :
    ∃ d, Data.constructUserData (v.read "user") = .ok d := by
  simp only [Job.proper] at h
  split at h
  · rename_i entries hUser
    have hNone : Data.missingFields entries = [] :=
      List.filter_eq_nil_iff.mpr fun f hf => by simpa [Option.isSome_iff_ne_none] using List.all_eq_true.mp h f hf
    exact ⟨_, by rw [hUser, Data.constructUserData, if_pos hNone]⟩
  · cases h

theorem constructUserData_error (h : (Job.adminUser k v chan dateTime).proper = false) :
    ∃ e, Data.constructUserData (v.read "user") = .error e := by
  simp only [Job.proper] at h
  split at h
  · rename_i entries hUser
    have hSome : Data.missingFields entries ≠ [] := by
      intro hNone
      refine Bool.false_ne_true (h.symm.trans (List.all_eq_true.mpr fun f hf => ?_))
      simpa [Option.isSome_iff_ne_none] using List.filter_eq_nil_iff.mp hNone f hf
    exact ⟨_, by rw [hUser, Data.constructUserData, if_neg hSome]⟩
  · rename_i hNot
    cases hUser : v.read "user" with
    | arr entries => exact absurd hUser (hNot entries)
    | _ => exact ⟨_, rfl⟩

theorem area_ok {p : Php} (h : measured p = true) : ∃ q, User.area p = .ok q := by
  unfold User.area
  split <;> simp_all [measured, Php.isArray]

theorem area_error {p : Php} (h : measured p = false) : ∃ e, User.area p = .error e := by
  unfold User.area
  split
  · exact ⟨_, rfl⟩
  · exact ⟨_, rfl⟩
  · rename_i hWidth hHeight
    cases hw : p.read "width" with
    | arr entries => exact absurd hw (hWidth entries)
    | _ =>
      cases hh : p.read "height" with
      | arr entries => exact absurd hh (hHeight entries)
      | _ => simp [measured, hw, hh, Php.isArray] at h

theorem highestResolution_ok {sizes : List Php} (h : ∀ p ∈ sizes, measured p = true) :
    ∃ best, User.highestResolution sizes = .ok best ∧ (sizes ≠ [] → best ∈ sizes) := by
  match sizes with
  | [] => exact ⟨.null, rfl, fun hNe => absurd rfl hNe⟩
  | [p] => exact ⟨p, rfl, fun _ => List.mem_singleton_self p⟩
  | p :: q :: rest =>
    obtain ⟨hHead, hTail⟩ := List.forall_mem_cons.mp h
    obtain ⟨best, hBest, hMem⟩ := highestResolution_ok hTail
    have hMem := hMem nofun
    obtain ⟨a, ha⟩ := area_ok hHead
    obtain ⟨b, hb⟩ := area_ok (hTail best hMem)
    refine ⟨if b ≤ a then p else best, ?_, fun _ => ?_⟩
    · simp [User.highestResolution, hBest, ha, hb, bind, Except.bind, pure, Except.pure]
    · split
      · exact List.mem_cons_self
      · exact List.mem_cons_of_mem p hMem

theorem highestResolution_error {sizes : List Php} (hTwo : 2 ≤ sizes.length) (h : ∃ p ∈ sizes, measured p = false) :
    ∃ e, User.highestResolution sizes = .error e := by
  match sizes with
  | [] => simp at hTwo
  | [_] => simp at hTwo
  | p :: q :: rest =>
    simp only [User.highestResolution, bind, Except.bind]
    cases hBest : User.highestResolution (q :: rest) with
    | error e => exact ⟨e, rfl⟩
    | ok best =>
      cases ha : User.area p with
      | error e => exact ⟨e, rfl⟩
      | ok a =>
        -- the others are measured, or comparing them would have raised
        obtain ⟨bad, hBad, hUnmeasured⟩ := h
        have hRest : bad ∈ q :: rest := by
          rcases List.mem_cons.mp hBad with rfl | hRest
          · obtain ⟨e, he⟩ := area_error hUnmeasured
            cases he.symm.trans ha
          · exact hRest
        cases rest with
        | nil =>
          obtain rfl := List.mem_singleton.mp hRest
          cases hBest
          obtain ⟨e, he⟩ := area_error hUnmeasured
          exact ⟨e, by simp only [he]⟩
        | cons r rest =>
          obtain ⟨e, he⟩ := highestResolution_error (by simp) ⟨bad, hRest, hUnmeasured⟩
          cases he.symm.trans hBest

theorem incomparable_iff {sizes : List Php} :
    incomparable sizes = true ↔ 2 ≤ sizes.length ∧ ∃ p ∈ sizes, measured p = false := by
  simp [incomparable]

theorem highestResolution_of_comparable {sizes : List Php} (h : incomparable sizes = false) :
    ∃ best, User.highestResolution sizes = .ok best := by
  by_cases hTwo : 2 ≤ sizes.length
  · refine (highestResolution_ok fun p hp => ?_).imp fun _ hBest => hBest.1
    by_contra hNot
    exact Bool.false_ne_true (h.symm.trans (incomparable_iff.mpr ⟨hTwo, p, hp, Bool.eq_false_iff.mpr hNot⟩))
  · match sizes with
    | [] => exact ⟨_, rfl⟩
    | [p] => exact ⟨_, rfl⟩
    | _ :: _ :: _ => exact absurd (by simp) hTwo

theorem profilePhoto_cases (j : Php) :
    (badProfilePhotos j = true ∧ ((∃ e, User.profilePhoto j = .error e) ∨
      ∃ photo, User.profilePhoto j = .ok photo ∧ photo.isArray = true)) ∨
    (badProfilePhotos j = false ∧ ∃ photo, User.profilePhoto j = .ok photo ∧ photo.isArray = false) := by
  unfold badProfilePhotos User.profilePhoto
  cases ((j.get (.str "result")).get (.str "photos")).get (.int 0) with
  | arr sizes =>
    cases hSizes : incomparable sizes.values with
    | true =>
      obtain ⟨hTwo, hBad⟩ := incomparable_iff.mp hSizes
      obtain ⟨e, he⟩ := highestResolution_error hTwo hBad
      exact .inl ⟨by simp [hSizes], .inl ⟨e, by simp only [he]; rfl⟩⟩
    | false =>
      obtain ⟨best, hBest⟩ := highestResolution_of_comparable hSizes
      simp only [hBest, hSizes]
      cases hId : (best.get (.str "file_id")).isArray with
      | true => exact .inl ⟨by simp [Except.toOption, hId], .inr ⟨_, rfl, hId⟩⟩
      | false => exact .inr ⟨by simp [Except.toOption, hId], _, rfl, hId⟩
  | _ => exact .inr ⟨rfl, .null, rfl, rfl⟩

/-! ## Programs that raise only then -/

def Calm (h : List Answered) : Prop := ∀ e ∈ h, e.op.fatal e.answer = false

/-- The jobs that are started have the objects that their methods ask for. -/
def Launched : Job → Prop
  | .userTrackPhoto self => ∃ u d, self.u = some u ∧ self.data = some d ∧ u.id.intParam.isSome = true
  | .groupTrackPhoto self => ∃ u d, self.u = some u ∧ self.data = some d ∧ u.id.intParam.isSome = true
  | .trackAdmins self => ∃ u d, self.u = some u ∧ self.data = some d ∧ u.id.intParam.isSome = true
  | .adminUser .. => True
  | _ => False

def Launches : Op → Prop
  | .go job => Launched job
  | _ => True

/-- As long as nothing fatal has happened the program goes on, and returns what meets `P`. -/
def Smooth {α : Type} (P : α → Prop) (p : Run α) : Prop :=
  ∀ h, Calm h → p.Guarded Genuine (fun _ o => Launches o)
    (fun out h' => (out.isOk = true ↔ Calm h') ∧ ∀ a, out = .ok a → P a) h

variable {h : List Answered}

theorem calm_append {e : Answered} : Calm (h ++ [e]) ↔ Calm h ∧ e.op.fatal e.answer = false := by
  simp [Calm, or_imp, forall_and]

def Op.ordinary : Op → Bool
  | .go _ | .download .. | .exe (.getUserProfilePhotos _) | .exe (.getChat _) => false
  | _ => true

variable {o : Op}

theorem Op.ordinary_ok (h : o.ordinary = true) (a : o.Res) : o.fatal (.ok a) = false := by
  cases o with
  | exe call => cases call <;> first | rfl | cases h
  | _ => rfl

theorem Op.ordinary_launches (h : o.ordinary = true) : Launches o := by
  cases o with
  | go job => cases h
  | _ => trivial

theorem Op.ordinary_error {t : Throwable} (h : o.ordinary = true) : o.fatal (.error t) = true := by
  cases o <;> first | rfl | cases h

variable {job : Job}

namespace Smooth

variable {α β : Type} {P : α → Prop} {Q : β → Prop}

theorem ret {a : α} (h : P a) : Smooth P (.ret a) := by
  refine fun hist hCalm => ⟨⟨fun _ => hCalm, fun _ => rfl⟩, fun b hb => ?_⟩
  cases hb
  exact h

theorem bind {p : Run α} {f : α → Run β} (hp : Smooth P p) (hf : ∀ a, P a → Smooth Q (f a)) :
    Smooth Q (p.bind f) := by
  refine fun hist hCalm => (hp hist hCalm).bind ?_ ?_
  · exact fun a h' hOut => hf a (hOut.2 a rfl) h' (hOut.1.mp rfl)
  · exact fun e h' hOut => ⟨hOut.1, nofun⟩

variable {f : o.Res → Run α}

theorem perform_bind (hLaunches : Launches o) (hError : ∀ t, o.fatal (.error t) = true)
    (hGood : ∀ a, o.keyed (.ok a) = true → o.fatal (.ok a) = false → Smooth P (f a))
    (hBad : ∀ a, o.fatal (.ok a) = true → ∃ e, f a = .throw e) : Smooth P ((perform o).bind f) := by
  refine fun hist hCalm => .perform_bind hLaunches (fun t hr => ⟨⟨nofun, fun hAll => ?_⟩, nofun⟩) fun a hr => ?_
  · cases (hError t).symm.trans (calm_append.mp hAll).2
  · cases hFatal : o.fatal (.ok a) with
    | false => exact hGood a hr.keyed hFatal _ (calm_append.mpr ⟨hCalm, hFatal⟩)
    | true =>
      obtain ⟨e, he⟩ := hBad a hFatal
      rw [he]
      refine ⟨⟨nofun, fun hAll => ?_⟩, nofun⟩
      cases hFatal.symm.trans (calm_append.mp hAll).2

theorem step (hOrdinary : o.ordinary = true) (hf : ∀ a, o.keyed (.ok a) = true → Smooth P (f a)) :
    Smooth P ((perform o).bind f) := by
  refine perform_bind (Op.ordinary_launches hOrdinary) (fun _ => Op.ordinary_error hOrdinary)
    (fun a hKeyed _ => hf a hKeyed) fun a hFatal => ?_
  cases (Op.ordinary_ok hOrdinary a).symm.trans hFatal

theorem last (hOrdinary : o.ordinary = true) : Smooth (fun _ => True) (perform o) := by
  have hRet : Smooth (fun _ => True) ((perform o).bind .ret) := step hOrdinary fun _ _ => ret trivial
  rwa [Prog.bind_pure] at hRet

theorem go {f : Unit → Run α} (hJob : Launched job) (hf : Smooth P (f ())) : Smooth P ((perform (.go job)).bind f) :=
  perform_bind hJob (fun _ => rfl) (fun _ _ _ => hf) nofun

theorem launch (hJob : Launched job) : Smooth (fun _ => True) (perform (.go job)) := by
  have hRet : Smooth (fun _ => True) ((perform (.go job)).bind .ret) := go hJob (ret trivial)
  rwa [Prog.bind_pure] at hRet

theorem when {b : Bool} {p : Run Unit} (hp : Smooth (fun _ => True) p) : Smooth (fun _ => True) (Prog.when b p) := by
  cases b with
  | true => exact hp
  | false => exact ret trivial

variable {m : Mutex}

variable {body : Run α}

theorem mutex_scoped (h : Smooth P body) : Smooth P (m.scoped body) := by
  refine fun hist hCalm => .tryFinally (h hist hCalm) fun out h' hOut => .perform trivial fun r hr => ?_
  cases r with
  | ok _ =>
    exact ⟨hOut.1.trans ⟨fun hAll => calm_append.mpr ⟨hAll, rfl⟩, fun hAll => (calm_append.mp hAll).1⟩, hOut.2⟩
  | error t => exact absurd (hr.possible t rfl) Bool.false_ne_true

theorem rethrow {e : Throwable} (hNot : ¬ Calm h) :
    ((perform .rollback).bind fun _ => (perform (.unlock m)).bind fun _ =>
      (.throw e : Run α)).Guarded Genuine (fun _ o => Launches o)
      (fun out h' => (out.isOk = true ↔ Calm h') ∧ ∀ a, out = .ok a → P a) h := by
  have hMore : ∀ {h : List Answered}, ¬ Calm h → ∀ e, ¬ Calm (h ++ [e]) := fun hNot e hAll => hNot (calm_append.mp hAll).1
  have hEnd : ∀ {h : List Answered} {t : Throwable}, ¬ Calm h →
      ((Except.error t : Except Throwable α).isOk = true ↔ Calm h) ∧ ∀ a, Except.error t = .ok a → P a :=
    fun hNot => ⟨⟨nofun, fun hAll => absurd hAll hNot⟩, nofun⟩
  refine .perform_bind trivial (fun _ _ => hEnd (hMore hNot _)) fun _ _ => ?_
  exact .perform_bind trivial (fun _ _ => hEnd (hMore (hMore hNot _) _)) fun _ _ => hEnd (hMore (hMore hNot _) _)

theorem inTransaction (h : Smooth P body) : Smooth P (inTransaction m body) := by
  have hTry : Smooth P (catchException (Prog.bind (perform .beginTransaction) fun _ => body.bind fun ret =>
      (perform .commit).bind fun _ => .ret ret) fun e => (perform .rollback).bind fun _ =>
        (perform (.unlock m)).bind fun _ => .throw e) := by
    have hBody : Smooth P (Prog.bind (perform .beginTransaction) fun _ => body.bind fun ret =>
        (perform .commit).bind fun _ => .ret ret) :=
      step rfl fun _ _ => h.bind fun a ha => step rfl fun _ _ => ret ha
    refine fun hist hCalm => .tryCatch (hBody hist hCalm) (fun _ _ hOut => hOut) fun e h' hOut => ?_
    have hNot : ¬ Calm h' := fun hAll => Bool.false_ne_true (hOut.1.mpr hAll)
    split
    · exact rethrow hNot
    · exact ⟨⟨nofun, fun hAll => absurd hAll hNot⟩, nofun⟩
  exact mutex_scoped (step rfl fun _ _ => hTry.bind fun a ha => step rfl fun _ _ => ret ha)

theorem download (path file : String) : Smooth (fun _ => True)
    (catchException (perform (.download path file)) fun _ => pure false) := by
  refine fun hist hCalm => .tryCatch (Q := fun out h' => match out with
    | .ok _ => Calm h'
    | .error t => Calm h' ↔ t.isException = true) ?_ ?_ ?_
  · refine .perform trivial fun r _ => ?_
    cases r with
    | ok success => exact calm_append.mpr ⟨hCalm, rfl⟩
    | error t => simp [Prog.history, calm_append, hCalm, Op.fatal]
  · exact fun success h' hAll => ⟨⟨fun _ => hAll, fun _ => rfl⟩, fun _ _ => trivial⟩
  · intro t h' hIff
    split
    · rename_i hException
      exact ⟨⟨fun _ => hIff.mpr hException, fun _ => rfl⟩, fun _ _ => trivial⟩
    · rename_i hError
      exact ⟨⟨fun hOk => absurd hOk Bool.false_ne_true, fun hAll => absurd (hIff.mp hAll) hError⟩,
        fun _ hEq => (by cases hEq)⟩

theorem intArg (h : v.intParam.isSome = true) : Smooth (fun _ => True) (intArg v) := by
  obtain ⟨n, hn⟩ := Option.isSome_iff_exists.mp h
  rw [TeaBot.intArg, hn]
  exact ret trivial

end Smooth

/-! ## The jobs -/

/-- What `resolveUser` leaves in its object. -/
def User.Resolved (d : Data) (r : User × UserInfo) : Prop :=
  r.1.u = some r.2 ∧ r.1.data = some d ∧ r.2.id.intParam.isSome = true

def Group.Resolved (d : Data) (r : Group × GroupInfo) : Prop :=
  r.1.u = some r.2 ∧ r.1.data = some d ∧ r.2.id.intParam.isSome = true

section Jobs

variable {d : Data}

variable {id : Php}

theorem createUserHistory_smooth (self : User) (d : Data) (hId : id.intParam.isSome = true) :
    Smooth (fun r => r.u = self.u ∧ r.data = self.data) (User.createUserHistory self d id) :=
  (Smooth.intArg hId).bind fun _ _ => .step rfl fun _ _ => .step rfl fun _ _ => .ret ⟨rfl, rfl⟩

theorem createGroupHistory_smooth (self : Group) (d : Data) (hId : id.intParam.isSome = true) :
    Smooth (fun r => r.u = self.u ∧ r.data = self.data) (Group.createGroupHistory self d id) :=
  (Smooth.intArg hId).bind fun _ _ => .step rfl fun _ _ => .step rfl fun _ _ => .ret ⟨rfl, rfl⟩

variable {row : Option (Col → Php)}

theorem userRow_smooth {self : User} (hData : self.data = some d)
    (hKeyed : (row.all fun u => (u .id).intParam.isSome) = true) :
    Smooth (User.Resolved d) (User.resolveRow self d row) := by
  cases row with
  | some row =>
    refine Smooth.bind (P := fun self' => self'.data = some d) ?_ fun self' hSelf => .ret ⟨rfl, hSelf, hKeyed⟩
    unfold User.trackUserUpdate
    split
    · exact .step rfl fun _ _ => .ret hData
    · exact .ret hData
  | none =>
    refine Smooth.bind (P := fun r => r.1.data = some d) ?_ fun r hSelf => .ret ⟨rfl, hSelf, rfl⟩
    exact .step rfl fun _ _ => .step rfl fun _ _ => .ret hData

variable {self : Group}

theorem groupRow_smooth (hData : self.data = some d) (hKeyed : (row.all fun u => (u .id).intParam.isSome) = true) :
    Smooth (Group.Resolved d) (Group.resolveRow self d row) := by
  cases row with
  | some row =>
    refine Smooth.bind (P := fun self' => self'.data = some d) ?_ fun self' hSelf => .ret ⟨rfl, hSelf, hKeyed⟩
    unfold Group.trackGroupUpdate
    split
    · exact .step rfl fun _ _ => .ret hData
    · exact .ret hData
  | none =>
    refine Smooth.bind (P := fun r => r.1.data = some d) ?_ fun r hSelf => .ret ⟨rfl, hSelf, rfl⟩
    exact .step rfl fun _ _ => .step rfl fun _ _ => .ret hData

theorem resolveUser_smooth {self : User} (hData : self.data = some d) :
    Smooth (User.Resolved d) (User.resolveUser self) := by
  have hBody : Smooth (User.Resolved d) (User.resolveUserInternal self d) := by
    refine .step rfl fun row hKeyed => (userRow_smooth hData hKeyed).bind fun r hr => ?_
    obtain ⟨self', u⟩ := r
    simp only [User.recordHistory]
    split
    · exact (createUserHistory_smooth self' d hr.2.2).bind fun _ hSame =>
        .ret ⟨hSame.1.trans hr.1, hSame.2.trans hr.2.1, hr.2.2⟩
    · exact .ret hr
  have hEq : User.resolveUser self = inTransaction (User.userMutex d) (User.resolveUserInternal self d) := by
    rw [User.resolveUser, hData]
    rfl
  rw [hEq]
  exact .inTransaction hBody

theorem resolveGroup_smooth (hData : self.data = some d) : Smooth (Group.Resolved d) (Group.resolveGroup self) := by
  have hBody : Smooth (Group.Resolved d) (Group.resolveGroupInternal self d) := by
    refine .step rfl fun row hKeyed => (groupRow_smooth hData hKeyed).bind fun r hr => ?_
    obtain ⟨self', u⟩ := r
    simp only [Group.recordHistory]
    split
    · exact (createGroupHistory_smooth self' d hr.2.2).bind fun _ hSame =>
        .ret ⟨hSame.1.trans hr.1, hSame.2.trans hr.2.1, hr.2.2⟩
    · exact .ret hr
  have hEq : Group.resolveGroup self = inTransaction (Group.groupMutex d) (Group.resolveGroupInternal self d) := by
    rw [Group.resolveGroup, hData]
    rfl
  rw [hEq]
  exact .inTransaction hBody

theorem store_smooth (j : Php) (ext : Option String) (tmpFile : String) :
    Smooth (fun _ => True) (File.store j ext tmpFile) := by
  refine .step rfl fun _ _ => .step rfl fun _ _ => .step rfl fun moved _ => ?_
  cases moved with
  | true => exact .ret trivial
  | false =>
    refine .step rfl fun kept _ => ?_
    cases kept with
    | true => exact .ret trivial
    | false => exact .ret trivial

theorem attempt_smooth (j : Php) (tmpFile : String) (stat : Option Nat) :
    Smooth (fun _ => True) (File.attempt j tmpFile stat) := by
  refine (Smooth.download _ tmpFile).bind fun success _ => ?_
  cases success with
  | true => exact .step rfl fun _ _ => .ret trivial
  | false => exact .ret trivial

theorem downloadFrom_smooth (j : Php) (ext : Option String) (tmpFile : String) (fuel downTry : Nat) (stat : Option Nat) :
    Smooth (fun _ => True) (File.downloadFrom j ext tmpFile fuel downTry stat) := by
  induction fuel generalizing downTry stat with
  | zero => exact .ret trivial
  | succ fuel ih =>
    refine (attempt_smooth j tmpFile stat).bind fun ⟨complete, stat'⟩ _ => ?_
    cases complete with
    | true => exact store_smooth j ext tmpFile
    | false =>
      by_cases hLast : downTry + 1 > 5
      · simpa only [if_neg Bool.false_ne_true, if_pos hLast] using .ret trivial
      · simpa only [if_neg Bool.false_ne_true, if_neg hLast] using ih (downTry + 1) stat'

theorem downloadFile_smooth (tgFileId uniqId : String) :
    Smooth (fun _ => True) (File.downloadFile tgFileId uniqId) := by
  refine .step rfl fun answer _ => ?_
  dsimp only
  split
  · exact downloadFrom_smooth _ _ _ _ _ _
  · exact .ret trivial

theorem resolveFile_smooth (md5 : String → String) (tgFileId dateTime : String) :
    Smooth (fun _ => True) (File.resolveFile md5 tgFileId dateTime) := by
  refine .mutex_scoped (.step rfl fun _ _ => Smooth.bind (P := fun _ => True) ?_ fun _ _ => .step rfl fun _ _ => .ret trivial)
  refine .step rfl fun row _ => ?_
  cases row with
  | some u => exact .ret trivial
  | none =>
    refine (downloadFile_smooth _ _).bind fun found _ => ?_
    cases found with
    | none => exact .ret trivial
    | some u =>
      refine Smooth.bind (P := fun _ => True) ?_ fun _ _ => .ret trivial
      exact .step rfl fun _ _ => .step rfl fun _ _ => .last rfl

theorem userPhoto_smooth (self : User) (d : Data) {u : UserInfo} (hId : u.id.intParam.isSome = true)
    (fileId : Option Nat) : Smooth (fun _ => True) (User.savePhoto self d u fileId) := by
  cases fileId with
  | none => exact .ret trivial
  | some fileId =>
    simp only [User.savePhoto]
    split
    · split
      · exact .step rfl fun _ _ => (createUserHistory_smooth self d hId).bind fun _ _ => .ret trivial
      · exact .last rfl
    · exact .ret trivial

theorem groupPhoto_smooth (self : Group) (d : Data) {u : GroupInfo} (hId : u.id.intParam.isSome = true)
    (fileId : Option Nat) : Smooth (fun _ => True) (Group.savePhoto self d u fileId) := by
  cases fileId with
  | none => exact .ret trivial
  | some fileId =>
    simp only [Group.savePhoto]
    split
    · split
      · exact .step rfl fun _ _ => (createGroupHistory_smooth self d hId).bind fun _ _ => .ret trivial
      · exact .last rfl
    · exact .ret trivial

variable {photo : Php}

theorem photo_smooth (md5 : String → String) (dateTime : String) (hPhoto : photo.isArray = false)
    {save : Option Nat → Run Unit} (hSave : ∀ fileId, Smooth (fun _ => True) (save fileId)) :
    Smooth (fun _ => True) (if photo.isset then
      (strArg photo).bind fun tgFileId => (File.resolveFile md5 tgFileId dateTime).bind save else .ret ()) := by
  split
  · rename_i hSet
    obtain ⟨s, hs⟩ : ∃ s, (strArg photo : Run String) = .ret s := by
      cases photo with
      | null => cases hSet
      | arr entries => cases hPhoto
      | _ => exact ⟨_, rfl⟩
    rw [hs]
    exact (resolveFile_smooth md5 s dateTime).bind fun fileId _ => hSave fileId
  · exact .ret trivial

theorem photo_throws (md5 : String → String) (dateTime : String) (hPhoto : photo.isArray = true)
    (save : Option Nat → Run Unit) : ∃ e, (if photo.isset then
      (strArg photo).bind fun tgFileId => (File.resolveFile md5 tgFileId dateTime).bind save else .ret ()) = .throw e := by
  cases photo with
  | arr entries => exact ⟨_, rfl⟩
  | _ => cases hPhoto

theorem userTrackPhoto_smooth (md5 : String → String) {self : User} (h : Launched (.userTrackPhoto self)) :
    Smooth (fun _ => True) (User.trackPhoto md5 self) := by
  obtain ⟨u, d, hu, hd, hId⟩ := h
  have hSave := userPhoto_smooth self d hId
  rw [User.trackPhoto, hu, hd]
  refine .mutex_scoped (.step rfl fun _ _ => Smooth.bind (P := fun _ => True) ?_ fun _ _ => .last rfl)
  refine .perform_bind trivial (fun _ => rfl) (fun j _ hGood => ?_) fun j hBad => ?_
  · rcases profilePhoto_cases j with ⟨hBad, _⟩ | ⟨_, photo, hPhoto, hArr⟩
    · cases hBad.symm.trans hGood
    · rw [hPhoto]
      exact photo_smooth md5 self.dateTime hArr hSave
  · rcases profilePhoto_cases j with ⟨_, ⟨e, he⟩ | ⟨photo, hPhoto, hArr⟩⟩ | ⟨hGood, _⟩
    · exact ⟨e, by rw [he]; rfl⟩
    · rw [hPhoto]
      exact photo_throws md5 self.dateTime hArr _
    · cases hBad.symm.trans hGood

theorem groupTrackPhoto_smooth (md5 : String → String) (h : Launched (.groupTrackPhoto self)) :
    Smooth (fun _ => True) (Group.trackPhoto md5 self) := by
  obtain ⟨u, d, hu, hd, hId⟩ := h
  rw [Group.trackPhoto, hu, hd]
  refine .mutex_scoped (.step rfl fun _ _ => Smooth.bind (P := fun _ => True) ?_ fun _ _ => .last rfl)
  refine .perform_bind trivial (fun _ => rfl) (fun j _ hGood => ?_) fun j hBad => ?_
  · exact photo_smooth md5 self.dateTime hGood (groupPhoto_smooth self d hId)
  · exact photo_throws md5 self.dateTime hBad _

theorem startAll_smooth (chan : Nat) (dateTime : String) (admins : PhpArray) :
    Smooth (fun _ => True) (Group.startAll chan dateTime admins) := by
  match admins with
  | .nil => exact .ret trivial
  | .cons k v rest => exact .go trivial (startAll_smooth chan dateTime rest)

theorem popAll_smooth (chan n : Nat) : Smooth (fun _ => True) (Group.popAll chan n) := by
  induction n with
  | zero => exact .ret trivial
  | succ n ih => exact .step rfl fun _ _ => ih.bind fun _ _ => .ret trivial

theorem trackAdmins_smooth (h : Launched (.trackAdmins self)) : Smooth (fun _ => True) (Group.trackAdmins self) := by
  obtain ⟨u, d, hu, hd, -⟩ := h
  rw [Group.trackAdmins, hu, hd]
  refine .mutex_scoped (.step rfl fun _ _ => Smooth.bind (P := fun _ => True) ?_ fun _ _ => .last rfl)
  refine .step rfl fun j _ => ?_
  split
  · rename_i admins _
    refine .step rfl fun chan _ => (startAll_smooth chan _ admins).bind fun _ _ => (popAll_smooth chan _).bind fun rows _ => ?_
    refine .step rfl fun _ _ => ?_
    split
    · exact .ret trivial
    · exact .last rfl
  · exact .ret trivial

theorem adminUser_smooth (md5 : String → String) (h : (Job.adminUser k v chan dateTime).proper = true) :
    Smooth (fun _ => True) (Group.adminUser md5 k v chan dateTime) := by
  obtain ⟨d, hd⟩ := constructUserData_ok h
  refine .step rfl fun _ _ => ?_
  rw [hd]
  refine (resolveUser_smooth rfl).bind fun ⟨user, u⟩ hUser => .step rfl fun _ _ => ?_
  exact userTrackPhoto_smooth md5 ⟨u, d, hUser⟩

theorem code_smooth (md5 : String → String) (hJob : Launched job) (hProper : job.proper = true) :
    Smooth (fun _ => True) (code md5 job) := by
  cases job with
  | userTrackPhoto self => exact .step rfl fun _ _ => userTrackPhoto_smooth md5 hJob
  | groupTrackPhoto self => exact .step rfl fun _ _ => groupTrackPhoto_smooth md5 hJob
  | trackAdmins self => exact .step rfl fun _ _ => trackAdmins_smooth hJob
  | adminUser k v chan dateTime => exact adminUser_smooth md5 hProper
  | _ => exact hJob.elim

end Jobs

/-! ## All that a connection has started -/

theorem calm_nil : Calm [] := fun _ h => absurd h List.not_mem_nil

variable {tr : List Answered}

theorem started_launched {α : Type} {p : Run α} {out : Except Throwable α}
    {Q : Except Throwable α → List Answered → Prop} (hp : p.Guarded Genuine (fun _ o => Launches o) Q [])
    (hExec : p.Exec tr out) (hGenuine : ∀ e ∈ tr, Genuine e) : ∀ job ∈ started tr, Launched job := by
  intro job hJob
  obtain ⟨⟨o, r⟩, he, hSpawned⟩ := List.mem_flatMap.mp hJob
  obtain ⟨before, after, hTr⟩ := List.append_of_mem he
  have hLaunches := hp.event hExec hGenuine hTr
  cases o with
  | go job' =>
    cases r with
    | ok _ =>
      obtain rfl := List.mem_singleton.mp hSpawned
      exact hLaunches
    | error t => cases hSpawned
  | _ => cases hSpawned

theorem improper_eq (md5 : String → String) (hProper : job.proper = false) :
    ∃ e, code md5 job = (perform .connect).bind fun _ => .throw e := by
  cases job with
  | adminUser k v chan dateTime =>
    obtain ⟨e, he⟩ := constructUserData_error hProper
    refine ⟨e, ?_⟩
    rw [code, Group.adminUser, he]
    rfl
  | _ => cases hProper

theorem code_launches (md5 : String → String) (hJob : Launched job) :
    (code md5 job).Guarded Genuine (fun _ o => Launches o) (fun _ _ => True) [] := by
  cases hProper : job.proper with
  | true => exact (code_smooth md5 hJob hProper [] calm_nil).mono fun _ _ _ => trivial
  | false =>
    obtain ⟨e, he⟩ := improper_eq md5 hProper
    rw [he]
    exact .perform_bind trivial (fun _ _ => trivial) fun _ _ => trivial

theorem code_ends_iff (md5 : String → String) {out : Except Throwable Unit} (hJob : Launched job)
    (hExec : (code md5 job).Exec tr out) (hGenuine : ∀ e ∈ tr, Genuine e) :
    out = .ok () ↔ job.proper = true ∧ Calm tr := by
  cases hProper : job.proper with
  | true =>
    obtain ⟨hIff, -⟩ := (code_smooth md5 hJob hProper [] calm_nil).post hExec hGenuine
    rw [List.nil_append] at hIff
    rw [and_iff_right rfl, ← hIff]
    cases out with
    | ok _ => exact ⟨fun _ => rfl, fun _ => rfl⟩
    | error t => exact ⟨nofun, nofun⟩
  | false =>
    refine ⟨?_, nofun⟩
    rintro rfl
    obtain ⟨e, he⟩ := improper_eq md5 hProper
    rw [he] at hExec
    obtain ⟨_, _, _, _, _, hThrow⟩ := hExec.bind_ok
    cases hThrow

structure Ran where
  job : Job
  trace : List Answered
  out : Except Throwable Unit

/-- Coroutines that have run, each with those that it has started. -/
inductive Coroutines (md5 : String → String) : List Job → List Ran → Prop
  | nil : Coroutines md5 [] []
  | cons {j : Job} {js : List Job} {tr : List Answered} {out : Except Throwable Unit} {rs : List Ran} :
      (code md5 j).Exec tr out → (∀ e ∈ tr, Genuine e) → Coroutines md5 (started tr ++ js) rs →
      Coroutines md5 (j :: js) (⟨j, tr, out⟩ :: rs)

theorem Coroutines.ends_iff {md5 : String → String} {js : List Job} {rs : List Ran} (hRan : Coroutines md5 js rs)
    (hJobs : ∀ job ∈ js, Launched job) : ∀ r ∈ rs, r.out = .ok () ↔ r.job.proper = true ∧ Calm r.trace := by
  induction hRan with
  | nil => exact nofun
  | cons hExec hGenuine _ ih =>
    obtain ⟨hJob, hJobs⟩ := List.forall_mem_cons.mp hJobs
    have hStarted := started_launched (code_launches md5 hJob) hExec hGenuine
    refine List.forall_mem_cons.mpr ⟨code_ends_iff md5 hJob hExec hGenuine, ih fun job hMem => ?_⟩
    exact (List.mem_append.mp hMem).elim (hStarted job) (hJobs job)

end TeaBot.Loggers
