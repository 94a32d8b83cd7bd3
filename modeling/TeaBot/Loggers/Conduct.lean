import TeaBot.Loggers.Duties
import TeaBot.Loggers.Handler

/-! # What the runtime may take for granted of a coroutine

Beyond its duties: it unlocks only what it has locked, and it never has more rows
to push than the channel they go to has room for.
-/

namespace TeaBot.Loggers

open Foundation

/-- `budget` is how many more rows may go to the coroutine's channel through it. -/
structure Conduct where
  duty : Duty := {}
  budget : Nat := 0

namespace Conduct

def Admits (c : Conduct) (o : Op) : Prop :=
  c.duty.Admits o ∧
    match o with
    | .unlock m => m ∈ c.duty.held
    | .go (.adminUser ..) | .push .. => 0 < c.budget
    | _ => True

def after (c : Conduct) (o : Op) (r : Except Throwable o.Res) : Conduct where
  duty := c.duty.after o r
  budget :=
    match o, r with
    | .newChannel capacity, .ok _ => if capacity = 0 then 1 else capacity
    | .go (.adminUser ..), _ => c.budget - 1
    | .push .., _ => c.budget - 1
    | _, _ => c.budget

end Conduct

def conduct : Discipline Op Op.Res Throwable Conduct where
  admits := Conduct.Admits
  answers o r := ∀ e, r = .error e → o.raises e = true
  after := Conduct.after

def Job.conduct (j : Job) : Conduct where
  duty := j.duty
  budget := if j.duty.chan = none then 0 else 1

abbrev Level {α : Type} (p : Run α) (c : Conduct) : Prop := p.Keeps conduct (fun _ c' => c' = c) c

section Level

variable {α β : Type} {c : Conduct} {m : Mutex}

variable {o : Op}

theorem conduct_admits_of_plain (h : Plain o) : c.Admits o := by
  refine ⟨admits_of_plain h, ?_⟩
  split <;> first | cases h | trivial

theorem conduct_after_of_plain {r : Except Throwable o.Res} (h : Plain o) : c.after o r = c := by
  unfold Conduct.after
  rw [after_of_plain h]
  split <;> first | cases h | rfl

theorem Level.of_plain {p : Run α} (h : p.Uses Plain) (c : Conduct) : Level p c := by
  refine .of_uses h (fun _ _ _ => conduct_admits_of_plain) ?_ rfl
  rintro c' o r rfl ho _
  exact conduct_after_of_plain ho

theorem Level.bind {p : Run α} {f : α → Run β} (hp : Level p c) (hf : ∀ a, Level (f a) c) :
    Level (p.bind f) c := by
  refine Prog.Keeps.bind hp ?_ fun _ _ h => h
  rintro a _ rfl
  exact hf a

theorem conduct_then {f : o.Res → Run α} {Q : Except Throwable α → Conduct → Prop} (hSilent : ∀ e, o.raises e = false)
    (hAdmits : c.Admits o) (hf : ∀ a, (f a).Keeps conduct Q (c.after o (.ok a))) :
    ((perform o).bind f).Keeps conduct Q c :=
  .perform_bind hAdmits (fun e hr => absurd (hr e rfl) (by simp [hSilent])) fun a _ => hf a

variable {body : Run α}

theorem scoped_conduct {C : Except Throwable α → Option (Nat × Int) → Nat → Prop}
    (hBody : body.Keeps conduct (fun out c' => (c'.duty.drop m).held = c.duty.held ∧ C out c'.duty.chan c'.budget) c) :
    (m.scoped body).Keeps conduct (fun out c' => c'.duty.held = c.duty.held ∧ C out c'.duty.chan c'.budget) c := by
  refine .tryFinally hBody fun out c' hc' => .perform ⟨trivial, trivial⟩ fun r hr => ?_
  cases r with
  | ok _ => exact hc'
  | error e => exact absurd (hr e rfl) Bool.false_ne_true

theorem locked_conduct {C : Except Throwable α → Option (Nat × Int) → Nat → Prop} (hAdmits : c.duty.Admits (.lock m))
    (hBody : body.Keeps conduct (fun out c' => c'.duty.held = m :: c.duty.held ∧ C out c'.duty.chan c'.budget)
      { c with duty := c.duty.take m }) :
    (m.scoped do
      perform (.lock m)
      let r ← body
      perform (.unlock m)
      pure r).Keeps conduct (fun out c' => c'.duty.held = c.duty.held ∧ C out c'.duty.chan c'.budget) c := by
  have hNot := notMem_of_admits hAdmits
  have hApart : ∀ m' ∈ c.duty.held, ¬ m' = m := fun m' hm' hEq => hNot (hEq ▸ hm')
  refine scoped_conduct (conduct_then (fun _ => rfl) ⟨hAdmits, trivial⟩ fun _ => hBody.bind ?_ ?_)
  · rintro a c' ⟨hHeld, hC⟩
    refine conduct_then (fun _ => rfl) ⟨trivial, hHeld ▸ List.mem_cons_self⟩ fun _ => ⟨?_, hC⟩
    simpa [Conduct.after, Duty.after, Duty.drop, hHeld] using hApart
  · rintro e c' ⟨hHeld, hC⟩
    refine ⟨?_, hC⟩
    simpa [Duty.drop, hHeld] using hApart

theorem conduct_ext {c' : Conduct} (hHeld : c'.duty.held = c.duty.held)
    (hRest : c'.duty.chan = c.duty.chan ∧ c'.budget = c.budget) : c' = c := by
  obtain ⟨⟨held, chan⟩, budget⟩ := c'
  obtain ⟨⟨_, _⟩, _⟩ := c
  obtain ⟨rfl, rfl⟩ := hRest
  cases hHeld
  rfl

theorem locked_level (hAdmits : c.duty.Admits (.lock m)) (hBody : Level body { c with duty := c.duty.take m }) :
    Level (m.scoped do
      perform (.lock m)
      let r ← body
      perform (.unlock m)
      pure r) c := by
  refine (locked_conduct (C := fun _ chan budget => chan = c.duty.chan ∧ budget = c.budget) hAdmits
    (hBody.mono ?_)).mono fun out c' h => conduct_ext h.1 h.2
  rintro out _ rfl
  exact ⟨rfl, rfl, rfl⟩

/-- Whether the transaction fails or not, the lock is given back once; if the rollback
raises, closing the handle does it. -/
theorem inTransaction_level (hAdmits : c.duty.Admits (.lock m)) (hBody : body.Uses Plain) :
    Level (inTransaction m body) c := by
  have hNot := notMem_of_admits hAdmits
  have hTaken : ((c.duty.take m).drop m).held = c.duty.held := congrArg Duty.held (drop_take hNot)
  have hFree : (c.duty.drop m).held = c.duty.held := congrArg Duty.held (drop_of_notMem hNot)
  have hHas : m ∈ (c.duty.take m).held := List.mem_cons_self
  refine (scoped_conduct (C := fun _ chan budget => chan = c.duty.chan ∧ budget = c.budget)
    (conduct_then (fun _ => rfl) ⟨hAdmits, trivial⟩ fun _ => ?_)).mono fun out c' h => conduct_ext h.1 h.2
  have hTry : ((perform .beginTransaction).bind fun _ => body.bind fun ret =>
      (perform .commit).bind fun _ => (.ret ret : Run α)).Uses Plain :=
    .bind (.perform rfl) fun _ => .bind hBody fun _ => .bind (.perform rfl) fun _ => trivial
  refine .bind (Q := fun out c' => (out.isOk = true → c' = { c with duty := c.duty.take m }) ∧
    (c' = { c with duty := c.duty.take m } ∨ c' = { c with duty := (c.duty.take m).drop m })) ?_ ?_ ?_
  · refine .tryCatch (Level.of_plain hTry _) (fun a c' hc' => ⟨fun _ => hc', .inl hc'⟩) ?_
    rintro e c' rfl
    split
    · refine .bind (Level.of_plain (.perform rfl) _) ?_ fun e' c' hc' => ⟨fun hOk => (by cases hOk), .inl hc'⟩
      rintro _ _ rfl
      exact conduct_then (fun _ => rfl) ⟨trivial, hHas⟩ fun _ => ⟨fun hOk => (by cases hOk), .inr rfl⟩
    · exact ⟨fun hOk => (by cases hOk), .inl rfl⟩
  · rintro a c' ⟨hOk, _⟩
    rw [hOk rfl]
    refine conduct_then (fun _ => rfl) ⟨trivial, hHas⟩ fun _ => ⟨?_, rfl, rfl⟩
    simp only [Conduct.after, Duty.after, drop_take hNot, hFree]
  · rintro e c' ⟨_, rfl | rfl⟩
    · exact ⟨hTaken, rfl, rfl⟩
    · refine ⟨?_, rfl, rfl⟩
      rw [drop_take hNot, hFree]

/-! ## The functions of the loggers -/

theorem resolveUser_level (self : User) (hHeld : c.duty.held = []) : Level (User.resolveUser self) c := by
  obtain ⟨data, date, _, _, _, _⟩ := self
  cases data with
  | none => rfl
  | some data =>
    exact inTransaction_level (admits_free hHeld (by simp [Mutex.rank, User.userMutex, Mutex.new]))
      ((User.resolveUserInternal_confined _ data).mono fun _ => Confined.plain)

theorem resolveGroup_level (self : Group) (hHeld : c.duty.held = []) : Level (Group.resolveGroup self) c := by
  obtain ⟨data, date, _, _, _, _⟩ := self
  cases data with
  | none => rfl
  | some data =>
    exact inTransaction_level (admits_free hHeld (by simp [Mutex.rank, Group.groupMutex, Mutex.new]))
      ((Group.resolveGroupInternal_confined _ data).mono fun _ => Confined.plain)

theorem resolveFile_level (md5 : String → String) (tgFileId dateTime : String)
    (hHeld : ∀ m ∈ c.duty.held, m.rank < 2) : Level (File.resolveFile md5 tgFileId dateTime) c := by
  have hRank : (Mutex.new "tg_files" (md5 tgFileId)).rank = 2 := by simp [Mutex.rank, Mutex.new]
  refine locked_level ⟨fun m hm => ?_, fun _ => ?_⟩
    (.of_plain ((File.resolveOrDownload_confined _ _ _).mono fun _ => Confined.plain) _)
  · rw [hRank]
    exact hHeld m hm
  · omega

theorem rowLocked_level {body : Run Unit} (hHeld : c.duty.held = []) (hRank : m.rank = 1)
    (hBody : ∀ c' : Conduct, (∀ m ∈ c'.duty.held, m.rank < 2) → Level body c') :
    Level (m.scoped do
      perform (.lock m)
      body
      perform (.unlock m)) c := by
  rw [locked_unit]
  refine locked_level (admits_free hHeld (by omega)) (hBody _ fun m' hm' => ?_)
  simp only [Duty.take, hHeld, List.mem_singleton] at hm'
  rw [hm', hRank]
  decide

theorem User.trackPhoto_level (md5 : String → String) (self : User) (hHeld : c.duty.held = []) :
    Level (User.trackPhoto md5 self) c := by
  unfold User.trackPhoto
  split
  · rename_i u data _ _
    refine rowLocked_level hHeld (by simp [Mutex.rank, User.rowMutex, Mutex.new]) fun c' hc' => ?_
    refine .bind (.of_plain (.perform rfl) _) fun j => .bind (.of_plain (.ofExcept _) _) fun photo => ?_
    split
    · refine .bind (.of_plain (strArg_uses _) _) fun tgFileId => ?_
      refine .bind (resolveFile_level md5 tgFileId _ hc') fun fileId => ?_
      exact .of_plain ((User.savePhoto_confined self data u fileId).mono fun _ => Confined.plain) _
    · rfl
  · rfl

theorem Group.trackPhoto_level (md5 : String → String) (self : Group) (hHeld : c.duty.held = []) :
    Level (Group.trackPhoto md5 self) c := by
  unfold Group.trackPhoto
  split
  · rename_i u data _ _
    refine rowLocked_level hHeld (by simp [Mutex.rank, Group.rowMutex, Mutex.new]) fun c' hc' => ?_
    refine .bind (.of_plain (.perform rfl) _) fun j => ?_
    dsimp only
    split
    · refine .bind (.of_plain (strArg_uses _) _) fun tgFileId => ?_
      refine .bind (resolveFile_level md5 tgFileId _ hc') fun fileId => ?_
      exact .of_plain ((Group.savePhoto_confined self data u fileId).mono fun _ => Confined.plain) _
    · rfl
  · rfl

theorem groupLogger_level (data : Data) (dateTime : String) (hHeld : c.duty.held = []) :
    Level (GroupLogger.run data dateTime) c := by
  refine .bind (.of_plain (.perform rfl) _) fun _ => .bind (resolveUser_level _ hHeld) fun ⟨user, userII⟩ => ?_
  refine .bind (.of_plain (.when ?_) _) fun _ => ?_
  · exact .perform rfl
  · refine .bind (resolveGroup_level _ hHeld) fun ⟨group, groupII⟩ => .of_plain (.when ?_) _
    exact .bind (.perform rfl) fun _ => .perform rfl

end Level

/-! ## The administrators' channel has room for all -/

theorem startAll_conduct (chan : Nat) (dateTime : String) (held : List Mutex) :
    (admins : PhpArray) → (z : Int) → (n : Nat) → admins.values.length ≤ n →
    (Group.startAll chan dateTime admins).Keeps conduct
      (fun out c => out = .ok () ∧ c.duty = ⟨held, some (chan, z - admins.values.length)⟩)
      ⟨⟨held, some (chan, z)⟩, n⟩
  | .nil, z, n, _ => by simp [Group.startAll, PhpArray.values, Prog.Keeps]
  | .cons k v rest, z, n, hn => by
    simp only [PhpArray.values, List.length_cons] at hn
    refine conduct_then (fun _ => rfl) ⟨⟨z, rfl⟩, show 0 < n by omega⟩ fun _ =>
      (startAll_conduct chan dateTime held rest (z + -1) (n - 1) (by omega)).mono ?_
    rintro out ⟨_, _⟩ ⟨rfl, rfl⟩
    refine ⟨rfl, ?_⟩
    simp only [PhpArray.values, List.length_cons]
    congr 3
    omega

theorem popAll_conduct (chan n b : Nat) (held : List Mutex) (hHeld : ∀ m ∈ held, m.rank = 0) :
    (Group.popAll chan n).Keeps conduct (fun _ c => c = ⟨⟨held, some (chan, 0)⟩, b⟩)
      ⟨⟨held, some (chan, -n)⟩, b⟩ := by
  induction n with
  | zero => rfl
  | succ n ih =>
    refine conduct_then (fun _ => rfl) ⟨⟨⟨_, by omega, rfl⟩, hHeld⟩, trivial⟩ fun row => ?_
    have hNext : Conduct.after ⟨⟨held, some (chan, -((n + 1 : Nat) : Int))⟩, b⟩ (.pop chan) (.ok row) =
        ⟨⟨held, some (chan, -n)⟩, b⟩ := by
      simp only [Conduct.after, Duty.after, Duty.add, Option.map_some]
      congr 4
      omega
    rw [hNext]
    exact ih.bind (fun _ _ h => h) fun _ _ h => h

theorem refreshAdmins_conduct (self : Group) (data : Data) (u : GroupInfo) (held : List Mutex) (b : Nat)
    (hHeld : ∀ m ∈ held, m.rank = 0) :
    (Group.refreshAdmins self data u).Keeps conduct
      (fun _ c => c.duty.held = held ∧ ∀ i, Duty.net ⟨held, c.duty.chan⟩ i = 0) ⟨⟨held, none⟩, b⟩ := by
  have hNone : ∀ i, Duty.net ⟨held, none⟩ i = 0 := fun _ => rfl
  have hZero : ∀ chan i, Duty.net ⟨held, some (chan, 0)⟩ i = 0 := fun chan i => by simp [Duty.net]
  refine .bind (Level.of_plain (.perform rfl) _) ?_ ?_
  · rintro j _ rfl
    split
    · rename_i admins _
      refine conduct_then (fun _ => rfl) ⟨rfl, trivial⟩ fun chan => ?_
      refine .bind (startAll_conduct chan _ held admins 0 _ ?_) ?_ ?_
      · dsimp only [Conduct.after]
        split <;> omega
      · rintro _ ⟨_, b'⟩ ⟨_, rfl⟩
        rw [zero_sub]
        refine .bind (popAll_conduct chan _ b' held hHeld) ?_ ?_
        · rintro rows _ rfl
          refine (Level.of_plain (.bind (.perform rfl) fun _ => ?_) _).mono ?_
          · split
            · trivial
            · exact .perform rfl
          · rintro out _ rfl
            exact ⟨rfl, hZero chan⟩
        · rintro e _ rfl
          exact ⟨rfl, hZero chan⟩
      · rintro e _ ⟨hEq, _⟩
        cases hEq
    · exact ⟨rfl, hNone⟩
  · rintro e _ rfl
    exact ⟨rfl, hNone⟩

/-! ## Whole coroutines -/

/-- The coroutine of a connection: an `Error` that leaves the logger is caught there. -/
def Job.ofConnection : Job → Bool
  | .resolveUser _ | .resolveGroup _ | .groupLogger .. => true
  | _ => false

def poolCode (md5 : String → String) (j : Job) : Run Unit :=
  if j.ofConnection then catchError (code md5 j) fun _ => pure () else code md5 j

theorem discharged_empty {out : Except Throwable Unit} : Discharged out {} := fun _ => ⟨rfl, fun _ => rfl⟩

theorem discharged_error {e : Throwable} {d : Duty} : Discharged (.error e) d := by
  intro hOk
  cases hOk

theorem trackAdmins_conduct (md5 : String → String) (self : Group) :
    (code md5 (.trackAdmins self)).Keeps conduct (fun out c => Discharged out c.duty) {} := by
  refine .bind (Level.of_plain (.perform rfl) _) ?_ fun e d _ => discharged_error
  rintro _ _ rfl
  unfold Group.trackAdmins
  split
  · rename_i u data _ _
    have hRank : (Group.adminsMutex u).rank = 0 := by simp [Mutex.rank, Group.adminsMutex, Mutex.new]
    rw [locked_unit]
    refine (locked_conduct (C := fun _ chan _ => ∀ i, Duty.net ⟨[Group.adminsMutex u], chan⟩ i = 0)
      ⟨fun _ hm => absurd hm List.not_mem_nil, fun h => absurd rfl h⟩ (refreshAdmins_conduct self data u _ _ ?_)).mono
        ?_
    · rintro m hm
      rw [List.mem_singleton.mp hm, hRank]
    · rintro out c ⟨hHeld, hChan⟩ _
      exact ⟨hHeld, hChan⟩
  · exact discharged_error

theorem adminUser_conduct (md5 : String → String) (k : Key) (v : Php) (chan : Nat) (dateTime : String) :
    (code md5 (.adminUser k v chan dateTime)).Keeps conduct (fun out c => Discharged out c.duty)
      ⟨⟨[], some (chan, 1)⟩, 1⟩ := by
  refine .bind (Level.of_plain (.perform rfl) _) ?_ fun e d _ => discharged_error
  rintro _ _ rfl
  refine .bind (Level.of_plain (.ofExcept _) _) ?_ fun e d _ => discharged_error
  rintro data _ rfl
  refine .bind (resolveUser_level _ rfl) ?_ fun e d _ => discharged_error
  rintro ⟨user, u⟩ _ rfl
  refine conduct_then (fun _ => rfl) ⟨⟨1, rfl⟩, Nat.one_pos⟩ fun _ => (User.trackPhoto_level md5 user rfl).mono ?_
  rintro out _ rfl _
  exact ⟨rfl, fun i => by simp [Conduct.after, Duty.after, Duty.add, Duty.net]⟩

theorem code_level (md5 : String → String) {j : Job} (hDuty : j.duty = {}) (hNot : ∀ self, j ≠ .trackAdmins self) :
    Level (code md5 j) {} := by
  cases j with
  | resolveUser self => exact .bind (resolveUser_level self rfl) fun _ => rfl
  | resolveGroup self => exact .bind (resolveGroup_level self rfl) fun _ => rfl
  | userTrackPhoto self => exact .bind (.of_plain (.perform rfl) _) fun _ => User.trackPhoto_level md5 self rfl
  | groupTrackPhoto self => exact .bind (.of_plain (.perform rfl) _) fun _ => Group.trackPhoto_level md5 self rfl
  | trackAdmins self => exact absurd rfl (hNot self)
  | adminUser k v chan dateTime => cases hDuty
  | resolveFile tgFileId dateTime =>
    exact .bind (resolveFile_level md5 tgFileId dateTime fun _ hm => absurd hm List.not_mem_nil) fun _ => rfl
  | groupLogger data dateTime => exact groupLogger_level data dateTime rfl

theorem poolCode_conduct (md5 : String → String) (j : Job) :
    (poolCode md5 j).Keeps conduct (fun out c => Discharged out c.duty) j.conduct := by
  have hPlain : ∀ {j : Job}, j.duty = {} → (∀ self, j ≠ .trackAdmins self) →
      (poolCode md5 j).Keeps conduct (fun out c => Discharged out c.duty) {} := by
    intro j hDuty hNot
    have hCode := code_level md5 hDuty hNot
    unfold poolCode
    split
    · refine .tryCatch hCode ?_ ?_
      · rintro a _ rfl
        exact discharged_empty
      · rintro e _ rfl
        split
        · exact discharged_error
        · exact discharged_empty
    · refine hCode.mono ?_
      rintro out _ rfl
      exact discharged_empty
  cases j with
  | trackAdmins self => exact trackAdmins_conduct md5 self
  | adminUser k v chan dateTime => exact adminUser_conduct md5 k v chan dateTime
  | _ => exact hPlain rfl fun _ hEq => (by cases hEq)

/-- Without the budget, conduct is duty. -/
theorem keeps_duties {α : Type} {p : Run α} {Q : Except Throwable α → Duty → Prop} {c : Conduct}
    (h : p.Keeps conduct (fun out c' => Q out c'.duty) c) : p.Keeps duties Q c.duty := by
  induction p generalizing c with
  | ret a => exact h
  | throw e => exact h
  | op o k ih => exact ⟨h.1.1, fun r hr => ih r (h.2 r hr)⟩

theorem poolCode_keeps (md5 : String → String) (j : Job) : (poolCode md5 j).Keeps duties Discharged j.duty :=
  keeps_duties (poolCode_conduct md5 j)

end TeaBot.Loggers
