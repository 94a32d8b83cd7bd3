import TeaBot.Loggers.ResolveUser

/-! # Runs of `resolveUser`

Any number of calls with fresh `User` objects, in any interleaving, each of which may
fail at any statement.
-/

namespace TeaBot.Loggers.UserHistory

open Foundation Foundation.Sql Foundation.System Versioned UserProtocol

def FreshCall (j : Job) : Prop :=
  ∃ (d : Data) (dateTime : String) (n : Int), j = .resolveUser { data := some d, dateTime := dateTime } ∧
    d.userId = .int n ∧ Typed d

def calls : Config World Op Op.Res Throwable Unit Job → Label Job Choice → Prop
  | _, .start j => FreshCall j
  | _, .step _ _ => True

def start : Config World Op Op.Res Throwable Unit Job := ⟨.initial, []⟩

def rules : Protocol World Op Job := protocol True (fun _ _ _ => True) (fun j _ => FreshCall j)

theorem rules_compatible : rules.Compatible where
  inv _ _ _ _ hStep := hStep.inv
  fresh _ _ hu _ _ _ hStep h := h.stable hu hStep
  pre _ _ _ _ _ _ h := h

theorem store_initial : store .initial = ⟨[], []⟩ := rfl

theorem inv_initial (strict : Prop) : Inv strict .initial where
  linked := .empty
  texts r hr := absurd hr (by simp [store_initial])
  userKey id hId := absurd hId (by simp [store_initial, Store.ids])
  pendingKey t id hId := absurd hId (by simp [pendingUsers, newUsers, World.initial])
  versionKey v hv := absurd hv (by simp [store_initial])
  committed _ _ := rfl

def ends (t : Nat) (_ : Job) : Except Throwable Unit → World → Prop :=
  Post True t fun _ => Spec.Closed t

theorem outline_code (h : Hashes) (t : Nat) (j : Job) :
    Outline (system h).exec (system h).spawned rules t j (ends t j) ((system h).code j)
      (fun w => rules.Fresh t w ∧ rules.Pre j w) := by
  refine Outline.weaken (Outline.and_intro fun hCall => ?_) fun _ _ hPre => And.comm.mp hPre
  obtain ⟨d, dateTime, n, rfl, hId, hTyped⟩ := hCall
  refine Spec.bind (Spec.resolveUser rfl hId (fun _ => hTyped) rfl fun _ m => ?_) fun _ => Spec.ret
  simp only [identityOf, Option.bind_some, hId, Php.int.injEq]
  exact if_congr eq_comm rfl rfl

theorem proved_start (h : Hashes) : Proved (system h) rules ends start where
  inv := inv_initial True
  fresh _ _ := ⟨rfl, fun _ hMem => absurd hMem (by simp [committers, start, World.initial])⟩
  thread t j p hThread := by simp [start] at hThread

section Runs

variable {h : Hashes} {c c' : Config World Op Op.Res Throwable Unit Job}

theorem proved_reach (hProved : Proved (system h) rules ends c) (hReach : (system h).Reach calls c c') :
    Proved (system h) rules ends c' :=
  hProved.reach rules_compatible (outline_code h) (fun _ _ _ _ _ _ _ _ _ => trivial) (fun _ _ _ hCall => hCall)
    hReach

theorem committers_mono {t : Nat} (hProved : Proved (system h) rules ends c)
    (hReach : (system h).Reach calls c c') (hMem : t ∈ committers c.shared) : t ∈ committers c'.shared := by
  refine hProved.keep (P := fun w => t ∈ committers w) rules_compatible (outline_code h)
    (fun _ _ _ _ _ _ _ _ _ => trivial) (fun _ _ _ hCall => hCall) (fun u w w' hStep hIn => ?_) hReach hMem
  rcases hStep.journal with hEq | ⟨j, hEq⟩
  · rw [committers, hEq]
    exact hIn
  · rw [committers, hEq, List.map_append]
    exact List.mem_append_left _ hIn

end Runs

/-! ## What a run keeps -/

def usersOf (db : Tables Tbl Col) (n : Int) : List (Row Col) :=
  (db .tgUsers).filter fun r => r .tgUserId = .int n

def historyOf (db : Tables Tbl Col) (id : Value) : List (Row Col) :=
  (db .tgUserHistory).filter fun h => h .userId = id

/-- The rows of user `n` against the calls that have committed: one row with the last
committed identity, versions in the order of their keys, each different from the one
before, and the last of them the row's own identity. -/
structure Consistent (w : World) (n : Int) : Prop where
  latest : (usersOf w.db n).map Identity.ofRow = (commits w n).getLast?.toList
  agrees : ∀ r ∈ usersOf w.db n,
    ((historyOf w.db (r .id)).getLast?).map Identity.ofRow = some (.ofRow r)
  ordered : ∀ r ∈ usersOf w.db n, (historyOf w.db (r .id)).IsChain fun a b =>
    rowKey a < rowKey b ∧ Identity.ofRow a ≠ .ofRow b

theorem of_store (db : Tables Tbl Col) (n : Int) :
    (userStore db).of (.int n) = (usersOf db n).map users.record := by
  simp only [Store.of, Versioning.store, List.filter_map]
  rfl

theorem versions_store (db : Tables Tbl Col) (id : Value) :
    (userStore db).versions id = (historyOf db id).map users.version := by
  simp only [Store.versions, Versioning.store, List.filter_map]
  rfl

theorem consistent_of_inv {w : World} (hInv : Inv True w) (n : Int) : Consistent w n where
  latest := by
    have hLatest := hInv.committed trivial n
    rw [of_store, List.map_map] at hLatest
    exact hLatest
  agrees r hr := by
    have hAgrees := hInv.linked.agrees (users.record r) (List.mem_map_of_mem (List.mem_of_mem_filter hr))
    rw [versions_store, List.getLast?_map, Option.map_map] at hAgrees
    exact hAgrees
  ordered r _ := by
    have hOrdered := hInv.linked.ordered (r .id)
    rw [versions_store, List.isChain_map] at hOrdered
    exact hOrdered.imp fun a b hFollows => ⟨hFollows.1, hFollows.2 trivial⟩

theorem resolveUser_keeps_history (h : Hashes) :
    (∀ c, (system h).Reach calls start c → ∀ n, Consistent c.shared n) ∧
    ∀ c₁ c₂ c₃ t ch j e, (system h).Reach calls start c₁ →
      (system h).next c₁ (.step t ch) = some c₂ → (system h).Reach calls c₂ c₃ →
      c₃.threads[t]? = some (j, .throw e) → SameRows c₁.shared c₂.shared := by
  constructor
  · intro c hReach n
    exact consistent_of_inv (proved_reach (proved_start h) hReach).inv n
  · intro c₁ c₂ c₃ t ch j e hReach hNext hLater hThrown
    have hProved := proved_reach (proved_start h) hReach
    obtain ⟨hStep, hProved'⟩ := hProved.step rules_compatible (outline_code h)
      (fun _ _ _ _ _ _ _ _ _ => trivial) (show calls c₁ (.step t ch) from trivial) hNext
    rcases hStep.failed trivial with hSame | hCommitted
    · exact hSame
    · have hFailed := (proved_reach hProved' hLater).post (r := .error e) hThrown
      exact absurd (committers_mono hProved' hLater hCommitted) (hFailed trivial)

def call (firstName : String) : Job :=
  .resolveUser { data := some { userId := .int 7, firstName := .str firstName }, dateTime := "2020-01-01" }

def before : List (Label Job Choice) :=
  .start (call "A") :: List.replicate 10 (.step 0 .ok) ++
    .start (call "B") :: List.replicate 9 (.step 1 .ok) ++ [.start (call "C"), .step 2 .ok, .step 2 .ok]

def failure : Choice := .fail (.exception "PDOException" "server has gone away")

def after : List (Label Job Choice) := List.replicate 3 (.step 2 .ok)

theorem calls_of_call {ls : List (Label Job Choice)}
    (hStart : ∀ j, .start j ∈ ls → ∃ firstName, j = call firstName) : ∀ l ∈ ls, ∀ c, calls c l := by
  intro l hl c
  cases l with
  | start j =>
    obtain ⟨firstName, rfl⟩ := hStart j hl
    exact ⟨_, _, 7, rfl, rfl, none, some firstName, none, rfl, rfl, rfl⟩
  | step t ch => trivial

theorem resolveUser_keeps_history_renamed :
    ∃ c₁ c₂ c₃, (system plainHashes).run start before = some c₁ ∧
      (system plainHashes).next c₁ (.step 2 failure) = some c₂ ∧ (system plainHashes).run c₂ after = some c₃ ∧
      commits c₃.shared 7 = [⟨.null, .str "A", .null⟩, ⟨.null, .str "B", .null⟩] ∧
      (∀ n, Consistent c₃.shared n) ∧ SameRows c₁.shared c₂.shared := by
  have hRun : (((system plainHashes).run start before).bind fun c₁ =>
      ((system plainHashes).next c₁ (.step 2 failure)).bind fun c₂ => ((system plainHashes).run c₂ after).bind fun c₃ =>
        (c₃.threads[2]?.bind fun x => x.2.thrown).bind fun _ =>
          if commits c₃.shared 7 = [⟨.null, .str "A", .null⟩, ⟨.null, .str "B", .null⟩] then some ()
          else none).isSome = true := by
    decide +kernel
  obtain ⟨_, hRun⟩ := Option.isSome_iff_exists.mp hRun
  obtain ⟨c₁, h₁, hRun⟩ := Option.bind_eq_some_iff.mp hRun
  obtain ⟨c₂, h₂, hRun⟩ := Option.bind_eq_some_iff.mp hRun
  obtain ⟨c₃, h₃, hRun⟩ := Option.bind_eq_some_iff.mp hRun
  obtain ⟨e, hThrown, hRun⟩ := Option.bind_eq_some_iff.mp hRun
  obtain ⟨⟨j, p⟩, hThread, hThrown⟩ := Option.bind_eq_some_iff.mp hThrown
  cases Prog.thrown_eq_some.mp hThrown
  have hCommits : commits c₃.shared 7 = [⟨.null, .str "A", .null⟩, ⟨.null, .str "B", .null⟩] := by
    by_contra hNe
    rw [if_neg hNe] at hRun
    cases hRun
  have hReach₁ : (system plainHashes).Reach calls start c₁ := reach_of_run (calls_of_call (by simp [before])) h₁
  have hReach₃ : (system plainHashes).Reach calls c₂ c₃ := reach_of_run (calls_of_call (by simp [after])) h₃
  refine ⟨c₁, c₂, c₃, h₁, h₂, h₃, hCommits, ?_, ?_⟩
  · have hStep : calls c₁ (.step 2 failure) := trivial
    exact (resolveUser_keeps_history plainHashes).1 c₃ ((hReach₁.step hStep h₂).trans hReach₃)
  · exact (resolveUser_keeps_history plainHashes).2 c₁ c₂ c₃ 2 failure j e hReach₁ h₂ hReach₃ hThread

end TeaBot.Loggers.UserHistory
