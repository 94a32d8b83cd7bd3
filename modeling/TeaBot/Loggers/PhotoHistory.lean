import TeaBot.Loggers.TrackPhoto
import TeaBot.Loggers.UserHistory

/-! # Runs of `GroupLogger`

Any number of messages with everything they start: `resolveUser` and `trackPhoto` of the
sender, the group, its photo and its administrators.
-/

namespace TeaBot.Loggers.PhotoHistory

open Foundation Foundation.Sql Foundation.System Versioned UserProtocol UserHistory

/-- Proper jobs are started, and every version outside a transaction is timely. -/
def careful (c : Config World Op Op.Res Throwable Unit Job) : Label Job Choice → Bool
  | .start j => proper j
  | .step t _ =>
    match c.threads[t]? with
    | some (_, .op o _) => timely c.threads.length t o c.shared
    | _ => true

def rules : Protocol World Op Job := protocol False Timely (fun j _ => proper j = true)

theorem rules_compatible : rules.Compatible where
  inv _ _ _ _ hStep := hStep.inv
  fresh _ _ hu _ _ _ hStep h := h.stable hu hStep
  pre _ _ _ _ _ _ h := h

def ends (_ : Nat) (_ : Job) (_ : Except Throwable Unit) (_ : World) : Prop := True

theorem outline_code (h : Hashes) (t : Nat) (j : Job) :
    Outline (system h).exec (system h).spawned rules t j (ends t j) ((system h).code j)
      (fun w => rules.Fresh t w ∧ rules.Pre j w) := by
  refine Outline.weaken (Outline.and_intro (φ := proper j = true) (A := Spec.Closed t) fun hProper => ?_)
    fun w _ hPre => ⟨hPre.2, hPre.1.tx⟩
  refine Outline.mono (Q := Post False t fun _ => Spec.Closed t) ?_ fun _ _ _ _ => trivial
  cases j with
  | resolveUser self =>
    simp only [proper, Bool.and_eq_true, Bool.not_eq_true'] at hProper
    refine Spec.bind ?_ fun _ => Spec.ret
    cases hData : self.data with
    | none =>
      simp only [User.resolveUser, hData]
      exact Outline.weaken Spec.throw fun _ _ _ => Spec.failed_false
    | some d =>
      obtain ⟨n, hId⟩ := Php.isInt_iff.mp (by simpa [hData] using hProper.2)
      exact Spec.resolveUser_closed hData hId hProper.1
  | resolveGroup self => exact Spec.bind (Spec.resolveGroup_closed self) fun _ => Spec.ret
  | userTrackPhoto self =>
    exact Spec.bind (Spec.frame_closed (.perform rfl)) fun _ => Spec.trackPhoto h.md5 self
  | groupTrackPhoto self =>
    exact Spec.bind (Spec.frame_closed (.perform rfl)) fun _ =>
      Spec.frame_closed (Spec.groupTrackPhoto_aside h.md5 self)
  | trackAdmins self => exact Spec.bind (Spec.frame_closed (.perform rfl)) fun _ => Spec.trackAdmins self
  | adminUser k v chan dateTime => exact Spec.adminUser h.md5 hProper
  | resolveFile tgFileId dateTime =>
    exact Spec.bind (Spec.frame_closed (Spec.resolveFile_aside h.md5 tgFileId dateTime)) fun _ => Spec.ret
  | groupLogger d dateTime =>
    obtain ⟨n, hId⟩ := Php.isInt_iff.mp hProper
    exact Spec.groupLogger hId dateTime

theorem proved_start (h : Hashes) : Proved (system h) rules ends start where
  inv := inv_initial False
  fresh _ _ := ⟨rfl, nofun⟩
  thread t j p hThread := by simp [start] at hThread

/-- The history row of greatest key of user `n` has the identity of the user's row. -/
def InStep (w : World) (n : Int) : Prop :=
  ∀ r ∈ usersOf w.db n, ∃ v ∈ historyOf w.db (r .id),
    (∀ v' ∈ historyOf w.db (r .id), rowKey v' ≤ rowKey v) ∧ Identity.ofRow v = .ofRow r

theorem le_getLast {vs : List (Row Col)} {v : Row Col} (hChain : vs.IsChain fun a b => rowKey a < rowKey b)
    (hLast : vs.getLast? = some v) : ∀ v' ∈ vs, rowKey v' ≤ rowKey v := by
  obtain ⟨front, rfl⟩ := List.getLast?_eq_some_iff.mp hLast
  intro v' hv'
  rcases List.mem_append.mp hv' with hFront | hEnd
  · have hPairwise := (List.isChain_iff_pairwise.mp hChain)
    exact le_of_lt ((List.pairwise_append.mp hPairwise).2.2 v' hFront v (List.mem_singleton_self v))
  · rw [List.mem_singleton.mp hEnd]

theorem inStep_of_inv {w : World} (hInv : Inv False w) (n : Int) : InStep w n := by
  intro r hr
  have hAgrees := hInv.linked.agrees (users.record r) (List.mem_map_of_mem (List.mem_of_mem_filter hr))
  rw [versions_store, List.getLast?_map, Option.map_map] at hAgrees
  obtain ⟨v, hv, hEq⟩ := Option.map_eq_some_iff.mp hAgrees
  have hOrdered := hInv.linked.ordered (r .id)
  rw [versions_store, List.isChain_map] at hOrdered
  refine ⟨v, List.mem_of_getLast? hv, le_getLast (hOrdered.imp fun a b hFollows => hFollows.1) hv, hEq⟩

theorem history_in_step (h : Hashes) (c : Config World Op Op.Res Throwable Unit Job)
    (hReach : (system h).Reach (fun c l => careful c l = true) start c) (n : Int) : InStep c.shared n := by
  refine inStep_of_inv ((proved_start h).reach rules_compatible (outline_code h) ?_ ?_ hReach).inv n
  · intro c t ch j o k hProved hCareful hThread
    simp only [careful, hThread] at hCareful
    exact timely_of_below (fun u hu => (hProved.fresh u hu).tx) hCareful
  · exact fun _ _ _ hProper => hProper

instance (w : World) (n : Int) : Decidable (InStep w n) := inferInstanceAs (Decidable (∀ r ∈ _, ∃ v ∈ _, _ ∧ _))

def message (firstName : String) : Job :=
  .groupLogger { userId := .int 7, firstName := .str firstName, chatId := .int (-100), chatTitle := .str "G" }
    "2020-01-01"

def photos : Php := .obj [("result", .obj [("photos", .arr (.cons (.int 0)
  (.arr (.cons (.int 0) (.obj [("file_id", .str "f")]) .nil)) .nil))])]

def file : Php := .obj [("result", .obj [("file_id", .str "f"), ("file_unique_id", .str "u"),
  ("file_size", .int 1), ("file_path", .str "p")])]

def tracks (t : Nat) : List (Label Job Choice) :=
  List.map (.step t) ([.ok, .ok, .answer photos, .ok, .ok, .answer file, .downloaded true "x", .ok, .ok, .ok,
    .renamed true] ++ List.replicate 10 .ok)

def finds (t : Nat) : List (Label Job Choice) := List.map (.step t) [.ok, .ok, .answer .null, .ok, .ok]

def stored : List (Label Job Choice) :=
  .start (message "A") :: List.replicate 24 (.step 0 .ok) ++ finds 1 ++ finds 2 ++ finds 3

def unchanged : List (Label Job Choice) := .start (message "A") :: List.replicate 16 (.step 4 .ok)

theorem history_in_step_photo :
    ∃ c, (system plainHashes).runWhile careful start (stored ++ unchanged ++ tracks 5) = some c ∧
      (historyOf c.shared.db (.int 1)).length = 2 ∧ InStep c.shared 7 := by
  have hRun : ((system plainHashes).runWhile careful start (stored ++ unchanged ++ tracks 5)).any
      (fun c => (historyOf c.shared.db (.int 1)).length = 2) = true := by decide +kernel
  obtain ⟨c, hc, hLength⟩ := (Option.any_eq_true _ _).mp hRun
  exact ⟨c, hc, of_decide_eq_true hLength, history_in_step plainHashes c (reach_of_runWhile (fun _ _ _ h => h) hc) 7⟩

def messagesOf (n : Int) : Config World Op Op.Res Throwable Unit Job → Label Job Choice → Prop
  | _, .start j => ∃ d dateTime, j = .groupLogger d dateTime ∧ d.userId = .int n
  | _, .step _ _ => True

/-- The third message renames the user to `B`; only then coroutine 5 goes on. -/
def stale : List (Label Job Choice) :=
  stored ++ unchanged ++ .start (message "B") :: List.replicate 19 (.step 8 .ok) ++ tracks 5 ++
    finds 6 ++ finds 7 ++ finds 9 ++ finds 10 ++ finds 11

theorem messagesOf_stale : ∀ l ∈ stale, ∀ c, messagesOf 7 c l := by
  intro l hl c
  cases l with
  | start j =>
    have hName : j = message "A" ∨ j = message "A" ∨ j = message "B" := by
      simpa [stale, stored, unchanged, tracks, finds] using hl
    rcases hName with rfl | rfl | rfl <;> exact ⟨_, _, rfl, rfl⟩
  | step t ch => trivial

theorem stale_photo_history : ∃ c, (system plainHashes).Reach (messagesOf 7) start c ∧
    (∀ x ∈ c.threads, x.2.finished = true) ∧ ¬ InStep c.shared 7 := by
  have hRun : ((system plainHashes).run start stale).any
      (fun c => c.threads.all (·.2.finished) && !decide (InStep c.shared 7)) = true := by decide +kernel
  obtain ⟨c, hc, hHere⟩ := (Option.any_eq_true _ _).mp hRun
  obtain ⟨hFinished, hStale⟩ := Bool.and_eq_true_iff.mp hHere
  refine ⟨c, reach_of_run messagesOf_stale hc, List.all_eq_true.mp hFinished, ?_⟩
  simpa using hStale

end TeaBot.Loggers.PhotoHistory
