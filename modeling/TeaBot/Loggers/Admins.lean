import Mathlib.Data.List.FinRange
import TeaBot.Loggers.AdminRuns

/-! # The administrators of a group after `trackAdmins`

Whatever the order in which the coroutines push, the statement pairs every entry of the
list with its own user, status and remaining fields. The old rows are gone by then: the
two statements that replace them are not one transaction.
-/

namespace TeaBot.Loggers.Admins

open Foundation Foundation.Sql Foundation.System

/-- A list as `json_decode` returns it, from index `i` on. -/
def listFrom (i : Nat) : List Php → PhpArray
  | [] => .nil
  | v :: vs => .cons (.int i) v (listFrom (i + 1) vs)

theorem values_listFrom (i : Nat) (vs : List Php) : (listFrom i vs).values = vs := by
  induction vs generalizing i with
  | nil => rfl
  | cons v vs ih => exact congrArg (List.cons v) (ih (i + 1))

theorem adminJobs_listFrom (chan : Nat) (dateTime : String) (i : Nat) (vs : List Php) (m : Nat) :
    (adminJobs chan dateTime (listFrom i vs))[m]? =
      vs[m]?.map fun v => .adminUser (.int (i + m : Nat)) v chan dateTime := by
  induction vs generalizing i m with
  | nil => rfl
  | cons v vs ih =>
    cases m with
    | zero => rfl
    | succ m =>
      have hNext : i + 1 + m = i + (m + 1) := by omega
      simp only [listFrom, adminJobs, List.getElem?_cons_succ, ih, hNext]

theorem adminJobs_length (chan : Nat) (dateTime : String) : (admins : PhpArray) →
    (adminJobs chan dateTime admins).length = admins.values.length
  | .nil => rfl
  | .cons _ _ rest => congrArg Nat.succ (adminJobs_length chan dateTime rest)

/-! ## What the table should hold -/

def fields : PhpArray → List (Key × Php)
  | .nil => []
  | .cons k v rest => (k, v) :: fields rest

def arrayOf : List (Key × Php) → PhpArray
  | [] => .nil
  | (k, v) :: rest => .cons k v (arrayOf rest)

def remaining : Php → List (Key × Php)
  | .arr entries => (fields entries).filter fun x => x.1 ≠ .str "status" ∧ x.1 ≠ .str "user"
  | _ => []

/-- They are kept as JSON, and as `NULL` when there are none. -/
def entryInfo (v : Php) : Php :=
  if remaining v = [] then .null else .str (Php.arr (arrayOf (remaining v))).jsonEncode

/-- The row an entry of the list should have, given the user it was resolved to. -/
def entryRow (v : Php) (i : UserInfo) : AdminEntry := .bound i.id (v.read "status") (entryInfo v)

theorem arrayOf_fields : (a : PhpArray) → arrayOf (fields a) = a
  | .nil => rfl
  | .cons k v rest => congrArg (PhpArray.cons k v) (arrayOf_fields rest)

theorem fields_erase (a : PhpArray) (k : Key) : fields (a.erase k) = (fields a).filter fun x => x.1 ≠ k := by
  fun_induction PhpArray.erase a k with
  | case1 => rfl
  | case2 v rest k ih => simp [fields, ih]
  | case3 key v rest k hNe ih => simp [fields, ih, hNe]

theorem fields_remaining (entries : PhpArray) :
    fields ((entries.erase (.str "status")).erase (.str "user")) = remaining (.arr entries) := by
  rw [fields_erase, fields_erase, List.filter_filter, remaining]
  refine List.filter_congr fun x _ => ?_
  by_cases hStatus : x.1 = .str "status" <;> simp [hStatus]

theorem adminInfo_eq (entries : PhpArray) : Group.adminInfo (.arr entries) = entryInfo (.arr entries) := by
  have hFields := fields_remaining entries
  rw [Group.adminInfo, entryInfo, ← hFields, arrayOf_fields]
  cases (entries.erase (.str "status")).erase (.str "user") with
  | nil => rfl
  | cons k v rest => rfl

variable {v : Php}

theorem ResolvedBy.isArray {dateTime : String} {H : List Answered} {info : UserInfo}
    (h : ResolvedBy v dateTime H info) :
    ∃ entries, v = .arr entries := by
  obtain ⟨d, _, _, _, hData, _⟩ := h
  cases v with
  | arr entries => exact ⟨entries, rfl⟩
  | _ => cases hData

/-- One row for every entry of the list, with the user that the entry's own coroutine has
resolved, and no other row of the group; the other groups are as they were. -/
structure Snapshot (dateTime : String) (k : Nat) (vs : List Php) (w₀ : World) (H : List (Nat × Answered))
    (w : World) : Prop where
  rows : ∃ users : List UserInfo, users.length = vs.length ∧
    (∀ (i : Nat) v info, vs[i]? = some v → users[i]? = some info → ResolvedBy v dateTime (eventsOf (i + 1) H) info) ∧
    ((w.adminsOf k).map .ofRow).Perm (List.zipWith entryRow vs users)
  others : w.otherAdmins k = w₀.otherAdmins k

theorem singletons {β : Type} {ts : List Nat} {P : Nat → List β} (hShort : ∀ t ∈ ts, (P t).length ≤ 1)
    (hLong : ts.length ≤ (ts.flatMap P).length) : ∀ t ∈ ts, (P t).length = 1 := by
  have hBound : ∀ l : List Nat, (∀ t ∈ l, (P t).length ≤ 1) → (l.flatMap P).length ≤ l.length := by
    intro l hl
    induction l with
    | nil => simp
    | cons t l ih =>
      obtain ⟨hHead, hTail⟩ := List.forall_mem_cons.mp hl
      have hRest := ih hTail
      simp only [List.flatMap_cons, List.length_append, List.length_cons]
      omega
  induction ts with
  | nil => exact fun _ ht => absurd ht List.not_mem_nil
  | cons t ts ih =>
    obtain ⟨hHead, hTail⟩ := List.forall_mem_cons.mp hShort
    have hRest := hBound ts hTail
    simp only [List.flatMap_cons, List.length_append, List.length_cons] at hLong
    exact List.forall_mem_cons.mpr ⟨by omega, ih hTail (by omega)⟩

section Runs

variable {h : Hashes} {self : Group} {u : GroupInfo} {k : Nat} {w₀ : World} {vs : List Php}
  {c : Config (World × List (Nat × Answered)) Op Op.Res Throwable Unit Job}

variable {H : List (Nat × Answered)} {w : World} {old : List (Row Col)} {js : List Job}

theorem received (hInv : Inv self u k old js H w) (hDone : Replaced self (listFrom 0 vs) (mainOf self H)) :
    ∃ users : Fin vs.length → UserInfo,
      (∀ i : Fin vs.length, ResolvedBy (vs.get i) self.dateTime (eventsOf (i + 1) H) (users i)) ∧
      (mainOf self H).rows.Perm (List.ofFn fun i : Fin vs.length => message (.int i.val) (vs.get i) (users i)) := by
  obtain ⟨⟨chan, hJobs⟩, hLength, _⟩ := hDone
  rw [values_listFrom] at hLength
  have hJob : ∀ i : Fin vs.length, js[i.val + 1]? = some (.adminUser (.int i.val) (vs.get i) chan self.dateTime) := by
    intro i
    rw [hInv.jobs, hJobs, List.getElem?_cons_succ, adminJobs_listFrom, List.getElem?_eq_getElem i.isLt, Nat.zero_add]
    rfl
  have hAnnounced := fun i => hInv.announced _ _ _ _ (hJob i)
  -- the messages of the coroutines, entry by entry
  have hAll : (H.filterMap fun x => pushed x.2).Perm
      ((List.range vs.length).flatMap fun i => (eventsOf (i + 1) H).filterMap pushed) := by
    have hCount : js.length = vs.length + 1 := by
      rw [hInv.jobs, hJobs, List.length_cons, adminJobs_length, values_listFrom]
    have hPerm := perm_eventsOf pushed (hCount ▸ hInv.known)
    rwa [List.range_succ_eq_map, List.flatMap_cons, hInv.silent, List.nil_append, List.flatMap_map] at hPerm
  obtain ⟨items, hItems⟩ : ∃ items, (H.filterMap fun x => pushed x.2) = (mainOf self H).rows ++ items := by
    have hCarries := hInv.carries
    unfold Carries at hCarries
    split at hCarries
    · exact ⟨[], by rw [hCarries.1, hCarries.2]; rfl⟩
    · obtain ⟨items, _, hEq⟩ := hCarries
      exact ⟨items, hEq⟩
  have hShort : ∀ i ∈ List.range vs.length, ((eventsOf (i + 1) H).filterMap pushed).length ≤ 1 := by
    intro i hi
    rcases hAnnounced ⟨i, List.mem_range.mp hi⟩ with hNone | ⟨_, hSome, _⟩
    · simp only [hNone, List.length_nil, Nat.zero_le]
    · simp only [hSome, List.length_singleton, Nat.le_refl]
  have hLong : (List.range vs.length).length ≤
      ((List.range vs.length).flatMap fun i => (eventsOf (i + 1) H).filterMap pushed).length := by
    rw [← hAll.length_eq, hItems, List.length_append, List.length_range, hLength]
    exact Nat.le_add_right _ _
  have hEach : ∀ i : Fin vs.length, ∃ info,
      (eventsOf (i.val + 1) H).filterMap pushed = [message (.int i.val) (vs.get i) info] ∧
        ResolvedBy (vs.get i) self.dateTime (eventsOf (i.val + 1) H) info := by
    intro i
    rcases hAnnounced i with hNone | hSome
    · have hOne := singletons hShort hLong i.val (List.mem_range.mpr i.isLt)
      simp only [hNone, List.length_nil] at hOne
      cases hOne
    · exact hSome
  choose users hMessage hBy using hEach
  have hMessages : ((List.range vs.length).flatMap fun i => (eventsOf (i + 1) H).filterMap pushed) =
      List.ofFn fun i : Fin vs.length => message (.int i.val) (vs.get i) (users i) := by
    rw [← List.map_coe_finRange_eq_range, List.flatMap_map, List.ofFn_eq_map, List.map_eq_flatMap]
    exact List.flatMap_congr fun i _ => hMessage i
  rw [hMessages, hItems] at hAll
  have hNothing : items = [] := by
    have hCount := hAll.length_eq
    rw [List.length_append, List.length_ofFn, hLength] at hCount
    exact List.eq_nil_of_length_eq_zero (by omega)
  rw [hNothing, List.append_nil] at hAll
  exact ⟨users, hBy, hAll⟩

theorem keyedApart_messages {rows : List AdminRow} {users : Fin vs.length → UserInfo}
    (hPerm : rows.Perm (List.ofFn fun i : Fin vs.length => message (.int i.val) (vs.get i) (users i))) :
    KeyedApart rows := by
  intro r hr r' hr' hText
  obtain ⟨i, rfl⟩ := (List.mem_ofFn' _ _).mp (hPerm.mem_iff.mp hr)
  obtain ⟨i', rfl⟩ := (List.mem_ofFn' _ _).mp (hPerm.mem_iff.mp hr')
  have hDigits : toString i.val = toString i'.val := hText
  obtain rfl : i = i' := by
    rw [Fin.ext_iff, ← ofDigitChars_toString i.val, ← ofDigitChars_toString i'.val, hDigits]
  rfl

theorem replaced_rows (hInv : Inv self u k old js H w) (hKey : ShowsKey u.id k) {admins : PhpArray}
    (hDone : Replaced self admins (mainOf self H)) (hKeys : KeyedApart (mainOf self H).rows) :
    ∃ news, w.db .tgGroupAdmins = (old.filter fun row => !ofGroup k row) ++ news ∧
      (∀ row ∈ news, ofGroup k row = true) ∧
      news.map .ofRow = (mainOf self H).rows.map fun r => AdminEntry.bound r.userId r.role r.info := by
  have hPhase := hDone.phase
  have hRows := hInv.table.rows
  by_cases hNone : (mainOf self H).rows = []
  · rw [if_pos hNone] at hPhase
    simp only [Shows, hPhase] at hRows
    exact ⟨[], by rw [hRows, List.append_nil], fun _ hRow => absurd hRow List.not_mem_nil, by rw [hNone]; rfl⟩
  · rw [if_neg hNone] at hPhase
    simp only [Shows, hPhase] at hRows
    obtain ⟨news, hDb, hAll⟩ := hRows
    exact ⟨news, hDb, inserted_admins hKeys hKey hAll⟩

theorem trackAdmins_snapshot (hU : self.u = some u) (hKey : ShowsKey u.id k) (hTx : ∀ t, w₀.tx t = none)
    (hRun : AdminRun h self w₀ c) {chatId answer : Php}
    (hAnswer : (0, ⟨.exe (.getChatAdministrators chatId), .ok answer⟩) ∈ c.shared.2)
    (hResult : answer.get (.str "result") = .arr (listFrom 0 vs))
    (hEnd : c.threads[0]? = some (.trackAdmins self, .ret ())) :
    Snapshot self.dateTime k vs w₀ c.shared.2 c.shared.1 := by
  obtain ⟨hFollowed, hInv⟩ := inv_of_run hU hKey hTx hRun
  have hSettled : Settled self (mainOf self c.shared.2) := hFollowed.guarded 0 _ _ hEnd rfl
  have hDone := hSettled answer _ (hInv.answered _ _ (mem_eventsOf.mpr hAnswer)) hResult
  obtain ⟨users, hBy, hPerm⟩ := received hInv hDone
  obtain ⟨news, hDb, hGroup, hEntries⟩ := replaced_rows hInv hKey hDone (keyedApart_messages hPerm)
  refine ⟨⟨List.ofFn users, List.length_ofFn, fun i v info hv hInfo => ?_, ?_⟩, ?_⟩
  · obtain ⟨hLt, rfl⟩ := List.getElem?_eq_some_iff.mp hv
    rw [List.getElem?_ofFn, dif_pos hLt] at hInfo
    cases hInfo
    exact hBy ⟨i, hLt⟩
  · have hNews : c.shared.1.adminsOf k = news := by
      rw [World.adminsOf, hDb, List.filter_append, List.filter_filter, List.filter_eq_self.mpr hGroup]
      simp
    have hZip : List.zipWith entryRow vs (List.ofFn users) =
        (List.ofFn fun i : Fin vs.length => message (.int i.val) (vs.get i) (users i)).map
          fun r => AdminEntry.bound r.userId r.role r.info := by
      refine List.ext_getElem (by simp) fun i hi hi' => ?_
      have hLt : i < vs.length := by simpa using hi'
      obtain ⟨entries, hv⟩ := (hBy ⟨i, hLt⟩).isArray
      have hInfo : Group.adminInfo vs[i] = entryInfo vs[i] := by
        rw [show vs[i] = .arr entries from hv]
        exact adminInfo_eq entries
      simp [entryRow, message, hInfo]
    rw [hNews, hEntries, hZip]
    exact hPerm.map _
  · have hNone : (news.filter fun row => !ofGroup k row) = [] := by
      simpa [List.filter_eq_nil_iff] using hGroup
    rw [World.otherAdmins, hDb, List.filter_append, hNone, List.filter_filter, World.otherAdmins]
    simp

end Runs

/-! ## A run in which the second administrator comes first -/

def sampleGroup : Group where
  data := some { chatId := .int (-100) }
  dateTime := "2020-01-01 00:00:00"
  u := some ⟨.str "1", .null, .null, .str "0"⟩

def sampleAdmin (groupId : Nat) : Row Col :=
  schema.newRow .tgGroupAdmins (Group.adminCols.zip [.int 5, .int groupId, .str "creator", .null, .str ""]) groupId

def sampleWorld : World :=
  { World.initial with
    db := fun
      | .tgGroups => [schema.newRow .tgGroups [] 1, schema.newRow .tgGroups [] 2]
      | .tgGroupAdmins => [sampleAdmin 1, sampleAdmin 2]
      | _ => [] }

def sampleEntry (id : Int) (status : String) (rest : List (String × Php)) : Php :=
  .obj ([("user", .obj [("id", .int id), ("is_bot", .bool false), ("first_name", .str "A")]), ("status", .str status)] ++
    rest)

def sampleEntries (status : String) : List Php :=
  [sampleEntry 7 "creator" [], sampleEntry 8 status [("can_be_edited", .bool false)]]

def sampleAnswer (status : String) : Php := .obj [("result", .arr (listFrom 0 (sampleEntries status)))]

def sampleStart : Config (World × List (Nat × Answered)) Op Op.Res Throwable Unit Job :=
  ⟨(sampleWorld, []), [(system plainHashes).fresh (.trackAdmins sampleGroup)]⟩

def steps (t n : Nat) : List (Label Job Choice) := List.replicate n (.step t .ok)

def untilReceived (status : String) : List (Label Job Choice) :=
  steps 0 2 ++ [.step 0 (.answer (sampleAnswer status))] ++ steps 0 3 ++ steps 2 12 ++ steps 1 12 ++ steps 0 2

def runSample (ls : List (Label Job Choice)) :
    Option (Config (World × List (Nat × Answered)) Op Op.Res Throwable Unit Job) :=
  (system plainHashes).recorded.run sampleStart ls

def isStep : Label Job Choice → Bool
  | .step _ _ => true
  | .start _ => false

theorem adminRun_of_run {ls : List (Label Job Choice)}
    {c : Config (World × List (Nat × Answered)) Op Op.Res Throwable Unit Job} (hSteps : ls.all isStep = true)
    (hc : runSample ls = some c) : AdminRun plainHashes sampleGroup sampleWorld c := by
  refine reach_of_run (fun l hl _ => ?_) hc
  have hStep := List.all_eq_true.mp hSteps l hl
  cases l with
  | start j => cases hStep
  | step t ch => trivial

def returned : Job × Prog Op Op.Res Throwable Unit → Bool
  | (.trackAdmins g, .ret ()) => g = sampleGroup
  | _ => false

theorem eq_of_returned {x : Job × Prog Op Op.Res Throwable Unit} (h : returned x = true) :
    x = (.trackAdmins sampleGroup, .ret ()) := by
  unfold returned at h
  split at h
  · rw [of_decide_eq_true h]
  · cases h

def answered (v : Php) : Nat × Answered → Bool
  | (0, ⟨.exe (.getChatAdministrators chatId), .ok v'⟩) => chatId = .int (-100) && v' = v
  | _ => false

theorem eq_of_answered {x : Nat × Answered} (h : answered v x = true) :
    x = (0, ⟨.exe (.getChatAdministrators (.int (-100))), .ok v⟩) := by
  unfold answered at h
  split at h
  · obtain ⟨hChat, hValue⟩ := Bool.and_eq_true_iff.mp h
    rw [of_decide_eq_true hChat, of_decide_eq_true hValue]
  · cases h

theorem two_admins_snapshot :
    ∃ c, AdminRun plainHashes sampleGroup sampleWorld c ∧
      Snapshot sampleGroup.dateTime 1 (sampleEntries "administrator") sampleWorld c.shared.2 c.shared.1 := by
  have hRun : (runSample (untilReceived "administrator" ++ steps 0 4)).any (fun c =>
      c.threads[0]?.any returned && c.shared.2.any (answered (sampleAnswer "administrator"))) = true := by
    decide +kernel
  obtain ⟨c, hc, hHere⟩ := (Option.any_eq_true _ _).mp hRun
  obtain ⟨hReturned, hAnswered⟩ := Bool.and_eq_true_iff.mp hHere
  obtain ⟨x, hx, hEnd⟩ := (Option.any_eq_true _ _).mp hReturned
  obtain ⟨y, hy, hAnswer⟩ := List.any_eq_true.mp hAnswered
  rw [eq_of_returned hEnd] at hx
  rw [eq_of_answered hAnswer] at hy
  have hAdmins := adminRun_of_run (by decide +kernel) hc
  exact ⟨c, hAdmins, trackAdmins_snapshot rfl (.inr rfl) (fun _ => rfl) hAdmins hy rfl hx⟩

/-! ## A statement that fails -/

/-- When one of the two statements raises, the group has its old rows exactly if it was
the first one or there were none. -/
theorem admins_kept_iff {h : Hashes} {self : Group} {u : GroupInfo} {k : Nat} {w₀ : World}
    {c : Config (World × List (Nat × Answered)) Op Op.Res Throwable Unit Job} (hU : self.u = some u)
    (hKey : ShowsKey u.id k) (hTx : ∀ t, w₀.tx t = none) (hRun : AdminRun h self w₀ c) {o : Op} {e : Throwable}
    (hFailed : (0, ⟨o, .error e⟩) ∈ c.shared.2) (hTargets : .tgGroupAdmins ∈ o.targets) :
    c.shared.1.adminsOf k = w₀.adminsOf k ↔
      (∃ params, o = .execute (.delete .tgGroupAdmins .groupId) params) ∨ w₀.adminsOf k = [] := by
  obtain ⟨_, hInv⟩ := inv_of_run hU hKey hTx hRun
  have hRows := hInv.table.rows
  rcases hInv.stopped o e (mem_eventsOf.mpr hFailed) hTargets with ⟨hPhase, hDelete⟩ | ⟨hPhase, tb, cols, names, params, rfl⟩
  · simp only [Shows, hPhase] at hRows
    simp only [World.adminsOf, hRows, hDelete, true_or]
  · simp only [Shows, hPhase] at hRows
    have hGone : c.shared.1.adminsOf k = [] := by
      rw [World.adminsOf, hRows, List.filter_filter]
      simp
    rw [hGone]
    constructor
    · exact fun hEq => .inr hEq.symm
    · rintro (⟨_, hEq⟩ | hEq)
      · cases hEq
      · exact hEq.symm

def deleteRaised : Nat × Answered → Bool
  | (0, ⟨.execute (.delete .tgGroupAdmins .groupId) _, .error _⟩) => true
  | _ => false

def insertRaised : Nat × Answered → Bool
  | (0, ⟨.executeNamed .tgGroupAdmins _ _ _, .error _⟩) => true
  | _ => false

theorem delete_raises_rows_kept :
    ∃ c, AdminRun plainHashes sampleGroup sampleWorld c ∧ c.shared.2.any deleteRaised = true ∧
      c.shared.1.adminsOf 1 = sampleWorld.adminsOf 1 := by
  have hRun : (runSample (untilReceived "administrator" ++ [.step 0 (.fail (.exception "PDOException" ""))])).any
      (fun c => c.shared.2.any deleteRaised) = true := by
    decide +kernel
  obtain ⟨c, hc, hHere⟩ := (Option.any_eq_true _ _).mp hRun
  have hAdmins := adminRun_of_run (by decide +kernel) hc
  obtain ⟨x, hx, hRaised⟩ := List.any_eq_true.mp hHere
  refine ⟨c, hAdmins, hHere, ?_⟩
  unfold deleteRaised at hRaised
  split at hRaised
  · exact (admins_kept_iff rfl (.inr rfl) (fun _ => rfl) hAdmins hx (List.mem_singleton_self _)).mpr (.inl ⟨_, rfl⟩)
  · cases hRaised

/-- A status that the column does not know refuses the `INSERT`, and the old row of the
group is gone. -/
theorem insert_raises_rows_lost :
    ∃ c, AdminRun plainHashes sampleGroup sampleWorld c ∧ c.shared.2.any insertRaised = true ∧
      c.shared.1.adminsOf 1 ≠ sampleWorld.adminsOf 1 := by
  have hRun : (runSample (untilReceived "owner" ++ steps 0 3)).any
      (fun c => c.shared.2.any insertRaised && (c.shared.1.adminsOf 1).isEmpty) = true := by
    decide +kernel
  obtain ⟨c, hc, hHere⟩ := (Option.any_eq_true _ _).mp hRun
  obtain ⟨hRaised, hEmpty⟩ := Bool.and_eq_true_iff.mp hHere
  refine ⟨c, adminRun_of_run (by decide +kernel) hc, hRaised, fun hEq => ?_⟩
  have hSome : (sampleWorld.adminsOf 1).isEmpty = false := by decide +kernel
  rw [hEq, hSome] at hEmpty
  cases hEmpty

end TeaBot.Loggers.Admins
