import TeaBot.Loggers.FileRuns
import TeaBot.Loggers.Steady

/-! # Which files share a row

With answers that echo the requested id, a call returns the key of a row whose
`tg_file_id` equals that id under the collation of the column.
-/

namespace TeaBot.Loggers.File

open Foundation Foundation.Sql Foundation.System

abbrev Echoing (c : FileCalls) (l : Label Request Choice) : Prop := echoing c l = true

def Has (h : Hashes) (w : World) (x : Request) (k : Nat) : Prop :=
  ∃ row ∈ w.db .tgFiles, row .id = .int k ∧ Named h row x.tgFileId

structure Kept (h : Hashes) (gs : List (Request × (Request × Stage))) (w : World) : Prop where
  tx : ∀ t, w.tx t = none
  valid : schema.Valid w.db w.next
  result : ∀ (t : Nat) (x : Request) (d : Request × Stage), gs[t]? = some (x, d) → d.1 = x ∧ d.2.Result (Has h w x) t w

variable {k : Nat} {row : Row Col}

section Runs

variable {h : Hashes} {w w' : World} {gs : List (Request × (Request × Stage))} {c : FileCalls} {t : Nat} {ch : Choice}
  {x : Request} {s : Stage} {j : Job}

theorem Has.step {y : Request} {o : Op} {r : Except Throwable o.Res} (hHas : Has h w y k) (hTx : w.tx t = none)
    (hAdmits : s.Admits h x o) (hExec : exec h t j o ch w = some (r, w')) : Has h w' y k := by
  obtain ⟨row, hRow, hNamed⟩ := hHas
  rcases step_cases hTx hAdmits hExec with ⟨hSame, _⟩ | ⟨_, hAdds, _⟩
  · exact ⟨row, hSame.db ▸ hRow, hNamed⟩
  · exact ⟨row, hAdds.files ▸ List.mem_append_left _ hRow, hNamed⟩

theorem has_of_lookup (hValid : schema.Valid w.db w.next) (hRow : lookup h w x.tgFileId = some row)
    (hKey : keyOf row = some k) : Has h w x k := by
  have hMem := List.mem_of_find?_eq_some hRow
  obtain ⟨n, hId, _⟩ := hValid.key .tgFiles row hMem
  have hId : row .id = .int n := hId
  have hSame : keyOf row = some n := by
    rw [keyOf, hId]
    exact congrArg (Option.map Int.toNat) (Php.intParam_toString n)
  cases hSame.symm.trans hKey
  exact ⟨row, hMem, hId, selects_iff.mp (List.find?_some hRow)⟩

theorem Kept.start (hKept : Kept h gs w) (x : Request) : Kept h (gs ++ [(x, (x, .outside))]) w where
  tx := hKept.tx
  valid := hKept.valid
  result t y d hAt := by
    rcases at_append hAt with hOld | ⟨_, rfl, rfl⟩
    · exact hKept.result t y d hOld
    · exact ⟨rfl, trivial⟩

theorem Kept.step {o : Op} {r : Except Throwable o.Res} (hKept : Kept h gs w) (hAt : gs[t]? = some (x, (x, s)))
    (hAdmits : s.Admits h x o) (hExec : exec h t j o ch w = some (r, w')) :
    Kept h (gs.set t (x, (x, s.after o r))) w' where
  tx := untouched_tx hKept.tx hAdmits hExec
  valid := by
    rcases step_cases (hKept.tx t) hAdmits hExec with ⟨hSame, _⟩ | ⟨_, hAdds, _⟩
    · rw [hSame.db, hSame.next]
      exact hKept.valid
    · exact hAdds.valid hKept.valid
  result u y d hu := by
    have hTx := hKept.tx t
    by_cases hEq : u = t
    · subst hEq
      rw [List.getElem?_set_self (List.getElem?_eq_some_iff.mp hAt).1] at hu
      cases hu
      refine ⟨rfl, (hKept.result u x _ hAt).2.step hTx hAdmits hExec (fun k hHas => hHas.step hTx hAdmits hExec) ?_ ?_⟩
      · intro row k hRow hKey
        exact (has_of_lookup hKept.valid hRow hKey).step hTx hAdmits hExec
      · intro row _ hAdds
        exact ⟨row, hAdds.files ▸ List.mem_append_right _ (List.mem_singleton_self row), hAdds.key, hAdds.named⟩
    · rw [List.getElem?_set_ne (Ne.symm hEq)] at hu
      obtain ⟨hCall, hResult⟩ := hKept.result u y d hu
      exact ⟨hCall, hResult.mono (fun k hHas => hHas.step hTx hAdmits hExec) ((exec_others hExec).lastId u hEq)⟩

theorem kept_reach {w₀ : World} (hTx : ∀ t, w₀.tx t = none) (hValid : schema.Valid w₀.db w₀.next)
    (hReach : (files h).Reach Echoing ⟨w₀, []⟩ c) : ∃ gs, TypedCalls h gs c ∧ Kept h gs c.shared := by
  have hInit : Kept h [] w₀ := ⟨hTx, hValid, fun _ _ _ hAt => by cases hAt⟩
  refine Typed.reach (fun x (_ : True) => files_keeps x) ?_ ?_ (.nil w₀) hInit hReach
  · exact fun _ _ x _ hKept _ => ⟨trivial, hKept.start x⟩
  · intro c gs t ch x d o k r w' _ hKept hOk hThread hAt hAdmits hExec
    obtain ⟨rfl, _⟩ := hKept.result t x d hAt
    have hAnswered := answered_of_echoed h ((echoing_step hThread).symm.trans hOk)
    refine ⟨fun _ => answers_of_exec hAnswered hExec, fun _ hx => absurd hx List.not_mem_nil, ?_⟩
    change Kept h (gs.set t _ ++ []) w'
    rw [List.append_nil]
    exact hKept.step hAt hAdmits hExec

theorem has_of_returned (hTyped : TypedCalls h gs c) (hKept : Kept h gs c.shared)
    (hRet : c.threads[t]? = some (x, .ret (some k))) : Has h c.shared x k := by
  obtain ⟨d, hAt, _, hTold⟩ := hTyped.state hRet
  have hResult := (hKept.result t x d hAt).2
  rwa [hTold _ rfl] at hResult

end Runs

/-! ## A stored file under another spelling -/

def Storable (tgFileId : String) : Prop := (ColumnType.store (.varchar 255 .utf8) (.str tgFileId)).isSome = true

def fileRow (tgFileId : String) : Row Col
  | .id => .int 1
  | .tgFileId => .str tgFileId
  | .md5Sum | .sha1Sum => .str ""
  | .fileType => .str "unknown"
  | .hitCount => .int 1
  | .createdAt => .str "2020-01-01 00:00:00"
  | _ => .null

def storedWorld (tgFileId : String) : World :=
  { World.initial with
    db := Function.update World.initial.db .tgFiles [fileRow tgFileId]
    next := Function.update World.initial.next .tgFiles 2 }

variable {tgFileId : String}

theorem storedWorld_rows {tb : Tbl} (hRow : row ∈ (storedWorld tgFileId).db tb) :
    tb = .tgFiles ∧ row = fileRow tgFileId := by
  by_cases hTb : tb = .tgFiles
  · subst hTb
    exact ⟨rfl, by simpa [storedWorld] using hRow⟩
  · simp [storedWorld, World.initial, hTb] at hRow

theorem fileRow_holds (hStorable : Storable tgFileId) :
    ∀ d ∈ (schema.table .tgFiles).columns, d.Holds (fileRow tgFileId d.name) := by
  obtain ⟨v, hv⟩ := Option.isSome_iff_exists.mp hStorable
  have hSelf : ColumnType.store (.varchar 255 .utf8) (.str tgFileId) = some (.str tgFileId) := by
    simp only [ColumnType.store, Value.asText, Option.bind_some] at hv ⊢
    split at hv
    · rename_i hFits
      rw [if_pos hFits]
    · cases hv
  have hName : Column.Holds ({ name := .tgFileId, type := .varchar 255 .utf8 } : Column Col) (.str tgFileId) :=
    ⟨by simp [Column.check, hSelf], by simp [Column.stored, hSelf]⟩
  intro d hd
  simp only [schema, table, List.mem_cons, List.not_mem_nil, or_false] at hd
  rcases hd with rfl | rfl | rfl | rfl | rfl | rfl | rfl | rfl | rfl | rfl | rfl | rfl <;>
    first | exact hName | exact ⟨rfl, rfl⟩

theorem storedWorld_valid (hStorable : Storable tgFileId) :
    schema.Valid (storedWorld tgFileId).db (storedWorld tgFileId).next where
  key tb row hRow := by
    obtain ⟨rfl, rfl⟩ := storedWorld_rows hRow
    exact ⟨1, rfl, by simp [storedWorld]⟩
  distinct tb := by
    by_cases hTb : tb = .tgFiles
    · subst hTb
      simp [storedWorld]
    · simp [storedWorld, World.initial, hTb]
  unique tb c hc := by
    by_cases hTb : tb = .tgFiles
    · subst hTb
      simp [storedWorld]
    · simp [storedWorld, World.initial, hTb]
  cell tb row hRow := by
    obtain ⟨rfl, rfl⟩ := storedWorld_rows hRow
    exact fileRow_holds hStorable
  foreign tb row hRow := by
    obtain ⟨rfl, rfl⟩ := storedWorld_rows hRow
    rfl

theorem storedWorld_lookup {h : Hashes} {other : String} (hEqual : h.collate tgFileId = h.collate other) :
    lookup h (storedWorld tgFileId) other = some (fileRow tgFileId) := by
  have hNamed : Named h (fileRow tgFileId) other := ⟨tgFileId, rfl, hEqual⟩
  simp [lookup, storedWorld, selects_iff.mpr hNamed]

theorem found_reach {h : Hashes} {w : World} (threads : List (Request × Run (Option Nat))) (x : Request)
    (hTx : ∀ t, w.tx t = none) (hLocks : ∀ m, w.locks m = none) (hRow : lookup h w x.tgFileId = some row)
    (hKey : keyOf row = some k) : (files h).Reach Echoing ⟨w, threads⟩ ⟨w, threads ++ [(x, .ret (some k))]⟩ := by
  let n := threads.length
  let job := Job.resolveFile x.tgFileId x.dateTime
  let m := x.mutex h
  let w₁ := { w with locks := Function.update w.locks m (some n) }
  have hLock : exec h n job (.lock m) .ok w = some (.ok (), w₁) := by simp [exec, carry, hLocks, w₁]
  have hFetch : exec h n job (.fetch .tgFiles [.id] .tgFileId (.str x.tgFileId)) .ok w₁ =
      some (.ok (some fun c => if c ∈ [Col.id] then fetchValue (row c) else .null), w₁) := by
    have hView : w₁.view n = w.db := by simp [World.view, w₁, hTx]
    have hShown : w₁.fetchRow h.collate n .tgFiles [.id] .tgFileId (.str x.tgFileId) =
        some fun c => if c ∈ [Col.id] then fetchValue (row c) else .null := by
      rw [World.fetchRow, hView]
      exact congrArg (Option.map _) hRow
    exact congrArg (fun u => some (Except.ok u, w₁)) hShown
  have hUnlock : exec h n job (.unlock m) .ok w₁ = some (.ok (), w) := by
    simp [exec, carry, World.release, w₁, ← hLocks m]
  have hClose : exec h n job (.fclose m) .ok w = some (.ok (), w) := by simp [exec, carry, World.release, hLocks]
  have hRun : ((files h).code x).Runs (fun o s r s' => ∃ ch, echoed o ch = true ∧
      (files h).exec n x o ch s = some (r, s') ∧ (files h).spawned o r = []) w (.ok (keyOf row)) w :=
    .op ⟨.ok, rfl, hLock, rfl⟩ (.op ⟨.ok, rfl, hFetch, rfl⟩ (.op ⟨.ok, rfl, hUnlock, rfl⟩
      (.op ⟨.ok, rfl, hClose, rfl⟩ (.ret _ _))))
  have hThread : (threads ++ [(files h).fresh x])[n]? = some (x, (files h).code x) := by simp [n, fresh]
  have hStart : (files h).Reach Echoing ⟨w, threads⟩ ⟨w, threads ++ [(files h).fresh x]⟩ :=
    Reach.refl.step (l := .start x) rfl rfl
  have hEnd : (files h).Reach Echoing ⟨w, threads ++ [(files h).fresh x]⟩
      ⟨w, (threads ++ [(files h).fresh x]).set n (x, .ofExcept (.ok (keyOf row)))⟩ :=
    reach_of_runs (fun c o f ch hAt hEchoed => (echoing_step hAt).trans hEchoed) hRun hThread
  rw [hKey, Prog.ofExcept_ok, List.set_append_right _ _ le_rfl, Nat.sub_self] at hEnd
  exact hStart.trans hEnd

/-- Two files are told apart unless a text that `tg_file_id` can hold equals both their ids. -/
theorem files_told_apart_iff (h : Hashes) {a b : String} (hNe : a ≠ b) :
    (∀ (w₀ : World) (c : FileCalls) (t u : Nat) (x y : Request) (k l : Nat), schema.Valid w₀.db w₀.next →
      (∀ t, w₀.tx t = none) → (files h).Reach Echoing ⟨w₀, []⟩ c → c.threads[t]? = some (x, .ret (some k)) →
      c.threads[u]? = some (y, .ret (some l)) → x.tgFileId = a → y.tgFileId = b → k ≠ l) ↔
    ∀ s, Storable s → h.collate s = h.collate a → h.collate s ≠ h.collate b := by
  constructor
  · intro hApart s hStorable hFirst hSecond
    have hOne := found_reach (h := h) [] ⟨a, ""⟩ (fun _ => rfl) (fun _ => rfl) (storedWorld_lookup hFirst) rfl
    have hBoth := hOne.trans (found_reach _ ⟨b, ""⟩ (fun _ => rfl) (fun _ => rfl) (storedWorld_lookup hSecond) rfl)
    exact hApart _ _ 0 1 _ _ 1 1 (storedWorld_valid hStorable) (fun _ => rfl) hBoth rfl rfl rfl rfl rfl
  · rintro hApart w₀ c t u x y k _ hValid hTx hReach ht hu rfl rfl rfl
    obtain ⟨gs, hTyped, hKept⟩ := kept_reach hTx hValid hReach
    obtain ⟨row, hRow, hId, s, hText, hFirst⟩ := has_of_returned hTyped hKept ht
    obtain ⟨row', hRow', hId', s', hText', hSecond⟩ := has_of_returned hTyped hKept hu
    cases hKept.valid.eq_of_id hRow hRow' (hId.trans hId'.symm)
    cases hText.symm.trans hText'
    have hStorable : Storable s := by
      have hHolds := hKept.valid.cell .tgFiles row hRow { name := .tgFileId, type := .varchar 255 .utf8 }
        (by simp [schema, table])
      rw [show row .tgFileId = .str s from hText] at hHolds
      exact Option.isSome_iff_ne_none.mpr (by simpa [Column.check] using hHolds.check)
    exact hApart s hStorable hFirst hSecond

def video : Request := ⟨"g", "2020-01-01 00:00:00"⟩

def capitals : Request := ⟨"F", "2020-01-01 00:00:00"⟩

theorem exists_echoing_run {ls : List (Label Request Choice)} {x y : Request} {l : Nat}
    (hEnd : ((files plainHashes).runWhile echoing ⟨.initial, []⟩ ls).any (fun c =>
      decide (returned c 0 = some (x, some k)) && decide (returned c 1 = some (y, some l))) = true) :
    ∃ c, (files plainHashes).Reach Echoing ⟨.initial, []⟩ c ∧ c.threads[0]? = some (x, .ret (some k)) ∧
      c.threads[1]? = some (y, .ret (some l)) := by
  obtain ⟨c, hc, hBoth⟩ := (Option.any_eq_true _ _).mp hEnd
  obtain ⟨h₀, h₁⟩ := Bool.and_eq_true_iff.mp hBoth
  exact ⟨c, reach_of_runWhile (fun _ _ _ hOk => hOk) hc, threads_of_returned (of_decide_eq_true h₀),
    threads_of_returned (of_decide_eq_true h₁)⟩

theorem two_files_told_apart : ∃ c, (files plainHashes).Reach Echoing ⟨.initial, []⟩ c ∧
    ∃ k l, c.threads[0]? = some (photo, .ret (some k)) ∧ c.threads[1]? = some (video, .ret (some l)) ∧ k ≠ l := by
  have hEnd : ((files plainHashes).runWhile echoing ⟨.initial, []⟩
      ((.start photo :: downloading 0 (getFileAnswer "f" 3)) ++ (.start video :: downloading 1 (getFileAnswer "g" 3)))).any
        (fun c => decide (returned c 0 = some (photo, some 1)) && decide (returned c 1 = some (video, some 2))) = true := by
    decide +kernel
  obtain ⟨c, hReach, h₀, h₁⟩ := exists_echoing_run hEnd
  have hApart := (files_told_apart_iff plainHashes (a := "f") (b := "g") (by decide)).mpr
    fun _ _ hFirst hSecond => absurd (hFirst.symm.trans hSecond) (by decide)
  exact ⟨c, hReach, 1, 2, h₀, h₁, hApart _ c 0 1 photo video 1 2 steady_initial.valid (fun _ => rfl) hReach h₀ h₁ rfl rfl⟩

/-- Ids that differ in letter case only get the same row. -/
theorem capitals_share_the_row : ∃ c, (files plainHashes).Reach Echoing ⟨.initial, []⟩ c ∧
    c.threads[0]? = some (photo, .ret (some 1)) ∧ c.threads[1]? = some (capitals, .ret (some 1)) := by
  have hEnd : ((files plainHashes).runWhile echoing ⟨.initial, []⟩
      ((.start photo :: downloading 0 (getFileAnswer "f" 3)) ++ (.start capitals :: finding 1))).any
        (fun c => decide (returned c 0 = some (photo, some 1)) && decide (returned c 1 = some (capitals, some 1))) = true := by
    decide +kernel
  exact exists_echoing_run hEnd

end TeaBot.Loggers.File
