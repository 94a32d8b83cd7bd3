import TeaBot.Foundation.Integrity
import TeaBot.Foundation.TypedRuns
import TeaBot.Loggers.FileCalls
import TeaBot.Loggers.Statements
import TeaBot.Loggers.Untouched

/-! # Concurrent calls of `resolveFile`

Rows of `tg_files` are only ever added, at the end. A lookup takes the first row whose
`tg_file_id` equals the requested id under the collation of the column.
-/

namespace TeaBot.Loggers.File

open Foundation Foundation.Sql Foundation.System

def files (h : Hashes) : System World Op Op.Res Throwable (Option Nat) Request Choice where
  code x := resolveFile h.md5 x.tgFileId x.dateTime
  exec t x := exec h t (.resolveFile x.tgFileId x.dateTime)
  spawned _ _ := []

abbrev FileCalls := Config World Op Op.Res Throwable (Option Nat) Request

/-! ## One step -/

def lookup (h : Hashes) (w : World) (tgFileId : String) : Option (Row Col) :=
  (w.db .tgFiles).find? (schema.selects h.collate .tgFiles .tgFileId (.str tgFileId))

/-- `(int)$u[0]` -/
def keyOf (row : Row Col) : Option Nat := ((fetchValue (row .id)).intParam).map Int.toNat

/-- The collation finds the row under the id. -/
def Named (h : Hashes) (row : Row Col) (tgFileId : String) : Prop :=
  ∃ s, row .tgFileId = .str s ∧ h.collate s = h.collate tgFileId

variable {row : Row Col}

theorem selects_iff {h : Hashes} {tgFileId : String} :
    schema.selects h.collate .tgFiles .tgFileId (.str tgFileId) row = true ↔ Named h row tgFileId := by
  change (ColumnType.varchar 255 .utf8).selects h.collate (row .tgFileId) (.str tgFileId) = true ↔ _
  rw [Named]
  cases row .tgFileId with
  | null | int n => simp [ColumnType.selects, ColumnType.equal]
  | str s => simp [ColumnType.selects, Value.asText, eq_comm]

structure Adds (h : Hashes) (x : Request) (t : Nat) (row : Row Col) (w w' : World) : Prop where
  files : w'.db .tgFiles = w.db .tgFiles ++ [row]
  valid : schema.Valid w.db w.next → schema.Valid w'.db w'.next
  key : row .id = .int (w.next .tgFiles)
  named : Named h row x.tgFileId
  lastId : w'.lastId t = w.next .tgFiles
  tx : w'.tx = w.tx
  locks : w'.locks = w.locks

variable {o : Op} {r : Except Throwable o.Res}

section Steps

variable {h : Hashes} {j : Job} {x : Request} {t : Nat} {s : Stage} {w w' : World} {ch : Choice}

theorem insert_named {next : Tbl → Nat} {v : Php} {rest : List Php} {ws : List (Write Tbl Col)}
    (hWrites : schema.writes w.db next (.insert .tgFiles insertCols) ((v :: rest).map bindParam) = .ok ws)
    (hSpells : Spells h v x.tgFileId) :
    ∃ row, ws = [.insert .tgFiles row] ∧ row .id = .int (next .tgFiles) ∧ Named h row x.tgFileId := by
  obtain ⟨rfl, hCells, _⟩ := schema.writes_insert hWrites
  have hName := hCells { name := .tgFileId, type := .varchar 255 .utf8 } (by simp [schema, table]) (by decide)
  have hCheck : Column.check ({ name := .tgFileId, type := .varchar 255 .utf8 } : Column Col) (bindParam v) = none := hName
  obtain ⟨s, hText, hFold⟩ := hSpells
  exact ⟨_, rfl, rfl, s, (Column.stored_varchar rfl hCheck).trans hText, hFold⟩

theorem execute_of_inserted (hAfter : s.after o r = .inserted) : o.writes = true ∧ ∀ e, r ≠ .error e := by
  unfold Stage.after at hAfter
  split at hAfter <;> cases hAfter
  exact ⟨rfl, fun _ hEq => by cases hEq⟩

theorem step_cases (hTx : w.tx t = none) (hAdmits : s.Admits h x o) (hExec : exec h t j o ch w = some (r, w')) :
    (Untouched w w' ∧ s.after o r ≠ .inserted) ∨ ∃ row, Adds h x t row w w' ∧ s = .missing ∧ s.after o r = .inserted := by
  by_cases hWrites : o.writes = false
  · have hNot : s.after o r ≠ .inserted := fun hAfter =>
      Bool.false_ne_true (hWrites.symm.trans (execute_of_inserted hAfter).1)
    rcases exec_eq_some hExec with ⟨_, _, _, rfl⟩ | hCarry
    · exact .inl ⟨.refl _, hNot⟩
    · exact .inl ⟨carry_untouched hWrites hCarry, hNot⟩
  cases o with
  | execute stmt params =>
    cases s with
    | missing =>
      obtain ⟨rfl, v, rest, rfl, hSpells⟩ := hAdmits
      have hView : w.view t = w.db := by simp [World.view, hTx]
      rcases exec_execute hExec with ⟨e, rfl, rfl⟩ | ⟨ws, hOk, rfl, rfl⟩
      · exact .inl ⟨.refl _, fun hAfter => (execute_of_inserted hAfter).2 e rfl⟩
      · rw [hView] at hOk
        have hValid := fun hValid : schema.Valid w.db w.next => hValid.insert schema_wellFormed hOk
        obtain ⟨row, rfl, hKey, hNamed⟩ := insert_named hOk hSpells
        have hTaken : (w.takeId t .tgFiles).tx t = none := hTx
        refine .inr ⟨row, ?_, rfl, rfl⟩
        simp only [World.write, hTaken]
        exact ⟨by simp [Schema.applyAll, Schema.apply, World.takeId], hValid, hKey, hNamed,
          Function.update_self _ _ _, rfl, rfl⟩
    | _ => cases hAdmits
  | beginTransaction | commit | rollback | executeNamed => cases s <;> cases hAdmits
  | _ => exact absurd rfl hWrites

def Stage.Result (R : Nat → Prop) (t : Nat) (w : World) : Stage → Prop
  | .inserted => R (w.lastId t)
  | .known (some k) | .released (some k) => R k
  | _ => True

theorem Stage.Result.mono {R R' : Nat → Prop} (hResult : s.Result R t w) (hMono : ∀ k, R k → R' k)
    (hLast : w'.lastId t = w.lastId t) : s.Result R' t w' := by
  cases s with
  | inserted => exact hMono _ (hLast ▸ hResult)
  | known r | released r => cases r with
    | none => trivial
    | some k => exact hMono k hResult
  | _ => trivial

theorem exec_fetch {tb : Tbl} {cols : List Col} {key : Col} {v : Php} {r : Except Throwable (Option (Col → Php))}
    (hExec : exec h t j (.fetch tb cols key v) ch w = some (r, w')) :
    w' = w ∧ ((∃ e, r = .error e) ∨ r = .ok (w.fetchRow h.collate t tb cols key v)) := by
  rcases exec_eq_some hExec with ⟨e, _, rfl, rfl⟩ | hCarry
  · exact ⟨rfl, .inl ⟨e, rfl⟩⟩
  · cases ch with
    | ok =>
      cases hCarry
      exact ⟨rfl, .inr rfl⟩
    | _ => cases hCarry

theorem after_fetch {r : Except Throwable (Option (Col → Php))} (hTx : w.tx t = none)
    (hExec : exec h t j (.fetch .tgFiles [.id] .tgFileId (.str x.tgFileId)) ch w = some (r, w')) :
    w' = w ∧ (Stage.locked.after (.fetch .tgFiles [.id] .tgFileId (.str x.tgFileId)) r = .failing ∨
      (lookup h w x.tgFileId = none ∧
        Stage.locked.after (.fetch .tgFiles [.id] .tgFileId (.str x.tgFileId)) r = .missing) ∨
      ∃ row, lookup h w x.tgFileId = some row ∧
        Stage.locked.after (.fetch .tgFiles [.id] .tgFileId (.str x.tgFileId)) r = .known (keyOf row)) := by
  have hView : w.view t = w.db := by simp [World.view, hTx]
  obtain ⟨rfl, ⟨e, rfl⟩ | rfl⟩ := exec_fetch hExec
  · exact ⟨rfl, .inl rfl⟩
  · refine ⟨rfl, .inr ?_⟩
    have hFetch : w'.fetchRow h.collate t .tgFiles [.id] .tgFileId (.str x.tgFileId) =
        (lookup h w' x.tgFileId).map fun row c => if c ∈ [Col.id] then fetchValue (row c) else .null := by
      rw [World.fetchRow, hView]
      rfl
    rw [hFetch]
    cases hRow : lookup h w' x.tgFileId with
    | none => exact .inl ⟨rfl, rfl⟩
    | some row => exact .inr ⟨row, rfl, rfl⟩

theorem Stage.Result.step {R R' : Nat → Prop} (hResult : s.Result R t w) (hTx : w.tx t = none)
    (hAdmits : s.Admits h x o) (hExec : exec h t j o ch w = some (r, w')) (hMono : ∀ k, R k → R' k)
    (hFound : ∀ row k, lookup h w x.tgFileId = some row → keyOf row = some k → R' k)
    (hNew : ∀ row, s = .missing → Adds h x t row w w' → R' (w.next .tgFiles)) : (s.after o r).Result R' t w' := by
  rcases step_cases hTx hAdmits hExec with ⟨hSame, hNot⟩ | ⟨row, hAdds, rfl, hAfter⟩
  · cases s with
    | locked =>
      cases o with
      | fetch tb cols key v =>
        obtain ⟨rfl, rfl, rfl, rfl⟩ := hAdmits
        obtain ⟨_, hAfter | ⟨_, hAfter⟩ | ⟨row, hRow, hAfter⟩⟩ := after_fetch hTx hExec
        · rw [hAfter]
          trivial
        · rw [hAfter]
          trivial
        · rw [hAfter]
          cases hKey : keyOf row with
          | none => trivial
          | some k => exact hFound row k hRow hKey
      | fclose m => trivial
      | _ => cases hAdmits
    | inserted =>
      cases o with
      | lastInsertId =>
        rcases exec_eq_some hExec with ⟨_, _, rfl, _⟩ | hCarry
        · trivial
        · cases ch with
          | ok =>
            cases hCarry
            exact hMono _ hResult
          | _ => cases hCarry
      | fclose m => trivial
      | _ => cases hAdmits
    | known r' =>
      cases o with
      | unlock m => cases r' with
        | none => trivial
        | some k => exact hMono k hResult
      | fclose m => trivial
      | _ => cases hAdmits
    | released r' =>
      cases o with
      | fclose m => cases r' with
        | none => trivial
        | some k => exact hMono k hResult
      | _ => cases hAdmits
    | missing =>
      cases o with
      | execute stmt params => cases r with
        | ok _ => exact absurd rfl hNot
        | error e => trivial
      | _ => trivial
    | outside =>
      cases o with
      | lock m => cases r <;> trivial
      | fclose m => trivial
      | _ => cases hAdmits
    | failing | ended =>
      cases o with
      | fclose m => trivial
      | _ => cases hAdmits
  · rw [hAfter]
    change R' (w'.lastId t)
    rw [hAdds.lastId]
    exact hNew row rfl hAdds

end Steps

/-! ## Idempotence -/

def First (h : Hashes) (w : World) (x : Request) (k : Nat) : Prop := ∃ row, lookup h w x.tgFileId = some row ∧ keyOf row = some k

/-- Whoever is about to insert a row has the lock, and there was none. -/
def Stage.Holds (h : Hashes) (x : Request) (t : Nat) (w : World) : Stage → Prop
  | .locked => w.locks (x.mutex h) = some t
  | .missing => w.locks (x.mutex h) = some t ∧ lookup h w x.tgFileId = none
  | _ => True

/-- The answer to `getFile` carries the requested id, as the collation has it, if it passes the
check. -/
def Answered (h : Hashes) : Op → Choice → Prop
  | .exe (.getFile tgFileId), .answer v =>
    fieldsSet (v.get (.str "result")) = true → Spells h ((v.get (.str "result")).read "file_id") tgFileId
  | _, _ => True

/-- While a row is inserted, no call for an equal id with other bytes has its lock. -/
def Unrivalled (h : Hashes) (c : FileCalls) (x : Request) : Prop :=
  ∀ (u : Nat) (y : Request) (p : Run (Option Nat)), c.threads[u]? = some (y, p) → h.collate y.tgFileId = h.collate x.tgFileId →
    y.tgFileId ≠ x.tgFileId → c.shared.locks (y.mutex h) ≠ some u

def Faithful (h : Hashes) (c : FileCalls) : Label Request Choice → Prop
  | .start _ => True
  | .step t ch => ∀ (x : Request) (o : Op) (k : Except Throwable o.Res → Run (Option Nat)),
    c.threads[t]? = some (x, .op o k) → Answered h o ch ∧ (o.writes = true → Unrivalled h c x)

variable {k : Nat} {y : Request}

section Once

variable {h : Hashes} {j : Job} {x : Request} {t : Nat} {s : Stage} {w w' : World} {ch : Choice}

theorem answers_of_exec (hAnswered : Answered h o ch) (hExec : exec h t j o ch w = some (r, w')) :
    (stages h x).answers o r := by
  refine ⟨exec_raises hExec, ?_⟩
  cases o with
  | exe call =>
    cases r with
    | error e => cases call <;> trivial
    | ok v =>
      cases ch with
      | answer v' =>
        cases hExec
        cases call <;> trivial
      | fail e =>
        rcases exec_eq_some hExec with ⟨_, _, hEq, _⟩ | hCarry
        · cases hEq
        · cases hCarry
      | _ => cases hExec
  | _ => trivial

theorem First.adds (hFirst : First h w x k) (hAdds : Adds h y t row w w') : First h w' x k := by
  obtain ⟨r, hRow, hKey⟩ := hFirst
  refine ⟨r, ?_, hKey⟩
  rw [lookup] at hRow
  rw [lookup, hAdds.files, List.find?_append, hRow]
  rfl

theorem First.untouched (hFirst : First h w x k) (hSame : Untouched w w') : First h w' x k := by
  rwa [First, lookup, hSame.db]

theorem first_of_adds (hNone : lookup h w x.tgFileId = none) (hAdds : Adds h x t row w w') :
    First h w' x (w.next .tgFiles) := by
  refine ⟨row, ?_, ?_⟩
  · rw [lookup] at hNone
    rw [lookup, hAdds.files, List.find?_append, hNone]
    simp [selects_iff.mpr hAdds.named]
  · rw [keyOf, hAdds.key]
    exact congrArg (Option.map Int.toNat) (Php.intParam_toString _)

theorem Stage.Holds.step (hHolds : s.Holds h x t w) (hTx : w.tx t = none) (hAdmits : s.Admits h x o)
    (hExec : exec h t j o ch w = some (r, w')) : (s.after o r).Holds h x t w' := by
  cases s with
  | outside =>
    cases o with
    | lock m =>
      cases (show m = x.mutex h from hAdmits)
      obtain ⟨_, rfl, rfl⟩ := exec_lock hExec
      exact Function.update_self _ _ _
    | fclose m => trivial
    | _ => cases hAdmits
  | locked =>
    cases o with
    | fetch tb cols key v =>
      obtain ⟨rfl, rfl, rfl, rfl⟩ := hAdmits
      obtain ⟨rfl, hAfter | ⟨hNone, hAfter⟩ | ⟨row, _, hAfter⟩⟩ := after_fetch hTx hExec
      · rw [hAfter]
        trivial
      · rw [hAfter]
        exact ⟨hHolds, hNone⟩
      · rw [hAfter]
        trivial
    | fclose m => trivial
    | _ => cases hAdmits
  | missing =>
    by_cases hOffline : Offline o
    · rw [after_offline hOffline]
      have hSame : Untouched w w' := by
        rcases step_cases hTx hAdmits hExec with ⟨hSame, _⟩ | ⟨_, _, _, hAfter⟩
        · exact hSame
        · rw [after_offline hOffline] at hAfter
          cases hAfter
      have hSync : o.sync = false := by
        cases o <;> first | rfl | cases hOffline
      refine ⟨?_, ?_⟩
      · rw [(exec_async hSync hExec).1.locks]
        exact hHolds.1
      · rw [lookup, hSame.db]
        exact hHolds.2
    · cases o with
      | execute stmt params => cases r <;> trivial
      | unlock m => trivial
      | fclose m => trivial
      | exe call => exact absurd rfl hOffline
      | _ => exact absurd hAdmits hOffline
  | inserted =>
    cases o with
    | lastInsertId => cases r <;> trivial
    | fclose m => trivial
    | _ => cases hAdmits
  | known r' =>
    cases o with
    | unlock m => trivial
    | fclose m => trivial
    | _ => cases hAdmits
  | _ =>
    cases o with
    | fclose m => trivial
    | _ => cases hAdmits

theorem Stage.Holds.others {u : Nat} (hHolds : s.Holds h x u w) (hOthers : Others t w w') (hu : u ≠ t)
    (hNone : s = .missing → lookup h w x.tgFileId = none → lookup h w' x.tgFileId = none) : s.Holds h x u w' := by
  cases s with
  | locked => exact hOthers.locks u _ hu hHolds
  | missing => exact ⟨hOthers.locks u _ hu hHolds.1, hNone rfl hHolds.2⟩
  | _ => trivial

end Once

structure Once (h : Hashes) (gs : List (Request × (Request × Stage))) (w : World) : Prop where
  tx : ∀ t, w.tx t = none
  result : ∀ (t : Nat) (x : Request) (d : Request × Stage), gs[t]? = some (x, d) → d.1 = x ∧ d.2.Result (First h w x) t w
  holds : ∀ (t : Nat) (x : Request) (d : Request × Stage), gs[t]? = some (x, d) → d.2.Holds h x t w

abbrev Told (x : Request) (out : Except Throwable (Option Nat)) (d : Request × Stage) : Prop :=
  d.1 = x ∧ ∀ r, out = .ok r → d.2 = .released r

abbrev TypedCalls (h : Hashes) (gs : List (Request × (Request × Stage))) (c : FileCalls) : Prop :=
  Typed (Discipline.family (stages h)) Told gs c

variable {x : Request}

section Runs

variable {h : Hashes} {w w' : World} {gs : List (Request × (Request × Stage))} {c : FileCalls} {t : Nat} {ch : Choice}

theorem files_keeps (x : Request) : ((files h).code x).Keeps (Discipline.family (stages h)) (Told x) (x, .outside) :=
  resolveFile_keeps.family

theorem at_append {d : Request × Stage} (hAt : (gs ++ [(x, (x, Stage.outside))])[t]? = some (y, d)) :
    gs[t]? = some (y, d) ∨ (t = gs.length ∧ y = x ∧ d = (x, .outside)) := by
  by_cases ht : t < gs.length
  · rw [List.getElem?_append_left ht] at hAt
    exact .inl hAt
  · rw [List.getElem?_append_right (by omega)] at hAt
    have hLt := (List.getElem?_eq_some_iff.mp hAt).1
    cases List.mem_singleton.mp (List.mem_of_getElem? hAt)
    simp only [List.length_singleton] at hLt
    exact .inr ⟨by omega, rfl, rfl⟩

theorem Once.start (hOnce : Once h gs w) (x : Request) : Once h (gs ++ [(x, (x, .outside))]) w where
  tx := hOnce.tx
  result t y d hAt := by
    rcases at_append hAt with hOld | ⟨_, rfl, rfl⟩
    · exact hOnce.result t y d hOld
    · exact ⟨rfl, trivial⟩
  holds t y d hAt := by
    rcases at_append hAt with hOld | ⟨_, rfl, rfl⟩
    · exact hOnce.holds t y d hOld
    · trivial

theorem rival_absurd {u : Nat} (hOnce : Once h gs c.shared) (hTyped : TypedCalls h gs c)
    (hAt : gs[t]? = some (x, (x, .missing))) (hu : gs[u]? = some (y, (y, .missing))) (hNe : u ≠ t)
    (hRivals : Unrivalled h c x) (hRow : Named h row x.tgFileId) : ¬ Named h row y.tgFileId := by
  rintro ⟨s, hText, hFold⟩
  obtain ⟨_, hText', hFold'⟩ := hRow
  cases hText.symm.trans hText'
  have hOwn := (hOnce.holds t x _ hAt).1
  have hOther := (hOnce.holds u y _ hu).1
  by_cases hSame : y.tgFileId = x.tgFileId
  · rw [Request.mutex, hSame] at hOther
    exact hNe (Option.some.inj (hOther.symm.trans hOwn))
  · obtain ⟨p, hThread, _⟩ := hTyped.thread hu
    exact hRivals u y p hThread (hFold.symm.trans hFold') hSame hOther

variable {j : Job} {s : Stage}

theorem untouched_tx (hTx : ∀ t, w.tx t = none) (hAdmits : s.Admits h x o) (hExec : exec h t j o ch w = some (r, w')) :
    ∀ t, w'.tx t = none := by
  intro u
  rcases step_cases (hTx t) hAdmits hExec with ⟨hSame, _⟩ | ⟨_, hAdds, _⟩
  · rw [hSame.tx]
    exact hTx u
  · rw [hAdds.tx]
    exact hTx u

theorem First.step (hFirst : First h w y k) (hTx : w.tx t = none) (hAdmits : s.Admits h x o)
    (hExec : exec h t j o ch w = some (r, w')) : First h w' y k := by
  rcases step_cases hTx hAdmits hExec with ⟨hSame, _⟩ | ⟨_, hAdds, _⟩
  · exact hFirst.untouched hSame
  · exact hFirst.adds hAdds

theorem Once.step (hOnce : Once h gs c.shared) (hTyped : TypedCalls h gs c) (hAt : gs[t]? = some (x, (x, s)))
    (hAdmits : s.Admits h x o) (hExec : exec h t j o ch c.shared = some (r, w'))
    (hRivals : o.writes = true → Unrivalled h c x) : Once h (gs.set t (x, (x, s.after o r))) w' := by
  have hLt := (List.getElem?_eq_some_iff.mp hAt).1
  have hTx := hOnce.tx t
  have hOthers := exec_others hExec
  refine ⟨untouched_tx hOnce.tx hAdmits hExec, fun u y d hu => ?_, fun u y d hu => ?_⟩
  · by_cases hEq : u = t
    · subst hEq
      rw [List.getElem?_set_self hLt] at hu
      cases hu
      refine ⟨rfl, (hOnce.result u x _ hAt).2.step hTx hAdmits hExec (fun k hFirst => hFirst.step hTx hAdmits hExec) ?_ ?_⟩
      · intro row k hRow hKey
        exact First.step ⟨row, hRow, hKey⟩ hTx hAdmits hExec
      · rintro row rfl hAdds
        exact first_of_adds (hOnce.holds u x _ hAt).2 hAdds
    · rw [List.getElem?_set_ne (Ne.symm hEq)] at hu
      obtain ⟨hCall, hResult⟩ := hOnce.result u y d hu
      exact ⟨hCall, hResult.mono (fun k hFirst => hFirst.step hTx hAdmits hExec) (hOthers.lastId u hEq)⟩
  · by_cases hEq : u = t
    · subst hEq
      rw [List.getElem?_set_self hLt] at hu
      cases hu
      exact (hOnce.holds u x _ hAt).step hTx hAdmits hExec
    · rw [List.getElem?_set_ne (Ne.symm hEq)] at hu
      obtain ⟨rfl, _⟩ := hOnce.result u y d hu
      refine (hOnce.holds u _ d hu).others hOthers hEq fun hMissing hNone => ?_
      rcases step_cases hTx hAdmits hExec with ⟨hSame, _⟩ | ⟨row, hAdds, rfl, hAfter⟩
      · rwa [lookup, hSame.db]
      · have hNot := rival_absurd hOnce hTyped hAt (by rw [hu, ← hMissing]) hEq
          (hRivals (execute_of_inserted hAfter).1) hAdds.named
        rw [lookup] at hNone
        rw [lookup, hAdds.files, List.find?_append, hNone, Option.none_or, List.find?_singleton, if_neg]
        exact fun hMatch => hNot (selects_iff.mp hMatch)

theorem once_reach {E : List (Request × (Request × Stage)) → World → Prop} {c₀ : FileCalls}
    {gs₀ : List (Request × (Request × Stage))}
    (hStart : ∀ gs w x, E gs w → E (gs ++ [(x, (x, .outside))]) w)
    (hStep : ∀ gs w t x s j o ch (r : Except Throwable o.Res) w', Once h gs w → E gs w → gs[t]? = some (x, (x, s)) →
      s.Admits h x o → exec h t j o ch w = some (r, w') → E (gs.set t (x, (x, s.after o r))) w')
    (hTyped : TypedCalls h gs₀ c₀) (hOnce : Once h gs₀ c₀.shared) (hE : E gs₀ c₀.shared)
    (hReach : (files h).Reach (Faithful h) c₀ c) : ∃ gs, TypedCalls h gs c ∧ Once h gs c.shared ∧ E gs c.shared := by
  refine Typed.reach (J := fun gs w => Once h gs w ∧ E gs w) (fun x (_ : True) => files_keeps x) ?_ ?_ hTyped
    ⟨hOnce, hE⟩ hReach
  · exact fun _ gs x _ hJ _ => ⟨trivial, hJ.1.start x, hStart gs _ x hJ.2⟩
  · intro c gs t ch x d o k r w' hTyped hJ hOk hThread hAt hAdmits hExec
    obtain ⟨rfl, _⟩ := hJ.1.result t x d hAt
    obtain ⟨hAnswered, hRivals⟩ := hOk _ o k hThread
    refine ⟨fun _ => answers_of_exec hAnswered hExec, fun _ hx => absurd hx List.not_mem_nil, ?_⟩
    change (fun gs w => Once h gs w ∧ E gs w) (gs.set t _ ++ []) w'
    rw [List.append_nil]
    exact ⟨hJ.1.step hTyped hAt hAdmits hExec hRivals, hStep gs _ t _ d.2 _ o ch r w' hJ.1 hJ.2 hAt hAdmits hExec⟩

def Stage.Late (k : Nat) : Stage → Prop
  | .outside | .locked | .failing | .ended => True
  | .known r | .released r => r = some k
  | _ => False

structure Later (h : Hashes) (n : Nat) (x : Request) (k : Nat) (gs : List (Request × (Request × Stage))) (w : World) : Prop where
  first : First h w x k
  late : ∀ (u : Nat) (y : Request) (d : Request × Stage), n ≤ u → gs[u]? = some (y, d) → y.tgFileId = x.tgFileId →
    d.2.Late k

theorem Stage.Late.step (hLate : s.Late k) (hFirst : First h w x k) (hTx : w.tx t = none) (hAdmits : s.Admits h x o)
    (hExec : exec h t j o ch w = some (r, w')) : (s.after o r).Late k := by
  cases s with
  | outside =>
    cases o with
    | lock m => cases r <;> trivial
    | fclose m => trivial
    | _ => cases hAdmits
  | locked =>
    cases o with
    | fetch tb cols key v =>
      obtain ⟨rfl, rfl, rfl, rfl⟩ := hAdmits
      obtain ⟨row, hRow, hKey⟩ := hFirst
      obtain ⟨_, hAfter | ⟨hNone, _⟩ | ⟨row', hRow', hAfter⟩⟩ := after_fetch hTx hExec
      · rw [hAfter]
        trivial
      · cases hNone.symm.trans hRow
      · cases hRow.symm.trans hRow'
        rw [hAfter]
        exact hKey
    | fclose m => trivial
    | _ => cases hAdmits
  | known r' =>
    cases o with
    | unlock m => exact hLate
    | fclose m => trivial
    | _ => cases hAdmits
  | released r' =>
    cases o with
    | fclose m => exact hLate
    | _ => cases hAdmits
  | missing | inserted => exact hLate.elim
  | _ =>
    cases o with
    | fclose m => trivial
    | _ => cases hAdmits

theorem Later.start {n : Nat} (hLater : Later h n x k gs w) (y : Request) :
    Later h n x k (gs ++ [(y, (y, .outside))]) w where
  first := hLater.first
  late u z d hn hAt hSame := by
    rcases at_append hAt with hOld | ⟨_, rfl, rfl⟩
    · exact hLater.late u z d hn hOld hSame
    · trivial

theorem Later.step {n : Nat} (hLater : Later h n x k gs w) (hTx : w.tx t = none) (hAt : gs[t]? = some (y, (y, s)))
    (hAdmits : s.Admits h y o) (hExec : exec h t j o ch w = some (r, w')) :
    Later h n x k (gs.set t (y, (y, s.after o r))) w' where
  first := hLater.first.step hTx hAdmits hExec
  late u z d hn hu hSame := by
    by_cases hEq : u = t
    · subst hEq
      rw [List.getElem?_set_self (List.getElem?_eq_some_iff.mp hAt).1] at hu
      cases hu
      have hFirst : First h w y k := by
        rw [First, hSame]
        exact hLater.first
      exact (hLater.late u y _ hn hAt hSame).step hFirst hTx hAdmits hExec
    · rw [List.getElem?_set_ne (Ne.symm hEq)] at hu
      exact hLater.late u z d hn hu hSame

/-- Once a call has returned a key, calls for the same id return no other, and those made
later look the key up and insert nothing. -/
theorem resolved_once {w₀ : World} {c c' : FileCalls} {t : Nat} {x : Request} {k : Nat} (hTx : ∀ t, w₀.tx t = none)
    (hReach : (files h).Reach (Faithful h) ⟨w₀, []⟩ c) (hRet : c.threads[t]? = some (x, .ret (some k)))
    (hMore : (files h).Reach (Faithful h) c c') :
    ∀ (u : Nat) (y : Request) (p : Run (Option Nat)), c'.threads[u]? = some (y, p) → y.tgFileId = x.tgFileId →
      (∀ l, p = .ret (some l) → l = k) ∧
      (c.threads.length ≤ u → p ≠ .ret none ∧ ∀ stmt params f, p ≠ .op (.execute stmt params) f) := by
  have hInit : Once h [] w₀ := by
    refine ⟨hTx, fun _ _ _ hAt => ?_, fun _ _ _ hAt => ?_⟩ <;> cases hAt
  obtain ⟨gs, hTyped, hOnce, -⟩ := once_reach (E := fun _ _ => True) (fun _ _ _ _ => trivial)
    (fun _ _ _ _ _ _ _ _ _ _ _ _ _ _ _ => trivial) (.nil w₀) hInit trivial hReach
  obtain ⟨d, hAt, rfl, hTold⟩ := hTyped.state hRet
  have hFirst : First h c.shared d.1 k := by
    have hResult := (hOnce.result t _ d hAt).2
    rwa [hTold _ rfl] at hResult
  have hLater : Later h c.threads.length d.1 k gs c.shared := by
    refine ⟨hFirst, fun u y d' hn hu => ?_⟩
    rw [List.getElem?_eq_none (hTyped.length ▸ hn)] at hu
    cases hu
  obtain ⟨gs', hTyped', hOnce', hLater'⟩ := once_reach (fun _ _ y hE => hE.start y)
    (fun gs w t y s j o ch r w' hOnce hE hAt hAdmits hExec => hE.step (hOnce.tx t) hAt hAdmits hExec)
    hTyped hOnce hLater hMore
  intro u y p hThread hSame
  obtain ⟨⟨_, s⟩, hu, hKeeps⟩ := hTyped'.state hThread
  obtain ⟨rfl, hResult⟩ := hOnce'.result u y _ hu
  refine ⟨?_, fun hn => ⟨?_, ?_⟩⟩
  · rintro l rfl
    rw [hKeeps.2 _ rfl] at hResult
    obtain ⟨row, hRow, hKey⟩ := hLater'.first
    obtain ⟨row', hRow', hKey'⟩ := hResult
    rw [hSame, hRow] at hRow'
    cases hRow'
    exact Option.some.inj (hKey'.symm.trans hKey)
  · rintro rfl
    have hLate := hLater'.late u _ _ hn hu hSame
    rw [hKeeps.2 _ rfl] at hLate
    cases hLate
  · rintro stmt params f rfl
    have hLate := hLater'.late u _ _ hn hu hSame
    have hAdmits := hKeeps.1
    cases s <;> first | exact hLate | cases hAdmits

end Runs

def echoed : Op → Choice → Bool
  | .exe (.getFile tgFileId), .answer v =>
    !fieldsSet (v.get (.str "result")) || decide ((v.get (.str "result")).read "file_id" = .str tgFileId)
  | _, _ => true

theorem answered_of_echoed (h : Hashes) {ch : Choice} (hEchoed : echoed o ch = true) : Answered h o ch := by
  cases o with
  | exe call =>
    cases call with
    | getFile tgFileId =>
      cases ch with
      | answer v =>
        intro hFields
        have hId : (v.get (.str "result")).read "file_id" = .str tgFileId := by
          simpa [echoed, hFields] using hEchoed
        rw [hId]
        exact ⟨tgFileId, rfl, rfl⟩
      | _ => trivial
    | _ => trivial
  | _ => trivial

def echoing (c : FileCalls) : Label Request Choice → Bool
  | .start _ => true
  | .step t ch =>
    match c.threads[t]? with
    | some (_, .op o _) => echoed o ch
    | _ => true

variable {c : FileCalls}

theorem echoing_step {t : Nat} {ch : Choice} {k : Except Throwable o.Res → Run (Option Nat)}
    (hThread : c.threads[t]? = some (x, .op o k)) : echoing c (.step t ch) = echoed o ch := by
  rw [echoing, hThread]

def onlyFor (f : String) (c : FileCalls) (l : Label Request Choice) : Bool :=
  c.threads.all (fun x => x.1.tgFileId = f) && echoing c l

theorem faithful_of_onlyFor (h : Hashes) {f : String} {l : Label Request Choice} (hOk : onlyFor f c l = true) :
    Faithful h c l := by
  cases l with
  | start x => trivial
  | step t ch =>
    intro x o k hThread
    obtain ⟨hAll, hEchoed⟩ := Bool.and_eq_true_iff.mp hOk
    rw [echoing_step hThread] at hEchoed
    refine ⟨answered_of_echoed h hEchoed, fun _ u y p hu _ hNe => ?_⟩
    have hFor := fun (z : Request × Run (Option Nat)) (hz : z ∈ c.threads) =>
      of_decide_eq_true (List.all_eq_true.mp hAll z hz)
    exact absurd ((hFor _ (List.mem_of_getElem? hu)).trans (hFor _ (List.mem_of_getElem? hThread)).symm) hNe

def downloading (t : Nat) (v : Php) : List (Label Request Choice) :=
  [.step t .ok, .step t .ok, .step t (.answer v), .step t (.downloaded true "abc"), .step t .ok, .step t .ok,
    .step t .ok, .step t (.renamed true), .step t .ok, .step t .ok, .step t .ok, .step t .ok, .step t .ok]

def finding (t : Nat) : List (Label Request Choice) := List.replicate 4 (.step t .ok)

def photo : Request := ⟨"f", "2020-01-01 00:00:00"⟩

def firstRun : Option FileCalls :=
  (files plainHashes).runWhile (onlyFor "f") ⟨.initial, []⟩ (.start photo :: downloading 0 (getFileAnswer "f" 3))

def secondRun (c : FileCalls) : Option FileCalls :=
  (files plainHashes).runWhile (onlyFor "f") c (.start photo :: finding 1)

def returned (c : FileCalls) (t : Nat) : Option (Request × Option Nat) :=
  match c.threads[t]? with
  | some (x, .ret r) => some (x, r)
  | _ => none

theorem threads_of_returned {t : Nat} {r : Option Nat} (hRet : returned c t = some (x, r)) :
    c.threads[t]? = some (x, .ret r) := by
  rw [returned] at hRet
  split at hRet
  · rename_i hThread
    cases hRet
    exact hThread
  · cases hRet

theorem second_call_inserts_nothing : ∃ c c', firstRun = some c ∧ secondRun c = some c' ∧
    returned c 0 = some (photo, some 1) ∧ returned c' 1 = some (photo, some 1) ∧
    ∀ p, c'.threads[1]? = some (photo, p) → ∀ l, p = .ret (some l) → l = 1 := by
  have hEnd : (firstRun.any fun c => decide (returned c 0 = some (photo, some 1)) &&
      (secondRun c).any fun c' => decide (returned c' 1 = some (photo, some 1))) = true := by
    decide +kernel
  obtain ⟨c, hc, hFirst⟩ := (Option.any_eq_true _ _).mp hEnd
  obtain ⟨hRet, hSecond⟩ := Bool.and_eq_true_iff.mp hFirst
  obtain ⟨c', hc', hRet'⟩ := (Option.any_eq_true _ _).mp hSecond
  have hReach := reach_of_runWhile (fun _ _ _ hOk => faithful_of_onlyFor plainHashes hOk) hc
  have hMore := reach_of_runWhile (fun _ _ _ hOk => faithful_of_onlyFor plainHashes hOk) hc'
  have hRet := of_decide_eq_true hRet
  refine ⟨c, c', hc, hc', hRet, of_decide_eq_true hRet', fun p hp => ?_⟩
  exact (resolved_once (fun _ => rfl) hReach (threads_of_returned hRet) hMore 1 photo p hp rfl).1

/-- The answer carries another id than the requested one: the second call does not find
the row and inserts one more. -/
theorem other_file_id_inserted_twice :
    ∃ c, (files plainHashes).run ⟨.initial, []⟩ ((.start photo :: downloading 0 (getFileAnswer "g" 3)) ++
      (.start photo :: downloading 1 (getFileAnswer "g" 3))) = some c ∧
      returned c 0 = some (photo, some 1) ∧ returned c 1 = some (photo, some 2) := by
  have hEnd : (((files plainHashes).run ⟨.initial, []⟩ ((.start photo :: downloading 0 (getFileAnswer "g" 3)) ++
      (.start photo :: downloading 1 (getFileAnswer "g" 3)))).any fun c =>
        decide (returned c 0 = some (photo, some 1)) && decide (returned c 1 = some (photo, some 2))) = true := by
    decide +kernel
  obtain ⟨c, hc, hBoth⟩ := (Option.any_eq_true _ _).mp hEnd
  obtain ⟨h₀, h₁⟩ := Bool.and_eq_true_iff.mp hBoth
  exact ⟨c, hc, of_decide_eq_true h₀, of_decide_eq_true h₁⟩

end TeaBot.Loggers.File
