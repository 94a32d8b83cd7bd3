import TeaBot.Loggers.Alone
import TeaBot.Loggers.UserCalls

/-! # `trackPhoto` after a resolve

What the two tables show after `trackPhoto` on the object of a `resolveUser` or
`resolveGroup` before it, with nothing in between. The two classes differ in their tables
and in the values of a version only.
-/

namespace TeaBot.Loggers.Photos

open Foundation Foundation.Sql

variable {C : Type}

/-- Both tables have the column, and the one that is tracked has one row for each owner. -/
structure HasPhoto (V : Versioning C) : Prop where
  tables : V.table ≠ V.history
  unique : V.owner ∈ (table V.table).unique
  record : schema.column V.table .photo = some photo
  version : schema.column V.history .photo = some photo
  owner : V.owner ≠ .photo
  ref : V.ref ≠ .photo
  recordFiles : V.table ≠ .tgFiles
  versionFiles : V.history ≠ .tgFiles

theorem hasPhoto_users : HasPhoto users :=
  ⟨by decide, by decide, rfl, rfl, by decide, by decide, by decide, by decide⟩

theorem hasPhoto_groups : HasPhoto GroupTitle.groups :=
  ⟨by decide, by decide, rfl, rfl, by decide, by decide, by decide, by decide⟩

/-- The row of owner `n` and its latest version have the photo `f`. -/
def Recorded (V : Versioning C) (db : Tables Tbl Col) (n : Int) (f : Nat) : Prop :=
  ∃ r ∈ db V.table, r V.owner = .int n ∧ r .photo = .int f ∧
    ∃ v ∈ db V.history, v V.ref = r .id ∧ v .photo = .int f ∧
      ∀ v' ∈ db V.history, v' V.ref = r .id → rowKey v' ≤ rowKey v

/-- What a resolve leaves: row `k` of owner `n` with the photo `p`, and the version it has
written, if any, as the newest one. -/
structure Resolved (V : Versioning C) (db : Tables Tbl Col) (n : Int) (k : Nat) (p : Value) (historyId : Option Nat) :
    Prop where
  row : ∃ r ∈ db V.table, r V.owner = .int n ∧ r .id = .int k ∧ r .photo = p
  version : ∀ key, historyId = some key → ∃ v ∈ db V.history, v .id = .int key ∧ v V.ref = .int k ∧ v .photo = p ∧
    ∀ v' ∈ db V.history, rowKey v' ≤ key

/-- The last part of `savePhoto`; the last two arguments are those of the history's `INSERT`. -/
def save (V : Versioning C) (f : Nat) (id : Php) (cols : List Col) (params : List Php) : Option Nat → Run Unit
  | none => do
    perform (.execute (.update V.table [.assign .photo] .id) [.int f, id])
    perform (.execute (.insert V.history cols) params)
    let _ ← perform .lastInsertId
    pure ()
  | some historyId =>
    perform (.execute (.updateJoin V.table V.history V.ref .photo) [.int f, .int f, .int historyId])

def Adds (V : Versioning C) (k : Nat) (p : Value) (cols : List Col) (params : List Php) : Prop :=
  ∀ view next v, schema.writes view next (.insert V.history cols) (params.map bindParam) = .ok [.insert V.history v] →
    v .id = .int (next V.history) ∧ v V.ref = .int k ∧ v .photo = p

/-! ## Setting a photo -/

variable {t : Tbl}

theorem assign_photo (hColumn : schema.column t .photo = some photo) (f : Nat) :
    schema.assignments t [(.photo, .int f)] = [(.photo, .int f)] := by
  have hStored : photo.stored (.int f) = .int f := Column.stored_bigint rfl (GroupTitle.check_key f .photo)
  simp only [Schema.assignments, List.map_singleton, hColumn, Option.map_some, Option.getD_some, hStored]

variable {row : Row Col}

theorem set_photo_of_ne {v : Value} {c : Col} (hc : c ≠ .photo) : row.set [(.photo, v)] c = row c := by
  have hNone : ([(.photo, v)] : List (Col × Value)).lookup c = none :=
    List.lookup_eq_none_iff.mpr fun p hp => by simpa [List.mem_singleton.mp hp] using hc
  rw [Row.set, hNone, Option.getD_none]

variable {key : Nat}

section SetPhoto

variable {db : Tables Tbl Col} {next : Tbl → Nat} {f : Nat}

theorem foreignError_set_photo (hForeign : schema.foreignError db t row = none)
    (hFile : ∃ r ∈ db .tgFiles, r .id = .int f) : schema.foreignError db t (row.set [(.photo, .int f)]) = none := by
  have hFiles : ∀ t : Tbl, ∀ ref ∈ (table t).foreign, ref.1 = .photo → ref.2 = .tgFiles := by
    intro t
    cases t <;> decide
  refine schema.foreignError_eq_none_iff.mpr ?_
  rintro ⟨c, parent⟩ hRef
  by_cases hPhoto : c = .photo
  · subst hPhoto
    obtain rfl : parent = .tgFiles := hFiles t _ hRef rfl
    exact .inr hFile
  · have hSame : row.set [(.photo, .int f)] c = row c := set_photo_of_ne hPhoto
    rw [hSame]
    exact schema.foreignError_eq_none_iff.mp hForeign _ hRef

theorem updateError_photo (hValid : schema.Valid db next) (hFile : ∃ r ∈ db .tgFiles, r .id = .int f)
    (hColumn : schema.column t .photo = some photo) (v : Value) :
    schema.updateError db t [.photo] .id [.int f, v] = none := by
  have hId : ∀ t : Tbl, (schema.column t .id).isSome = true := by
    intro t
    cases t <;> decide
  refine schema.updateError_of ?_ rfl ?_ fun row hRow => ?_
  · intro c hc
    rcases List.mem_pair.mp hc with rfl | rfl
    · rw [hColumn]
      rfl
    · exact hId t
  · intro x hx d hd
    rw [List.mem_singleton.mp hx] at hd ⊢
    cases hColumn.symm.trans hd
    exact GroupTitle.check_key f .photo
  · have hSets : schema.assignments t ([Col.photo].zip [.int f, v]) = [(.photo, .int f)] := assign_photo hColumn f
    rw [hSets]
    exact foreignError_set_photo (hValid.foreign t row hRow) hFile

theorem writes_join {V : Versioning C} (hV : HasPhoto V) (hValid : schema.Valid db next)
    (hFile : ∃ r ∈ db .tgFiles, r .id = .int f) {v : Row Col} {k : Nat} (hMem : v ∈ db V.history)
    (hId : v .id = .int key) (hRef : v V.ref = .int k) :
    schema.writes db next (.updateJoin V.table V.history V.ref .photo) [.int f, .int f, .int key] =
      .ok [.update V.table .id (.int k) [(.photo, .int f)], .update V.history .id (.int key) [(.photo, .int f)]] := by
  have hFind : (db V.history).find? (schema.matches V.history .id (.int key)) = some v := by
    cases hFound : (db V.history).find? (schema.matches V.history .id (.int key)) with
    | none => exact absurd ((matches_id V.history rfl v).mpr hId) (List.find?_eq_none.mp hFound v hMem)
    | some v' =>
      have hId' := (matches_id V.history rfl v').mp (List.find?_some hFound)
      rw [hValid.eq_of_id (List.mem_of_find?_eq_some hFound) hMem (hId'.trans hId.symm)]
  refine (schema.writes_updateJoin_of hFind (updateError_photo hValid hFile hV.record (v V.ref))
    (updateError_photo hValid hFile hV.version (.int key))).trans ?_
  rw [hRef, assign_photo hV.record, assign_photo hV.version]
  rfl

end SetPhoto

/-! ## The two branches -/

def amended (V : Versioning C) (k key f : Nat) : List (Write Tbl Col) :=
  [.update V.table .id (.int k) [(.photo, .int f)], .update V.history .id (.int key) [(.photo, .int f)]]

def renewed (V : Versioning C) (id : Value) (f : Nat) (v : Row Col) : List (Write Tbl Col) :=
  [.update V.table .id id [(.photo, .int f)], .insert V.history v]

section Branches

variable {V : Versioning C} {db : Tables Tbl Col} {next : Tbl → Nat} {n : Int} {k f : Nat} {p : Value}

theorem rowKey_set_photo (row : Row Col) (v : Value) : rowKey (row.set [(.photo, v)]) = rowKey row := by
  rw [rowKey, set_photo_of_ne (by decide), rowKey]

theorem rowKey_of_id (hId : row .id = .int key) : rowKey row = key := by
  rw [rowKey, hId]
  rfl

theorem mem_set_photo {id : Value} {r : Row Col} (hr : r ∈ schema.apply (.update t .id id [(.photo, .int f)]) db t) :
    ∃ r₀ ∈ db t, ∀ c ≠ .photo, r c = r₀ c := by
  rw [apply_update] at hr
  obtain ⟨r₀, hr₀, rfl⟩ := List.mem_map.mp hr
  refine ⟨r₀, hr₀, fun c hc => ?_⟩
  split
  · exact set_photo_of_ne hc
  · rfl

theorem set_photo_mem {id : Value} {r : Row Col} (hMem : r ∈ db t) (hKey : id.asInt = some (key : Int))
    (hId : r .id = .int key) : r.set [(.photo, .int f)] ∈ schema.apply (.update t .id id [(.photo, .int f)]) db t := by
  rw [apply_update]
  exact List.mem_map.mpr ⟨r, hMem, if_pos ⟨rfl, (matches_id t hKey r).mpr hId⟩⟩

theorem amended_recorded (hV : HasPhoto V) (hResolved : Resolved V db n k p (some key)) :
    Recorded V (schema.applyAll (amended V k key f) db) n f := by
  obtain ⟨r, hr, hOwner, hId, _⟩ := hResolved.row
  obtain ⟨v, hv, hKey, hRef, _, hNewest⟩ := hResolved.version key rfl
  have hTable : schema.applyAll (amended V k key f) db V.table =
      schema.apply (.update V.table .id (.int k) [(.photo, .int f)]) db V.table :=
    Function.update_of_ne hV.tables _ _
  have hHistory : schema.applyAll (amended V k key f) db V.history =
      schema.apply (.update V.history .id (.int key) [(.photo, .int f)]) db V.history := by
    have hFrame : schema.apply (.update V.table .id (.int k) [(.photo, .int f)]) db V.history = db V.history :=
      Function.update_of_ne hV.tables.symm _ _
    rw [amended, Schema.applyAll_cons, Schema.applyAll_cons, Schema.applyAll_nil, apply_update, hFrame, apply_update]
  rw [Recorded, hTable, hHistory]
  refine ⟨_, set_photo_mem hr rfl hId, ?_, rfl, _, set_photo_mem hv rfl hKey, ?_, rfl, fun v' hv' _ => ?_⟩
  · rw [set_photo_of_ne hV.owner, hOwner]
  · rw [set_photo_of_ne hV.ref, set_photo_of_ne (by decide), hRef, hId]
  · obtain ⟨v₀, hv₀, hSame⟩ := mem_set_photo hv'
    have hOld : rowKey v' = rowKey v₀ := by rw [rowKey, hSame .id (by decide), rowKey]
    rw [rowKey_set_photo, rowKey_of_id hKey, hOld]
    exact hNewest v₀ hv₀

section Renewed

variable {id : Value} {v : Row Col}

theorem renewed_history (hV : HasPhoto V) : schema.applyAll (renewed V id f v) db V.history = db V.history ++ [v] := by
  have hUpdate : schema.apply (.update V.table .id id [(.photo, .int f)]) db V.history = db V.history :=
    Function.update_of_ne hV.tables.symm _ _
  simp only [renewed, Schema.applyAll_cons, Schema.applyAll_nil]
  exact (Function.update_self _ _ _).trans (congrArg (· ++ [v]) hUpdate)

theorem renewed_not_recorded (hV : HasPhoto V) (hValid : schema.Valid db next) {historyId : Option Nat}
    (hResolved : Resolved V db n k p historyId) (hPhoto : p ≠ .int f) (hKey : v .id = .int (next V.history))
    (hRef : v V.ref = .int k) (hOld : v .photo = p) : ¬ Recorded V (schema.applyAll (renewed V id f v) db) n f := by
  rintro ⟨r, hr, hOwner, _, v', hv', _, hPhoto', hNewest⟩
  rw [renewed_history hV] at hv' hNewest
  have hId : r .id = .int k := by
    obtain ⟨r₁, hr₁, hOwner₁, hId₁, _⟩ := hResolved.row
    have hTable : schema.applyAll (renewed V id f v) db V.table =
        schema.apply (.update V.table .id id [(.photo, .int f)]) db V.table := Function.update_of_ne hV.tables _ _
    obtain ⟨r₀, hr₀, hSame⟩ := mem_set_photo (hTable ▸ hr)
    rw [hSame V.owner hV.owner] at hOwner
    rw [hSame .id (by decide), hValid.eq_of_unique hV.unique hr₀ hr₁ (hOwner.trans hOwner₁.symm), hId₁]
  have hLe := hNewest v (by simp) (hRef.trans hId.symm)
  rw [rowKey_of_id hKey] at hLe
  rcases List.mem_append.mp hv' with hEarlier | hLast
  · obtain ⟨key, hKey', hLt⟩ := hValid.key V.history v' hEarlier
    rw [rowKey_of_id hKey'] at hLe
    omega
  · rw [List.mem_singleton.mp hLast, hOld] at hPhoto'
    exact hPhoto hPhoto'

end Renewed

end Branches

/-! ## Runs of `savePhoto` -/

section Save

variable {V : Versioning C} {h : Hashes} {j : Job} {w w' : World} {n : Int} {k f : Nat} {p : Value} {id : Php}
  {cols : List Col} {params : List Php} {historyId : Option Nat} {out : Except Throwable Unit}

theorem save_amends (hV : HasPhoto V) (hTx : w.tx 0 = none) (hValid : schema.Valid w.db w.next)
    (hFile : ∃ r ∈ w.db .tgFiles, r .id = .int f) (hResolved : Resolved V w.db n k p (some key))
    (hRun : Alone h j (save V f id cols params (some key)) w out w') :
    out = .ok () ∧ w'.db = schema.applyAll (amended V k key f) w.db := by
  obtain ⟨v, hv, hKey, hRef, _⟩ := hResolved.version key rfl
  have hWrites := writes_join hV hValid hFile hv hKey hRef
  rcases alone_execute hTx (Prog.Runs.perform_iff.mp hRun) with ⟨e, hRefused, _⟩ | ⟨ws, hAccepted, hOut, hDb, _⟩
  · cases hWrites.symm.trans hRefused
  · cases hWrites.symm.trans hAccepted
    exact ⟨hOut, hDb⟩

theorem save_renews (hV : HasPhoto V) (hTx : w.tx 0 = none) (hAdds : Adds V k p cols params)
    (hRun : Alone h j (save V f id cols params none) w (.ok ()) w') :
    ∃ v, w'.db = schema.applyAll (renewed V (bindParam id) f v) w.db ∧ v .id = .int (w.next V.history) ∧
      v V.ref = .int k ∧ v .photo = p := by
  rcases Prog.Runs.bind_cases hRun with ⟨_, hEq, _⟩ | ⟨_, w₁, hUpdate, hRest⟩
  · cases hEq
  rcases alone_execute hTx (Prog.Runs.perform_iff.mp hUpdate) with ⟨_, _, hEq, _⟩ |
    ⟨ws, hWrites, _, hDb, hTx₁, ⟨_, _, hStmt, _⟩ | ⟨_, hNext⟩⟩
  · cases hEq
  · cases hStmt
  have hSet : ws = [.update V.table .id (bindParam id) [(.photo, .int f)]] := by
    obtain ⟨rfl, _⟩ := schema.writes_update rfl hWrites
    exact congrArg (fun sets => [Write.update V.table .id (bindParam id) sets]) (assign_photo hV.record f)
  rcases Prog.Runs.bind_cases hRest with ⟨_, hEq, _⟩ | ⟨_, w₂, hInsert, hLast⟩
  · cases hEq
  rcases alone_execute hTx₁ (Prog.Runs.perform_iff.mp hInsert) with ⟨_, _, hEq, _⟩ | ⟨ws', hWrites', _, hDb', _⟩
  · cases hEq
  rcases Prog.Runs.bind_cases hLast with ⟨_, hEq, _⟩ | ⟨id', w₃, hId, hRet⟩
  · cases hEq
  cases hRet
  obtain ⟨_, rfl⟩ := alone_lastInsertId hId
  obtain ⟨rfl, _⟩ := schema.writes_insert hWrites'
  obtain ⟨hKey, hRef, hPhoto⟩ := hAdds _ _ _ hWrites'
  refine ⟨_, ?_, hNext ▸ hKey, hRef, hPhoto⟩
  rw [hDb', hDb, hSet, ← Schema.applyAll_append]
  rfl

variable (hV : HasPhoto V) (hTx : w.tx 0 = none) (hValid : schema.Valid w.db w.next)
  (hFile : ∃ r ∈ w.db .tgFiles, r .id = .int f) (hAdds : Adds V k p cols params)
  (hResolved : Resolved V w.db n k p historyId) (hRun : Alone h j (save V f id cols params historyId) w out w')

include hV hTx hValid hFile hAdds hResolved hRun

theorem save_recorded_iff (hPhoto : p ≠ .int f) : (out = .ok () ∧ Recorded V w'.db n f) ↔ historyId.isSome = true := by
  cases historyId with
  | some key =>
    obtain ⟨hOut, hDb⟩ := save_amends hV hTx hValid hFile hResolved hRun
    exact ⟨fun _ => rfl, fun _ => ⟨hOut, hDb ▸ amended_recorded hV hResolved⟩⟩
  | none =>
    refine ⟨?_, nofun⟩
    rintro ⟨rfl, hRecorded⟩
    obtain ⟨v, hDb, hKey, hRef, hOld⟩ := save_renews hV hTx hAdds hRun
    exact absurd (hDb ▸ hRecorded) (renewed_not_recorded hV hValid hResolved hPhoto hKey hRef hOld)

end Save

end TeaBot.Loggers.Photos
