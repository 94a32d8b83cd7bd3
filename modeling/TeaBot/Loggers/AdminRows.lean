import TeaBot.Loggers.Steady

/-! # The rows of the administrators

`trackAdmins` puts one row per administrator into a single `INSERT`, with placeholders
named after the administrator's key. As long as no two keys read the same, every row
takes its own values out of the merged parameters, wherever it stands in the statement.
-/

namespace TeaBot.Loggers

open Foundation Foundation.Sql

structure AdminEntry where
  userId : Value
  role : Value
  info : Value
  deriving DecidableEq

namespace AdminEntry

def bound (userId role info : Php) : AdminEntry where
  userId := ((schema.column .tgGroupAdmins .userId).map fun d => d.stored (bindParam userId)).getD .null
  role := ((schema.column .tgGroupAdmins .role).map fun d => d.stored (bindParam role)).getD .null
  info := ((schema.column .tgGroupAdmins .info).map fun d => d.stored (bindParam info)).getD .null

def ofRow (row : Row Col) : AdminEntry := ⟨row .userId, row .role, row .info⟩

end AdminEntry

def ofGroup (k : Nat) (row : Row Col) : Bool := row .groupId = .int k

def World.adminsOf (w : World) (k : Nat) : List (Row Col) := (w.db .tgGroupAdmins).filter (ofGroup k)

def World.otherAdmins (w : World) (k : Nat) : List (Row Col) :=
  (w.db .tgGroupAdmins).filter fun row => !ofGroup k row

variable {k : Nat} {v : Php}

theorem matches_group (hKey : ShowsKey v k) (row : Row Col) :
    schema.matches .tgGroupAdmins .groupId (bindParam v) row = ofGroup k row := by
  have hType : schema.type .tgGroupAdmins .groupId = .bigint true := rfl
  have hEqual := ColumnType.equal_bigint true (row .groupId) (bindParam v)
  rw [hKey.asInt] at hEqual
  rw [Schema.matches, hType, ofGroup, Bool.eq_iff_iff, hEqual, decide_eq_true_iff]
  constructor
  · rintro ⟨n, hn, hEq⟩
    rw [hn, Option.some.inj hEq]
  · exact fun hk => ⟨k, hk, rfl⟩

/-! ## A multi-row insertion -/

theorem lookup_of_unique {l : List (String × Php)} {name : String} (hMem : (name, v) ∈ l)
    (hUnique : ∀ p ∈ l, p.1 = name → p.2 = v) : l.lookup name = some v := by
  induction l with
  | nil => cases hMem
  | cons p l ih =>
    obtain ⟨name', v'⟩ := p
    obtain ⟨hHead, hRest⟩ := List.forall_mem_cons.mp hUnique
    rw [List.lookup_cons]
    by_cases hName : name' = name
    · rw [hName, beq_self_eq_true]
      exact congrArg some (hHead hName)
    · rw [beq_eq_false_iff_ne.mpr (Ne.symm hName)]
      refine ih ?_ hRest
      rcases List.mem_cons.mp hMem with hEq | hMem
      · exact absurd (Prod.mk.inj hEq).1.symm hName
      · exact hMem

def Inserted (tb : Tbl) (cols : List Col) (params : List (String × Php)) (names : List String) (row : Row Col) : Prop :=
  ∃ vs key, names.mapM (fun name => params.lookup name) = some vs ∧
    row = schema.newRow tb (cols.zip (vs.map bindParam)) key

theorem execute_insert {t : Nat} {tb : Tbl} {cols : List Col} {vs : List Php} {w w' : World} (hTx : w.tx t = none)
    (h : w.execute t (.insert tb cols) vs = (.ok (), w')) :
    w'.db = Function.update w.db tb (w.db tb ++ [schema.newRow tb (cols.zip (vs.map bindParam)) (w.next tb)]) ∧
      w'.tx = w.tx := by
  rcases World.execute_eq h with ⟨_, hEq, _⟩ | ⟨ws, hWrites, _, rfl⟩
  · cases hEq
  · obtain ⟨rfl, _⟩ := schema.writes_insert hWrites
    simp [World.write, World.takeId, hTx, Schema.applyAll, Schema.apply]

theorem insertRows_inserts {t : Nat} {tb : Tbl} {cols : List Col} {params : List (String × Php)}
    {names : List (List String)} {w w' : World} (hTx : w.tx t = none)
    (h : World.insertRows t tb cols params names w = (.ok (), w')) :
    ∃ news, w'.db = Function.update w.db tb (w.db tb ++ news) ∧ w'.tx = w.tx ∧
      List.Forall₂ (Inserted tb cols params) names news := by
  induction names generalizing w with
  | nil =>
    cases h
    exact ⟨[], by simp, rfl, .nil⟩
  | cons ns names ih =>
    simp only [World.insertRows] at h
    split at h
    · cases h
    · rename_i vs hValues
      split at h
      · rename_i w₁ hExecute
        obtain ⟨hDb, hTx₁⟩ := execute_insert hTx hExecute
        obtain ⟨news, hNews, hTx', hAll⟩ := ih (by rw [hTx₁, hTx]) h
        refine ⟨_ :: news, ?_, hTx'.trans hTx₁, .cons ⟨vs, w.next tb, hValues, rfl⟩ hAll⟩
        simp [hNews, hDb]
      · cases h

/-! ## The named parameters -/

section Named

variable {rows : List AdminRow} {u : GroupInfo} {dateTime : String} {r : AdminRow}

def adminParams (u : GroupInfo) (dateTime : String) (rows : List AdminRow) : List (String × Php) :=
  rows.flatMap Group.AdminRow.params ++ [(":group_id", u.id), (":created_at", .str dateTime)]

theorem mem_adminParams {p : String × Php} :
    p ∈ adminParams u dateTime rows ↔
      (∃ r ∈ rows, p = (":user_id_" ++ r.k.text, r.userId) ∨ p = (":role_" ++ r.k.text, r.role) ∨
        p = (":info_" ++ r.k.text, r.info)) ∨ p = (":group_id", u.id) ∨ p = (":created_at", .str dateTime) := by
  simp [adminParams, Group.AdminRow.params]

/-- Rows whose keys read the same are the same. -/
def KeyedApart (rows : List AdminRow) : Prop := ∀ r ∈ rows, ∀ r' ∈ rows, r.k.text = r'.k.text → r = r'

theorem eq_of_name (hKeys : KeyedApart rows) {p q : String × Php} (hp : p ∈ adminParams u dateTime rows)
    (hq : q ∈ adminParams u dateTime rows) (hName : p.1 = q.1) : p = q := by
  -- names of different kinds differ in their second letter
  have hSecond := congrArg (fun s => s.toList[1]?) hName
  rcases mem_adminParams.mp hp with ⟨r, hr, rfl | rfl | rfl⟩ | rfl | rfl <;>
    rcases mem_adminParams.mp hq with ⟨r', hr', rfl | rfl | rfl⟩ | rfl | rfl
  all_goals first
    | rfl
    | (simp at hSecond; done)
    | rw [hKeys r hr r' hr' ((String.append_right_inj _).mp hName)]

theorem lookup_adminParams (hKeys : KeyedApart rows) {name : String} (hMem : (name, v) ∈ adminParams u dateTime rows) :
    (adminParams u dateTime rows).lookup name = some v :=
  lookup_of_unique hMem fun _ hp hName => congrArg Prod.snd (eq_of_name hKeys hp hMem hName)

theorem stored_key {d : Column Col} (hType : d.type = .bigint true) (h : ShowsKey v k) :
    d.stored (bindParam v) = .int k := by
  have hNull : bindParam v ≠ .null := by
    rcases h with rfl | rfl <;> nofun
  have hNonneg : ¬ (true = true ∧ (k : Int) < 0) := by omega
  rw [Column.stored, if_neg hNull, hType, ColumnType.store, h.asInt, Option.bind_some, if_neg hNonneg, Option.getD_some]

theorem inserted_admin {row : Row Col} (hKeys : KeyedApart rows) (hKey : ShowsKey u.id k) (hr : r ∈ rows)
    (h : Inserted .tgGroupAdmins Group.adminCols (adminParams u dateTime rows) (Group.AdminRow.placeholders r) row) :
    AdminEntry.ofRow row = .bound r.userId r.role r.info ∧ ofGroup k row = true := by
  obtain ⟨vs, key, hValues, rfl⟩ := h
  have hNames : (Group.AdminRow.placeholders r).mapM (fun name => (adminParams u dateTime rows).lookup name) =
      some [r.userId, u.id, r.role, r.info, .str dateTime] := by
    have hOwn : ∀ p ∈ Group.AdminRow.params r, p ∈ adminParams u dateTime rows := fun p hp =>
      List.mem_append_left _ (List.mem_flatMap.mpr ⟨r, hr, hp⟩)
    simp only [Group.AdminRow.params, List.forall_mem_cons] at hOwn
    obtain ⟨hUser, hRole, hInfo, _⟩ := hOwn
    have hGroup : (":group_id", u.id) ∈ adminParams u dateTime rows := mem_adminParams.mpr (.inr (.inl rfl))
    have hTime : (":created_at", .str dateTime) ∈ adminParams u dateTime rows := mem_adminParams.mpr (.inr (.inr rfl))
    simp only [Group.AdminRow.placeholders, List.mapM_cons, List.mapM_nil, lookup_adminParams hKeys hUser,
      lookup_adminParams hKeys hGroup, lookup_adminParams hKeys hRole, lookup_adminParams hKeys hInfo,
      lookup_adminParams hKeys hTime]
    rfl
  obtain rfl := Option.some.inj (hValues.symm.trans hNames)
  refine ⟨rfl, decide_eq_true ?_⟩
  exact stored_key (d := { name := .groupId, type := .bigint true }) rfl hKey

theorem inserted_admins {news : List (Row Col)} (hKeys : KeyedApart rows) (hKey : ShowsKey u.id k)
    (hAll : List.Forall₂ (Inserted .tgGroupAdmins Group.adminCols (adminParams u dateTime rows))
      (rows.map Group.AdminRow.placeholders) news) :
    (∀ row ∈ news, ofGroup k row = true) ∧
      news.map .ofRow = rows.map fun r => AdminEntry.bound r.userId r.role r.info := by
  have hEach : ∀ (rs : List AdminRow) (news : List (Row Col)), (∀ r ∈ rs, r ∈ rows) →
      List.Forall₂ (fun r row => Inserted .tgGroupAdmins Group.adminCols (adminParams u dateTime rows)
        (Group.AdminRow.placeholders r) row) rs news →
      (∀ row ∈ news, ofGroup k row = true) ∧
        news.map .ofRow = rs.map fun r => AdminEntry.bound r.userId r.role r.info := by
    intro rs news hSub hAll
    induction hAll with
    | nil => exact ⟨fun _ hRow => absurd hRow List.not_mem_nil, rfl⟩
    | cons hHead _ ih =>
      obtain ⟨hMem, hSub⟩ := List.forall_mem_cons.mp hSub
      obtain ⟨hEntry, hGroup⟩ := inserted_admin hKeys hKey hMem hHead
      obtain ⟨hGroups, hEntries⟩ := ih hSub
      exact ⟨List.forall_mem_cons.mpr ⟨hGroup, hGroups⟩, congrArg₂ List.cons hEntry hEntries⟩
  exact hEach rows news (fun _ hr => hr) (List.forall₂_map_left_iff.mp hAll)

end Named

end TeaBot.Loggers
