import TeaBot.Loggers.Sequential

/-! # Calls from any sound state

The transaction of one call against tables that satisfy the schema: each statement is
refused or keeps the tables sound, so the outcome can be told statement by statement.
-/

namespace TeaBot.Loggers

open Foundation Foundation.Sql

structure Steady (w : World) : Prop where
  quiet : Quiet w
  valid : schema.Valid w.db w.next

theorem steady_initial : Steady .initial where
  quiet := ⟨rfl, fun _ => rfl⟩
  valid := ⟨nofun, fun _ => List.nodup_nil, fun _ _ _ => List.nodup_nil, nofun, nofun⟩

structure Inside (w : World) (m : Mutex) (log : List (Write Tbl Col)) (w₁ : World) : Prop
    extends Within w m log w₁ where
  valid : schema.Valid (schema.applyAll log w.db) w₁.next

variable {w w₁ : World} {m : Mutex} {log : List (Write Tbl Col)}

theorem Inside.opened (hSteady : Steady w) (m : Mutex) : Inside w m [] (w.opened m) :=
  ⟨Within.opened w m, hSteady.valid⟩

/-- What the rest of a transaction comes to: when `ok` holds it returns with `Q`, and
otherwise it raises an exception. -/
structure Ends {α : Type} (h : Hashes) (j : Job) (w : World) (m : Mutex) (p : Run α) (w₁ : World) (ok : Prop)
    (Q : α → List (Write Tbl Col) → World → Prop) : Prop where
  succeeds : ok → ∃ a log w₂, p.eval (serve h j) w₁ = (.ok a, w₂) ∧ Inside w m log w₂ ∧ Q a log w₂
  fails : ¬ ok → ∃ e log w₂, p.eval (serve h j) w₁ = (.error e, w₂) ∧ Inside w m log w₂ ∧ e.isException = true

variable {tb : Tbl} {cols : List Col}

section Rules

variable {α : Type} {h : Hashes} {j : Job} {ok : Prop} {Q : α → List (Write Tbl Col) → World → Prop}

theorem Ends.ret {a : α} (hInside : Inside w m log w₁) (hOk : ok) (hQ : Q a log w₁) :
    Ends h j w m (.ret a) w₁ ok Q :=
  ⟨fun _ => ⟨a, log, w₁, rfl, hInside, hQ⟩, fun hNot => absurd hOk hNot⟩

variable {params : List Php}

theorem Ends.refused {stmt : Stmt Tbl Col} {e : Sql.Error Col} {f : Unit → Run α} (hInside : Inside w m log w₁)
    (hNot : ¬ ok) (hWrites : schema.writes (schema.applyAll log w.db) w₁.next stmt (params.map bindParam) = .error e) :
    Ends h j w m ((perform (.execute stmt params)).bind f) w₁ ok Q := by
  refine ⟨fun hOk => absurd hOk hNot, fun _ => ⟨_, log, w₁, ?_, hInside, pdoException_isException e⟩⟩
  exact Prog.eval_bind_error (eval_perform (serve_refused (hInside.view ▸ hWrites)))

theorem Ends.of_eval {o : Op} {a : o.Res} {f : o.Res → Run α} {w₂ : World}
    (hServe : serve h j o w₁ = (.ok a, w₂)) (hEnds : Ends h j w m (f a) w₂ ok Q) :
    Ends h j w m ((perform o).bind f) w₁ ok Q := by
  have hEval := eval_perform_bind (f := f) hServe
  exact ⟨fun hOk => hEval ▸ hEnds.succeeds hOk, fun hNot => hEval ▸ hEnds.fails hNot⟩

theorem Ends.insert {f : Nat → Run α} (hInside : Inside w m log w₁)
    (hRefused : ∀ e, schema.writes (schema.applyAll log w.db) w₁.next (.insert tb cols) (params.map bindParam) =
      .error e → ¬ ok)
    (hAccepted : ∀ r w₂, schema.writes (schema.applyAll log w.db) w₁.next (.insert tb cols) (params.map bindParam) =
      .ok [.insert tb r] → Inside w m (log ++ [.insert tb r]) w₂ →
      w₂.next = Function.update w₁.next tb (w₁.next tb + 1) → Ends h j w m (f (w₁.next tb)) w₂ ok Q) :
    Ends h j w m ((perform (.execute (.insert tb cols) params)).bind fun _ => (perform .lastInsertId).bind f)
      w₁ ok Q := by
  cases hWrites : schema.writes (schema.applyAll log w.db) w₁.next (.insert tb cols) (params.map bindParam) with
  | error e => exact .refused hInside (hRefused e hWrites) hWrites
  | ok ws =>
    obtain ⟨rfl, _⟩ := schema.writes_insert hWrites
    have hNext : ∀ ws, ((w₁.takeId 0 tb).write 0 ws).next = Function.update w₁.next tb (w₁.next tb + 1) := by
      simp [World.write, World.takeId, hInside.tx]
    have hLast : ∀ ws, ((w₁.takeId 0 tb).write 0 ws).lastId 0 = w₁.next tb := by
      simp [World.write, World.takeId, hInside.tx]
    have hValid := hInside.valid.insert schema_wellFormed hWrites
    rw [← schema.applyAll_append, ← hNext] at hValid
    refine .of_eval (serve_insert (hInside.view ▸ hWrites)) (.of_eval rfl ?_)
    rw [hLast]
    exact hAccepted _ _ hWrites ⟨hInside.toWithin.insert tb _, hValid⟩ (hNext _)

theorem Ends.update {clause : List (SetToken Col)} {key : Col} {f : Unit → Run α} (hInside : Inside w m log w₁)
    (hParse : parseSet clause = some cols) (hId : .id ∉ cols) (hUnique : ∀ c ∈ (table tb).unique, c ∉ cols)
    (hRefused : ∀ e, schema.writes (schema.applyAll log w.db) w₁.next (.update tb clause key) (params.map bindParam) =
      .error e → ¬ ok) (hAccepted : ∀ ws w₂, schema.writes (schema.applyAll log w.db) w₁.next (.update tb clause key)
      (params.map bindParam) = .ok ws → Inside w m (log ++ ws) w₂ → w₂.next = w₁.next → Ends h j w m (f ()) w₂ ok Q) :
    Ends h j w m ((perform (.execute (.update tb clause key) params)).bind f) w₁ ok Q := by
  cases hWrites : schema.writes (schema.applyAll log w.db) w₁.next (.update tb clause key) (params.map bindParam) with
  | error e => exact .refused hInside (hRefused e hWrites) hWrites
  | ok ws =>
    have hNext : (w₁.write 0 ws).next = w₁.next := by
      simp [World.write, hInside.tx]
    have hValid := hInside.valid.update schema_wellFormed hParse hId hUnique hWrites
    rw [← schema.applyAll_append, ← hNext] at hValid
    refine .of_eval (serve_update (hInside.view ▸ hWrites)) ?_
    exact hAccepted ws _ hWrites ⟨hInside.toWithin.write ws, hValid⟩ hNext

theorem Ends.inTransaction {body : Run α} (hSteady : Steady w) (hEnds : Ends h j w m body (w.opened m) ok Q) :
    (ok ∧ ∃ a log w₂ w', (inTransaction m body).eval (serve h j) w = (.ok a, w') ∧ Steady w' ∧
      w'.db = schema.applyAll log w.db ∧ Q a log w₂) ∨
    (¬ ok ∧ ∃ e w', (inTransaction m body).eval (serve h j) w = (.error e, w') ∧ Steady w' ∧ w'.db = w.db) := by
  by_cases hOk : ok
  · obtain ⟨a, log, w₂, hEval, hInside, hQ⟩ := hEnds.succeeds hOk
    obtain ⟨w', hCall, hQuiet, hDb, hNext⟩ := eval_inTransaction_ok hSteady.quiet hEval hInside.toWithin
    refine .inl ⟨hOk, a, log, w₂, w', hCall, ⟨hQuiet, ?_⟩, hDb, hQ⟩
    rw [hDb, hNext]
    exact hInside.valid
  · obtain ⟨e, log, w₂, hEval, hInside, hRaise⟩ := hEnds.fails hOk
    obtain ⟨w', hCall, hQuiet, hDb, hNext⟩ := eval_inTransaction_error hSteady.quiet hEval hInside.toWithin hRaise
    exact .inr ⟨hOk, e, w', hCall, ⟨hQuiet, hDb ▸ hSteady.valid.mono hNext⟩, hDb⟩

end Rules

/-! ## The `SELECT` by a Telegram id -/

structure Shows (w : World) (tb : Tbl) (cols : List Col) (key : Col) (n : Int) (u : Col → Php) (r : Row Col)
    (k : Nat) : Prop where
  mem : r ∈ w.db tb
  owner : r key = .int n
  only : ∀ r' ∈ w.db tb, r' key = .int n → r' = r
  id : r .id = .int k
  shown : ∀ c ∈ cols, u c = fetchValue (r c)

theorem fetch_cases (collate : String → List Nat) (tb : Tbl) (owner : Col) {unsigned : Bool} (hSteady : Steady w)
    (hType : schema.type tb owner = .bigint unsigned) (hUnique : owner ∈ (table tb).unique) (m : Mutex)
    (cols : List Col) (n : Int) :
    ((w.opened m).fetchRow collate 0 tb cols owner (.int n) = none ∧ ∀ r ∈ w.db tb, r owner ≠ .int n) ∨
    ∃ u r k, (w.opened m).fetchRow collate 0 tb cols owner (.int n) = some u ∧ Shows w tb cols owner n u r k := by
  rw [World.fetchRow, (Within.opened w m).view, Schema.applyAll_nil]
  have hMatch : ∀ r, schema.selects collate tb owner (bindParam (.int n)) r = true ↔ r owner = .int n :=
    selects_bigint hType collate rfl
  cases hFind : (w.db tb).find? (schema.selects collate tb owner (bindParam (.int n))) with
  | none =>
    exact .inl ⟨rfl, fun r hr hOwner => List.find?_eq_none.mp hFind r hr ((hMatch r).mpr hOwner)⟩
  | some r =>
    have hMem := List.mem_of_find?_eq_some hFind
    have hOwner := (hMatch r).mp (List.find?_some hFind)
    obtain ⟨k, hId, _⟩ := hSteady.valid.key tb r hMem
    refine .inr ⟨_, r, k, rfl, hMem, hOwner, fun r' hr' hOwner' => ?_, hId, fun c hc => if_pos hc⟩
    exact hSteady.valid.eq_of_unique hUnique hr' hMem (hOwner'.trans hOwner.symm)

theorem serve_fetch {h : Hashes} {j : Job} {key : Col} {v : Php} {row : Option (Col → Php)}
    (hFetch : w.fetchRow h.collate 0 tb cols key v = row) :
    serve h j (.fetch tb cols key v) w = (.ok row, w) := congrArg (fun x => (Except.ok x, w)) hFetch

variable {k : Nat}

theorem mem_updated {db : Tables Tbl Col} {r : Row Col} (hMem : r ∈ db tb) (hId : r .id = .int k)
    (sets : List (Col × Value)) :
    r.set sets ∈ schema.applyAll ([] ++ [.update tb .id (.str (toString k)) sets]) db tb := by
  rw [List.nil_append, Schema.applyAll_cons, Schema.applyAll_nil, apply_update]
  exact List.mem_map.mpr ⟨r, hMem, if_pos ⟨rfl, (matches_id tb (asInt_toString k) r).mpr hId⟩⟩

/-! ## Values that are read and sent back -/

variable {d : Column Col} {v : Value}

theorem text_of_holds {length : Nat} {charset : Charset} (hType : d.type = .varchar length charset)
    (hHolds : d.Holds v) :
    v.text = v := by
  rw [← Column.stored_varchar hType hHolds.check, hHolds.stored]

theorem rebind_varchar {length : Nat} {charset : Charset} (hType : d.type = .varchar length charset)
    (hHolds : d.Holds v) : bindParam (fetchValue v) = v := by
  have hText := text_of_holds hType hHolds
  cases v with
  | int n => cases hText
  | null => rfl
  | str s => rfl

theorem holds_bigint_cases (hType : d.type = .bigint true) (hHolds : d.Holds v) :
    v = .null ∨ ∃ k : Nat, v = .int k := by
  cases v with
  | null => exact .inl rfl
  | int n =>
    have hSign : 0 ≤ n := by
      have hCheck := hHolds.check
      simp only [Column.check, hType, ColumnType.store, Value.asInt] at hCheck
      by_contra hNeg
      simp [hNeg] at hCheck
    obtain ⟨k, rfl⟩ := Int.eq_ofNat_of_zero_le hSign
    exact .inr ⟨k, rfl⟩
  | str s =>
    have hStored := hHolds.stored
    simp only [Column.stored, hType, ColumnType.store] at hStored
    cases hInt : (Value.str s).asInt with
    | none => simp [hInt] at hStored
    | some n => by_cases hSign : n < 0 <;> simp [hInt, hSign] at hStored

theorem rebind_bigint (hType : d.type = .bigint true) (hHolds : d.Holds v) :
    d.check (bindParam (fetchValue v)) = none ∧ d.stored (bindParam (fetchValue v)) = v := by
  rcases holds_bigint_cases hType hHolds with rfl | ⟨k, rfl⟩
  · exact ⟨hHolds.check, rfl⟩
  · have hStore : d.type.store (.str (toString k)) = some (.int k) := by
      rw [hType, ColumnType.store, asInt_toString]
      rfl
    have hNe : Value.str (toString k) ≠ .null := fun hNull => by cases hNull
    have hBound : bindParam (fetchValue (.int k)) = .str (toString k) := rfl
    rw [hBound, Column.check, Column.stored, if_neg hNe, if_neg hNe, hStore]
    exact ⟨rfl, rfl⟩

theorem intParam_fetchValue (hType : d.type = .bigint true) (hHolds : d.Holds v) :
    (fetchValue v).intParam = v.asInt := by
  rcases holds_bigint_cases hType hHolds with rfl | ⟨k, rfl⟩
  · rfl
  · exact Php.intParam_toString k

def ShowsKey (v : Php) (k : Nat) : Prop := v = .int k ∨ v = .str (toString k)

theorem ShowsKey.intParam {v : Php} (h : ShowsKey v k) : v.intParam = some (k : Int) := by
  rcases h with rfl | rfl
  · rfl
  · exact Php.intParam_toString k

theorem ShowsKey.asInt {v : Php} (h : ShowsKey v k) : (bindParam v).asInt = some (k : Int) := by
  rcases h with rfl | rfl
  · rfl
  · exact asInt_toString k

theorem file_of_photo {view : Tables Tbl Col} {next : Tbl → Nat} (hValid : schema.Valid view next)
    (hKey : (.photo, .tgFiles) ∈ (table tb).foreign) {r : Row Col} (hr : r ∈ view tb) :
    r .photo = .null ∨ ∃ f ∈ view .tgFiles, f .id = r .photo := by
  by_cases hNull : r .photo = .null
  · exact .inl hNull
  · exact .inr (schema.exists_parent (hValid.foreign tb r hr) hKey hNull)

theorem fetchValue_eq_ofOption (hText : v.text = v) (o : Option String) :
    fetchValue v = .ofOption o ↔ v = bindParam (.ofOption o) := by
  cases v with
  | int n => cases hText
  | null | str s => cases o <;> simp [fetchValue, Php.ofOption, bindParam]

end TeaBot.Loggers
