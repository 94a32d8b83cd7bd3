import TeaBot.Foundation.Runs
import TeaBot.Loggers.Footprint
import TeaBot.Loggers.Steady
import TeaBot.Loggers.Untouched

/-! # A coroutine with nothing interleaved

The database does not fail by itself, so a statement is refused only by the schema. What
the API answers, what a download brings, and that these two raise, is left open.
-/

namespace TeaBot.Loggers

open Foundation Foundation.Sql

def Op.outside : Op → Bool
  | .exe _ | .download .. => true
  | _ => false

def alone (h : Hashes) (j : Job) (o : Op) (w : World) (r : Except Throwable o.Res) (w' : World) : Prop :=
  ∃ ch, (o.outside = false → ∀ e, ch ≠ .fail e) ∧ exec h 0 j o ch w = some (r, w')

abbrev Alone (h : Hashes) (j : Job) {α : Type} (p : Run α) (w : World) (out : Except Throwable α) (w' : World) : Prop :=
  p.Runs (alone h j) w out w'

section Steps

variable {h : Hashes} {j : Job} {w w' : World} {α : Type}

variable {o : Op}

variable {r : Except Throwable o.Res}

theorem alone_carry (hOutside : o.outside = false) (hStep : alone h j o w r w') :
    ∃ ch, carry h 0 j w o ch = some (r, w') := by
  obtain ⟨ch, hFail, hExec⟩ := hStep
  cases ch with
  | fail e => exact absurd rfl (hFail hOutside e)
  | _ => exact ⟨_, hExec⟩

theorem alone_untouched (hOp : o.writes = false) (hStep : alone h j o w r w') : Untouched w w' := by
  obtain ⟨ch, _, hExec⟩ := hStep
  rcases exec_eq_some hExec with ⟨e, _, _, rfl⟩ | hCarry
  · exact .refl _
  · exact carry_untouched hOp hCarry

theorem untouched_of_uses {p : Run α} {out : Except Throwable α} (hUses : p.Uses fun o => o.writes = false)
    (hRun : Alone h j p w out w') : Untouched w w' :=
  hRun.invariant hUses (fun _ _ _ _ hOp hStep hSo => hSo.trans (alone_untouched hOp hStep)) (.refl w)

theorem Offline.writes (hOffline : Offline o) : o.writes = false := by
  cases o <;> first | rfl | cases hOffline

variable {m : Mutex}

theorem alone_scoped {body : Run α} {out : Except Throwable α} (hRun : Alone h j (m.scoped body) w out w') :
    ∃ w₁, Alone h j body w out w₁ ∧ Untouched w₁ w' := by
  rcases hRun.tryFinally_cases with ⟨out₁, w₁, hBody, ⟨rfl, hClose⟩ | ⟨e, rfl, hClose⟩⟩
  · exact ⟨w₁, hBody, alone_untouched rfl (Prog.Runs.perform_iff.mp hClose)⟩
  · obtain ⟨ch, hCarry⟩ := alone_carry rfl (Prog.Runs.perform_iff.mp hClose)
    cases ch <;> cases hCarry

theorem alone_unlock {p : Run α} {out : Except Throwable α}
    (hRun : Alone h j (p.bind fun a => (perform (.unlock m)).bind fun _ => .ret a) w out w') :
    ∃ w₁, Alone h j p w out w₁ ∧ Untouched w₁ w' := by
  rcases hRun.bind_cases with ⟨e, rfl, hp⟩ | ⟨a, w₁, hp, hRest⟩
  · exact ⟨w', hp, .refl w'⟩
  · rcases hRest.bind_cases with ⟨e, rfl, hUnlock⟩ | ⟨_, w₂, hUnlock, hRet⟩
    · obtain ⟨ch, hCarry⟩ := alone_carry rfl (Prog.Runs.perform_iff.mp hUnlock)
      cases ch <;> cases hCarry
    · cases hRet
      exact ⟨w₁, hp, alone_untouched rfl (Prog.Runs.perform_iff.mp hUnlock)⟩

theorem alone_unlock_unit {p : Run Unit} {out : Except Throwable Unit}
    (hRun : Alone h j (p.bind fun _ => perform (.unlock m)) w out w') :
    ∃ w₁, Alone h j p w out w₁ ∧ Untouched w₁ w' := by
  rw [← Prog.bind_pure (perform (.unlock m))] at hRun
  exact alone_unlock hRun

theorem alone_execute {stmt : Stmt Tbl Col} {params : List Php} {r : Except Throwable Unit} (hTx : w.tx 0 = none)
    (hStep : alone h j (.execute stmt params) w r w') :
    (∃ e, schema.writes w.db w.next stmt (params.map bindParam) = .error e ∧ r = .error (pdoException e) ∧ w' = w) ∨
    ∃ ws, schema.writes w.db w.next stmt (params.map bindParam) = .ok ws ∧ r = .ok () ∧
      w'.db = schema.applyAll ws w.db ∧ w'.tx 0 = none ∧
      ((∃ tb cols, stmt = .insert tb cols ∧ w'.next = Function.update w.next tb (w.next tb + 1) ∧ w'.lastId 0 = w.next tb) ∨
        (∀ tb cols, stmt ≠ .insert tb cols) ∧ w'.next = w.next) := by
  have hView : w.view 0 = w.db := by simp [World.view, hTx]
  obtain ⟨ch, hCarry⟩ := alone_carry rfl hStep
  cases ch with
  | ok =>
    have hExec : w.execute 0 stmt params = (r, w') := Option.some.inj hCarry
    rw [World.execute, hView] at hExec
    cases hWrites : schema.writes w.db w.next stmt (params.map bindParam) with
    | error e =>
      rw [hWrites] at hExec
      cases hExec
      exact .inl ⟨e, rfl, rfl, rfl⟩
    | ok ws =>
      rw [hWrites] at hExec
      cases stmt with
      | insert tb cols =>
        cases hExec
        refine .inr ⟨ws, rfl, rfl, ?_, ?_, .inl ⟨tb, cols, rfl, ?_, ?_⟩⟩ <;> simp [World.write, World.takeId, hTx]
      | _ =>
        cases hExec
        refine .inr ⟨ws, rfl, rfl, ?_, ?_, .inr ⟨fun _ _ hEq => (by cases hEq), ?_⟩⟩ <;> simp [World.write, hTx]
  | _ => cases hCarry

theorem alone_lastInsertId {n : Nat} (hRun : Alone h j (perform .lastInsertId) w (.ok n) w') : n = w.lastId 0 ∧ w' = w := by
  obtain ⟨ch, hCarry⟩ := alone_carry rfl (Prog.Runs.perform_iff.mp hRun)
  cases ch with
  | ok =>
    cases hCarry
    exact ⟨rfl, rfl⟩
  | _ => cases hCarry

end Steps

def script (h : Hashes) (j : Job) {α : Type} : Run α → List Choice → World → Option (Except Throwable α × World)
  | .ret a, _, w => some (.ok a, w)
  | .throw e, _, w => some (.error e, w)
  | .op o k, ch :: chs, w => (carry h 0 j w o ch).bind fun (r, w') => script h j (k r) chs w'
  | .op .., [], _ => none

variable {α : Type} {h : Hashes} {chs : List Choice} {w : World} {j : Job}

theorem script_alone {p : Run α} {w' : World} {out : Except Throwable α}
    (hScript : script h j p chs w = some (out, w')) :
    Alone h j p w out w' := by
  induction p generalizing chs w with
  | ret a =>
    cases hScript
    exact .ret a _
  | throw e =>
    cases hScript
    exact .throw e _
  | op o k ih =>
    cases chs with
    | nil => cases hScript
    | cons ch chs =>
      obtain ⟨⟨r, w₁⟩, hCarry, hRest⟩ := Option.bind_eq_some_iff.mp hScript
      have hNot : ∀ e, ch ≠ .fail e := by
        rintro e rfl
        cases o <;> cases hCarry
      have hStep : alone h j o w r w₁ := by
        refine ⟨ch, fun _ => hNot, ?_⟩
        cases ch with
        | fail e => exact absurd rfl (hNot e)
        | _ => exact hCarry
      exact .op hStep (ih r hRest)

def afterScript (h : Hashes) (j : Job) {α : Type} (p : Run α) (chs : List Choice) (w : World) : World :=
  ((script h j p chs w).map (·.2)).getD w

theorem afterScript_alone {p : Run α} {out : Except Throwable α} (hOut : (script h j p chs w).map (·.1) = some out) :
    Alone h j p w out (afterScript h j p chs w) := by
  obtain ⟨⟨_, w'⟩, hScript, rfl⟩ := Option.map_eq_some_iff.mp hOut
  refine script_alone (hScript.trans ?_)
  rw [afterScript, hScript]
  rfl

/-! ## Files -/

structure Found (w : World) (f : Nat) (w' : World) : Prop where
  db : ∀ tb, tb ≠ .tgFiles → w'.db tb = w.db tb
  next : ∀ tb, tb ≠ .tgFiles → w'.next tb = w.next tb
  tx : w'.tx 0 = none
  valid : schema.Valid w'.db w'.next
  file : ∃ r ∈ w'.db .tgFiles, r .id = .int f
  known : f < w.next .tgFiles → w'.db = w.db

section Files

variable {h : Hashes} {j : Job} {w w₁ w' : World} {f : Nat}

theorem Found.before (hBefore : Untouched w w₁) (hFound : Found w₁ f w') : Found w f w' where
  db tb hTb := (hFound.db tb hTb).trans (congrFun hBefore.db tb)
  next tb hTb := (hFound.next tb hTb).trans (congrFun hBefore.next tb)
  tx := hFound.tx
  valid := hFound.valid
  file := hFound.file
  known hLt := (hFound.known (hBefore.next ▸ hLt)).trans hBefore.db

theorem Found.after (hFound : Found w f w₁) (hAfter : Untouched w₁ w') : Found w f w' where
  db tb hTb := (congrFun hAfter.db tb).trans (hFound.db tb hTb)
  next tb hTb := (congrFun hAfter.next tb).trans (hFound.next tb hTb)
  tx := hAfter.tx ▸ hFound.tx
  valid := hAfter.db ▸ hAfter.next ▸ hFound.valid
  file := hAfter.db ▸ hFound.file
  known hLt := hAfter.db.trans (hFound.known hLt)

variable {dateTime : String}

theorem insertFile_found {u : File.Download} (hTx : w.tx 0 = none) (hValid : schema.Valid w.db w.next)
    (hRun : Alone h j (File.insertFile u dateTime) w (.ok f) w') : Found w f w' := by
  rcases hRun.bind_cases with ⟨_, hEq, _⟩ | ⟨mime, w₁, hMime, hRest⟩
  · cases hEq
  have hBefore : Untouched w w₁ := alone_untouched rfl (Prog.Runs.perform_iff.mp hMime)
  refine .before hBefore ?_
  rw [← hBefore.tx] at hTx
  rw [← hBefore.db, ← hBefore.next] at hValid
  rcases hRest.bind_cases with ⟨_, hEq, _⟩ | ⟨_, w₂, hInsert, hLast⟩
  · cases hEq
  obtain ⟨hId, rfl⟩ := alone_lastInsertId hLast
  rcases alone_execute hTx (Prog.Runs.perform_iff.mp hInsert) with ⟨_, _, hEq, _⟩ |
    ⟨ws, hWrites, _, hDb, hTx', ⟨tb, cols, hStmt, hNext, hLastId⟩ | ⟨hNot, _⟩⟩
  · cases hEq
  · cases hStmt
    have hKey : f = w₁.next .tgFiles := hId.trans hLastId
    have hValid' := hValid.insert schema_wellFormed hWrites
    obtain ⟨rfl, _⟩ := schema.writes_insert hWrites
    refine ⟨fun tb hTb => ?_, fun tb hTb => ?_, hTx', hDb ▸ hNext ▸ hValid', ?_, fun hLt => ?_⟩
    · rw [hDb, Schema.applyAll_cons, Schema.applyAll_nil]
      exact Function.update_of_ne hTb _ _
    · rw [hNext, Function.update_of_ne hTb]
    · rw [hDb, hKey, Schema.applyAll_cons, Schema.applyAll_nil]
      exact ⟨_, mem_apply_insert.mpr (.inr ⟨rfl, rfl⟩), rfl⟩
    · omega
  · exact absurd rfl (hNot _ _)

variable {tgFileId : String}

theorem resolveOrDownload_found {uniqId : String} (hTx : w.tx 0 = none) (hValid : schema.Valid w.db w.next)
    (hRun : Alone h j (File.resolveOrDownload tgFileId uniqId dateTime) w (.ok (some f)) w') : Found w f w' := by
  rcases hRun.bind_cases with ⟨_, hEq, _⟩ | ⟨row, w₁, hFetch, hRest⟩
  · cases hEq
  obtain ⟨ch, hCarry⟩ := alone_carry rfl (Prog.Runs.perform_iff.mp hFetch)
  cases ch with
  | ok =>
    obtain ⟨hRow, hSame⟩ := Prod.mk.inj (Option.some.inj hCarry)
    rw [← hSame] at hRest
    cases row with
    | some u =>
      -- the file is stored: its key comes back as a string
      have hView : w.view 0 = w.db := by simp [World.view, hTx]
      obtain ⟨r, hFind, hShown⟩ := Option.map_eq_some_iff.mp (Except.ok.inj hRow)
      rw [hView] at hFind
      have hMem := List.mem_of_find?_eq_some hFind
      obtain ⟨k, hId, hLt⟩ := hValid.key .tgFiles r hMem
      have hKey : u .id = .str (toString k) := by
        rw [← hShown]
        change (if Col.id ∈ [Col.id] then fetchValue (r .id) else .null) = _
        rw [if_pos (List.mem_singleton_self _), show r .id = .int k from hId]
        rfl
      have hEnd : Alone h j (.ret ((u .id).intParam.map Int.toNat)) w (.ok (some f)) w' := hRest
      rw [hKey, Php.intParam_toString] at hEnd
      cases hEnd
      exact ⟨fun _ _ => rfl, fun _ _ => rfl, hTx, hValid, ⟨r, hMem, hId⟩, fun _ => rfl⟩
    | none =>
      rcases Prog.Runs.bind_cases hRest with ⟨_, hEq, _⟩ | ⟨found, w₂, hDownload, hInsert⟩
      · cases hEq
      have hBefore : Untouched w w₂ :=
        untouched_of_uses ((File.downloadFile_offline _ _).mono fun _ => Offline.writes) hDownload
      cases found with
      | none => cases hInsert
      | some u =>
        rcases Prog.Runs.bind_cases hInsert with ⟨_, hEq, _⟩ | ⟨n, w₃, hInserted, hRet⟩
        · cases hEq
        cases hRet
        exact .before hBefore (insertFile_found (hBefore.tx ▸ hTx) (hBefore.db ▸ hBefore.next ▸ hValid) hInserted)
  | _ => cases hCarry

theorem resolveFile_found {md5 : String → String} (hTx : w.tx 0 = none) (hValid : schema.Valid w.db w.next)
    (hRun : Alone h j (File.resolveFile md5 tgFileId dateTime) w (.ok (some f)) w') : Found w f w' := by
  obtain ⟨w₁, hBody, hClose⟩ := alone_scoped hRun
  rcases Prog.Runs.bind_cases hBody with ⟨_, hEq, _⟩ | ⟨_, w₂, hLock, hRest⟩
  · cases hEq
  have hBefore : Untouched w w₂ := alone_untouched rfl (Prog.Runs.perform_iff.mp hLock)
  obtain ⟨w₃, hResolve, hUnlock⟩ := alone_unlock hRest
  exact .after (.before hBefore
    (resolveOrDownload_found (hBefore.tx ▸ hTx) (hBefore.db ▸ hBefore.next ▸ hValid) hResolve)) (hUnlock.trans hClose)

end Files

end TeaBot.Loggers
