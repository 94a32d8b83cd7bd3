import TeaBot.Loggers.Footprint
import TeaBot.Loggers.Sync

/-! # What operations leave alone -/

namespace TeaBot.Loggers

open Foundation Foundation.Sql

structure Untouched (w w' : World) : Prop where
  db : w'.db = w.db
  next : w'.next = w.next
  tx : w'.tx = w.tx
  lastId : w'.lastId = w.lastId

theorem Untouched.refl (w : World) : Untouched w w := ⟨rfl, rfl, rfl, rfl⟩

theorem Untouched.trans {w w₁ w₂ : World} (h : Untouched w w₁) (h' : Untouched w₁ w₂) : Untouched w w₂ :=
  ⟨h'.db.trans h.db, h'.next.trans h.next, h'.tx.trans h.tx, h'.lastId.trans h.lastId⟩

def Op.writes : Op → Bool
  | .execute .. | .executeNamed .. | .beginTransaction | .commit | .rollback => true
  | _ => false

section Steps

variable {h : Hashes} {t : Nat} {j : Job} {w w' : World}

variable {o : Op} {ch : Choice}

theorem carry_untouched {r : Except Throwable o.Res} (hOp : o.writes = false)
    (hCarry : carry h t j w o ch = some (r, w')) : Untouched w w' := by
  have hRelease : ∀ m, Untouched w (w.release t m) := by
    intro m
    rw [World.release]
    split <;> exact ⟨rfl, rfl, rfl, rfl⟩
  cases o with
  | lock m | pop chan =>
    cases ch with
    | ok =>
      simp only [carry] at hCarry
      split at hCarry <;> cases hCarry
      exact ⟨rfl, rfl, rfl, rfl⟩
    | _ => cases hCarry
  | unlock m | fclose m => cases ch <;> cases hCarry; exact hRelease m
  | rename source target =>
    cases ch with
    | renamed success =>
      simp only [carry] at hCarry
      split at hCarry <;> cases hCarry <;> exact ⟨rfl, rfl, rfl, rfl⟩
    | _ => cases hCarry
  | execute | executeNamed | beginTransaction | commit | rollback => cases hOp
  | _ => cases ch <;> cases hCarry <;> exact ⟨rfl, rfl, rfl, rfl⟩

variable {params : List Php} {r : Except Throwable Unit} {stmt : Stmt Tbl Col}

theorem exec_execute (hExec : exec h t j (.execute stmt params) ch w = some (r, w')) :
    (∃ e, r = .error e ∧ w' = w) ∨ ∃ ws, schema.writes (w.view t) w.next stmt (params.map bindParam) = .ok ws ∧
      r = .ok () ∧ w' = (match stmt with | .insert tb _ => w.takeId t tb | _ => w).write t ws := by
  rcases exec_eq_some hExec with ⟨e, _, rfl, rfl⟩ | hCarry
  · exact .inl ⟨e, rfl, rfl⟩
  · cases ch with
    | ok => exact World.execute_eq (Option.some.inj hCarry)
    | _ => cases hCarry

/-! ## A table nobody writes to -/

def Unlogged (tb : Tbl) (w : World) : Prop := ∀ u, ∀ x ∈ (w.tx u).getD [], x.table ≠ tb

/-- What coroutine `t` may do without writing to table `tb`. -/
structure Spares (tb : Tbl) (t : Nat) (w w' : World) : Prop where
  rows : w'.db tb = w.db tb
  unlogged : Unlogged tb w'
  tx : ∀ u, u ≠ t → w'.tx u = w.tx u

namespace Spares

variable {tb : Tbl}

section

variable (hLogs : Unlogged tb w)

include hLogs

theorem of_untouched (hSame : Untouched w w') : Spares tb t w w' := by
  refine ⟨congrFun hSame.db tb, ?_, fun u _ => congrFun hSame.tx u⟩
  rwa [Unlogged, hSame.tx]

theorem setTx {log : List (Write Tbl Col)} (hLog : ∀ x ∈ log, x.table ≠ tb) :
    Spares tb t w { w with tx := Function.update w.tx t (some log) } := by
  refine ⟨rfl, fun u x hx => ?_, fun u hu => Function.update_of_ne hu _ _⟩
  by_cases hu : u = t
  · subst hu
    simp only [Function.update_self, Option.getD_some] at hx
    exact hLog x hx
  · simp only [Function.update_of_ne hu] at hx
    exact hLogs u x hx

theorem write {ws : List (Write Tbl Col)} (hws : ∀ x ∈ ws, x.table ≠ tb) : Spares tb t w (w.write t ws) := by
  unfold World.write
  split
  · rename_i log hTx
    refine setTx hLogs fun x hx => ?_
    rcases List.mem_append.mp hx with hOld | hNew
    · exact hLogs t x (by rwa [hTx])
    · exact hws x hNew
  · exact ⟨schema.applyAll_of_ne hws w.db, hLogs, fun _ _ => rfl⟩

theorem execute (hStmt : tb ∉ stmt.tables) (h : w.execute t stmt params = (r, w')) : Spares tb t w w' := by
  rcases World.execute_eq h with ⟨_, _, rfl⟩ | ⟨ws, hWrites, _, rfl⟩
  · exact of_untouched hLogs (.refl _)
  · have hws : ∀ x ∈ ws, x.table ≠ tb := by
      rintro x hx rfl
      exact hStmt (schema.writes_tables hWrites x hx)
    cases stmt with
    | insert tb' cols =>
      have hTaken : Unlogged tb (w.takeId t tb') := hLogs
      have hWrite := write (t := t) hTaken hws
      exact ⟨hWrite.rows, hWrite.unlogged, hWrite.tx⟩
    | _ => exact write hLogs hws

theorem insertRows {tb' : Tbl} {cols : List Col} {params : List (String × Php)} {names : List (List String)}
    (hNe : tb ≠ tb') (h : World.insertRows t tb' cols params names w = (r, w')) : Spares tb t w w' := by
  induction names generalizing w with
  | nil =>
    cases h
    exact of_untouched hLogs (.refl _)
  | cons ns names ih =>
    have hStmt : tb ∉ (Stmt.insert tb' cols).tables := by simpa [Stmt.tables] using hNe
    simp only [World.insertRows] at h
    split at h
    · cases h
      exact of_untouched hLogs (.refl _)
    · split at h
      · rename_i hRow
        have hFirst := execute hLogs hStmt hRow
        have hRest := ih hFirst.unlogged h
        exact ⟨hRest.rows.trans hFirst.rows, hRest.unlogged, fun u hu => (hRest.tx u hu).trans (hFirst.tx u hu)⟩
      · rename_i hRow
        cases h
        exact execute hLogs hStmt hRow

theorem closed {db : Tables Tbl Col} {journal : List (Nat × Job)} (hDb : db tb = w.db tb) :
    Spares tb t w { w with db := db, tx := Function.update w.tx t none, journal := journal } := by
  refine ⟨hDb, fun u x hx => ?_, fun u hu => Function.update_of_ne hu _ _⟩
  by_cases hu : u = t
  · subst hu
    simp at hx
  · simp only [Function.update_of_ne hu] at hx
    exact hLogs u x hx

end

end Spares

theorem exec_spares {tb : Tbl} {r : Except Throwable o.Res} (hLogs : Unlogged tb w) (hOp : tb ∉ o.targets)
    (hExec : exec h t j o ch w = some (r, w')) : Spares tb t w w' := by
  rcases exec_eq_some hExec with ⟨_, _, _, rfl⟩ | hCarry
  · exact .of_untouched hLogs (.refl _)
  by_cases hWrites : o.writes = false
  · exact .of_untouched hLogs (carry_untouched hWrites hCarry)
  cases o with
  | beginTransaction =>
    cases ch with
    | ok =>
      simp only [carry, World.beginTransaction] at hCarry
      split at hCarry <;> cases hCarry
      · exact .of_untouched hLogs (.refl _)
      · exact .setTx hLogs fun _ hx => absurd hx List.not_mem_nil
    | _ => cases hCarry
  | commit =>
    cases ch with
    | ok =>
      simp only [carry, World.commit] at hCarry
      split at hCarry <;> cases hCarry
      · rename_i log hTx
        refine .closed hLogs (schema.applyAll_of_ne (fun x hx => ?_) w.db)
        exact hLogs t x (by rwa [hTx])
      · exact .of_untouched hLogs (.refl _)
    | _ => cases hCarry
  | rollback =>
    cases ch with
    | ok =>
      simp only [carry, World.rollback] at hCarry
      split at hCarry <;> cases hCarry
      · exact .closed hLogs rfl
      · exact .of_untouched hLogs (.refl _)
    | _ => cases hCarry
  | execute stmt params =>
    cases ch with
    | ok => exact .execute hLogs hOp (Option.some.inj hCarry)
    | _ => cases hCarry
  | executeNamed tb' cols names params =>
    cases ch with
    | ok =>
      have hNe : tb ≠ tb' := by simpa [Op.targets] using hOp
      simp only [carry] at hCarry
      split at hCarry
      · rename_i hRows
        cases hCarry
        exact .insertRows hLogs hNe hRows
      · cases hCarry
        exact .of_untouched hLogs (.refl _)
    | _ => cases hCarry
  | _ => exact absurd rfl hWrites

/-! ## What is another coroutine's -/

structure Others (t : Nat) (w w' : World) : Prop where
  tx : ∀ u, u ≠ t → w'.tx u = w.tx u
  lastId : ∀ u, u ≠ t → w'.lastId u = w.lastId u
  locks : ∀ u m, u ≠ t → w.locks m = some u → w'.locks m = some u

namespace Others

theorem refl (t : Nat) (w : World) : Others t w w := ⟨fun _ _ => rfl, fun _ _ => rfl, fun _ _ _ h => h⟩

theorem trans {w₁ w₂ : World} (h : Others t w w₁) (h' : Others t w₁ w₂) : Others t w w₂ where
  tx u hu := (h'.tx u hu).trans (h.tx u hu)
  lastId u hu := (h'.lastId u hu).trans (h.lastId u hu)
  locks u m hu hHeld := h'.locks u m hu (h.locks u m hu hHeld)

theorem takeId (w : World) (t : Nat) (tb : Tbl) : Others t w (w.takeId t tb) :=
  ⟨fun _ _ => rfl, fun _ hu => Function.update_of_ne hu _ _, fun _ _ _ h => h⟩

theorem setTx (w : World) (t : Nat) (log : Option (List (Write Tbl Col))) (db : Tables Tbl Col)
    (journal : List (Nat × Job)) : Others t w { w with db := db, tx := Function.update w.tx t log, journal := journal } :=
  ⟨fun _ hu => Function.update_of_ne hu _ _, fun _ _ => rfl, fun _ _ _ h => h⟩

theorem write (w : World) (t : Nat) (ws : List (Write Tbl Col)) : Others t w (w.write t ws) := by
  unfold World.write
  split
  · exact setTx w t _ w.db w.journal
  · exact ⟨fun _ _ => rfl, fun _ _ => rfl, fun _ _ _ h => h⟩

theorem execute (h : w.execute t stmt params = (r, w')) : Others t w w' := by
  rcases World.execute_eq h with ⟨_, _, rfl⟩ | ⟨ws, _, _, rfl⟩
  · exact refl t _
  · cases stmt with
    | insert tb cols => exact (takeId w t tb).trans (write _ t ws)
    | _ => exact write w t ws

theorem insertRows {tb : Tbl} {cols : List Col} {params : List (String × Php)} {names : List (List String)}
    (h : World.insertRows t tb cols params names w = (r, w')) : Others t w w' := by
  induction names generalizing w with
  | nil =>
    cases h
    exact refl t _
  | cons ns names ih =>
    simp only [World.insertRows] at h
    split at h
    · cases h
      exact refl t _
    · split at h
      · rename_i hRow
        exact (execute hRow).trans (ih h)
      · rename_i hRow
        cases h
        exact execute hRow

theorem release (w : World) (t : Nat) (m : Mutex) : Others t w (w.release t m) := by
  rw [World.release]
  split
  · rename_i hOwn
    refine ⟨fun _ _ => rfl, fun _ _ => rfl, fun u m' hu hHeld => ?_⟩
    have hNe : m' ≠ m := by
      rintro rfl
      exact hu (Option.some.inj (hHeld.symm.trans hOwn))
    exact (Function.update_of_ne hNe _ _).trans hHeld
  · exact refl t w

theorem of_untouched (hSame : Untouched w w') (hLocks : w'.locks = w.locks) : Others t w w' :=
  ⟨fun u _ => congrFun hSame.tx u, fun u _ => congrFun hSame.lastId u, fun _ _ _ hHeld => hLocks ▸ hHeld⟩

end Others

theorem exec_others {r : Except Throwable o.Res} (hExec : exec h t j o ch w = some (r, w')) : Others t w w' := by
  rcases exec_eq_some hExec with ⟨_, _, _, rfl⟩ | hCarry
  · exact .refl t _
  cases o with
  | lock m =>
    obtain ⟨hFree, _, rfl⟩ := exec_lock hExec
    refine ⟨fun _ _ => rfl, fun _ _ => rfl, fun u m' _ hHeld => ?_⟩
    have hNe : m' ≠ m := by
      rintro rfl
      cases hFree.symm.trans hHeld
    exact (Function.update_of_ne hNe _ _).trans hHeld
  | unlock m => exact (exec_unlock hExec).2 ▸ .release w t m
  | fclose m => exact (exec_fclose hExec).2 ▸ .release w t m
  | newChannel n => exact (exec_newChannel hExec).2 ▸ .of_untouched ⟨rfl, rfl, rfl, rfl⟩ rfl
  | push chan row => exact (exec_push hExec).2 ▸ .of_untouched ⟨rfl, rfl, rfl, rfl⟩ rfl
  | pop chan =>
    obtain ⟨_, _, _, _, rfl⟩ := exec_pop hExec
    exact .of_untouched ⟨rfl, rfl, rfl, rfl⟩ rfl
  | beginTransaction =>
    cases ch with
    | ok =>
      simp only [carry, World.beginTransaction] at hCarry
      split at hCarry <;> cases hCarry
      · exact .refl t _
      · exact .setTx w t _ w.db w.journal
    | _ => cases hCarry
  | commit =>
    cases ch with
    | ok =>
      simp only [carry, World.commit] at hCarry
      split at hCarry <;> cases hCarry
      · exact .setTx w t _ _ _
      · exact .refl t _
    | _ => cases hCarry
  | rollback =>
    cases ch with
    | ok =>
      simp only [carry, World.rollback] at hCarry
      split at hCarry <;> cases hCarry
      · exact .setTx w t _ w.db w.journal
      · exact .refl t _
    | _ => cases hCarry
  | execute stmt params =>
    cases ch with
    | ok => exact .execute (Option.some.inj hCarry)
    | _ => cases hCarry
  | executeNamed tb cols names params =>
    cases ch with
    | ok =>
      simp only [carry] at hCarry
      split at hCarry
      · rename_i hRows
        cases hCarry
        exact .insertRows hRows
      · cases hCarry
        exact .refl t _
    | _ => cases hCarry
  | _ => exact .of_untouched (carry_untouched rfl hCarry) (exec_async rfl hExec).1.locks

end Steps

end TeaBot.Loggers
