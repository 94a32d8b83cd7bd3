import TeaBot.Loggers.World

/-! # Locks and channels under the operations -/

namespace TeaBot.Loggers

open Foundation Foundation.Sql

/-- The operations that change a lock or a channel. -/
def Op.sync : Op → Bool
  | .lock _ | .unlock _ | .fclose _ | .newChannel _ | .push .. | .pop _ => true
  | _ => false

structure SameSync (w w' : World) : Prop where
  locks : w'.locks = w.locks
  chans : w'.chans = w.chans

/-- What an operation may leave behind that is none of `Op.sync`. -/
structure Async (w w' : World) {α : Type} (r : Except Throwable α) : Prop extends SameSync w w' where
  raised : ∀ e, r = .error e → e.isException = true

namespace SameSync

theorem refl (w : World) : SameSync w w := ⟨rfl, rfl⟩

theorem trans {w₁ w₂ w₃ : World} (h : SameSync w₁ w₂) (h' : SameSync w₂ w₃) : SameSync w₁ w₃ :=
  ⟨h'.locks.trans h.locks, h'.chans.trans h.chans⟩

theorem write (w : World) (t : Nat) (ws : List (Write Tbl Col)) : SameSync w (w.write t ws) := by
  unfold World.write
  split <;> exact ⟨rfl, rfl⟩

end SameSync

variable {r : Except Throwable Unit}

namespace Async

variable {w w' : World} {t : Nat}

theorem ok {α : Type} {a : α} (h : SameSync w w') : Async w w' (.ok a : Except Throwable α) := ⟨h, nofun⟩

theorem exception {α : Type} {e : Throwable} (h : e.isException = true) :
    Async w w (.error e : Except Throwable α) := by
  refine ⟨.refl w, fun e' he' => ?_⟩
  cases he'
  exact h

theorem execute {stmt : Stmt Tbl Col} {params : List Php} (h : w.execute t stmt params = (r, w')) : Async w w' r := by
  simp only [World.execute] at h
  split at h
  · cases h
    exact exception (pdoException_isException _)
  · split at h
    · cases h
      exact ok ⟨(SameSync.write _ t _).locks, (SameSync.write _ t _).chans⟩
    · cases h
      exact ok (.write w t _)

theorem insertRows {tb : Tbl} {cols : List Col} {params : List (String × Php)} {rows : List (List String)}
    (h : World.insertRows t tb cols params rows w = (r, w')) : Async w w' r := by
  induction rows generalizing w with
  | nil =>
    cases h
    exact ok (.refl _)
  | cons names rest ih =>
    simp only [World.insertRows] at h
    split at h
    · cases h
      exact exception (pdoException_isException _)
    · split at h
      · rename_i w₁ hExecute
        have hFirst := execute hExecute
        have hRest := ih h
        exact ⟨hFirst.toSameSync.trans hRest.toSameSync, hRest.raised⟩
      · cases h
        exact execute (by assumption)

theorem beginTransaction (h : w.beginTransaction t = (r, w')) : Async w w' r := by
  simp only [World.beginTransaction] at h
  split at h
  · cases h
    exact exception rfl
  · cases h
    exact ok ⟨rfl, rfl⟩

theorem commit {j : Job} (h : w.commit t j = (r, w')) : Async w w' r := by
  simp only [World.commit] at h
  split at h
  · cases h
    exact ok ⟨rfl, rfl⟩
  · cases h
    exact exception rfl

theorem rollback (h : w.rollback t = (r, w')) : Async w w' r := by
  simp only [World.rollback] at h
  split at h
  · cases h
    exact ok ⟨rfl, rfl⟩
  · cases h
    exact exception rfl

end Async

section Exec

variable {h : Hashes} {t : Nat} {j : Job} {ch : Choice} {w w' : World}

variable {o : Op}

/-- One alternative for each kind of operation: one that always succeeds, those of PDO
that may refuse, and `rename`. -/
theorem carry_async {r : Except Throwable o.Res} (hSync : o.sync = false) (hCarry : carry h t j w o ch = some (r, w')) :
    SameSync w w' ∧ ∀ e, r = .error e → o.raises e = true := by
  unfold carry at hCarry
  split at hCarry
  case h_10 =>
    split at hCarry
    · rename_i hRows
      obtain ⟨rfl, rfl⟩ := Prod.mk.inj (Option.some.inj hCarry)
      exact ⟨(Async.insertRows hRows).toSameSync, nofun⟩
    · rename_i hRows
      obtain ⟨rfl, rfl⟩ := Prod.mk.inj (Option.some.inj hCarry)
      refine ⟨.refl w, fun e' he' => ?_⟩
      cases he'
      exact (Async.insertRows hRows).raised _ rfl
  case h_20 =>
    split at hCarry
    all_goals
      obtain ⟨rfl, rfl⟩ := Prod.mk.inj (Option.some.inj hCarry)
      exact ⟨⟨rfl, rfl⟩, nofun⟩
  all_goals first
    | (simp [Op.sync] at hSync; done)
    | (obtain ⟨rfl, rfl⟩ := Prod.mk.inj (Option.some.inj hCarry); exact ⟨⟨rfl, rfl⟩, nofun⟩)
    | exact absurd hCarry.symm (Option.some_ne_none _)
    | exact ⟨(Async.beginTransaction (Option.some.inj hCarry)).toSameSync,
        (Async.beginTransaction (Option.some.inj hCarry)).raised⟩
    | exact ⟨(Async.commit (Option.some.inj hCarry)).toSameSync,
        (Async.commit (Option.some.inj hCarry)).raised⟩
    | exact ⟨(Async.rollback (Option.some.inj hCarry)).toSameSync,
        (Async.rollback (Option.some.inj hCarry)).raised⟩
    | exact ⟨(Async.execute (Option.some.inj hCarry)).toSameSync,
        (Async.execute (Option.some.inj hCarry)).raised⟩

theorem exec_async {r : Except Throwable o.Res} (hSync : o.sync = false) (hExec : exec h t j o ch w = some (r, w')) :
    SameSync w w' ∧ ∀ e, r = .error e → o.raises e = true := by
  rcases exec_eq_some hExec with ⟨e, hRaises, rfl, rfl⟩ | hCarry
  · refine ⟨.refl _, fun e' he' => ?_⟩
    cases he'
    exact hRaises
  · exact carry_async hSync hCarry

/-! ## The operations on locks and channels -/

theorem exec_silent {r : Except Throwable o.Res} (hSilent : ∀ e, o.raises e = false)
    (hExec : exec h t j o ch w = some (r, w')) : carry h t j w o ch = some (r, w') := by
  rcases exec_eq_some hExec with ⟨e, hRaises, _⟩ | hCarry
  · rw [hSilent e] at hRaises
    cases hRaises
  · exact hCarry

variable {m : Mutex}

theorem exec_lock (hExec : exec h t j (.lock m) ch w = some (r, w')) :
    w.locks m = none ∧ r = .ok () ∧ w' = { w with locks := Function.update w.locks m (some t) } := by
  have hCarry := exec_silent (fun _ => rfl) hExec
  cases ch with
  | ok =>
    simp only [carry] at hCarry
    split at hCarry
    · rename_i hFree
      obtain ⟨rfl, rfl⟩ := Prod.mk.inj (Option.some.inj hCarry)
      exact ⟨hFree, rfl, rfl⟩
    · cases hCarry
  | _ => cases hCarry

theorem exec_unlock (hExec : exec h t j (.unlock m) ch w = some (r, w')) : r = .ok () ∧ w' = w.release t m := by
  have hCarry := exec_silent (fun _ => rfl) hExec
  cases ch with
  | ok =>
    obtain ⟨rfl, rfl⟩ := Prod.mk.inj (Option.some.inj hCarry)
    exact ⟨rfl, rfl⟩
  | _ => cases hCarry

theorem exec_fclose (hExec : exec h t j (.fclose m) ch w = some (r, w')) : r = .ok () ∧ w' = w.release t m := by
  have hCarry := exec_silent (fun _ => rfl) hExec
  cases ch with
  | ok =>
    obtain ⟨rfl, rfl⟩ := Prod.mk.inj (Option.some.inj hCarry)
    exact ⟨rfl, rfl⟩
  | _ => cases hCarry

theorem exec_newChannel {n : Nat} {r : Except Throwable Nat}
    (hExec : exec h t j (.newChannel n) ch w = some (r, w')) :
    r = .ok w.chans.length ∧ w' = { w with chans := w.chans ++ [[]] } := by
  have hCarry := exec_silent (fun _ => rfl) hExec
  cases ch with
  | ok =>
    obtain ⟨rfl, rfl⟩ := Prod.mk.inj (Option.some.inj hCarry)
    exact ⟨rfl, rfl⟩
  | _ => cases hCarry

theorem exec_push {chan : Nat} {row : AdminRow} (hExec : exec h t j (.push chan row) ch w = some (r, w')) :
    r = .ok () ∧ w' = { w with chans := w.chans.modify chan (· ++ [row]) } := by
  have hCarry := exec_silent (fun _ => rfl) hExec
  cases ch with
  | ok =>
    obtain ⟨rfl, rfl⟩ := Prod.mk.inj (Option.some.inj hCarry)
    exact ⟨rfl, rfl⟩
  | _ => cases hCarry

theorem exec_pop {chan : Nat} {r : Except Throwable AdminRow}
    (hExec : exec h t j (.pop chan) ch w = some (r, w')) :
    ∃ row rest, w.chans[chan]? = some (row :: rest) ∧ r = .ok row ∧
      w' = { w with chans := w.chans.set chan rest } := by
  have hCarry := exec_silent (fun _ => rfl) hExec
  cases ch with
  | ok =>
    simp only [carry] at hCarry
    split at hCarry
    · rename_i row rest hChan
      obtain ⟨rfl, rfl⟩ := Prod.mk.inj (Option.some.inj hCarry)
      exact ⟨row, rest, hChan, rfl, rfl⟩
    · cases hCarry
  | _ => cases hCarry

theorem exec_raises {r : Except Throwable o.Res} (hExec : exec h t j o ch w = some (r, w')) :
    ∀ e, r = .error e → o.raises e = true := by
  by_cases hSync : o.sync = false
  · exact (exec_async hSync hExec).2
  · rintro e rfl
    cases o with
    | lock m => cases (exec_lock hExec).2.1
    | unlock m => cases (exec_unlock hExec).1
    | fclose m => cases (exec_fclose hExec).1
    | newChannel n => cases (exec_newChannel hExec).1
    | push chan row => cases (exec_push hExec).1
    | pop chan =>
      obtain ⟨_, _, _, hEq, _⟩ := exec_pop hExec
      cases hEq
    | _ => exact absurd rfl hSync

/-- The operations that create, fill or empty a channel. -/
def Op.onChannel : Op → Bool
  | .newChannel _ | .push .. | .pop _ => true
  | _ => false

theorem exec_chans {r : Except Throwable o.Res} (hOp : o.onChannel = false) (hExec : exec h t j o ch w = some (r, w')) :
    w'.chans = w.chans := by
  have hRelease : ∀ m, (w.release t m).chans = w.chans := by
    intro m
    rw [World.release]
    split <;> rfl
  by_cases hSync : o.sync = false
  · exact (exec_async hSync hExec).1.chans
  · cases o with
    | lock m => rw [(exec_lock hExec).2.2]
    | unlock m => rw [(exec_unlock hExec).2, hRelease]
    | fclose m => rw [(exec_fclose hExec).2, hRelease]
    | newChannel | push | pop => cases hOp
    | _ => exact absurd rfl hSync

/-- Only a lock that is held and a channel that is empty make a coroutine wait. -/
theorem exec_enabled (h : Hashes) (t : Nat) (j : Job) (o : Op) (w : World) :
    (∃ ch r w', exec h t j o ch w = some (r, w')) ∨ (∃ m, o = .lock m ∧ w.locks m ≠ none) ∨
      ∃ chan, o = .pop chan ∧ ∀ row rest, w.chans[chan]? ≠ some (row :: rest) := by
  cases o with
  | lock m =>
    by_cases hFree : w.locks m = none
    · exact .inl ⟨.ok, _, _, if_pos hFree⟩
    · exact .inr (.inl ⟨m, rfl, hFree⟩)
  | pop chan =>
    by_cases hItem : ∃ row rest, w.chans[chan]? = some (row :: rest)
    · obtain ⟨row, rest, hItem⟩ := hItem
      exact .inl ⟨.ok, .ok row, { w with chans := w.chans.set chan rest }, by simp [exec, carry, hItem]⟩
    · exact .inr (.inr ⟨chan, rfl, fun row rest hSome => hItem ⟨row, rest, hSome⟩⟩)
  | exe call => exact .inl ⟨.answer .null, _, _, rfl⟩
  | download filePath file => exact .inl ⟨.downloaded false "", _, _, rfl⟩
  | rename source target => exact .inl ⟨.renamed false, _, _, rfl⟩
  | executeNamed tb cols rows params =>
    refine .inl ⟨.ok, ?_⟩
    simp only [exec, carry]
    split
    · exact ⟨_, _, rfl⟩
    · exact ⟨_, _, rfl⟩
  | _ => exact .inl ⟨.ok, _, _, rfl⟩

end Exec

end TeaBot.Loggers
