import TeaBot.Loggers.MessageTables
import TeaBot.Loggers.Untouched

/-! # Steps of `resolveMessage`

What holds of the database at each stage of a call, and what one operation of the call
makes of it.
-/

namespace TeaBot.Loggers.GroupMessage

open Foundation Foundation.Sql

/-! ## Keys of messages -/

def pendingRow (w : World) (t : Nat) : Option (Row Col) :=
  match w.tx t with
  | some (.insert .tgGroupMessages r :: _) => some r
  | _ => none

structure Numbered (w : World) : Prop where
  stored : ∀ row ∈ w.db .tgGroupMessages, ∃ k : Nat, row .id = .int k ∧ k < w.next .tgGroupMessages
  pending : ∀ t r, pendingRow w t = some r → ∃ k : Nat, r .id = .int k ∧ k < w.next .tgGroupMessages
  unused : ∀ t r, pendingRow w t = some r → ∀ row ∈ w.db .tgGroupMessages, row .id ≠ r .id
  apart : ∀ t u r r', pendingRow w t = some r → pendingRow w u = some r' → r .id = r' .id → t = u

namespace Numbered

variable {w w' : World} {t : Nat}

theorem mono (hNumbered : Numbered w) (hDb : w'.db = w.db) (hNext : w'.next .tgGroupMessages = w.next .tgGroupMessages)
    (hPending : ∀ u r, pendingRow w' u = some r → pendingRow w u = some r) : Numbered w' where
  stored := by
    rw [hDb, hNext]
    exact hNumbered.stored
  pending u r hr := by
    rw [hNext]
    exact hNumbered.pending u r (hPending u r hr)
  unused u r hr := by
    rw [hDb]
    exact hNumbered.unused u r (hPending u r hr)
  apart u v r r' hr hr' := hNumbered.apart u v r r' (hPending u r hr) (hPending v r' hr')

theorem insert (hNumbered : Numbered w) {r : Row Col} (hDb : w'.db = w.db)
    (hNext : w'.next .tgGroupMessages = w.next .tgGroupMessages + 1) (hId : r .id = .int (w.next .tgGroupMessages))
    (hOwn : pendingRow w' t = some r) (hOthers : ∀ u, u ≠ t → pendingRow w' u = pendingRow w u) : Numbered w' := by
  have hFresh : ∀ {v : Value}, (∃ k : Nat, v = .int k ∧ k < w.next .tgGroupMessages) → v ≠ r .id := by
    rintro _ ⟨k, rfl, hLt⟩ hEq
    have hInt : (k : Int) = w.next .tgGroupMessages := Value.int.inj (hEq.trans hId)
    omega
  have hGrow : ∀ {v : Value}, (∃ k : Nat, v = .int k ∧ k < w.next .tgGroupMessages) →
      ∃ k : Nat, v = .int k ∧ k < w'.next .tgGroupMessages := by
    rintro _ ⟨k, rfl, hLt⟩
    exact ⟨k, rfl, by omega⟩
  refine ⟨fun row hRow => ?_, fun u r' hr' => ?_, fun u r' hr' row hRow => ?_, fun u v r₁ r₂ h₁ h₂ hEq => ?_⟩
  · exact hGrow (hNumbered.stored row (hDb ▸ hRow))
  · by_cases hu : u = t
    · subst hu
      cases hOwn.symm.trans hr'
      exact ⟨_, hId, by omega⟩
    · exact hGrow (hNumbered.pending u r' (hOthers u hu ▸ hr'))
  · rw [hDb] at hRow
    by_cases hu : u = t
    · subst hu
      cases hOwn.symm.trans hr'
      exact hFresh (hNumbered.stored row hRow)
    · exact hNumbered.unused u r' (hOthers u hu ▸ hr') row hRow
  · by_cases hu : u = t
    · by_cases hv : v = t
      · exact hu.trans hv.symm
      · subst hu
        cases hOwn.symm.trans h₁
        exact absurd hEq.symm (hFresh (hNumbered.pending v r₂ (hOthers v hv ▸ h₂)))
    · by_cases hv : v = t
      · subst hv
        cases hOwn.symm.trans h₂
        exact absurd hEq (hFresh (hNumbered.pending u r₁ (hOthers u hu ▸ h₁)))
      · exact hNumbered.apart u v r₁ r₂ (hOthers u hu ▸ h₁) (hOthers v hv ▸ h₂) hEq

theorem commit (hNumbered : Numbered w) {r : Row Col} (hRows : w'.db .tgGroupMessages = w.db .tgGroupMessages ++ [r])
    (hNext : w'.next = w.next) (hBefore : pendingRow w t = some r) (hOwn : pendingRow w' t = none)
    (hOthers : ∀ u, u ≠ t → pendingRow w' u = pendingRow w u) : Numbered w' := by
  have hOther : ∀ {u r'}, pendingRow w' u = some r' → u ≠ t ∧ pendingRow w u = some r' := by
    intro u r' hr'
    have hu : u ≠ t := by
      rintro rfl
      cases hOwn.symm.trans hr'
    exact ⟨hu, hOthers u hu ▸ hr'⟩
  refine ⟨fun row hRow => ?_, fun u r' hr' => ?_, fun u r' hr' row hRow => ?_, fun u v r₁ r₂ h₁ h₂ hEq => ?_⟩
  · rw [hRows] at hRow
    rw [hNext]
    rcases List.mem_append.mp hRow with hOld | hLast
    · exact hNumbered.stored row hOld
    · exact List.mem_singleton.mp hLast ▸ hNumbered.pending t r hBefore
  · rw [hNext]
    exact hNumbered.pending u r' (hOther hr').2
  · rw [hRows] at hRow
    rcases List.mem_append.mp hRow with hOld | hLast
    · exact hNumbered.unused u r' (hOther hr').2 row hOld
    · obtain rfl := List.mem_singleton.mp hLast
      exact fun hEq => (hOther hr').1 (hNumbered.apart t u _ r' hBefore (hOther hr').2 hEq).symm
  · exact hNumbered.apart u v r₁ r₂ (hOther h₁).2 (hOther h₂).2 hEq

end Numbered

/-! ## Stages -/

structure Writing (c : Call) (t : Nat) (w : World) (n : Nat) (log : List (Write Tbl Col)) : Prop where
  holds : w.locks c.mutex = some t
  absent : messagesAt w.db c.groupId c.msgId = []
  logged : ∃ r, w.tx t = some (.insert .tgGroupMessages r :: log) ∧ Records c r n

/-- What is known at each stage of call `c` on connection `t`. A call that is failing has
nothing to rely on any more. -/
def Stage.Facts (c : Call) (t : Nat) (w : World) : Stage → Prop
  | .outside => w.tx t = none
  | .locked => w.locks c.mutex = some t ∧ w.tx t = none
  | .opened => w.locks c.mutex = some t ∧ w.tx t = some []
  | .stored => w.locks c.mutex = some t ∧ w.tx t = some [] ∧ messagesAt w.db c.groupId c.msgId ≠ []
  | .missing => w.locks c.mutex = some t ∧ w.tx t = some [] ∧ messagesAt w.db c.groupId c.msgId = []
  | .inserted => Writing c t w (w.lastId t) []
  | .numbered n => Writing c t w n []
  | .countedUser n => Writing c t w n [userCounted c]
  | .countedGroup n => Writing c t w n [userCounted c, groupCounted c]
  | .complete => c.msgType = "text" ∧
    ∃ n x, x .msgId = .int n ∧ Writing c t w n [userCounted c, groupCounted c, .insert .tgGroupMessageData x]
  | .committed | .failing | .returned | .ended => True

variable {log : List (Write Tbl Col)} {n u : Nat}

theorem Writing.others {c : Call} {t : Nat} {w w' : World} (hFacts : Writing c u w n log) (hOthers : Others t w w')
    (hu : u ≠ t) (hRows : messagesAt w'.db c.groupId c.msgId = [] ↔ messagesAt w.db c.groupId c.msgId = []) :
    Writing c u w' n log where
  holds := hOthers.locks u _ hu hFacts.holds
  absent := hRows.mpr hFacts.absent
  logged := by
    rw [hOthers.tx u hu]
    exact hFacts.logged

/-- Another coroutine's step disturbs the call at most through the rows of its message, and
not as long as the call holds the lock. -/
theorem Stage.Facts.others {c : Call} {t : Nat} {w w' : World} {s : Stage} (hFacts : s.Facts c u w)
    (hOthers : Others t w w') (hu : u ≠ t) (hRows : w.locks c.mutex = some u →
      (messagesAt w'.db c.groupId c.msgId = [] ↔ messagesAt w.db c.groupId c.msgId = [])) : s.Facts c u w' := by
  have hTx := hOthers.tx u hu
  have hLock := hOthers.locks u c.mutex hu
  cases s with
  | outside => exact hTx.trans hFacts
  | locked | opened => exact ⟨hLock hFacts.1, hTx.trans hFacts.2⟩
  | stored => exact ⟨hLock hFacts.1, hTx.trans hFacts.2.1, (not_congr (hRows hFacts.1)).mpr hFacts.2.2⟩
  | missing => exact ⟨hLock hFacts.1, hTx.trans hFacts.2.1, (hRows hFacts.1).mpr hFacts.2.2⟩
  | inserted =>
    have hWriting : Writing c u w (w.lastId u) [] := hFacts
    rw [← hOthers.lastId u hu] at hWriting
    exact hWriting.others hOthers hu (hRows hWriting.holds)
  | numbered n | countedUser n | countedGroup n => exact Writing.others hFacts hOthers hu (hRows hFacts.holds)
  | complete =>
    obtain ⟨hText, n, x, hx, hWriting⟩ := hFacts
    exact ⟨hText, n, x, hx, hWriting.others hOthers hu (hRows hWriting.holds)⟩
  | committed | failing | returned | ended => trivial

/-! ## One step -/

/-- What a step of call `c` leaves behind. Only a commit makes the message a stored one. -/
structure Stepped (c : Call) (t : Nat) (s s' : Stage) (w w' : World) : Prop where
  facts : s'.Facts c t w'
  agree : Agree w'.db
  numbered : Numbered w'
  rows : ∀ groupId msgId, messagesAt w'.db groupId msgId ≠ [] ↔ messagesAt w.db groupId msgId ≠ [] ∨
    (s.done = false ∧ s'.done = true ∧ groupId = c.groupId ∧ msgId = c.msgId)
  done : s.done = true → s'.done = true
  holds : s.done = false → s'.done = true → w.locks c.mutex = some t

section Step

variable {h : Hashes} {j : Job} {ch : Choice} {c : Call} {t : Nat} {s s' : Stage} {w w' : World}

theorem Stepped.quiet (hAgree : Agree w.db) (hNumbered : Numbered w) (hDb : w'.db = w.db)
    (hNext : w'.next .tgGroupMessages = w.next .tgGroupMessages)
    (hPending : ∀ u r, pendingRow w' u = some r → pendingRow w u = some r) (hDone : s'.done = s.done)
    (hFacts : s'.Facts c t w') : Stepped c t s s' w w' where
  facts := hFacts
  agree := hDb ▸ hAgree
  numbered := hNumbered.mono hDb hNext hPending
  rows groupId msgId := by
    rw [hDb, hDone]
    refine ⟨.inl, fun hRows => hRows.resolve_right ?_⟩
    rintro ⟨hNot, hYes, _⟩
    cases hNot.symm.trans hYes
  done hs := hDone.trans hs
  holds hNot hYes := by cases hNot.symm.trans (hDone.symm.trans hYes)

theorem Stepped.same (hAgree : Agree w.db) (hNumbered : Numbered w) (hDone : s'.done = s.done)
    (hFacts : s'.Facts c t w) : Stepped c t s s' w w :=
  .quiet hAgree hNumbered rfl rfl (fun _ _ hr => hr) hDone hFacts

theorem pendingRow_congr (hTx : w'.tx u = w.tx u) : pendingRow w' u = pendingRow w u := by
  rw [pendingRow, hTx]
  rfl

theorem pendingRow_setTx {log : Option (List (Write Tbl Col))} (hTx : w'.tx = Function.update w.tx t log)
    (hLog : ∀ r, pendingRow w' t = some r → pendingRow w t = some r) :
    ∀ u r, pendingRow w' u = some r → pendingRow w u = some r := by
  intro u r hr
  by_cases hu : u = t
  · exact hu ▸ hLog r (hu ▸ hr)
  · rwa [← pendingRow_congr ((congrFun hTx u).trans (Function.update_of_ne hu _ _))]

theorem Stepped.locks (hAgree : Agree w.db) (hNumbered : Numbered w) (hDb : w'.db = w.db) (hNext : w'.next = w.next)
    (hTx : w'.tx = w.tx) (hDone : s'.done = s.done) (hFacts : s'.Facts c t w') : Stepped c t s s' w w' :=
  .quiet hAgree hNumbered hDb (congrFun hNext _) (fun u _ hr => pendingRow_congr (congrFun hTx u) ▸ hr) hDone hFacts

variable {m : Mutex} {r : Except Throwable Unit}

section

variable (hAgree : Agree w.db) (hNumbered : Numbered w)

include hAgree hNumbered

theorem step_lock (hFacts : s.Facts c t w) (hAdmits : s.Admits c (.lock m))
    (hExec : exec h t j (.lock m) ch w = some (r, w')) : Stepped c t s (s.after (.lock m) r) w w' := by
  obtain ⟨_, rfl, rfl⟩ := exec_lock hExec
  cases s with
  | outside =>
    obtain rfl : m = c.mutex := hAdmits
    exact .locks hAgree hNumbered rfl rfl rfl rfl ⟨Function.update_self _ _ _, hFacts⟩
  | _ => exact hAdmits.elim

theorem step_unlock (hAdmits : s.Admits c (.unlock m)) (hExec : exec h t j (.unlock m) ch w = some (r, w')) :
    Stepped c t s (s.after (.unlock m) r) w w' := by
  obtain ⟨rfl, rfl⟩ := exec_unlock hExec
  cases s with
  | committed | failing =>
    exact .locks hAgree hNumbered (w.release_db t m) (w.release_next t m) (w.release_tx t m) rfl trivial
  | _ => exact hAdmits.elim

theorem step_fclose (hExec : exec h t j (.fclose m) ch w = some (r, w')) :
    Stepped c t s (s.after (.fclose m) r) w w' := by
  obtain ⟨rfl, rfl⟩ := exec_fclose hExec
  refine .locks hAgree hNumbered (w.release_db t m) (w.release_next t m) (w.release_tx t m) (done_fclose s m _) ?_
  cases s <;> trivial

theorem step_begin (hFacts : s.Facts c t w) (hAdmits : s.Admits c .beginTransaction)
    (hExec : exec h t j .beginTransaction ch w = some (r, w')) : Stepped c t s (s.after .beginTransaction r) w w' := by
  cases s with
  | locked =>
    obtain ⟨hLock, hTx⟩ := hFacts
    rcases exec_eq_some hExec with ⟨e, _, rfl, rfl⟩ | hCarry
    · exact .same hAgree hNumbered rfl trivial
    · cases ch with
      | ok =>
        simp only [carry, World.beginTransaction, hTx] at hCarry
        obtain ⟨rfl, rfl⟩ := Prod.mk.inj (Option.some.inj hCarry)
        refine .quiet hAgree hNumbered rfl rfl (pendingRow_setTx rfl fun r hr => ?_) rfl ⟨hLock, Function.update_self _ _ _⟩
        simp [pendingRow] at hr
      | _ => cases hCarry
  | _ => exact hAdmits.elim

theorem step_rollback (hAdmits : s.Admits c .rollback) (hExec : exec h t j .rollback ch w = some (r, w')) :
    Stepped c t s (s.after .rollback r) w w' := by
  have hEnd : s.after .rollback r = .failing ∧ s.done = false := by
    cases s with
    | failing | countedGroup n => cases r <;> exact ⟨rfl, rfl⟩
    | _ => exact hAdmits.elim
  rw [hEnd.1]
  rcases exec_eq_some hExec with ⟨e, _, rfl, rfl⟩ | hCarry
  · exact .same hAgree hNumbered hEnd.2.symm trivial
  · cases ch with
    | ok =>
      simp only [carry, World.rollback] at hCarry
      split at hCarry
      · obtain ⟨rfl, rfl⟩ := Prod.mk.inj (Option.some.inj hCarry)
        refine .quiet hAgree hNumbered rfl rfl (pendingRow_setTx rfl fun r hr => ?_) hEnd.2.symm trivial
        simp [pendingRow] at hr
      · obtain ⟨rfl, rfl⟩ := Prod.mk.inj (Option.some.inj hCarry)
        exact .same hAgree hNumbered hEnd.2.symm trivial
    | _ => cases hCarry

theorem step_fetchWhere {tb : Tbl} {cols : List Col} {conds : List (Col × Php)}
    {r : Except Throwable (Option (Col → Php))} (hFacts : s.Facts c t w)
    (hAdmits : s.Admits c (.fetchWhere tb cols conds))
    (hExec : exec h t j (.fetchWhere tb cols conds) ch w = some (r, w')) :
    Stepped c t s (s.after (.fetchWhere tb cols conds) r) w w' := by
  cases s with
  | opened =>
    obtain ⟨rfl, rfl⟩ := hAdmits
    obtain ⟨hLock, hTx⟩ := hFacts
    rcases exec_eq_some hExec with ⟨e, _, rfl, rfl⟩ | hCarry
    · exact .same hAgree hNumbered rfl trivial
    · cases ch with
      | ok =>
        have hFound := fetched_iff h.collate c hTx cols
        obtain ⟨rfl, rfl⟩ := Prod.mk.inj (Option.some.inj hCarry)
        cases hFetch : w.fetchWhere h.collate t .tgGroupMessages cols
            [(.groupId, .int c.groupId), (.tgMsgId, c.data.msgId)] with
        | some row =>
          rw [hFetch] at hFound
          exact .same hAgree hNumbered rfl ⟨hLock, hTx, hFound.mp rfl⟩
        | none =>
          rw [hFetch] at hFound
          exact .same hAgree hNumbered rfl ⟨hLock, hTx, not_not.mp fun hNe => nomatch hFound.mpr hNe⟩
      | _ => cases hCarry
  | _ => exact hAdmits.elim

theorem step_lastInsertId {r : Except Throwable Nat} (hFacts : s.Facts c t w) (hAdmits : s.Admits c .lastInsertId)
    (hExec : exec h t j .lastInsertId ch w = some (r, w')) : Stepped c t s (s.after .lastInsertId r) w w' := by
  rcases exec_eq_some hExec with ⟨e, _, rfl, rfl⟩ | hCarry
  · cases s with
    | inserted | complete => exact .same hAgree hNumbered rfl trivial
    | _ => exact hAdmits.elim
  · cases ch with
    | ok =>
      obtain ⟨rfl, rfl⟩ := Prod.mk.inj (Option.some.inj hCarry)
      cases s with
      | inserted | complete => exact .same hAgree hNumbered rfl hFacts
      | _ => exact hAdmits.elim
    | _ => cases hCarry

end

/-! ## Statements -/

theorem write_open (hTx : w.tx t = some log) (ws : List (Write Tbl Col)) :
    w.write t ws = { w with tx := Function.update w.tx t (some (log ++ ws)) } := by
  rw [World.write, hTx]

theorem Writing.write (hWriting : Writing c t w n log) (ws : List (Write Tbl Col)) :
    Writing c t (w.write t ws) n (log ++ ws) := by
  obtain ⟨hLock, hAbsent, r, hTx, hRecords⟩ := hWriting
  rw [write_open hTx]
  exact ⟨hLock, hAbsent, r, Function.update_self _ _ _, hRecords⟩

theorem Stepped.append {w₁ : World} {ws : List (Write Tbl Col)} (hAgree : Agree w.db) (hNumbered : Numbered w)
    (hWriting : Writing c t w n log) (hDb : w₁.db = w.db) (hTx₁ : w₁.tx = w.tx)
    (hNext : w₁.next .tgGroupMessages = w.next .tgGroupMessages) (hDone : s'.done = s.done)
    (hFacts : s'.Facts c t (w₁.write t ws)) : Stepped c t s s' w (w₁.write t ws) := by
  obtain ⟨_, _, r, hTx, _⟩ := hWriting
  have hBefore : pendingRow w t = some r := by rw [pendingRow, hTx]
  have hWrite := write_open (hTx₁ ▸ hTx) ws
  rw [hWrite] at hFacts ⊢
  refine .quiet hAgree hNumbered hDb hNext (pendingRow_setTx (by rw [hTx₁]) fun r' hr' => ?_) hDone hFacts
  simp only [pendingRow, Function.update_self, List.cons_append] at hr'
  exact hBefore.trans hr'

theorem step_insert {params : List Php} (hAgree : Agree w.db) (hNumbered : Numbered w)
    (hFacts : Stage.missing.Facts c t w) (hParams : params = c.params)
    (hExec : exec h t j (.execute (.insert .tgGroupMessages insertCols) params) ch w = some (r, w')) :
    Stepped c t .missing (Stage.missing.after (.execute (.insert .tgGroupMessages insertCols) params) r) w w' := by
  subst hParams
  rcases exec_execute hExec with ⟨e, rfl, rfl⟩ | ⟨ws, hWrites, rfl, rfl⟩
  · exact .same hAgree hNumbered rfl trivial
  · obtain ⟨hLock, hTx, hAbsent⟩ := hFacts
    obtain ⟨row, rfl, hRecords⟩ := insertMessage_writes hWrites
    have hTaken : (w.takeId t .tgGroupMessages).tx t = some [] := hTx
    dsimp only
    rw [write_open hTaken]
    refine ⟨⟨hLock, hAbsent, row, Function.update_self _ _ _, ?_⟩, hAgree, ?_, fun groupId msgId => ?_, nofun, nofun⟩
    · have hLast : (w.takeId t .tgGroupMessages).lastId t = w.next .tgGroupMessages := Function.update_self _ _ _
      rw [← hLast] at hRecords
      exact hRecords
    · have hNext : (w.takeId t .tgGroupMessages).next .tgGroupMessages = w.next .tgGroupMessages + 1 := by
        simp [World.takeId]
      refine hNumbered.insert (t := t) rfl hNext hRecords.id ?_ fun u hu => ?_
      · simp [pendingRow]
      · exact pendingRow_congr (Function.update_of_ne hu _ _)
    · refine ⟨.inl, fun hRows => hRows.resolve_right ?_⟩
      rintro ⟨_, hYes, _⟩
      cases hYes

theorem step_execute {stmt : Stmt Tbl Col} {params : List Php} (hAgree : Agree w.db) (hNumbered : Numbered w)
    (hFacts : s.Facts c t w) (hAdmits : s.Admits c (.execute stmt params))
    (hExec : exec h t j (.execute stmt params) ch w = some (r, w')) :
    Stepped c t s (s.after (.execute stmt params) r) w w' := by
  cases s with
  | missing =>
    obtain ⟨rfl, hParams⟩ := hAdmits
    exact step_insert hAgree hNumbered hFacts hParams hExec
  | numbered n =>
    obtain ⟨rfl, rfl⟩ := hAdmits
    have hWriting : Writing c t w n [] := hFacts
    rcases exec_execute hExec with ⟨e, rfl, rfl⟩ | ⟨ws, hWrites, rfl, rfl⟩
    · exact .same hAgree hNumbered rfl trivial
    · obtain rfl : [userCounted c] = ws := Except.ok.inj hWrites
      exact .append hAgree hNumbered hWriting rfl rfl rfl rfl (hWriting.write _)
  | countedUser n =>
    obtain ⟨rfl, rfl⟩ := hAdmits
    have hWriting : Writing c t w n [userCounted c] := hFacts
    rcases exec_execute hExec with ⟨e, rfl, rfl⟩ | ⟨ws, hWrites, rfl, rfl⟩
    · exact .same hAgree hNumbered rfl trivial
    · obtain rfl : [groupCounted c] = ws := Except.ok.inj hWrites
      exact .append hAgree hNumbered hWriting rfl rfl rfl rfl (hWriting.write _)
  | countedGroup n =>
    obtain ⟨hText, rfl, rest, rfl⟩ := hAdmits
    have hWriting : Writing c t w n [userCounted c, groupCounted c] := hFacts
    rcases exec_execute hExec with ⟨e, rfl, rfl⟩ | ⟨ws, hWrites, rfl, rfl⟩
    · exact .same hAgree hNumbered rfl trivial
    · obtain ⟨x, rfl, hx⟩ := saveData_writes hWrites
      have hTaken : Writing c t (w.takeId t .tgGroupMessageData) n [userCounted c, groupCounted c] :=
        ⟨hWriting.holds, hWriting.absent, hWriting.logged⟩
      exact .append hAgree hNumbered hWriting rfl rfl rfl rfl ⟨hText, n, x, hx, hTaken.write _⟩
  | _ => exact hAdmits.elim

/-! ## The commit -/

theorem exec_commit (hTx : w.tx t = some log) (hExec : exec h t j .commit ch w = some (r, w')) :
    (∃ e, r = .error e ∧ w' = w) ∨ r = .ok () ∧ w' = { w with
      db := schema.applyAll log w.db, tx := Function.update w.tx t none, journal := w.journal ++ [(t, j)] } := by
  rcases exec_eq_some hExec with ⟨e, _, rfl, rfl⟩ | hCarry
  · exact .inl ⟨e, rfl, rfl⟩
  · cases ch with
    | ok =>
      simp only [carry, World.commit, hTx] at hCarry
      obtain ⟨rfl, rfl⟩ := Prod.mk.inj (Option.some.inj hCarry)
      exact .inr ⟨rfl, rfl⟩
    | _ => cases hCarry

theorem step_commit_new (xs : List (Row Col)) (hAgree : Agree w.db) (hNumbered : Numbered w)
    (hWriting : Writing c t w n (userCounted c :: groupCounted c :: xs.map (.insert .tgGroupMessageData)))
    (hOwn : ∀ x ∈ xs, x .msgId = .int n) (hCount : xs.length = if c.msgType = "text" then 1 else 0)
    (hOpen : s.done = false) (hOk : s.after .commit (.ok ()) = .committed)
    (hFail : ∀ e, s.after .commit (.error e) = .failing) (hExec : exec h t j .commit ch w = some (r, w')) :
    Stepped c t s (s.after .commit r) w w' := by
  obtain ⟨hLock, hAbsent, row, hTx, hRecords⟩ := hWriting
  rcases exec_commit hTx hExec with ⟨e, rfl, rfl⟩ | ⟨rfl, rfl⟩
  · rw [hFail]
    exact .same hAgree hNumbered hOpen.symm trivial
  · rw [hOk]
    have hAdded := added_log c row xs w.db
    have hPending : pendingRow w t = some row := by rw [pendingRow, hTx]
    refine ⟨trivial, ?_, ?_, fun groupId msgId => ?_, fun _ => rfl, fun _ _ => hLock⟩
    · exact hAgree.added hRecords hAdded (hRecords.id ▸ hNumbered.unused t row hPending) hAbsent hOwn hCount
    · refine hNumbered.commit (t := t) hAdded.messages rfl hPending ?_ fun u hu => ?_
      · simp [pendingRow]
      · exact pendingRow_congr (Function.update_of_ne hu _ _)
    · refine (hAdded.stored_iff hRecords groupId msgId).trans (or_congr_right ?_)
      exact ⟨fun hKey => ⟨hOpen, rfl, hKey⟩, fun hKey => hKey.2.2⟩

theorem step_commit (hAgree : Agree w.db) (hNumbered : Numbered w) (hFacts : s.Facts c t w)
    (hAdmits : s.Admits c .commit) (hExec : exec h t j .commit ch w = some (r, w')) :
    Stepped c t s (s.after .commit r) w w' := by
  cases s with
  | stored =>
    obtain ⟨hLock, hTx, hStored⟩ := hFacts
    rcases exec_commit hTx hExec with ⟨e, rfl, rfl⟩ | ⟨rfl, rfl⟩
    · exact .same hAgree hNumbered rfl trivial
    · refine ⟨trivial, hAgree, ?_, fun groupId msgId => ⟨.inl, ?_⟩, fun _ => rfl, fun _ _ => hLock⟩
      · refine hNumbered.mono rfl rfl (pendingRow_setTx rfl fun r hr => ?_)
        simp [pendingRow] at hr
      · rintro (hOld | ⟨_, _, rfl, rfl⟩)
        · exact hOld
        · exact hStored
  | countedGroup n =>
    have hText : c.msgType ≠ "text" := hAdmits
    exact step_commit_new [] hAgree hNumbered hFacts (fun _ hx => absurd hx List.not_mem_nil)
      (if_neg hText).symm rfl rfl (fun _ => rfl) hExec
  | complete =>
    obtain ⟨hText, n, x, hx, hWriting⟩ := hFacts
    exact step_commit_new [x] hAgree hNumbered hWriting (fun y hy => List.mem_singleton.mp hy ▸ hx)
      (if_pos hText).symm rfl rfl (fun _ => rfl) hExec
  | _ => exact hAdmits.elim

theorem step_call {o : Op} {r : Except Throwable o.Res} (hAgree : Agree w.db) (hNumbered : Numbered w)
    (hFacts : s.Facts c t w) (hAdmits : s.Admits c o) (hExec : exec h t j o ch w = some (r, w')) :
    Stepped c t s (s.after o r) w w' := by
  cases o with
  | lock m => exact step_lock hAgree hNumbered hFacts hAdmits hExec
  | unlock m => exact step_unlock hAgree hNumbered hAdmits hExec
  | fclose m => exact step_fclose hAgree hNumbered hExec
  | beginTransaction => exact step_begin hAgree hNumbered hFacts hAdmits hExec
  | commit => exact step_commit hAgree hNumbered hFacts hAdmits hExec
  | rollback => exact step_rollback hAgree hNumbered hAdmits hExec
  | fetchWhere tb cols conds => exact step_fetchWhere hAgree hNumbered hFacts hAdmits hExec
  | execute stmt params => exact step_execute hAgree hNumbered hFacts hAdmits hExec
  | lastInsertId => exact step_lastInsertId hAgree hNumbered hFacts hAdmits hExec
  | _ => cases s <;> exact hAdmits.elim

end Step

end TeaBot.Loggers.GroupMessage
