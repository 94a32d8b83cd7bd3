import TeaBot.Foundation.Recorded
import TeaBot.Loggers.AdminCalls
import TeaBot.Loggers.Sync

/-! # Runs of `trackAdmins` with its coroutines

What the channel has carried is what the coroutines have pushed, in whatever order they
came to it, and the rows of the administrators are written by `trackAdmins` alone.
-/

namespace TeaBot.Loggers.Admins

open Foundation Foundation.Sql Foundation.System

def MayAsk : Job → List Answered → Op → Prop
  | .trackAdmins self, h, o => ((progress self).stateAfter {} h).Admits self o
  | .adminUser k v chan dateTime, h, o => Announces k v chan dateTime h o
  | _, _, _ => True

def Ended : Job → Except Throwable Unit → List Answered → Prop
  | .trackAdmins self, out, h => out = .ok () → Settled self ((progress self).stateAfter {} h)
  | _, _, _ => True

theorem code_guarded (md5 : String → String) (j : Job) : (code md5 j).Guarded Possible (MayAsk j) (Ended j) [] := by
  cases j with
  | trackAdmins self =>
    have hKeeps : (code md5 (.trackAdmins self)).Keeps (progress self) (fun out p => out = .ok () → Settled self p)
        ((progress self).stateAfter {} []) := trackAdmins_keeps md5
    exact hKeeps.guarded
  | adminUser k v chan dateTime => exact adminUser_guarded md5 k v chan dateTime
  | _ => exact .anything _ _

def mainOf (self : Group) (H : List (Nat × Answered)) : Progress := (progress self).stateAfter {} (eventsOf 0 H)

def Announced (k : Key) (v : Php) (dateTime : String) (h : List Answered) : Prop :=
  h.filterMap pushed = [] ∨ ∃ u, h.filterMap pushed = [message k v u] ∧ ResolvedBy v dateTime h u

/-- The messages pushed are those received and those still in the channel. -/
def Carries (p : Progress) (messages : List AdminRow) (chans : List (List AdminRow)) : Prop :=
  match p.chan with
  | none => messages = [] ∧ p.rows = []
  | some chan => ∃ items, chans[chan]? = some items ∧ messages = p.rows ++ items

/-- The table in each phase, where `old` is what it was before. -/
def Shows (u : GroupInfo) (k : Nat) (dateTime : String) (old : List (Row Col)) (p : Progress)
    (rows : List (Row Col)) : Prop :=
  match p.phase with
  | .untouched | .notCleared => rows = old
  | .cleared | .notFilled => rows = old.filter fun row => !ofGroup k row
  | .filled => ∃ news, rows = (old.filter fun row => !ofGroup k row) ++ news ∧
      List.Forall₂ (Inserted .tgGroupAdmins Group.adminCols (adminParams u dateTime p.rows))
        (p.rows.map Group.AdminRow.placeholders) news

/-- A statement on the administrators' table that has raised was the last one. -/
def Stopped (p : Progress) (o : Op) : Prop :=
  (p.phase = .notCleared ∧ ∃ params, o = .execute (.delete .tgGroupAdmins .groupId) params) ∨
    (p.phase = .notFilled ∧ ∃ tb cols names params, o = .executeNamed tb cols names params)

/-- The rows and the connection of `trackAdmins`, which never opens a transaction. -/
structure Table (u : GroupInfo) (k : Nat) (dateTime : String) (old : List (Row Col)) (p : Progress) (w : World) : Prop where
  tx : w.tx 0 = none
  unlogged : Unlogged .tgGroupAdmins w
  rows : Shows u k dateTime old p (w.db .tgGroupAdmins)

structure Inv (g : Group) (u : GroupInfo) (k : Nat) (old : List (Row Col)) (js : List Job)
    (H : List (Nat × Answered)) (w : World) : Prop where
  known : ∀ x ∈ H, x.1 < js.length
  jobs : js = .trackAdmins g :: (mainOf g H).jobs
  children : ∀ j ∈ (mainOf g H).jobs, ∃ chan key v, (mainOf g H).chan = some chan ∧
    j = .adminUser key v chan g.dateTime
  announced : ∀ (t : Nat) key v chan, js[t]? = some (.adminUser key v chan g.dateTime) →
    Announced key v g.dateTime (eventsOf t H)
  silent : (eventsOf 0 H).filterMap pushed = []
  carries : Carries (mainOf g H) (H.filterMap fun x => pushed x.2) w.chans
  table : Table u k g.dateTime old (mainOf g H) w
  answered : ∀ call v, ⟨.exe call, .ok v⟩ ∈ eventsOf 0 H → (mainOf g H).answer = some v
  stopped : ∀ o e, ⟨o, .error e⟩ ∈ eventsOf 0 H → .tgGroupAdmins ∈ o.targets → Stopped (mainOf g H) o

section Steps

variable {hs : Hashes} {self : Group} {u : GroupInfo} {k : Nat} {old : List (Row Col)} {js : List Job}
  {H : List (Nat × Answered)} {w w' : World} {ch : Choice} {o : Op} {r : Except Throwable o.Res}

theorem mainOf_self (self : Group) (H : List (Nat × Answered)) (o : Op) (r : Except Throwable o.Res) :
    mainOf self (H ++ [(0, ⟨o, r⟩)]) = (mainOf self H).after o r := by
  rw [mainOf, eventsOf_snoc_self, Discipline.stateAfter_snoc]
  rfl

variable {t : Nat}

theorem mainOf_other (ht : t ≠ 0) (self : Group) (H : List (Nat × Answered)) (e : Answered) :
    mainOf self (H ++ [(t, e)]) = mainOf self H := by
  rw [mainOf, eventsOf_snoc_of_ne ht]
  rfl

theorem pushed_snoc (H : List (Nat × Answered)) (t : Nat) (e : Answered) :
    ((H ++ [(t, e)]).filterMap fun x => pushed x.2) = (H.filterMap fun x => pushed x.2) ++ (pushed e).toList := by
  cases hPushed : pushed e <;> simp [hPushed]

variable {h : List Answered}

variable {v : Php}

theorem ResolvedBy.append {dateTime : String} {i : UserInfo} (hBy : ResolvedBy v dateTime h i) (e : Answered) :
    ResolvedBy v dateTime (h ++ [e]) i := by
  obtain ⟨d, user, tr, rest, hUser, rfl, hExec⟩ := hBy
  exact ⟨d, user, tr, rest ++ [e], hUser, by simp, hExec⟩

/-! ## A step of an administrator's coroutine -/

variable {messages : List AdminRow}

section Child

variable {t chan : Nat} {key : Key} {v : Php} {j : Job}

theorem announced_step (hExec : exec hs t j o ch w = some (r, w')) (hAsk : Announces key v chan self.dateTime h o)
    (hSo : Announced key v self.dateTime h) : Announced key v self.dateTime (h ++ [⟨o, r⟩]) := by
  by_cases hOp : Detached o
  · rw [Announced, List.filterMap_append, List.filterMap_cons_none (pushed_of_detached (e := ⟨o, r⟩) hOp),
      List.filterMap_nil, List.append_nil]
    exact hSo.imp id fun ⟨i, hi, hBy⟩ => ⟨i, hi, hBy.append _⟩
  · cases o with
    | push c row =>
      obtain ⟨_, hNone, i, rfl, hBy⟩ := hAsk
      obtain ⟨rfl, _⟩ := exec_push hExec
      refine .inr ⟨i, ?_, hBy.append _⟩
      rw [List.filterMap_append, hNone]
      rfl
    | _ => exact absurd hAsk hOp

theorem carries_step (hExec : exec hs t j o ch w = some (r, w')) {p : Progress}
    (hAsk : Announces key v chan self.dateTime h o) (hChan : p.chan = some chan) (hSo : Carries p messages w.chans) :
    Carries p (messages ++ (pushed ⟨o, r⟩).toList) w'.chans := by
  by_cases hOp : Detached o
  · have hChans : w'.chans = w.chans := by
      refine exec_chans ?_ hExec
      cases o <;> first | rfl | cases hOp
    rw [pushed_of_detached (e := ⟨o, r⟩) hOp, hChans]
    simpa using hSo
  · cases o with
    | push c row =>
      obtain ⟨rfl, _⟩ := hAsk
      obtain ⟨rfl, rfl⟩ := exec_push hExec
      simp only [Carries, hChan] at hSo ⊢
      obtain ⟨items, hItems, rfl⟩ := hSo
      refine ⟨items ++ [row], ?_, ?_⟩
      · simp [hItems]
      · simp [pushed]
    | _ => exact absurd hAsk hOp

theorem targets_of_announces (hAsk : Announces key v chan self.dateTime h o) : .tgGroupAdmins ∉ o.targets := by
  cases o <;> first | exact List.not_mem_nil | exact of_decide_eq_true hAsk

theorem spawned_of_announces (hAsk : Announces key v chan self.dateTime h o) : spawned o r = [] := by
  cases o with
  | go job => cases hAsk
  | _ => rfl

theorem Inv.child (hInv : Inv self u k old js H w) (ht : t ≠ 0)
    (hJob : js[t]? = some (.adminUser key v chan self.dateTime)) (hChan : (mainOf self H).chan = some chan)
    (hAsk : Announces key v chan self.dateTime (eventsOf t H) o) (hExec : exec hs t j o ch w = some (r, w')) :
    Inv self u k old (js ++ spawned o r) (H ++ [(t, ⟨o, r⟩)]) w' := by
  have hSpares := exec_spares hInv.table.unlogged (targets_of_announces hAsk) hExec
  have hMain : eventsOf 0 (H ++ [(t, ⟨o, r⟩)]) = eventsOf 0 H := eventsOf_snoc_of_ne ht _ _
  rw [spawned_of_announces hAsk, List.append_nil]
  constructor
  case known =>
    intro x hx
    rcases List.mem_append.mp hx with hOld | hNew
    · exact hInv.known x hOld
    · rw [List.mem_singleton.mp hNew]
      exact (List.getElem?_eq_some_iff.mp hJob).1
  case announced =>
    intro t' key' v' chan' hJob'
    by_cases ht' : t' = t
    · subst ht'
      cases hJob.symm.trans hJob'
      rw [eventsOf_snoc_self]
      exact announced_step hExec hAsk (hInv.announced t' key v chan hJob)
    · rw [eventsOf_snoc_of_ne (Ne.symm ht')]
      exact hInv.announced t' key' v' chan' hJob'
  case carries =>
    rw [mainOf_other ht, pushed_snoc]
    exact carries_step hExec hAsk hChan hInv.carries
  case table =>
    rw [mainOf_other ht]
    exact ⟨(hSpares.tx 0 ht.symm).trans hInv.table.tx, hSpares.unlogged, hSpares.rows ▸ hInv.table.rows⟩
  case jobs => rw [mainOf_other ht, ← hInv.jobs]
  case children =>
    rw [mainOf_other ht]
    exact hInv.children
  case silent =>
    rw [hMain]
    exact hInv.silent
  case answered =>
    rw [hMain, mainOf_other ht]
    exact hInv.answered
  case stopped =>
    rw [hMain, mainOf_other ht]
    exact hInv.stopped

end Child

/-! ## A step of `trackAdmins` -/

section Main

variable {p : Progress} {j : Job}

theorem Progress.after_jobs (p : Progress) (o : Op) (r : Except Throwable o.Res) :
    (p.after o r).jobs = p.jobs ++ spawned o r := by
  cases o with
  | go job => cases r <;> simp [Progress.after, spawned]
  | _ => cases r <;> exact (List.append_nil _).symm

theorem Progress.after_chan {chan : Nat} (hAsk : p.Admits self o) (hChan : p.chan = some chan) :
    (p.after o r).chan = some chan := by
  cases o with
  | newChannel n => cases hChan.symm.trans hAsk
  | _ => cases r <;> exact hChan

theorem Progress.after_answer (hAsk : p.Admits self o) (hAnswer : p.answer = some v) :
    (p.after o r).answer = some v := by
  cases o with
  | exe call => cases hAnswer.symm.trans hAsk
  | _ => cases r <;> exact hAnswer

theorem pushed_of_admits (hAsk : p.Admits self o) : pushed ⟨o, r⟩ = none := by
  cases o with
  | push => cases hAsk
  | _ => rfl

theorem main_carries (hAsk : p.Admits self o) (hExec : exec hs 0 j o ch w = some (r, w'))
    (hSo : Carries p messages w.chans) : Carries (p.after o r) messages w'.chans := by
  cases hOp : o.onChannel with
  | false =>
    have hSame : (p.after o r).chan = p.chan ∧ (p.after o r).rows = p.rows := by
      cases o <;> first | (cases r <;> exact ⟨rfl, rfl⟩) | cases hOp
    rw [Carries, hSame.1, hSame.2, exec_chans hOp hExec]
    exact hSo
  | true =>
    cases o with
    | newChannel n =>
      obtain ⟨rfl, rfl⟩ := exec_newChannel hExec
      have hNone : p.chan = none := hAsk
      simp only [Carries, hNone] at hSo
      obtain ⟨rfl, hRows⟩ := hSo
      exact ⟨[], by simp, by simp [Progress.after, hRows]⟩
    | pop chan =>
      obtain ⟨row, rest, hItems, rfl, rfl⟩ := exec_pop hExec
      have hChan : p.chan = some chan := hAsk.1
      simp only [Carries, hChan] at hSo
      obtain ⟨items, hItems', rfl⟩ := hSo
      cases hItems.symm.trans hItems'
      have hLt := (List.getElem?_eq_some_iff.mp hItems).1
      simp only [Carries, Progress.after, hChan]
      exact ⟨rest, by simp [hLt], by simp⟩
    | push => cases hAsk
    | _ => cases hOp

theorem main_delete {params : List Php} {r : Except Throwable Unit} (hU : self.u = some u) (hKey : ShowsKey u.id k)
    {stmt : Stmt Tbl Col} (hAsk : p.Admits self (.execute stmt params)) (hSo : Table u k self.dateTime old p w)
    (hExec : exec hs 0 j (.execute stmt params) ch w = some (r, w')) :
    Table u k self.dateTime old (p.after (.execute stmt params) r) w' := by
  obtain ⟨hPhase, u', hU', rfl, rfl⟩ := hAsk
  obtain rfl : u = u' := Option.some.inj (hU.symm.trans hU')
  have hRows : w.db .tgGroupAdmins = old := by simpa [Shows, hPhase] using hSo.rows
  rcases exec_eq_some hExec with ⟨e, _, rfl, rfl⟩ | hCarry
  · exact ⟨hSo.tx, hSo.unlogged, hRows⟩
  · cases ch with
    | ok =>
      rcases World.execute_eq (Option.some.inj hCarry) with ⟨e, rfl, rfl⟩ | ⟨ws, hWrites, rfl, rfl⟩
      · exact ⟨hSo.tx, hSo.unlogged, hRows⟩
      · have hWrite : ws = [.delete .tgGroupAdmins .groupId (bindParam u.id)] := (Except.ok.inj hWrites).symm
        subst hWrite
        have hDb : w.write 0 [.delete .tgGroupAdmins .groupId (bindParam u.id)] =
            { w with db := schema.applyAll [.delete .tgGroupAdmins .groupId (bindParam u.id)] w.db } := by
          simp [World.write, hSo.tx]
        rw [hDb]
        refine ⟨hSo.tx, hSo.unlogged, ?_⟩
        simp only [Shows, Progress.after, Schema.applyAll_cons, Schema.applyAll_nil, Schema.apply, Function.update_self,
          hRows, matches_group hKey]
    | _ => cases hCarry

theorem main_insert {tb : Tbl} {cols : List Col} {names : List (List String)} {params : List (String × Php)}
    {r : Except Throwable Unit} (hU : self.u = some u) (hAsk : p.Admits self (.executeNamed tb cols names params))
    (hSo : Table u k self.dateTime old p w) (hExec : exec hs 0 j (.executeNamed tb cols names params) ch w = some (r, w')) :
    Table u k self.dateTime old (p.after (.executeNamed tb cols names params) r) w' := by
  obtain ⟨hPhase, u', hU', rfl, rfl, rfl, rfl⟩ := hAsk
  obtain rfl : u = u' := Option.some.inj (hU.symm.trans hU')
  have hRows : w.db .tgGroupAdmins = old.filter fun row => !ofGroup k row := by simpa [Shows, hPhase] using hSo.rows
  rcases exec_eq_some hExec with ⟨e, _, rfl, rfl⟩ | hCarry
  · exact ⟨hSo.tx, hSo.unlogged, hRows⟩
  · cases ch with
    | ok =>
      simp only [carry] at hCarry
      split at hCarry
      · rename_i hInsert
        obtain ⟨rfl, rfl⟩ := Prod.mk.inj (Option.some.inj hCarry)
        obtain ⟨news, hDb, hTx, hAll⟩ := insertRows_inserts hSo.tx hInsert
        refine ⟨by rw [hTx, hSo.tx], by rw [Unlogged, hTx]; exact hSo.unlogged, news, ?_, hAll⟩
        rw [hDb, Function.update_self, hRows]
      · obtain ⟨rfl, rfl⟩ := Prod.mk.inj (Option.some.inj hCarry)
        exact ⟨hSo.tx, hSo.unlogged, hRows⟩
    | _ => cases hCarry

theorem main_table (hU : self.u = some u) (hKey : ShowsKey u.id k) (hAsk : p.Admits self o)
    (hSo : Table u k self.dateTime old p w) (hExec : exec hs 0 j o ch w = some (r, w')) :
    Table u k self.dateTime old (p.after o r) w' := by
  cases hOp : o.writes with
  | true =>
    cases o with
    | execute stmt params => exact main_delete hU hKey hAsk hSo hExec
    | executeNamed tb cols names params => exact main_insert hU hAsk hSo hExec
    | beginTransaction | commit | rollback => cases hAsk
    | _ => cases hOp
  | false =>
    have hSame : Untouched w w' := by
      rcases exec_eq_some hExec with ⟨_, _, _, rfl⟩ | hCarry
      · exact .refl _
      · exact carry_untouched hOp hCarry
    refine ⟨by rw [hSame.tx, hSo.tx], by rw [Unlogged, hSame.tx]; exact hSo.unlogged, ?_⟩
    rw [hSame.db]
    cases o with
    | pop chan =>
      have hRows := hSo.rows
      cases r <;> simpa [Shows, Progress.after, hAsk.2] using hRows
    | execute | executeNamed => cases hOp
    | _ => cases r <;> exact hSo.rows

theorem main_stopped {o' : Op} (hAsk : p.Admits self o) (hSo : Stopped p o') : Stopped (p.after o r) o' := by
  have hSame : (p.after o r).phase = p.phase := by
    rcases hSo with ⟨hPhase, _⟩ | ⟨hPhase, _⟩
    all_goals
      cases o with
      | execute stmt params | executeNamed tb cols names params => cases hPhase.symm.trans hAsk.1
      | _ => cases r <;> rfl
  rw [Stopped, hSame]
  exact hSo

theorem stopped_of_error {e : Throwable} (hAsk : p.Admits self o) (hTargets : .tgGroupAdmins ∈ o.targets) :
    Stopped (p.after o (.error e)) o := by
  cases o with
  | execute stmt params =>
    obtain ⟨_, u', _, rfl, _⟩ := hAsk
    exact .inl ⟨rfl, params, rfl⟩
  | executeNamed tb cols names params => exact .inr ⟨rfl, tb, cols, names, params, rfl⟩
  | _ => cases hTargets

theorem Inv.main (hInv : Inv self u k old js H w) (hU : self.u = some u) (hKey : ShowsKey u.id k)
    (hAsk : (mainOf self H).Admits self o) (hExec : exec hs 0 j o ch w = some (r, w')) :
    Inv self u k old (js ++ spawned o r) (H ++ [(0, ⟨o, r⟩)]) w' := by
  have hZero : js[0]? = some (.trackAdmins self) := by rw [hInv.jobs]; rfl
  constructor
  case known =>
    intro x hx
    rw [List.length_append]
    rcases List.mem_append.mp hx with hOld | hNew
    · exact Nat.lt_add_right _ (hInv.known x hOld)
    · rw [List.mem_singleton.mp hNew]
      exact Nat.lt_add_right _ (List.getElem?_eq_some_iff.mp hZero).1
  case jobs => rw [mainOf_self, Progress.after_jobs, ← List.cons_append, ← hInv.jobs]
  case children =>
    intro i hi
    rw [mainOf_self, Progress.after_jobs] at hi
    rw [mainOf_self]
    rcases List.mem_append.mp hi with hOld | hNew
    · obtain ⟨chan, key, v, hChan, rfl⟩ := hInv.children i hOld
      exact ⟨chan, key, v, Progress.after_chan hAsk hChan, rfl⟩
    · cases o with
      | go job =>
        obtain ⟨chan, key, v, hChan, rfl⟩ := hAsk
        cases r with
        | ok _ => exact ⟨chan, key, v, hChan, List.mem_singleton.mp hNew⟩
        | error e => cases hNew
      | _ => cases r <;> cases hNew
  case announced =>
    intro t key v chan hJob
    by_cases hLt : t < js.length
    · rw [List.getElem?_append_left hLt] at hJob
      have ht : t ≠ 0 := by
        rintro rfl
        cases hZero.symm.trans hJob
      rw [eventsOf_snoc_of_ne ht.symm]
      exact hInv.announced t key v chan hJob
    · have ht : t ≠ 0 := by
        rintro rfl
        exact hLt (List.getElem?_eq_some_iff.mp hZero).1
      rw [eventsOf_snoc_of_ne ht.symm, eventsOf_eq_nil hInv.known (Nat.le_of_not_lt hLt)]
      exact .inl rfl
  case silent =>
    rw [eventsOf_snoc_self, List.filterMap_append, hInv.silent, List.filterMap_cons_none (pushed_of_admits hAsk)]
    rfl
  case carries =>
    rw [mainOf_self, pushed_snoc, pushed_of_admits hAsk]
    simpa using main_carries hAsk hExec hInv.carries
  case table =>
    rw [mainOf_self]
    exact main_table hU hKey hAsk hInv.table hExec
  case answered =>
    intro call v hv
    rw [eventsOf_snoc_self] at hv
    rw [mainOf_self]
    rcases List.mem_append.mp hv with hOld | hNew
    · exact Progress.after_answer hAsk (hInv.answered call v hOld)
    · cases List.mem_singleton.mp hNew
      rfl
  case stopped =>
    intro o' e he hTargets
    rw [eventsOf_snoc_self] at he
    rw [mainOf_self]
    rcases List.mem_append.mp he with hOld | hNew
    · exact main_stopped hAsk (hInv.stopped o' e hOld hTargets)
    · cases List.mem_singleton.mp hNew
      exact stopped_of_error hAsk hTargets

end Main

theorem Inv.step (hInv : Inv self u k old js H w) (hU : self.u = some u) (hKey : ShowsKey u.id k) {j : Job}
    (hJob : js[t]? = some j) (hAsk : MayAsk j (eventsOf t H) o) (hExec : exec hs t j o ch w = some (r, w')) :
    Inv self u k old (js ++ spawned o r) (H ++ [(t, ⟨o, r⟩)]) w' := by
  have hJob' := hJob
  rw [hInv.jobs] at hJob'
  cases t with
  | zero =>
    obtain rfl : .trackAdmins self = j := Option.some.inj hJob'
    exact hInv.main hU hKey hAsk hExec
  | succ t =>
    obtain ⟨chan, key, v, hChan, rfl⟩ := hInv.children j (List.mem_of_getElem? hJob')
    exact hInv.child (Nat.succ_ne_zero t) hJob hChan hAsk hExec

end Steps

/-! ## Whole runs -/

variable {w₀ : World} {k : Nat} {u : GroupInfo} {self : Group}

theorem Inv.start (hTx : ∀ t, w₀.tx t = none) :
    Inv self u k (w₀.db .tgGroupAdmins) [.trackAdmins self] [] w₀ where
  known _ hx := absurd hx List.not_mem_nil
  jobs := rfl
  children _ hi := absurd hi List.not_mem_nil
  announced _ _ _ _ _ := .inl rfl
  silent := rfl
  carries := ⟨rfl, rfl⟩
  table := by
    refine ⟨hTx 0, fun t x hx => ?_, rfl⟩
    rw [hTx t] at hx
    cases hx
  answered _ _ hv := absurd hv List.not_mem_nil
  stopped _ _ he := absurd he List.not_mem_nil

def Own {S : Type} (_ : Config S Op Op.Res Throwable Unit Job) : Label Job Choice → Prop
  | .start _ => False
  | .step _ _ => True

abbrev AdminRun (h : Hashes) (self : Group) (w₀ : World)
    (c : Config (World × List (Nat × Answered)) Op Op.Res Throwable Unit Job) : Prop :=
  (system h).recorded.Reach Own ⟨(w₀, []), [(system h).fresh (.trackAdmins self)]⟩ c

theorem inv_of_run {h : Hashes} {c : Config (World × List (Nat × Answered)) Op Op.Res Throwable Unit Job}
    (hU : self.u = some u) (hKey : ShowsKey u.id k) (hTx : ∀ t, w₀.tx t = none) (hRun : AdminRun h self w₀ c) :
    Followed Possible MayAsk Ended c ∧
      Inv self u k (w₀.db .tgGroupAdmins) (c.threads.map Prod.fst) c.shared.2 c.shared.1 := by
  refine Followed.reach (M := system h) (fun _ _ => id) (code_guarded h.md5) (fun t j o ch w r w' => exec_raises) ?_
    (.start (M := system h) (code_guarded h.md5) w₀ _) ?_ hRun
  · intro js H t j o ch w r w' hInv hJob hAsk hExec
    exact hInv.step hU hKey hJob hAsk hExec
  · exact .start hTx

end TeaBot.Loggers.Admins
