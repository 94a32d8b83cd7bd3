import TeaBot.Daemon.Ownership

/-! # The steps of the daemons

Each operation keeps what holds of the threads and their connections.
-/

namespace TeaBot.Daemon.Relay

open Foundation Foundation.System

/-! ## The ways the connections change -/

variable {k' : Nat} {x' x : Conn} {P : Conn → Prop} {dest : Option Nat}

section Changes

variable {t k : Nat} {j : Job} {w w' : World} {f : Conn → Conn}

theorem change_conn (h : (w.change k f).conns[k']? = some x') :
    ∃ x, w.conns[k']? = some x ∧ (k' = k ∧ x' = f x ∨ k' ≠ k ∧ x' = x) := by
  rw [World.change, List.getElem?_modify, Option.map_eq_map, Option.map_eq_some_iff] at h
  obtain ⟨x, hx, rfl⟩ := h
  refine ⟨x, hx, ?_⟩
  by_cases hk : k = k'
  · exact .inl ⟨hk.symm, if_pos hk⟩
  · exact .inr ⟨Ne.symm hk, if_neg hk⟩

theorem change_self (h : w.conns[k]? = some x) : (w.change k f).conns[k]? = some (f x) := by
  simp [World.change, h]

theorem connect_conn {y : Conn} (h : (w.connect y).conns[k']? = some x) :
    w.conns[k']? = some x ∨ k' = w.conns.length ∧ x = y := by
  rcases Nat.lt_or_ge k' w.conns.length with hLt | hGe
  · rw [World.connect, List.getElem?_append_left hLt] at h
    exact .inl h
  · rw [World.connect, List.getElem?_append_right hGe] at h
    have hLt := (List.getElem?_eq_some_iff.mp h).1
    rw [List.length_singleton] at hLt
    exact .inr ⟨by omega, List.mem_singleton.mp (List.mem_of_getElem? h)⟩

theorem openers_change (hf : ∀ x, (f x).opener = x.opener) :
    (w.change k f).conns.map Conn.opener = w.conns.map Conn.opener := by
  apply List.ext_getElem?
  intro n
  rw [List.getElem?_map, List.getElem?_map, World.change, List.getElem?_modify]
  cases w.conns[n]? with
  | none => rfl
  | some x =>
    by_cases hk : k = n
    · simp [hk, hf]
    · simp [hk]

theorem owns_connect (hP : P (.fresh dest t)) : Owns (w.connect (.fresh dest t)) t P :=
  ⟨w.conns.length, .fresh dest t, List.getElem?_concat_length, rfl, hP⟩

theorem Moved.same (hConns : w'.conns = w.conns) (hLogged : w'.logged = w.logged) : Moved t j w w' where
  conn k x hx := ⟨x, hConns ▸ hx, .refl t j k x⟩
  fresh k x' hx' hNone := by
    rw [hConns, hNone] at hx'
    cases hx'
  logged := hLogged ▸ List.Subset.refl _
  log k hk := .inl (hLogged ▸ hk)

theorem Moved.connect (dest : Option Nat) : Moved t j w (w.connect (.fresh dest t)) where
  conn k x hx := by
    have hLt := (List.getElem?_eq_some_iff.mp hx).1
    exact ⟨x, by rw [World.connect, List.getElem?_append_left hLt, hx], .refl t j k x⟩
  fresh k x' hx' hNone := by
    rcases connect_conn hx' with hOld | ⟨_, rfl⟩
    · rw [hNone] at hOld
      cases hOld
    · rfl
  logged := List.Subset.refl _
  log _ hk := .inl hk

theorem Moved.change (hf : ∀ x, w.conns[k]? = some x → Conn.Moved t j k x (f x)) : Moved t j w (w.change k f) where
  conn k' x hx := by
    by_cases hk : k = k'
    · subst hk
      exact ⟨f x, change_self hx, hf x hx⟩
    · refine ⟨x, ?_, .refl t j k' x⟩
      simp [World.change, hk, hx]
  fresh k' x' hx' hNone := by
    obtain ⟨x, hx, _⟩ := change_conn hx'
    rw [hNone] at hx
    cases hx
  logged := List.Subset.refl _
  log _ hk := .inl hk

end Changes

structure Conn.Kept (x x' : Conn) : Prop where
  dest : x'.dest = x.dest
  opener : x'.opener = x.opener
  accepted : x'.accepted = x.accepted
  sent : x'.sent = x.sent
  broken : x'.broken = x.broken
  reply : x.reply <+: x'.reply

theorem Conn.kept_read (x : Conn) (n : Nat) : Conn.Kept x (x.read n) :=
  ⟨rfl, rfl, rfl, rfl, rfl, List.prefix_refl _⟩

theorem Conn.kept_answer (data : Bytes) (x : Conn) : Conn.Kept x (x.answer data) :=
  ⟨rfl, rfl, rfl, rfl, rfl, List.prefix_append _ _⟩

theorem Conn.kept_close (x : Conn) : Conn.Kept x x.close :=
  ⟨rfl, rfl, rfl, rfl, rfl, List.prefix_refl _⟩

variable {k : Nat}

theorem Conn.Kept.moved {t : Nat} {j : Job} (h : Conn.Kept x x') (hServes : j.serves = some k) :
    Conn.Moved t j k x x' where
  dest := h.dest
  opener := h.opener
  accepted hYes := h.accepted.trans hYes
  sent := h.sent ▸ List.prefix_refl _
  own _ := ⟨h.sent, h.broken⟩
  served hNot := absurd hServes hNot
  reply := h.reply

/-! ## Steps -/

section Steps

variable {σ : Setup} {gs : List (Job × Stage)} {w w' : World} {t : Nat} {j : Job} {s s' : Stage} {new : List Job}

theorem jobs_step (hState : gs[t]? = some (j, s)) :
    (gs.set t (j, s') ++ new.map fun i => (i, init i)).map Prod.fst = gs.map Prod.fst ++ new := by
  rw [List.map_append, List.map_set, List.map_map]
  congr 1
  · apply List.ext_getElem?
    intro n
    by_cases hn : t = n
    · subst hn
      obtain ⟨hLt, hEq⟩ := List.getElem?_eq_some_iff.mp hState
      simp [hLt, hEq]
    · simp [hn]
  · simp [Function.comp_def]

theorem jobs_get (hState : gs[t]? = some (j, s)) : (gs.map Prod.fst)[t]? = some j := by
  rw [List.getElem?_map, hState]
  rfl

namespace Inv

section

variable (h : Inv σ gs w)

include h

theorem opener_lt (hx : w.conns[k]? = some x) : x.opener < gs.length := by
  rw [← List.length_map Prod.fst]
  rcases (h.conn k x hx).opened with ⟨_, _, hJob, _⟩ | ⟨_, _, _, hJob, _⟩
  · exact (List.getElem?_eq_some_iff.mp hJob).1
  · exact (List.getElem?_eq_some_iff.mp hJob).1

theorem not_owns {u : Nat} (hu : gs.length ≤ u) : ¬ Owns w u fun _ => True := by
  rintro ⟨k, x, hx, rfl, _⟩
  exact absurd (h.opener_lt hx) (by omega)

theorem owner_unique (hx : w.conns[k]? = some x) (hx' : w.conns[k']? = some x') (hEq : x.opener = x'.opener) :
    k = k' := by
  have hLt : k < (w.conns.map Conn.opener).length := by
    rw [List.length_map]
    exact (List.getElem?_eq_some_iff.mp hx).1
  apply (List.getElem?_inj hLt h.openers).mp
  rw [List.getElem?_map, List.getElem?_map, hx, hx', Option.map_some, Option.map_some, hEq]

theorem owned (hOwns : Owns w t P) (hk : w.connOf t = some k) : ∃ x, w.conns[k]? = some x ∧ x.opener = t ∧ P x := by
  obtain ⟨k', x, hx, hOpener, hP⟩ := hOwns
  obtain ⟨hLt, hFound, _⟩ := List.findIdx?_eq_some_iff_getElem.mp hk
  have hSame := h.owner_unique hx (List.getElem?_eq_getElem hLt) (hOpener.trans (of_decide_eq_true hFound).symm)
  exact ⟨x, hSame ▸ hx, hOpener, hP⟩

theorem served_accepted (hState : gs[t]? = some (j, s)) (hRole : j.role = some (.serve k)) (hx : w.conns[k]? = some x) :
    x.accepted = true := by
  by_contra hNot
  exact ((h.conn k x hx).unserved (by simpa using hNot)).1 (mem_roles (jobs_get hState) hRole)

theorem role_conn {ρ : Role} (hRole : ρ ∈ Relay.roles (gs.map Prod.fst)) : ∃ x, w.conns[ρ.conn]? = some x := by
  obtain ⟨j, hJob, hj⟩ := List.mem_filterMap.mp hRole
  obtain ⟨⟨j', s⟩, hMem, rfl⟩ := List.mem_map.mp hJob
  obtain ⟨u, hu⟩ := List.mem_iff_getElem?.mp hMem
  have hThread := h.thread u _ s hu
  cases j' with
  | conn k =>
    cases hj
    cases s with
    | reading k' cs =>
      obtain ⟨_, _, x, hx, _⟩ := hThread
      exact ⟨x, hx⟩
    | relayed k' cs =>
      obtain ⟨_, _, x, hx, _⟩ := hThread
      exact ⟨x, hx⟩
    | _ => exact hThread.elim
  | handler k =>
    cases hj
    cases s with
    | receiving cs =>
      obtain ⟨_, x, hx, _⟩ := hThread
      exact ⟨x, hx⟩
    | handed cs =>
      obtain ⟨_, x, hx, _⟩ := hThread
      exact ⟨x, hx⟩
    | _ => exact hThread.elim
  | relay m rawData =>
    cases hj
    obtain ⟨x, _, hx, _⟩ := hThread.received
    exact ⟨x, hx⟩
  | _ => cases hj

theorem no_role {ρ : Role} (hConn : ρ.conn = w.conns.length) : ρ ∉ Relay.roles (gs.map Prod.fst) := by
  intro hRole
  obtain ⟨x, hx⟩ := h.role_conn hRole
  rw [hConn, List.getElem?_eq_none (Nat.le_refl _)] at hx
  cases hx

/-- What is to be shown of a step: the rest follows from what it leaves alone. -/
theorem advance (hState : gs[t]? = some (j, s)) (hMoved : Moved t j w w')
    (hRoles : (Relay.roles (gs.map Prod.fst ++ new)).Nodup) (hNew : ∀ k, .forward k ∈ Relay.roles new → j = .conn k)
    (hOpeners : (w'.conns.map Conn.opener).Nodup)
    (hConn : ∀ (k : Nat) (x' : Conn), w'.conns[k]? = some x' → ConnOk σ (gs.map Prod.fst ++ new) k x')
    (hThread : ThreadOk σ (gs.map Prod.fst ++ new) w' t j s')
    (hBegin : ∀ i ∈ new, ∀ u, gs.length ≤ u → ThreadOk σ (gs.map Prod.fst ++ new) w' u i (init i))
    (hLogged : ∀ e ∈ w'.logged, LogOk σ w' e) (hOnce : (w'.logged.map Prod.fst).Nodup) :
    Inv σ (gs.set t (j, s') ++ new.map fun i => (i, init i)) w' := by
  refine ⟨jobs_step hState ▸ hRoles, hOpeners, jobs_step hState ▸ hConn, ?_, hLogged, hOnce⟩
  rw [jobs_step hState]
  intro u i s'' hu
  by_cases hLt : u < gs.length
  · rw [List.getElem?_append_left (by simpa using hLt)] at hu
    by_cases hEq : t = u
    · subst hEq
      rw [List.getElem?_set_self hLt] at hu
      cases hu
      exact hThread
    · rw [List.getElem?_set_ne hEq] at hu
      refine (h.thread u i s'' hu).stable hMoved (Ne.symm hEq) ?_ hNew
      intro ρ hi hj
      exact hEq (role_unique h.roles (jobs_get hState) (jobs_get hu) hj hi)
  · rw [List.getElem?_append_right (by simpa using hLt), List.getElem?_map] at hu
    obtain ⟨i', hi', hEq⟩ := Option.map_eq_some_iff.mp hu
    cases hEq
    exact hBegin i (List.mem_of_getElem? hi') u (by omega)

theorem advance_alone (hState : gs[t]? = some (j, s)) (hMoved : Moved t j w w')
    (hOpeners : (w'.conns.map Conn.opener).Nodup)
    (hConn : ∀ (k : Nat) (x' : Conn), w'.conns[k]? = some x' → ConnOk σ (gs.map Prod.fst) k x')
    (hThread : ThreadOk σ (gs.map Prod.fst) w' t j s') (hLogged : ∀ e ∈ w'.logged, LogOk σ w' e)
    (hOnce : (w'.logged.map Prod.fst).Nodup) : Inv σ (gs.set t (j, s') ++ [].map fun i => (i, init i)) w' := by
  rw [← List.append_nil (gs.map Prod.fst)] at hConn hThread
  refine h.advance hState hMoved ?_ ?_ hOpeners hConn hThread ?_ hLogged hOnce
  · rw [List.append_nil]
    exact h.roles
  · intro k hk
    cases hk
  · intro i hi
    cases hi

theorem quiet (hState : gs[t]? = some (j, s)) (hConns : w'.conns = w.conns) (hLogged : w'.logged = w.logged)
    (hThread : ThreadOk σ (gs.map Prod.fst) w t j s') : Inv σ (gs.set t (j, s') ++ [].map fun i => (i, init i)) w' := by
  have hMoved : Moved t j w w' := .same hConns hLogged
  have hBack : ThreadOk σ (gs.map Prod.fst) w' t j s' := by
    obtain ⟨i, conns, logged⟩ := w
    obtain ⟨i', conns', logged'⟩ := w'
    cases hConns
    cases hLogged
    exact hThread
  refine h.advance_alone hState hMoved (hConns ▸ h.openers) (hConns ▸ h.conn) hBack ?_ (hLogged ▸ h.once)
  rw [hLogged]
  exact fun e he => (h.logged e he).stable hMoved

theorem changed (hState : gs[t]? = some (j, s)) {f : Conn → Conn} (hx : w.conns[k]? = some x)
    (hf : ∀ x, (f x).opener = x.opener) (hMoved : Conn.Moved t j k x (f x)) (hConn : ConnOk σ (gs.map Prod.fst) k (f x))
    (hThread : ThreadOk σ (gs.map Prod.fst) (w.change k f) t j s') :
    Inv σ (gs.set t (j, s') ++ [].map fun i => (i, init i)) (w.change k f) := by
  have hMoved' : Moved t j w (w.change k f) := .change fun y hy => by cases hx.symm.trans hy; exact hMoved
  refine h.advance_alone hState hMoved' ?_ (fun k' x' hx' => ?_) hThread
    (fun e he => (h.logged e he).stable hMoved') h.once
  · rw [openers_change hf]
    exact h.openers
  · obtain ⟨y, hy, ⟨rfl, rfl⟩ | ⟨_, rfl⟩⟩ := change_conn hx'
    · cases hx.symm.trans hy
      exact hConn
    · exact h.conn k' x' hy

theorem connected (hState : gs[t]? = some (j, s)) (hNone : ¬ Owns w t fun _ => True)
    (hOpened : (∃ body, dest = none ∧ j = .request (.str σ.TELEGRAM_WEBHOOK_KEY) body) ∨
      ∃ m rawData, dest ≠ none ∧ j = .relay m rawData)
    (hThread : ThreadOk σ (gs.map Prod.fst) (w.connect (.fresh dest t)) t j s') :
    Inv σ (gs.set t (j, s') ++ [].map fun i => (i, init i)) (w.connect (.fresh dest t)) := by
  have hMoved : Moved t j w (w.connect (.fresh dest t)) := .connect dest
  refine h.advance_alone hState hMoved ?_ (fun k x hx => ?_) hThread (fun e he => (h.logged e he).stable hMoved) h.once
  · rw [World.connect, List.map_append, List.map_singleton, ← List.concat_eq_append, List.nodup_concat]
    refine ⟨fun hMem => ?_, h.openers⟩
    obtain ⟨x, hMem', hOpener⟩ := List.mem_map.mp hMem
    obtain ⟨k, hx⟩ := List.mem_iff_getElem?.mp hMem'
    exact hNone ⟨k, x, hx, hOpener, trivial⟩
  · rcases connect_conn hx with hOld | ⟨rfl, rfl⟩
    · exact h.conn k x hOld
    · refine ⟨fun _ => ⟨?_, ?_, rfl⟩, fun hYes => ?_, List.nil_prefix, ?_, fun _ hReply => absurd rfl hReply⟩
      · exact h.no_role rfl
      · exact h.no_role rfl
      · cases hYes
      · rcases hOpened with ⟨body, hDest, rfl⟩ | ⟨m, rawData, hDest, rfl⟩
        · exact .inl ⟨body, hDest, jobs_get hState, List.nil_prefix⟩
        · exact .inr ⟨m, rawData, hDest, jobs_get hState, List.nil_prefix⟩

theorem accepted (hState : gs[t]? = some (j, s)) (hWaiting : w.waiting dest = some k) {i : Job}
    (hRole : i.role = some (.serve k)) (hThread : ∀ js w', ThreadOk σ js w' t j s')
    (hBegin : ∀ js w' u, .forward k ∉ Relay.roles js →
      k ∉ w'.logged.map Prod.fst → Serves w' k [] (fun x => x.dest = dest) → ThreadOk σ js w' u i (init i)) :
    Inv σ (gs.set t (j, s') ++ [i].map fun i => (i, init i)) (w.change k .accept) := by
  obtain ⟨hLt, hFound, _⟩ := List.findIdx?_eq_some_iff_getElem.mp hWaiting
  obtain ⟨x, hx⟩ : ∃ x, w.conns[k]? = some x := ⟨_, List.getElem?_eq_getElem hLt⟩
  obtain ⟨hAccepted, hDest⟩ : x.accepted = false ∧ x.dest = dest := by
    rw [List.getElem?_eq_getElem hLt] at hx
    cases hx
    simpa using hFound
  obtain ⟨hServe, hForward, hReads⟩ := (h.conn k x hx).unserved hAccepted
  have hMoved : Moved t j w (w.change k .accept) := .change fun y _ =>
    ⟨rfl, rfl, fun _ => rfl, List.prefix_refl _, fun _ => ⟨rfl, rfl⟩, fun _ => rfl, List.prefix_refl _⟩
  have hRoles : Relay.roles [i] = [.serve k] := by simp [Relay.roles, hRole]
  have hNotForward : .forward k ∉ Relay.roles (gs.map Prod.fst ++ [i]) := by
    rw [roles_append, hRoles]
    simp [hForward]
  have hNotLogged : k ∉ w.logged.map Prod.fst := by
    intro hMem
    obtain ⟨e, he, rfl⟩ := List.mem_map.mp hMem
    obtain ⟨y, _, hy, hYes, _⟩ := h.logged e he
    cases hx.symm.trans hy
    rw [hAccepted] at hYes
    cases hYes
  apply h.advance hState hMoved
  · rw [roles_append, hRoles, ← List.concat_eq_append, List.nodup_concat]
    exact ⟨hServe, h.roles⟩
  · intro k' hk'
    rw [hRoles] at hk'
    cases List.mem_singleton.mp hk'
  · rw [openers_change (f := Conn.accept) fun _ => rfl]
    exact h.openers
  · intro k' x' hx'
    obtain ⟨y, hy, ⟨rfl, rfl⟩ | ⟨hNe, rfl⟩⟩ := change_conn hx'
    · exact (h.conn k' y hy).accept (hRoles ▸ List.mem_cons_self)
    · refine (h.conn k' x' hy).grow fun _ => ?_
      rw [hRoles]
      simp [hNe]
  · exact hThread _ _
  · rintro i' hi' u _
    obtain rfl := List.mem_singleton.mp hi'
    exact hBegin _ _ u hNotForward hNotLogged ⟨_, change_self hx, hReads, hDest⟩
  · exact fun e he => (h.logged e he).stable hMoved
  · exact h.once

theorem forwarded {cs : List Bytes} {rawData : Bytes} (hState : gs[t]? = some (.conn k, .reading k cs))
    (hGathered : Gathered cs rawData) :
    Inv σ (gs.set t (.conn k, .relayed k cs) ++ [.relay k rawData].map fun i => (i, init i)) w := by
  obtain ⟨_, hNone, hReads⟩ := h.thread t _ _ hState
  obtain ⟨x, hx, rfl, hDest⟩ := id hReads
  have hRoles : Relay.roles [.relay k rawData] = [.forward k] := rfl
  apply h.advance hState (.same rfl rfl)
  · rw [roles_append, hRoles, ← List.concat_eq_append, List.nodup_concat]
    exact ⟨hNone, h.roles⟩
  · intro k' hk'
    cases List.mem_singleton.mp hk'
    rfl
  · exact h.openers
  · intro k' x' hx'
    refine (h.conn k' x' hx').grow fun hNot => ⟨by simp [hRoles], fun hMem => ?_⟩
    cases List.mem_singleton.mp hMem
    rw [h.served_accepted hState rfl hx'] at hNot
    cases hNot
  · exact ⟨rfl, ⟨rawData, List.mem_append_right _ List.mem_cons_self, hGathered⟩, hReads⟩
  · intro i hi u hu
    obtain rfl := List.mem_singleton.mp hi
    exact ⟨rfl, ⟨x, x.reads, hx, hDest, (h.conn k x hx).reads, hGathered⟩, h.not_owns hu⟩
  · exact h.logged
  · exact h.once

theorem handed {cs : List Bytes} {data : Php} (hState : gs[t]? = some (.handler k, .receiving cs))
    (hDecoded : Decoded σ cs data) (hArray : data.isArray = true) :
    Inv σ (gs.set t (.handler k, .handed cs) ++ [].map fun i => (i, init i))
      { w with logged := w.logged ++ [(k, data)] } := by
  obtain ⟨hNot, hReads⟩ := h.thread t _ _ hState
  obtain ⟨x, hx, rfl, hDest⟩ := id hReads
  have hMoved : Moved t (.handler k) w { w with logged := w.logged ++ [(k, data)] } := by
    refine ⟨fun k' y hy => ⟨y, hy, .refl _ _ k' y⟩, fun k' y hy hNone => ?_, List.subset_append_left _ _, ?_⟩
    · cases hNone.symm.trans hy
    · intro k' hk'
      rw [List.map_append, List.mem_append] at hk'
      refine hk'.imp_right fun hNew => ?_
      rw [List.mem_singleton.mp hNew]
  refine h.advance_alone hState hMoved h.openers h.conn
    ⟨⟨data, List.mem_append_right _ List.mem_cons_self, hDecoded, hArray⟩, hReads⟩ (fun e he => ?_) ?_
  · rcases List.mem_append.mp he with hOld | hNew
    · exact (h.logged e hOld).stable hMoved
    · obtain rfl := List.mem_singleton.mp hNew
      exact ⟨x, x.reads, hx, h.served_accepted hState rfl hx, hDest, (h.conn k x hx).reads, hDecoded, hArray⟩
  · rw [List.map_append, List.map_singleton, ← List.concat_eq_append, List.nodup_concat]
    exact ⟨hNot, h.once⟩

end

/-! ### Reads and answers of the handlers -/

theorem Conn.read_prefix (h : x.reads.flatten <+: x.sent) (n : Nat) : (x.read n).reads.flatten <+: x.sent := by
  obtain ⟨rest, hSent⟩ := h
  have hPending : x.pending = rest := by rw [Conn.pending, ← hSent, List.drop_left]
  rw [Conn.read, List.flatten_append, List.flatten_singleton, hPending, ← hSent, List.prefix_append_right_inj]
  exact List.take_prefix n rest

theorem touched (h : Inv σ gs w) (hState : gs[t]? = some (j, s)) (hServes : j.serves = some k)
    (hx : w.conns[k]? = some x) (hKept : Conn.Kept x x') (hReads : x'.reads.flatten <+: x.sent)
    (hReply : x'.dest = none → x'.reply ≠ [] → .forward k ∈ Relay.roles (gs.map Prod.fst)) :
    ConnOk σ (gs.map Prod.fst) k x' := by
  have hRole : j.role = some (.serve k) := by
    cases j <;> cases hServes <;> rfl
  refine ⟨fun hNot => ?_, fun _ => mem_roles (jobs_get hState) hRole, hKept.sent ▸ hReads, ?_, hReply⟩
  · rw [hKept.accepted, h.served_accepted hState hRole hx] at hNot
    cases hNot
  · rw [Opened, hKept.dest, hKept.opener, hKept.sent]
    exact (h.conn k x hx).opened

theorem serves_read {n : Nat} (hx : w.conns[k]? = some x) (hP : P (x.read n)) :
    Serves (w.change k (.read n)) k (x.reads ++ [x.pending.take n]) P :=
  ⟨x.read n, change_self hx, rfl, hP⟩

variable {ch : Nat}

theorem exec_fread {r : Except Empty Bytes} (hExec : exec t j .fread ch w = some (r, w')) :
    ∃ k x, j.serves = some k ∧ w.conns[k]? = some x ∧ r = .ok (x.pending.take ch) ∧ w' = w.change k (.read ch) := by
  obtain ⟨k, hServes, hSome⟩ := Option.bind_eq_some_iff.mp hExec
  obtain ⟨x, hx, hRead⟩ := Option.bind_eq_some_iff.mp hSome
  split at hRead
  · cases hRead
    exact ⟨k, x, hServes, hx, rfl, rfl⟩
  · cases hRead

theorem read_step (h : Inv σ gs w) (hState : gs[t]? = some (j, s)) {r : Except Empty Bytes}
    (hAdmits : Admits σ s .fread) (hExec : exec t j .fread ch w = some (r, w')) :
    Inv σ (gs.set t (j, after s .fread r) ++ [].map fun i => (i, init i)) w' := by
  obtain ⟨k, x, hServes, hx, rfl, rfl⟩ := exec_fread hExec
  have hThread := h.thread t j s hState
  have hOk := h.conn k x hx
  have hMoved : Conn.Moved t j k x (x.read ch) := (x.kept_read ch).moved hServes
  have hConn : ConnOk σ (gs.map Prod.fst) k (x.read ch) :=
    h.touched hState hServes hx (x.kept_read ch) (Conn.read_prefix hOk.reads ch) hOk.answered
  cases s with
  | reading k' cs =>
    cases j with
    | conn k'' =>
      cases hServes
      obtain ⟨rfl, hNone, y, hy, rfl, hDest⟩ := hThread
      cases hx.symm.trans hy
      exact h.changed hState hx (fun _ => rfl) hMoved hConn ⟨rfl, hNone, serves_read hx hDest⟩
    | _ => exact hThread.elim
  | receiving cs =>
    cases j with
    | handler k'' =>
      cases hServes
      obtain ⟨hNot, y, hy, rfl, hDest⟩ := hThread
      cases hx.symm.trans hy
      exact h.changed hState hx (fun _ => rfl) hMoved hConn ⟨hNot, serves_read hx hDest⟩
    | _ => exact hThread.elim
  | _ => exact hAdmits.elim

theorem answer_step (h : Inv σ gs w) (hState : gs[t]? = some (j, s)) (hServes : j.serves = some k)
    (hStage : (∃ k' cs, s = .relayed k' cs) ∨ ∃ cs, s = .receiving cs) {f : Conn → Conn} (hf : ∀ x, Conn.Kept x (f x))
    (hReads : ∀ x, (f x).reads = x.reads) : Inv σ (gs.set t (j, s) ++ [].map fun i => (i, init i)) (w.change k f) := by
  have hThread := h.thread t j s hState
  have hSame : ∀ {cs : List Bytes} {P : Conn → Prop}, (∀ x, P x → P (f x)) → Serves w k cs P →
      Serves (w.change k f) k cs P := by
    rintro cs P hP ⟨x, hx, rfl, hPx⟩
    exact ⟨f x, change_self hx, hReads x, hP x hPx⟩
  have hChanged : ∀ x, w.conns[k]? = some x →
      (x.dest = none → .forward k ∈ Relay.roles (gs.map Prod.fst)) →
      ThreadOk σ (gs.map Prod.fst) (w.change k f) t j s →
      Inv σ (gs.set t (j, s) ++ [].map fun i => (i, init i)) (w.change k f) := by
    intro x hx hForward hThread'
    refine h.changed hState hx (fun y => (hf y).opener) ((hf x).moved hServes) ?_ hThread'
    exact h.touched hState hServes hx (hf x) ((hReads x).symm ▸ (h.conn k x hx).reads) fun hNone _ =>
      hForward ((hf x).dest.symm.trans hNone)
  rcases hStage with ⟨k', cs, rfl⟩ | ⟨cs, rfl⟩
  · cases j with
    | conn k'' =>
      cases hServes
      obtain ⟨rfl, hRelay, hServed⟩ := hThread
      obtain ⟨rawData, hMem, _⟩ := id hRelay
      obtain ⟨x, hx, _⟩ := id hServed
      exact hChanged x hx (fun _ => List.mem_filterMap.mpr ⟨_, hMem, rfl⟩)
        ⟨rfl, hRelay, hSame (fun x hP => (hf x).dest.trans hP) hServed⟩
    | _ => exact hThread.elim
  · cases j with
    | handler k'' =>
      cases hServes
      obtain ⟨hNot, hServed⟩ := hThread
      obtain ⟨x, hx, _, hDest⟩ := id hServed
      exact hChanged x hx (fun hNone => absurd hNone hDest) ⟨hNot, hSame (fun x hP => (hf x).dest ▸ hP) hServed⟩
    | _ => exact hThread.elim

/-! ### The webhook and the relays -/

section

variable (h : Inv σ gs w) (hState : gs[t]? = some (j, s))

include h hState

theorem write_step (hx : w.conns[k]? = some x) (hOpener : x.opener = t) (hSent : x.sent = []) {data : Bytes}
    {cut : Option Nat}
    (hData : ∀ body, x.dest = none → j = .request (.str σ.TELEGRAM_WEBHOOK_KEY) body → data <+: frame body)
    (hRelay : ∀ m rawData, x.dest ≠ none → j = .relay m rawData → data = rawData)
    (hThread : Moved t j w (w.change k (.write data cut)) → Owns (w.change k (.write data cut)) t
      (fun x' => x'.dest = x.dest ∧ (x'.broken = false → x'.sent = data)) →
      ThreadOk σ (gs.map Prod.fst) (w.change k (.write data cut)) t j s') :
    Inv σ (gs.set t (j, s') ++ [].map fun i => (i, init i)) (w.change k (.write data cut)) := by
  have hOk := h.conn k x hx
  have hPrefix : (x.write data cut).sent <+: data := by
    cases cut with
    | none => simp [Conn.write, hSent]
    | some n => simp [Conn.write, hSent, List.take_prefix]
  have hFields : (x.write data cut).dest = x.dest ∧ (x.write data cut).opener = x.opener ∧
      (x.write data cut).accepted = x.accepted ∧ (x.write data cut).reads = x.reads ∧
      (x.write data cut).reply = x.reply := by
    cases cut <;> exact ⟨rfl, rfl, rfl, rfl, rfl⟩
  obtain ⟨hDest, hOpener', hAccepted, hReads, hReply⟩ := hFields
  have hNothing : x.reads.flatten = [] := List.prefix_nil.mp (hSent ▸ hOk.reads)
  have hConn : Conn.Moved t j k x (x.write data cut) :=
    ⟨hDest, hOpener', fun hYes => hAccepted.trans hYes, hSent ▸ List.nil_prefix, fun hNot => absurd hOpener hNot,
      fun _ => hReads, hReply ▸ List.prefix_refl _⟩
  have hMoved : Moved t j w (w.change k (.write data cut)) :=
    .change fun y hy => by cases hx.symm.trans hy; exact hConn
  refine h.changed hState hx ?_ hConn ?_ (hThread hMoved ⟨k, _, change_self hx, hOpener'.trans hOpener, hDest, ?_⟩)
  · intro y
    cases cut <;> rfl
  · refine ⟨?_, ?_, by rw [hReads, hNothing]; exact List.nil_prefix, ?_, ?_⟩
    · rw [hAccepted, hReads]
      exact hOk.unserved
    · rw [hAccepted]
      exact hOk.served
    · rw [Opened, hDest, hOpener']
      have hJob := jobs_get hState
      rw [← hOpener] at hJob
      rcases hOk.opened with ⟨body, hNone, hRequest, _⟩ | ⟨m, rawData, hSome, hRelayed, _⟩
      · cases hJob.symm.trans hRequest
        exact .inl ⟨body, hNone, hRequest, hPrefix.trans (hData body hNone rfl)⟩
      · cases hJob.symm.trans hRelayed
        exact .inr ⟨m, rawData, hSome, hRelayed, hRelay m rawData hSome rfl ▸ hPrefix⟩
    · rw [hDest, hReply]
      exact hOk.answered
  · cases cut with
    | none => simp [Conn.write, hSent]
    | some n => simp [Conn.write]

theorem page_step {o : Webhook.Op} {r : Except Empty o.Res} (hAdmits : Admits σ s (.page o))
    (hExec : exec t j (.page o) ch w = some (r, w')) :
    Inv σ (gs.set t (j, after s (.page o) r) ++ [].map fun i => (i, init i)) w' := by
  have hThread := h.thread t j s hState
  cases o with
  | connect =>
    cases s with
    | asking key =>
      cases j with
      | request key' body =>
        obtain ⟨rfl, hNone⟩ := hThread
        cases hAdmits
        have hOutcome := Option.some.inj hExec
        split at hOutcome
        · cases hOutcome
          exact h.quiet hState rfl rfl trivial
        · cases hOutcome
          exact h.connected hState hNone (.inl ⟨body, rfl, rfl⟩) ⟨rfl, owns_connect ⟨rfl, rfl⟩⟩
      | _ => exact hThread.elim
    | _ => exact hAdmits.elim
  | input =>
    cases s with
    | connected =>
      cases j with
      | request key body =>
        cases hExec
        exact h.quiet hState rfl rfl ⟨rfl, hThread.2⟩
      | _ => exact hThread.elim
    | _ => exact hAdmits.elim
  | send data =>
    cases s with
    | loaded data' =>
      cases j with
      | request key body =>
        obtain ⟨rfl, hOwns⟩ := hThread
        obtain rfl : data = frame data' := hAdmits
        obtain ⟨k, hk, hOutcome⟩ := Option.map_eq_some_iff.mp hExec
        split at hOutcome
        · cases hOutcome
          exact h.quiet hState rfl rfl trivial
        · cases hOutcome
          obtain ⟨x, hx, hOpener, hDest, hSent⟩ := h.owned hOwns hk
          refine h.write_step hState hx hOpener hSent ?_ ?_ fun _ hOwns' => ?_
          · rintro body _ hEq
            cases hEq
            exact List.take_prefix _ _
          · intro m rawData hNot
            exact absurd hDest hNot
          · obtain ⟨k', y, hy, hOpener', hDest', _⟩ := hOwns'
            exact ⟨k', y, hy, hOpener', hDest'.trans hDest⟩
      | _ => exact hThread.elim
    | _ => exact hAdmits.elim
  | recv =>
    cases s with
    | sent =>
      cases j with
      | request key body =>
        obtain ⟨k, hk, hSome⟩ := Option.bind_eq_some_iff.mp hExec
        obtain ⟨x, hx, hOutcome⟩ := Option.bind_eq_some_iff.mp hSome
        obtain ⟨y, hy, hOpener, hDest⟩ := h.owned hThread hk
        cases hx.symm.trans hy
        split at hOutcome
        · cases hOutcome
          exact h.quiet hState rfl rfl trivial
        · split at hOutcome
          · cases hOutcome
          · cases hOutcome
            refine h.quiet hState rfl rfl ⟨k, x, hx, hOpener, hDest, fun hBuf hNil => hBuf ?_⟩
            rw [hNil, List.take_nil]
      | _ => exact hThread.elim
    | _ => exact hAdmits.elim
  | close =>
    cases hExec
    have hSame : after s (.page .close) (.ok ()) = s := by
      cases s <;> rfl
    rw [hSame]
    exact h.quiet hState rfl rfl hThread

theorem dispatch_step {o : Dispatch.Op} {r : Except Empty o.Res} (hAdmits : Admits σ s (.dispatch o))
    (hExec : exec t j (.dispatch o) ch w = some (r, w')) :
    Inv σ (gs.set t (j, after s (.dispatch o) r) ++ [].map fun i => (i, init i)) w' := by
  have hThread := h.thread t j s hState
  cases o with
  | tableGet | tableSet i | client i =>
    cases hExec
    cases s with
    | drawing rawData => exact h.quiet hState rfl rfl hThread
    | _ => exact hAdmits.elim
  | connected i =>
    cases s with
    | drawing rawData =>
      cases j with
      | relay m rawData' =>
        have hOutcome := Option.some.inj hExec
        split at hOutcome
        · cases hOutcome
          exact h.quiet hState rfl rfl hThread
        · cases hOutcome
          obtain ⟨rfl, hReceived, hNone⟩ := hThread
          have hMoved : Moved t (.relay m rawData) w (w.connect (.fresh (some i) t)) := .connect (some i)
          exact h.connected hState hNone (.inr ⟨m, rawData, Option.some_ne_none i, rfl⟩)
            ⟨rfl, hReceived.stable hMoved, owns_connect ⟨Option.some_ne_none i, rfl⟩⟩
      | _ => exact hThread.elim
    | _ => exact hAdmits.elim
  | fwrite data =>
    cases s with
    | linked rawData =>
      cases j with
      | relay m rawData' =>
        obtain ⟨rfl, hReceived, hOwns⟩ := hThread
        obtain rfl : data = rawData := hAdmits
        obtain ⟨k, hk, hOutcome⟩ := Option.map_eq_some_iff.mp hExec
        cases hOutcome
        obtain ⟨x, hx, hOpener, hDest, hSent⟩ := h.owned hOwns hk
        refine h.write_step hState hx hOpener hSent (fun _ hNone => absurd hNone hDest) ?_ fun hMoved hOwns' => ?_
        · rintro m' rawData _ hEq
          cases hEq
          rfl
        · obtain ⟨k', y, hy, hOpener', hDest', hWritten⟩ := hOwns'
          exact ⟨rfl, hReceived.stable hMoved, k', y, hy, hOpener', hDest' ▸ hDest, hWritten⟩
      | _ => exact hThread.elim
    | _ => exact hAdmits.elim
  | fclose =>
    cases hExec
    cases s with
    | written rawData => exact h.quiet hState rfl rfl hThread
    | _ => exact hAdmits.elim
  | beyond => cases hExec

theorem step {o : Op} {r : Except Empty o.Res} (hAdmits : Admits σ s o) (hExec : exec t j o ch w = some (r, w')) :
    Answers o r ∧ Inv σ (gs.set t (j, after s o r) ++ (spawned o r).map fun i => (i, init i)) w' := by
  have hThread := h.thread t j s hState
  cases o with
  | page o => exact ⟨trivial, h.page_step hState hAdmits hExec⟩
  | dispatch o =>
    refine ⟨?_, h.dispatch_step hState hAdmits hExec⟩
    cases o <;> trivial
  | acceptConn =>
    cases s with
    | listening =>
      obtain ⟨k, hk, hOutcome⟩ := Option.map_eq_some_iff.mp hExec
      cases hOutcome
      refine ⟨trivial, h.accepted hState hk (i := .conn k) rfl (fun _ _ => ?_) fun js w' u hNone _ hReads =>
        ⟨rfl, hNone, hReads⟩⟩
      cases j <;> trivial
    | _ => exact hAdmits.elim
  | acceptLogger n =>
    cases s with
    | listening =>
      obtain ⟨k, hk, hOutcome⟩ := Option.map_eq_some_iff.mp hExec
      cases hOutcome
      refine ⟨trivial, h.accepted hState hk (i := .handler k) rfl (fun _ _ => ?_) fun js w' u _ hNot hReads =>
        ⟨hNot, ?_⟩⟩
      · cases j <;> trivial
      · obtain ⟨x, hx, hRead, hDest⟩ := hReads
        exact ⟨x, hx, hRead, fun hNone => Option.some_ne_none n (hDest.symm.trans hNone)⟩
    | _ => exact hAdmits.elim
  | fread => exact ⟨trivial, h.read_step hState hAdmits hExec⟩
  | fwrite data =>
    obtain ⟨k, hServes, hOutcome⟩ := Option.map_eq_some_iff.mp hExec
    cases hOutcome
    cases s with
    | relayed k' cs =>
      exact ⟨trivial, h.answer_step hState hServes (.inl ⟨k', cs, rfl⟩) (Conn.kept_answer _) fun _ => rfl⟩
    | receiving cs => exact ⟨trivial, h.answer_step hState hServes (.inr ⟨cs, rfl⟩) (Conn.kept_answer _) fun _ => rfl⟩
    | _ => exact hAdmits.elim
  | fclose =>
    obtain ⟨k, hServes, hOutcome⟩ := Option.map_eq_some_iff.mp hExec
    cases hOutcome
    cases s with
    | relayed k' cs => exact ⟨trivial, h.answer_step hState hServes (.inl ⟨k', cs, rfl⟩) Conn.kept_close fun _ => rfl⟩
    | receiving cs => exact ⟨trivial, h.answer_step hState hServes (.inr ⟨cs, rfl⟩) Conn.kept_close fun _ => rfl⟩
    | _ => exact hAdmits.elim
  | go m rawData =>
    cases hExec
    cases s with
    | reading k cs =>
      cases j with
      | conn k' =>
        obtain ⟨rfl, _⟩ := hThread
        obtain ⟨rfl, hGathered⟩ := hAdmits
        exact ⟨trivial, h.forwarded hState hGathered⟩
      | _ => exact hThread.elim
    | _ => exact hAdmits.elim
  | logger data =>
    obtain ⟨k, hServes, hOutcome⟩ := Option.map_eq_some_iff.mp hExec
    cases hOutcome
    cases s with
    | receiving cs =>
      cases j with
      | handler k' =>
        cases hServes
        exact ⟨trivial, h.handed hState hAdmits.1 hAdmits.2⟩
      | _ => exact hThread.elim
    | _ => exact hAdmits.elim
  | beyond => cases hExec

end

theorem start (h : Inv σ gs w) (hj : outside (.start j) = true) : Inv σ (gs ++ [(j, init j)]) w := by
  have hJobs : (gs ++ [(j, init j)]).map Prod.fst = gs.map Prod.fst ++ [j] := by simp
  have hRole : j.role = none := by
    cases j <;> first | rfl | cases hj
  have hNew : Relay.roles [j] = [] := by simp [Relay.roles, hRole]
  refine ⟨?_, h.openers, fun k x hx => ?_, fun u i s' hu => ?_, h.logged, h.once⟩
  · rw [hJobs, roles_append, hNew, List.append_nil]
    exact h.roles
  · rw [hJobs]
    refine (h.conn k x hx).grow fun _ => ?_
    rw [hNew]
    exact ⟨List.not_mem_nil, List.not_mem_nil⟩
  · rw [hJobs]
    by_cases hLt : u < gs.length
    · rw [List.getElem?_append_left hLt] at hu
      have hMoved : Moved gs.length j w w := .same rfl rfl
      refine (h.thread u i s' hu).stable hMoved (by omega) ?_ ?_
      · intro ρ _
        rw [hRole]
        exact (Option.some_ne_none ρ).symm
      · intro k hk
        rw [hNew] at hk
        cases hk
    · rw [List.getElem?_append_right (by omega)] at hu
      cases List.mem_singleton.mp (List.mem_of_getElem? hu)
      cases j with
      | request key body => exact ⟨rfl, h.not_owns (by omega)⟩
      | master rounds => trivial
      | worker n rounds => trivial
      | _ => cases hj

end Inv

end Steps

end TeaBot.Daemon.Relay
