import TeaBot.Daemon.Stages

/-! # Who owns a connection

Every connection is written by the one thread that has opened it and read by the one that
serves it. What a thread knows of its connections is therefore left alone by all others.
-/

namespace TeaBot.Daemon.Relay

open Foundation Foundation.System

/-- What only one thread may be: the one that serves a connection, or relays its data. -/
inductive Role
  | serve (k : Nat)
  | forward (conn : Nat)
  deriving DecidableEq

def Role.conn : Role → Nat
  | .serve k | .forward k => k

def Job.role : Job → Option Role
  | .conn k | .handler k => some (.serve k)
  | .relay m _ => some (.forward m)
  | _ => none

def roles (js : List Job) : List Role := js.filterMap Job.role

variable {ρ : Role} {js : List Job} {u : Nat}

theorem mem_roles {j : Job} (hJob : js[u]? = some j) (hRole : j.role = some ρ) : ρ ∈ roles js :=
  List.mem_filterMap.mpr ⟨j, List.mem_of_getElem? hJob, hRole⟩

theorem role_unique (hNodup : (roles js).Nodup) {v : Nat} {a b : Job} (hu : js[u]? = some a) (hv : js[v]? = some b)
    (ha : a.role = some ρ) (hb : b.role = some ρ) : u = v := by
  obtain ⟨hu', rfl⟩ := List.getElem?_eq_some_iff.mp hu
  obtain ⟨hv', rfl⟩ := List.getElem?_eq_some_iff.mp hv
  have hPairs := List.pairwise_iff_getElem.mp (List.pairwise_filterMap.mp hNodup)
  rcases Nat.lt_trichotomy u v with hLt | hEq | hGt
  · exact absurd rfl (hPairs u v hu' hv' hLt ρ ha ρ hb)
  · exact hEq
  · exact absurd rfl (hPairs v u hv' hu' hGt ρ hb ρ ha)

/-- A connection is that of an authorised request to the master, or of a relay to a worker, and
carries part of what these have to send. -/
def Opened (σ : Setup) (js : List Job) (x : Conn) : Prop :=
  (∃ body, x.dest = none ∧ js[x.opener]? = some (.request (.str σ.TELEGRAM_WEBHOOK_KEY) body) ∧
    x.sent <+: frame body) ∨
  ∃ m rawData, x.dest ≠ none ∧ js[x.opener]? = some (.relay m rawData) ∧ x.sent <+: rawData

structure ConnOk (σ : Setup) (js : List Job) (k : Nat) (x : Conn) : Prop where
  unserved : x.accepted = false → .serve k ∉ roles js ∧ .forward k ∉ roles js ∧ x.reads = []
  served : x.accepted = true → .serve k ∈ roles js
  reads : x.reads.flatten <+: x.sent
  opened : Opened σ js x
  /-- The master answers when the data is on its way. -/
  answered : x.dest = none → x.reply ≠ [] → .forward k ∈ roles js

def Owns (w : World) (u : Nat) (P : Conn → Prop) : Prop :=
  ∃ (k : Nat) (x : Conn), w.conns[k]? = some x ∧ x.opener = u ∧ P x

/-- The reads on a connection are those of the list. -/
def Serves (w : World) (k : Nat) (cs : List Bytes) (P : Conn → Prop) : Prop :=
  ∃ x, w.conns[k]? = some x ∧ x.reads = cs ∧ P x

def Received (w : World) (m : Nat) (rawData : Bytes) : Prop :=
  ∃ x cs, w.conns[m]? = some x ∧ x.dest = none ∧ cs.flatten <+: x.sent ∧ Gathered cs rawData

def ThreadOk (σ : Setup) (js : List Job) (w : World) (u : Nat) : Job → Stage → Prop
  | .request key _, .asking key' => key' = key ∧ ¬ Owns w u fun _ => True
  | .request key _, .connected => key = .str σ.TELEGRAM_WEBHOOK_KEY ∧ Owns w u fun x => x.dest = none ∧ x.sent = []
  | .request _ body, .loaded data => data = body ∧ Owns w u fun x => x.dest = none ∧ x.sent = []
  | .request _ _, .sent => Owns w u fun x => x.dest = none
  | .request _ _, .answered buf => Owns w u fun x => x.dest = none ∧ (buf ≠ [] → x.reply ≠ [])
  | .request _ _, .failed => True
  | .master _, .listening | .worker _ _, .listening => True
  | .conn k, .reading k' cs => k' = k ∧ .forward k ∉ roles js ∧ Serves w k cs fun x => x.dest = none
  | .conn k, .relayed k' cs =>
    k' = k ∧ (∃ rawData, .relay k rawData ∈ js ∧ Gathered cs rawData) ∧ Serves w k cs fun x => x.dest = none
  | .handler k, .receiving cs => k ∉ w.logged.map Prod.fst ∧ Serves w k cs fun x => x.dest ≠ none
  | .handler k, .handed cs =>
    (∃ data, (k, data) ∈ w.logged ∧ Decoded σ cs data ∧ data.isArray = true) ∧ Serves w k cs fun x => x.dest ≠ none
  | .relay m rawData, .drawing rawData' => rawData' = rawData ∧ Received w m rawData ∧ ¬ Owns w u fun _ => True
  | .relay m rawData, .linked rawData' =>
    rawData' = rawData ∧ Received w m rawData ∧ Owns w u fun x => x.dest ≠ none ∧ x.sent = []
  | .relay m rawData, .written rawData' =>
    rawData' = rawData ∧ Received w m rawData ∧ Owns w u fun x => x.dest ≠ none ∧ (x.broken = false → x.sent = rawData)
  | _, _ => False

theorem ThreadOk.received {σ : Setup} {w : World} {m : Nat} {rawData : Bytes} {s : Stage}
    (h : ThreadOk σ js w u (.relay m rawData) s) : Received w m rawData := by
  cases s with
  | drawing _ | linked _ | written _ => exact h.2.1
  | _ => exact h.elim

def LogOk (σ : Setup) (w : World) (e : Nat × Php) : Prop :=
  ∃ x cs, w.conns[e.1]? = some x ∧ x.accepted = true ∧ x.dest ≠ none ∧ cs.flatten <+: x.sent ∧ Decoded σ cs e.2 ∧
    e.2.isArray = true

structure Inv (σ : Setup) (gs : List (Job × Stage)) (w : World) : Prop where
  roles : (roles (gs.map Prod.fst)).Nodup
  openers : (w.conns.map Conn.opener).Nodup
  conn : ∀ (k : Nat) (x : Conn), w.conns[k]? = some x → ConnOk σ (gs.map Prod.fst) k x
  thread : ∀ (u : Nat) (j : Job) (s : Stage), gs[u]? = some (j, s) → ThreadOk σ (gs.map Prod.fst) w u j s
  logged : ∀ e ∈ w.logged, LogOk σ w e
  once : (w.logged.map Prod.fst).Nodup

/-! ## What a step leaves alone -/

/-- How a step of thread `t` with job `j` may change connection `k`. -/
structure Conn.Moved (t : Nat) (j : Job) (k : Nat) (x x' : Conn) : Prop where
  dest : x'.dest = x.dest
  opener : x'.opener = x.opener
  accepted : x.accepted = true → x'.accepted = true
  sent : x.sent <+: x'.sent
  own : x.opener ≠ t → x'.sent = x.sent ∧ x'.broken = x.broken
  served : j.serves ≠ some k → x'.reads = x.reads
  reply : x.reply <+: x'.reply

theorem Conn.Moved.refl (t : Nat) (j : Job) (k : Nat) (x : Conn) : Conn.Moved t j k x x :=
  ⟨rfl, rfl, id, List.prefix_refl _, fun _ => ⟨rfl, rfl⟩, fun _ => rfl, List.prefix_refl _⟩

structure Moved (t : Nat) (j : Job) (w w' : World) : Prop where
  conn : ∀ (k : Nat) (x : Conn), w.conns[k]? = some x → ∃ x', w'.conns[k]? = some x' ∧ Conn.Moved t j k x x'
  fresh : ∀ (k : Nat) (x' : Conn), w'.conns[k]? = some x' → w.conns[k]? = none → x'.opener = t
  logged : w.logged ⊆ w'.logged
  log : ∀ k ∈ w'.logged.map Prod.fst, k ∈ w.logged.map Prod.fst ∨ j = .handler k

section Stability

variable {σ : Setup} {t u : Nat} {i j : Job} {w w' : World} {js new : List Job}

theorem Owns.stable {P P' : Conn → Prop} (h : Owns w u P) (hMoved : Moved t j w w')
    (hP : ∀ k x x', Conn.Moved t j k x x' → x.opener = u → P x → P' x') : Owns w' u P' := by
  obtain ⟨k, x, hx, rfl, hPx⟩ := h
  obtain ⟨x', hx', hConn⟩ := hMoved.conn k x hx
  exact ⟨k, x', hx', hConn.opener, hP k x x' hConn rfl hPx⟩

theorem not_owns_stable (h : ¬ Owns w u fun _ => True) (hMoved : Moved t j w w') (hu : u ≠ t) :
    ¬ Owns w' u fun _ => True := by
  rintro ⟨k, x', hx', rfl, _⟩
  cases hx : w.conns[k]? with
  | none => exact hu (hMoved.fresh k x' hx' hx)
  | some x =>
    obtain ⟨x'', hx'', hConn⟩ := hMoved.conn k x hx
    cases hx'.symm.trans hx''
    exact h ⟨k, x, hx, hConn.opener.symm, trivial⟩

variable {k : Nat}

theorem Serves.stable {cs : List Bytes} {P : Conn → Prop} (h : Serves w k cs P) (hMoved : Moved t j w w')
    (hServes : j.serves ≠ some k) (hP : ∀ x x', Conn.Moved t j k x x' → P x → P x') : Serves w' k cs P := by
  obtain ⟨x, hx, hReads, hPx⟩ := h
  obtain ⟨x', hx', hConn⟩ := hMoved.conn k x hx
  exact ⟨x', hx', (hConn.served hServes).trans hReads, hP x x' hConn hPx⟩

theorem Received.stable {m : Nat} {rawData : Bytes} (h : Received w m rawData) (hMoved : Moved t j w w') :
    Received w' m rawData := by
  obtain ⟨x, cs, hx, hDest, hPrefix, hGathered⟩ := h
  obtain ⟨x', hx', hConn⟩ := hMoved.conn m x hx
  exact ⟨x', cs, hx', hConn.dest.trans hDest, hPrefix.trans hConn.sent, hGathered⟩

theorem LogOk.stable {e : Nat × Php} (h : LogOk σ w e) (hMoved : Moved t j w w') : LogOk σ w' e := by
  obtain ⟨x, cs, hx, hAccepted, hDest, hPrefix, hDecoded⟩ := h
  obtain ⟨x', hx', hConn⟩ := hMoved.conn e.1 x hx
  exact ⟨x', cs, hx', hConn.accepted hAccepted, hConn.dest ▸ hDest, hPrefix.trans hConn.sent, hDecoded⟩

theorem roles_append (js new : List Job) : roles (js ++ new) = roles js ++ roles new := List.filterMap_append

variable {x : Conn}

theorem Opened.append (h : Opened σ js x) (new : List Job) : Opened σ (js ++ new) x := by
  have hJob : ∀ {v : Nat} {i : Job}, js[v]? = some i → (js ++ new)[v]? = some i := by
    intro v i hv
    rw [List.getElem?_append_left (List.getElem?_eq_some_iff.mp hv).1, hv]
  rcases h with ⟨body, hDest, hRequest, hSent⟩ | ⟨m, rawData, hDest, hRelay, hSent⟩
  · exact .inl ⟨body, hDest, hJob hRequest, hSent⟩
  · exact .inr ⟨m, rawData, hDest, hJob hRelay, hSent⟩

theorem mem_roles_append (h : ρ ∈ roles js) (new : List Job) : ρ ∈ roles (js ++ new) := by
  rw [roles_append]
  exact List.mem_append_left _ h

theorem ConnOk.grow (h : ConnOk σ js k x) (hNew : x.accepted = false → .serve k ∉ roles new ∧ .forward k ∉ roles new) :
    ConnOk σ (js ++ new) k x := by
  refine ⟨fun hAccepted => ?_, fun hAccepted => mem_roles_append (h.served hAccepted) new, h.reads,
    h.opened.append new, fun hDest hReply => mem_roles_append (h.answered hDest hReply) new⟩
  obtain ⟨hServe, hForward, hReads⟩ := h.unserved hAccepted
  obtain ⟨hServe', hForward'⟩ := hNew hAccepted
  rw [roles_append, List.mem_append, List.mem_append]
  exact ⟨fun hMem => hMem.elim hServe hServe', fun hMem => hMem.elim hForward hForward', hReads⟩

theorem ConnOk.accept (h : ConnOk σ js k x) (hNew : .serve k ∈ roles new) : ConnOk σ (js ++ new) k x.accept := by
  refine ⟨fun hNot => absurd hNot (by simp [Conn.accept]), fun _ => ?_, h.reads, h.opened.append new,
    fun hDest hReply => mem_roles_append (h.answered hDest hReply) new⟩
  rw [roles_append]
  exact List.mem_append_right _ hNew

theorem ThreadOk.stable {s : Stage} (h : ThreadOk σ js w u i s) (hMoved : Moved t j w w')
    (hu : u ≠ t) (hRole : ∀ ρ, i.role = some ρ → j.role ≠ some ρ) (hNew : ∀ k, .forward k ∈ roles new → j = .conn k) :
    ThreadOk σ (js ++ new) w' u i s := by
  have hOwn : ∀ k x x', Conn.Moved t j k x x' → x.opener = u → x'.sent = x.sent ∧ x'.broken = x.broken :=
    fun _ _ _ hConn hx => hConn.own (hx ▸ hu)
  have hNotLogged : ∀ k, i = .handler k → k ∉ w.logged.map Prod.fst → k ∉ w'.logged.map Prod.fst := by
    rintro k rfl hk hk'
    rcases hMoved.log k hk' with hOld | rfl
    · exact hk hOld
    · exact hRole _ rfl rfl
  have hServes : ∀ k, i.role = some (.serve k) → j.serves ≠ some k := by
    intro k hi hj
    cases j <;> cases hj <;> exact hRole _ hi rfl
  cases i with
  | request key body =>
    cases s with
    | asking key' => exact ⟨h.1, not_owns_stable h.2 hMoved hu⟩
    | connected =>
      exact ⟨h.1, h.2.stable hMoved fun k x x' hConn hx hP =>
        ⟨hConn.dest.trans hP.1, (hOwn k x x' hConn hx).1.trans hP.2⟩⟩
    | loaded data =>
      exact ⟨h.1, h.2.stable hMoved fun k x x' hConn hx hP =>
        ⟨hConn.dest.trans hP.1, (hOwn k x x' hConn hx).1.trans hP.2⟩⟩
    | sent => exact Owns.stable h hMoved fun k x x' hConn _ hP => hConn.dest.trans hP
    | answered buf =>
      refine Owns.stable h hMoved fun k x x' hConn _ hP => ⟨hConn.dest.trans hP.1, fun hBuf hNil => hP.2 hBuf ?_⟩
      exact List.prefix_nil.mp (hNil ▸ hConn.reply)
    | failed => trivial
    | _ => exact h.elim
  | master rounds | worker n rounds => cases s <;> trivial
  | conn k =>
    cases s with
    | reading k' cs =>
      obtain ⟨rfl, hNone, hReads⟩ := h
      refine ⟨rfl, ?_, hReads.stable hMoved (hServes k' rfl) fun x x' hConn hP => hConn.dest.trans hP⟩
      rw [roles_append, List.mem_append, not_or]
      exact ⟨hNone, fun hForward => hRole _ rfl (hNew k' hForward ▸ rfl)⟩
    | relayed k' cs =>
      obtain ⟨rfl, ⟨rawData, hRelay, hGathered⟩, hReads⟩ := h
      exact ⟨rfl, ⟨rawData, List.mem_append_left _ hRelay, hGathered⟩,
        hReads.stable hMoved (hServes k' rfl) fun x x' hConn hP => hConn.dest.trans hP⟩
    | _ => exact h.elim
  | handler k =>
    cases s with
    | receiving cs =>
      exact ⟨hNotLogged k rfl h.1, h.2.stable hMoved (hServes k rfl) fun x x' hConn hP => hConn.dest ▸ hP⟩
    | handed cs =>
      obtain ⟨⟨data, hLogged, hDecoded⟩, hReads⟩ := h
      exact ⟨⟨data, hMoved.logged hLogged, hDecoded⟩,
        hReads.stable hMoved (hServes k rfl) fun x x' hConn hP => hConn.dest ▸ hP⟩
    | _ => exact h.elim
  | relay m rawData =>
    cases s with
    | drawing rawData' => exact ⟨h.1, h.2.1.stable hMoved, not_owns_stable h.2.2 hMoved hu⟩
    | linked rawData' =>
      exact ⟨h.1, h.2.1.stable hMoved, h.2.2.stable hMoved fun k x x' hConn hx hP =>
        ⟨hConn.dest ▸ hP.1, (hOwn k x x' hConn hx).1.trans hP.2⟩⟩
    | written rawData' =>
      refine ⟨h.1, h.2.1.stable hMoved, h.2.2.stable hMoved fun k x x' hConn hx hP => ⟨hConn.dest ▸ hP.1, ?_⟩⟩
      obtain ⟨hSent, hBroken⟩ := hOwn k x x' hConn hx
      rw [hSent, hBroken]
      exact hP.2
    | _ => exact h.elim

end Stability

end TeaBot.Daemon.Relay
