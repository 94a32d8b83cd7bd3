import TeaBot.Daemon.Steps

/-! # No update is invented, doubled or lost on the way to the loggers

For any number of requests and workers and any interleaving: what `Logger` runs on comes from
one authorised request, each request gives rise to one run at most, and what the webhook
has acknowledged is on its way to exactly one worker.
-/

namespace TeaBot.Daemon.Relay

open Foundation Foundation.System Foundation.Stream

/-! ## What the handlers make of a prefix of a frame -/

variable {rawData : Bytes} {fuel : Nat}

theorem readMore_prefix {dataLen : Option Nat} {out : Bytes} {receivedLen : Int} {conn : List Bytes}
    (h : Daemon.readMore dataLen fuel rawData receivedLen conn = some out) : out <+: rawData ++ conn.flatten := by
  induction fuel generalizing rawData receivedLen conn with
  | zero => cases h
  | succ fuel ih =>
    rw [Daemon.readMore] at h
    split at h
    · have hPrefix := ih h
      rw [List.append_assoc, fread_flatten] at hPrefix
      exact hPrefix
    · cases h
      exact List.prefix_append _ _

variable {cs : List Bytes}

theorem Gathered.isPrefix (h : Gathered cs rawData) : rawData <+: cs.flatten := by
  obtain ⟨fuel, hRead⟩ := h
  rw [← fread_flatten cs]
  exact readMore_prefix hRead

theorem loggerHandler_text {text : Bytes} (h : Daemon.loggerHandler fuel cs = some text) :
    text = [] ∨ ∃ a b rest, cs.flatten = a :: b :: rest ∧ text <+: rest ∧ a.toNat + 256 * b.toNat ≤ text.length := by
  cases fuel with
  | zero => cases cs <;> cases h
  | succ fuel =>
    match cs with
    | [] =>
      have hNone : Daemon.loggerHandler (fuel + 1) [] = some [] := readMore_none ..
      cases hNone.symm.trans h
      exact .inl rfl
    | [] :: cs =>
      cases (loggerHandler_short fuel (by simp) cs).symm.trans h
      exact .inl rfl
    | [a] :: cs =>
      cases (loggerHandler_short fuel (by simp) cs).symm.trans h
      exact .inl rfl
    | (a :: b :: c) :: cs =>
      rw [loggerHandler_header] at h
      obtain ⟨hPrefix, hEnough⟩ := readUntil_spec h
      exact .inr ⟨a, b, c ++ cs.flatten, rfl, hPrefix, hEnough⟩

/-- Of a body that fits its frame a worker takes all or nothing. -/
theorem text_of_frame {text body : Bytes} (h : Daemon.loggerHandler fuel cs = some text)
    (hFrame : cs.flatten <+: frame body) : text <+: body ∧ (body.length ≤ 65535 → text = [] ∨ text = body) := by
  rcases loggerHandler_text h with rfl | ⟨a, b, rest, hFlat, hPrefix, hEnough⟩
  · exact ⟨List.nil_prefix, fun _ => .inl rfl⟩
  · rw [hFlat, frame, packS, List.cons_append, List.cons_append, List.nil_append, List.cons_prefix_cons,
      List.cons_prefix_cons] at hFrame
    obtain ⟨rfl, rfl, hRest⟩ := hFrame
    have hBody := hPrefix.trans hRest
    refine ⟨hBody, fun hSmall => .inr (hBody.eq_of_length_le ?_)⟩
    rw [header_eq, Nat.mod_eq_of_lt (by omega)] at hEnough
    exact hEnough

/-! ## Runs -/

section Runs

variable {σ : Setup} {c : Conf}

theorem Inv.initial (σ : Setup) : Inv σ [] .initial where
  roles := List.nodup_nil
  openers := List.nodup_nil
  conn k x hx := by cases hx
  thread u j s hu := by cases hu
  logged e he := by cases he
  once := List.nodup_nil

theorem inv_reach (hReach : (system σ).Reach (fun _ l => outside l = true) ⟨.initial, []⟩ c) :
    ∃ gs, Typed (stages σ) (ends σ) gs c ∧ Inv σ gs c.shared := by
  have hCode : ∀ j : Job, True → (code σ j).Keeps (stages σ) (ends σ j) (init j) := fun j _ => code_keeps j
  refine Typed.reach hCode ?_ ?_ (.nil _) (Inv.initial σ) hReach
  · intro c gs j _ hInv hOk
    exact ⟨trivial, hInv.start hOk⟩
  · intro c gs t ch j s o k r w' _ hInv _ _ hState hAdmits hExec
    obtain ⟨hAnswers, hNext⟩ := hInv.step hState hAdmits hExec
    exact ⟨hAnswers, fun _ _ => trivial, hNext⟩

/-! ## Ends of runs -/

def relaysDone (c : Conf) : Bool :=
  c.threads.all fun x => match x.1 with
    | .relay _ _ => x.2.finished
    | _ => true

/-- So have all coroutines of the daemons, and no connection waits to be accepted. -/
def settled (c : Conf) : Bool :=
  c.shared.conns.all Conn.accepted && c.threads.all fun x => x.1.role.isNone || x.2.finished

/-! ## Where the data on a connection comes from -/

variable {gs : List (Job × Stage)}

theorem job_of_state (hTyped : Typed (stages σ) (ends σ) gs c) {u : Nat} {j : Job}
    (hJob : (gs.map Prod.fst)[u]? = some j) : ∃ p s, c.threads[u]? = some (j, p) ∧ gs[u]? = some (j, s) := by
  rw [List.getElem?_map] at hJob
  obtain ⟨⟨_, s⟩, hState, rfl⟩ := Option.map_eq_some_iff.mp hJob
  obtain ⟨p, hThread, _⟩ := hTyped.thread hState
  exact ⟨p, s, hThread, hState⟩

variable {m k : Nat} {x : Conn}

theorem origin_eq {y : Conn} {p : Run (Option Webhook.Reply)} (hx : c.shared.conns[k]? = some x)
    (hRelay : c.threads[x.opener]? = some (.relay m rawData, p)) (hy : c.shared.conns[m]? = some y) :
    origin c k = some y.opener := by
  simp [origin, hx, hRelay, hy]

variable {t : Nat}

theorem of_origin (h : origin c k = some t) :
    ∃ x m rawData p y, c.shared.conns[k]? = some x ∧ c.threads[x.opener]? = some (.relay m rawData, p) ∧
      c.shared.conns[m]? = some y ∧ y.opener = t := by
  obtain ⟨x, hx, hRest⟩ := Option.bind_eq_some_iff.mp h
  obtain ⟨⟨j, p⟩, hThread, hOpener⟩ := Option.bind_eq_some_iff.mp hRest
  cases j with
  | relay m rawData =>
    obtain ⟨y, hy, hEq⟩ := Option.map_eq_some_iff.mp hOpener
    exact ⟨x, m, rawData, p, y, hx, hThread, hy, hEq⟩
  | _ => cases hOpener

theorem origin_unique (hTyped : Typed (stages σ) (ends σ) gs c) (hInv : Inv σ gs c.shared) {k' : Nat}
    (h : origin c k = some t) (h' : origin c k' = some t) : k = k' := by
  obtain ⟨x, m, rawData, p, y, hx, hThread, hy, hOpener⟩ := of_origin h
  obtain ⟨x', m', rawData', p', y', hx', hThread', hy', hOpener'⟩ := of_origin h'
  obtain rfl : m = m' := hInv.owner_unique hy hy' (hOpener.trans hOpener'.symm)
  obtain ⟨s, hState, _⟩ := hTyped.state hThread
  obtain ⟨s', hState', _⟩ := hTyped.state hThread'
  exact hInv.owner_unique hx hx' (role_unique hInv.roles (jobs_get hState) (jobs_get hState') rfl rfl)

theorem traced (hTyped : Typed (stages σ) (ends σ) gs c) (hInv : Inv σ gs c.shared) (hx : c.shared.conns[k]? = some x)
    (hDest : x.dest ≠ none) :
    ∃ t body, origin c k = some t ∧
      c.threads[t]?.map Prod.fst = some (.request (.str σ.TELEGRAM_WEBHOOK_KEY) body) ∧ x.sent <+: frame body := by
  rcases (hInv.conn k x hx).opened with ⟨_, hNone, _⟩ | ⟨m, rawData, _, hRelay, hSent⟩
  · exact absurd hNone hDest
  · obtain ⟨p, s, hThread, hState⟩ := job_of_state hTyped hRelay
    obtain ⟨y, cs, hy, hMaster, hRead, hGathered⟩ := (hInv.thread _ _ _ hState).received
    rcases (hInv.conn m y hy).opened with ⟨body, _, hRequest, hFrame⟩ | ⟨_, _, hSome, _⟩
    · obtain ⟨q, _, hPage, _⟩ := job_of_state hTyped hRequest
      refine ⟨y.opener, body, origin_eq hx hThread hy, by rw [hPage]; rfl, ?_⟩
      exact hSent.trans (hGathered.isPrefix.trans (hRead.trans hFrame))
    · exact absurd hMaster hSome

/-- Every run of `Logger` is on the body of an authorised request, if that fits its frame, and no
two runs are on the same request. -/
theorem logged_at_most_once (σ : Setup) (c : Conf)
    (hReach : (system σ).Reach (fun _ l => outside l = true) ⟨.initial, []⟩ c) :
    (c.shared.logged.map fun e => origin c e.1).Nodup ∧
      ∀ e ∈ c.shared.logged, ∃ t body text, origin c e.1 = some t ∧
        c.threads[t]?.map Prod.fst = some (.request (.str σ.TELEGRAM_WEBHOOK_KEY) body) ∧ text <+: body ∧
        e.2 = σ.json.decode text ∧ (body.length ≤ 65535 → text = body) := by
  obtain ⟨gs, hTyped, hInv⟩ := inv_reach hReach
  have hTraced : ∀ e ∈ c.shared.logged, ∃ t body text, origin c e.1 = some t ∧
      c.threads[t]?.map Prod.fst = some (.request (.str σ.TELEGRAM_WEBHOOK_KEY) body) ∧ text <+: body ∧
      e.2 = σ.json.decode text ∧ (body.length ≤ 65535 → text = body) := by
    intro e he
    obtain ⟨x, cs, hx, _, hDest, hRead, ⟨fuel, text, hText, hData⟩, hArray⟩ := hInv.logged e he
    obtain ⟨t, body, hOrigin, hRequest, hSent⟩ := traced hTyped hInv hx hDest
    obtain ⟨hPrefix, hWhole⟩ := text_of_frame hText (hRead.trans hSent)
    refine ⟨t, body, text, hOrigin, hRequest, hPrefix, hData, fun hSmall => (hWhole hSmall).resolve_left ?_⟩
    -- nothing is not JSON
    rintro rfl
    rw [hData, σ.json.empty] at hArray
    cases hArray
  refine ⟨?_, hTraced⟩
  have hMap : (c.shared.logged.map fun e => origin c e.1) = (c.shared.logged.map Prod.fst).map (origin c) := by
    rw [List.map_map]
    rfl
  rw [hMap]
  refine List.Nodup.map_on ?_ hInv.once
  intro k hk k' _ hEq
  obtain ⟨e, he, rfl⟩ := List.mem_map.mp hk
  obtain ⟨t, _, _, hOrigin, _⟩ := hTraced e he
  exact origin_unique hTyped hInv hOrigin (hEq ▸ hOrigin)

def small : Setup := ⟨"key", 1, Webhook.decodeList, 2⟩

/-- The body `[1]` on its way through the webhook, the master and the worker. -/
def passing : List (Label Job Nat) :=
  [.start (.master 1), .start (.worker 0 1), .start (.request (.str "key") [0x5b, 0x31, 0x5d])] ++
    [.step 2 1, .step 2 0, .step 2 6, .step 0 0, .step 3 5, .step 3 0, .step 3 0, .step 3 0, .step 2 100, .step 2 0] ++
    [.step 4 0, .step 4 0, .step 4 0, .step 4 1, .step 4 0, .step 4 0, .step 1 0, .step 5 5] ++
    List.replicate 3 (.step 5 0)

theorem reach_of_passing (hRun : (system small).run ⟨.initial, []⟩ passing = some c) :
    (system small).Reach (fun _ l => outside l = true) ⟨.initial, []⟩ c := by
  refine reach_of_run (fun l hl _ => ?_) hRun
  have hAll : passing.all outside = true := by decide
  exact List.all_eq_true.mp hAll l hl

theorem passing_settles : ∃ c, (system small).run ⟨.initial, []⟩ passing = some c ∧
    c.threads[2]? = some (.request (.str "key") [0x5b, 0x31, 0x5d], .ret (some ⟨200, ascii "ok"⟩)) ∧
    settled c = true ∧ c.shared.logged.map Prod.fst = [1] := by
  have hRun : ((system small).run ⟨.initial, []⟩ passing).map
      (fun c => (c.threads[2]?, settled c, c.shared.logged.map Prod.fst)) =
      some (some (.request (.str "key") [0x5b, 0x31, 0x5d], .ret (some ⟨200, ascii "ok"⟩)), true, [1]) := by
    rfl
  obtain ⟨c, hc, hEnd⟩ := Option.map_eq_some_iff.mp hRun
  obtain ⟨hThread, hRest⟩ := Prod.mk.inj hEnd
  exact ⟨c, hc, hThread, Prod.mk.inj hRest⟩

theorem passing_logged_once : ∃ c, (system small).run ⟨.initial, []⟩ passing = some c ∧
    c.shared.logged.map Prod.fst = [1] ∧ (c.shared.logged.map fun e => origin c e.1).Nodup := by
  obtain ⟨c, hc, _, _, hLogged⟩ := passing_settles
  exact ⟨c, hc, hLogged, (logged_at_most_once small c (reach_of_passing hc)).1⟩

/-! ## What has been acknowledged -/

theorem relaysDone_of_settled (h : settled c = true) : relaysDone c = true := by
  obtain ⟨_, hThreads⟩ := Bool.and_eq_true_iff.mp h
  refine List.all_eq_true.mpr fun x hx => ?_
  have hDone := List.all_eq_true.mp hThreads x hx
  obtain ⟨j, p⟩ := x
  cases j <;> first | rfl | exact hDone

theorem ends_of_finished (hTyped : Typed (stages σ) (ends σ) gs c) {u : Nat} {j : Job} {s : Stage}
    {p : Run (Option Webhook.Reply)} (hThread : c.threads[u]? = some (j, p)) (hState : gs[u]? = some (j, s))
    (hDone : p.finished = true) : ∃ out, ends σ j out s := by
  have hKeeps := hTyped.keeps u j p s hThread hState
  cases p with
  | ret a => exact ⟨.ok a, hKeeps⟩
  | throw e => exact ⟨.error e, hKeeps⟩
  | op o k => cases hDone

theorem thread_of_role (hTyped : Typed (stages σ) (ends σ) gs c) {ρ : Role} (hRole : ρ ∈ roles (gs.map Prod.fst)) :
    ∃ (u : Nat) (j : Job) (p : Run (Option Webhook.Reply)) (s : Stage), c.threads[u]? = some (j, p) ∧
      gs[u]? = some (j, s) ∧ j.role = some ρ := by
  obtain ⟨j, hJob, hj⟩ := List.mem_filterMap.mp hRole
  obtain ⟨u, hu⟩ := List.mem_iff_getElem?.mp hJob
  obtain ⟨p, s, hThread, hState⟩ := job_of_state hTyped hu
  exact ⟨u, j, p, s, hThread, hState, hj⟩

theorem delivered (hTyped : Typed (stages σ) (ends σ) gs c) (hInv : Inv σ gs c.shared) {key : Php} {body : Bytes}
    {reply : Webhook.Reply} (hThread : c.threads[t]? = some (.request key body, .ret (some reply)))
    (hStatus : reply.status = 200) (hDone : relaysDone c = true) :
    ∃ m y k x cs rawData, c.shared.conns[m]? = some y ∧ y.opener = t ∧ y.dest = none ∧ y.sent <+: frame body ∧
      .relay m rawData ∈ gs.map Prod.fst ∧ cs.flatten <+: y.sent ∧ Gathered cs rawData ∧
      c.shared.conns[k]? = some x ∧ x.dest ≠ none ∧ origin c k = some t ∧ x.sent <+: rawData ∧
      (x.broken = false → x.sent = rawData) := by
  obtain ⟨s, hState, hEnd⟩ := hTyped.state hThread
  obtain rfl : s = .answered (ascii "ok") := hEnd hStatus
  obtain ⟨m, y, hy, hOpener, hMaster, hReply⟩ := hInv.thread t _ _ hState
  have hForward := (hInv.conn m y hy).answered hMaster (hReply (by decide))
  obtain ⟨u, j, p, s, hRelay, hRelayed, hRole⟩ := thread_of_role hTyped hForward
  cases j with
  | relay m' rawData =>
    cases hRole
    have hFinished : p.finished = true := List.all_eq_true.mp hDone _ (List.mem_of_getElem? hRelay)
    obtain ⟨_, rfl⟩ := ends_of_finished hTyped hRelay hRelayed hFinished
    obtain ⟨_, ⟨y', cs, hy', _, hRead, hGathered⟩, k, x, hx, rfl, hDest, hWritten⟩ := hInv.thread u _ _ hRelayed
    cases hy.symm.trans hy'
    refine ⟨m, y, k, x, cs, rawData, hy, hOpener, hMaster, ?_, List.mem_of_getElem? (jobs_get hRelayed), hRead,
      hGathered, hx, hDest, hOpener ▸ origin_eq hx hRelay hy, ?_, hWritten⟩
    · rcases (hInv.conn m y hy).opened with ⟨body', _, hRequest, hFrame⟩ | ⟨_, _, hSome, _⟩
      · rw [hOpener, jobs_get hState] at hRequest
        cases hRequest
        exact hFrame
      · exact absurd hMaster hSome
    · rcases (hInv.conn k x hx).opened with ⟨_, hNone, _⟩ | ⟨_, _, _, hJob, hSent⟩
      · exact absurd hNone hDest
      · rw [jobs_get hRelayed] at hJob
        cases hJob
        exact hSent
  | _ => cases hRole

/-- A request that was answered with 200 is on exactly one connection to a worker once the relays have
come to their end, with all that the master has read unless the connection broke. -/
theorem acknowledged_delivered_once (σ : Setup) (c : Conf)
    (hReach : (system σ).Reach (fun _ l => outside l = true) ⟨.initial, []⟩ c) (t : Nat) (key : Php) (body : Bytes)
    (reply : Webhook.Reply) (hThread : c.threads[t]? = some (.request key body, .ret (some reply)))
    (hStatus : reply.status = 200) (hDone : relaysDone c = true) :
    ∃ k x cs rawData, (∀ k', origin c k' = some t ↔ k' = k) ∧ c.shared.conns[k]? = some x ∧
      cs.flatten <+: frame body ∧ Gathered cs rawData ∧ (x.broken = false → x.sent = rawData) := by
  obtain ⟨gs, hTyped, hInv⟩ := inv_reach hReach
  obtain ⟨_, y, k, x, cs, rawData, _, _, _, hFrame, _, hRead, hGathered, hx, _, hOrigin, _, hWritten⟩ :=
    delivered hTyped hInv hThread hStatus hDone
  refine ⟨k, x, cs, rawData, fun k' => ⟨fun hk' => origin_unique hTyped hInv hk' hOrigin, ?_⟩, hx,
    hRead.trans hFrame, hGathered, hWritten⟩
  rintro rfl
  exact hOrigin

theorem passing_delivered_once : ∃ c, (system small).run ⟨.initial, []⟩ passing = some c ∧
    ∃ k x, (∀ k', origin c k' = some 2 ↔ k' = k) ∧ c.shared.conns[k]? = some x := by
  obtain ⟨c, hc, hThread, hSettled, _⟩ := passing_settles
  obtain ⟨k, x, _, _, hOnly, hx, _⟩ := acknowledged_delivered_once small c (reach_of_passing hc) 2 _ _ _ hThread rfl
    (relaysDone_of_settled hSettled)
  exact ⟨c, hc, k, x, hOnly, hx⟩

theorem filter_key {α : Type} {l : List (Nat × α)} (hNodup : (l.map Prod.fst).Nodup) {a : α} (hMem : (k, a) ∈ l) :
    l.filter (fun e => e.1 = k) = [(k, a)] := by
  induction l with
  | nil => cases hMem
  | cons e l ih =>
    rw [List.map_cons, List.nodup_cons] at hNodup
    rcases List.mem_cons.mp hMem with rfl | hRest
    · rw [List.filter_cons_of_pos (by simp), List.filter_eq_nil_iff.mpr]
      intro e he hEq
      exact hNodup.1 (List.mem_map.mpr ⟨e, he, of_decide_eq_true hEq⟩)
    · have hNe : e.1 ≠ k := by
        rintro rfl
        exact hNodup.1 (List.mem_map.mpr ⟨_, hRest, rfl⟩)
      rw [List.filter_cons_of_neg (by simpa using hNe), ih hNodup.2 hRest]

section

variable (hTyped : Typed (stages σ) (ends σ) gs c) (hInv : Inv σ gs c.shared)

include hTyped hInv

theorem filter_origin (hOrigin : origin c k = some t) :
    (c.shared.logged.filter fun e => origin c e.1 = some t) = c.shared.logged.filter fun e => e.1 = k := by
  refine List.filter_congr fun e _ => decide_eq_decide.mpr ⟨fun he => origin_unique hTyped hInv he hOrigin, ?_⟩
  rintro rfl
  exact hOrigin

theorem served (hSettled : settled c = true) (hx : c.shared.conns[k]? = some x) :
    ∃ (u : Nat) (j : Job) (s : Stage) (out : _), gs[u]? = some (j, s) ∧ j.role = some (.serve k) ∧ ends σ j out s := by
  obtain ⟨hConns, hThreads⟩ := Bool.and_eq_true_iff.mp hSettled
  have hAccepted : x.accepted = true := List.all_eq_true.mp hConns x (List.mem_of_getElem? hx)
  obtain ⟨u, j, p, s, hThread, hState, hRole⟩ := thread_of_role hTyped ((hInv.conn k x hx).served hAccepted)
  have hFinished : p.finished = true := by
    have hDone := List.all_eq_true.mp hThreads _ (List.mem_of_getElem? hThread)
    simpa [hRole] using hDone
  obtain ⟨out, hEnds⟩ := ends_of_finished hTyped hThread hState hFinished
  exact ⟨u, j, s, out, hState, hRole, hEnds⟩

theorem master_gathered (hSettled : settled c = true) {y : Conn} (hy : c.shared.conns[m]? = some y)
    (hDest : y.dest = none) : ∃ rawData, .relay m rawData ∈ gs.map Prod.fst ∧ Gathered y.reads rawData := by
  obtain ⟨u, j, s, out, hState, hRole, hEnds⟩ := served hTyped hInv hSettled hy
  have hServer := hInv.thread u j s hState
  cases j with
  | conn k =>
    cases hRole
    obtain ⟨cs, rfl⟩ := hEnds
    obtain ⟨_, hRelay, y', hy', rfl, _⟩ := hServer
    cases hy.symm.trans hy'
    exact hRelay
  | handler k =>
    cases hRole
    rcases hEnds with ⟨cs, rfl⟩ | ⟨cs, data, rfl, _⟩
    all_goals
      obtain ⟨_, y', hy', _, hSome⟩ := hServer
      cases hy.symm.trans hy'
      exact absurd hDest hSome
  | _ => cases hRole

theorem worker_logged (hSettled : settled c = true) (hx : c.shared.conns[k]? = some x) (hDest : x.dest ≠ none) :
    ∃ data, Decoded σ x.reads data ∧
      (c.shared.logged.filter fun e => e.1 = k).map Prod.snd = if data.isArray then [data] else [] := by
  obtain ⟨u, j, s, out, hState, hRole, hEnds⟩ := served hTyped hInv hSettled hx
  have hServer := hInv.thread u j s hState
  cases j with
  | conn k =>
    cases hRole
    obtain ⟨cs, rfl⟩ := hEnds
    obtain ⟨_, _, x', hx', _, hNone⟩ := hServer
    cases hx.symm.trans hx'
    exact absurd hNone hDest
  | handler k =>
    cases hRole
    rcases hEnds with ⟨cs, rfl⟩ | ⟨cs, data, rfl, hDecoded, hArray⟩
    · obtain ⟨⟨data, hLogged, hDecoded, hArray⟩, x', hx', rfl, _⟩ := hServer
      cases hx.symm.trans hx'
      refine ⟨data, hDecoded, ?_⟩
      rw [filter_key hInv.once hLogged, if_pos hArray]
      rfl
    · obtain ⟨hNot, x', hx', rfl, _⟩ := hServer
      cases hx.symm.trans hx'
      refine ⟨data, hDecoded, ?_⟩
      rw [List.filter_eq_nil_iff.mpr, hArray]
      · rfl
      · intro e he hEq
        exact hNot (List.mem_map.mpr ⟨e, he, of_decide_eq_true hEq⟩)
  | _ => cases hRole

end

theorem relay_unique (hInv : Inv σ gs c.shared) {rawData' : Bytes} (h : .relay m rawData ∈ gs.map Prod.fst)
    (h' : .relay m rawData' ∈ gs.map Prod.fst) : rawData = rawData' := by
  obtain ⟨u, hu⟩ := List.mem_iff_getElem?.mp h
  obtain ⟨v, hv⟩ := List.mem_iff_getElem?.mp h'
  obtain rfl := role_unique hInv.roles hu hv rfl rfl
  cases hu.symm.trans hv
  rfl

/-- When the daemons have settled, an acknowledged request has one connection to the master and one to
a worker, and `Logger` has run for it exactly as `connHandler` and `loggerHandler` say of the
reads that were made on the two. -/
theorem acknowledged_logged (σ : Setup) (c : Conf)
    (hReach : (system σ).Reach (fun _ l => outside l = true) ⟨.initial, []⟩ c) (t : Nat) (key : Php) (body : Bytes)
    (reply : Webhook.Reply) (hThread : c.threads[t]? = some (.request key body, .ret (some reply)))
    (hStatus : reply.status = 200) (hSettled : settled c = true) :
    ∃ (m : Nat) (y : Conn) (k : Nat) (x : Conn) (rawData : Bytes) (data : Php), (∀ m', c.shared.conns[m']?.map Conn.opener = some t ↔ m' = m) ∧
      (∀ k', origin c k' = some t ↔ k' = k) ∧ c.shared.conns[m]? = some y ∧ c.shared.conns[k]? = some x ∧
      y.reads.flatten <+: frame body ∧ Gathered y.reads rawData ∧ (x.broken = false → x.sent = rawData) ∧
      x.reads.flatten <+: rawData ∧ Decoded σ x.reads data ∧
      (c.shared.logged.filter fun e => origin c e.1 = some t).map Prod.snd = if data.isArray then [data] else [] := by
  obtain ⟨gs, hTyped, hInv⟩ := inv_reach hReach
  obtain ⟨m, y, k, x, _, rawData, hy, hOpener, hMaster, hFrame, hRelay, _, _, hx, hDest, hOrigin, hSent, hWritten⟩ :=
    delivered hTyped hInv hThread hStatus (relaysDone_of_settled hSettled)
  obtain ⟨rawData', hRelay', hGathered⟩ := master_gathered hTyped hInv hSettled hy hMaster
  obtain rfl := relay_unique hInv hRelay hRelay'
  obtain ⟨data, hDecoded, hLogged⟩ := worker_logged hTyped hInv hSettled hx hDest
  refine ⟨m, y, k, x, rawData, data, fun m' => ⟨fun hm' => ?_, ?_⟩, fun k' => ⟨fun hk' => ?_, ?_⟩, hy, hx,
    (hInv.conn m y hy).reads.trans hFrame, hGathered, hWritten, (hInv.conn k x hx).reads.trans hSent, hDecoded, ?_⟩
  · obtain ⟨y', hy', hOpener'⟩ := Option.map_eq_some_iff.mp hm'
    exact hInv.owner_unique hy' hy (hOpener'.trans hOpener.symm)
  · rintro rfl
    rw [hy, Option.map_some, hOpener]
  · exact origin_unique hTyped hInv hk' hOrigin
  · rintro rfl
    exact hOrigin
  · rw [filter_origin hTyped hInv hOrigin]
    exact hLogged

theorem passing_logged : ∃ c, (system small).run ⟨.initial, []⟩ passing = some c ∧
    c.shared.conns.map Conn.reads = [[[3, 0, 0x5b, 0x31, 0x5d]], [[3, 0, 0x5b, 0x31, 0x5d]]] ∧
    c.shared.logged = [(1, .arr (.cons (.int 0) (.int 1) .nil))] ∧
    ∃ (m : Nat) (y : Conn) (k : Nat) (x : Conn) (rawData : Bytes) (data : Php), c.shared.conns[m]? = some y ∧
      c.shared.conns[k]? = some x ∧ Gathered y.reads rawData ∧ Decoded small x.reads data ∧ (c.shared.logged.filter fun e => origin c e.1 = some 2).map Prod.snd =
        if data.isArray then [data] else [] := by
  have hRun : ((system small).run ⟨.initial, []⟩ passing).map (fun c => (c.shared.conns.map Conn.reads, c.shared.logged)) =
      some ([[[3, 0, 0x5b, 0x31, 0x5d]], [[3, 0, 0x5b, 0x31, 0x5d]]], [(1, .arr (.cons (.int 0) (.int 1) .nil))]) := by
    rfl
  obtain ⟨c, hc, hThread, hSettled, _⟩ := passing_settles
  rw [hc, Option.map_some] at hRun
  obtain ⟨hReads, hLogged⟩ := Prod.mk.inj (Option.some.inj hRun)
  obtain ⟨m, y, k, x, rawData, data, _, _, hy, hx, _, hGathered, _, _, hDecoded, hRuns⟩ :=
    acknowledged_logged small c (reach_of_passing hc) 2 _ _ _ hThread rfl hSettled
  exact ⟨c, hc, hReads, hLogged, m, y, k, x, rawData, data, hy, hx, hGathered, hDecoded, hRuns⟩

end Runs

end TeaBot.Daemon.Relay
