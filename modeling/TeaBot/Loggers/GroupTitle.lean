import TeaBot.Loggers.GroupCalls

/-! # Runs of `resolveGroup`

Calls with fresh `Group` objects, one after the other, against the tables as
`database.sql` creates them.
-/

namespace TeaBot.Loggers.GroupTitle

open Foundation Foundation.Sql Versioned

def call (h : Hashes) (c : GroupCall) (w : World) : Except Throwable (Group × GroupInfo) × World :=
  (Group.resolveGroup c.group).eval (serve h (.resolveGroup c.group)) w

def historyOf (db : Tables Tbl Col) (id : Value) : List (Row Col) :=
  (db .tgGroupHistory).filter fun r => r .groupId = id

/-- The chat has one row, with the call's values, and its newest history row agrees. -/
def Stored (w : World) (c : GroupCall) : Prop :=
  ∃ r, groupsOf w.db c.chatId = [r] ∧ GroupIdentity.ofRow r = c.identity ∧
    (historyOf w.db (r .id)).IsChain (fun a b => rowKey a < rowKey b) ∧
    ((historyOf w.db (r .id)).getLast?).map GroupIdentity.ofRow = some (.ofRow r)

structure Inv (w : World) : Prop extends Steady w where
  linked : Linked False (groups.store w.db)

theorem inv_initial : Inv .initial := ⟨steady_initial, .empty⟩

theorem of_store (db : Tables Tbl Col) (n : Int) :
    (groups.store db).of (.int n) = (groupsOf db n).map groups.record := by
  simp only [Store.of, Versioning.store, List.filter_map]
  rfl

theorem versions_store (db : Tables Tbl Col) (id : Value) :
    (groups.store db).versions id = (historyOf db id).map groups.version := by
  simp only [Store.versions, Versioning.store, List.filter_map]
  rfl

theorem rowKey_of_id {row : Row Col} {k : Int} (hId : row .id = .int k) : rowKey row = k := by
  simp [rowKey, hId, Value.asInt]

section Outcome

variable {c : GroupCall} {d : Data} {w w' : World}

variable {r : Row Col}

theorem Inv.stored (hInv : Inv w) (hMem : r ∈ w.db .tgGroups) (hOwner : r .tgGroupId = .int c.chatId)
    (hIdentity : .ofRow r = c.identity) : Stored w c := by
  have hIn : r ∈ groupsOf w.db c.chatId := List.mem_filter.mpr ⟨hMem, decide_eq_true hOwner⟩
  have hSingle : (groupsOf w.db c.chatId).length ≤ 1 := by
    have hLe := hInv.linked.single (.int c.chatId)
    rwa [of_store, List.length_map] at hLe
  obtain ⟨r', hRows⟩ := List.length_eq_one_iff.mp (le_antisymm hSingle (List.length_pos_of_mem hIn))
  rw [hRows, List.mem_singleton] at hIn
  subst hIn
  have hAgrees := hInv.linked.agrees (groups.record r) (List.mem_map_of_mem hMem)
  have hOrdered := hInv.linked.ordered (r .id)
  rw [versions_store] at hOrdered
  rw [versions_store, List.getLast?_map, Option.map_map] at hAgrees
  refine ⟨r, hRows, hIdentity, ?_, hAgrees⟩
  exact ((List.isChain_map _).mp hOrdered).imp fun _ _ hFollows => hFollows.1

variable {v : Row Col}

theorem newest (hSteady : Steady w) (hId : v .id = .int (w.next .tgGroupHistory)) (id : Value) :
    ∀ x ∈ (groups.store w.db).versions id, x.key < (groups.version v).key := by
  intro x hx
  obtain ⟨v', hv', rfl⟩ := List.mem_map.mp (List.mem_of_mem_filter hx)
  obtain ⟨k, hk, hLt⟩ := hSteady.valid.key .tgGroupHistory v' hv'
  change rowKey v' < rowKey v
  rw [rowKey_of_id hk, rowKey_of_id hId]
  omega

theorem inv_inserted (hInv : Inv w) (hSteady : Steady w')
    (hDb : w'.db = schema.applyAll [.insert .tgGroups r, .insert .tgGroupHistory v] w.db)
    (hNew : ∀ r ∈ w.db .tgGroups, r .tgGroupId ≠ .int c.chatId) (hRow : NewRow c (w.next .tgGroups) r) {p : Value}
    {key : Nat} (hVersion : VersionRow c (w.next .tgGroups) p key v) : Inv w' ∧ Stored w' c := by
  have hStore : groups.store w'.db = (groups.store w.db).insert (groups.record r) (groups.version v) := by
    rw [hDb]
    exact groups.store_insert (by decide) w.db r v
  have hFresh : r .id ∉ (groups.store w.db).ids := by
    intro hMem
    obtain ⟨rec, hRec, hEq⟩ := List.mem_map.mp hMem
    obtain ⟨r', hr', rfl⟩ := List.mem_map.mp hRec
    obtain ⟨k, hk, hLt⟩ := hInv.valid.key .tgGroups r' hr'
    have hInt : (k : Int) = w.next .tgGroups := Value.int.inj (hk.symm.trans (hEq.trans hRow.id))
    omega
  have hNone : (groups.store w.db).of (r .tgGroupId) = [] := by
    rw [hRow.owner, of_store, List.map_eq_nil_iff, groupsOf, List.filter_eq_nil_iff]
    exact fun r' hr' hEq => hNew r' hr' (of_decide_eq_true hEq)
  have hInv' : Inv w' := by
    refine ⟨hSteady, ?_⟩
    rw [hStore]
    exact hInv.linked.insert hFresh hNone (hVersion.ref.trans hRow.id.symm) (hVersion.identity.trans hRow.identity.symm)
  refine ⟨hInv', hInv'.stored (r := r) ?_ hRow.owner hRow.identity⟩
  simp [hDb, Schema.apply]

theorem inv_updated {k : Nat} (hInv : Inv w) (hSteady : Steady w') (hDb : w'.db = schema.applyAll
      [.update .tgGroups .id (.str (toString k)) (updateSets c c.dateTime), .insert .tgGroupHistory v] w.db)
    (hMem : r ∈ w.db .tgGroups) (hOwner : r .tgGroupId = .int c.chatId) (hId : r .id = .int k)
    (hName : r .name = c.identity.name) {p : Value} (hVersion : VersionRow c k p (w.next .tgGroupHistory) v) :
    Inv w' ∧ Stored w' c := by
  have hIdentity : GroupIdentity.ofRow (r.set (updateSets c c.dateTime)) = c.identity :=
    congrArg (GroupIdentity.mk c.identity.username) hName
  have hSet : ∀ r' ∈ w.db .tgGroups, r' .id = .int k →
      GroupIdentity.ofRow (r'.set (updateSets c c.dateTime)) = c.identity := by
    intro r' hr' hId'
    rw [hInv.valid.eq_of_id hr' hMem (hId'.trans hId.symm)]
    exact hIdentity
  have hStore : groups.store w'.db = (groups.store w.db).replace (.int k) c.identity (groups.version v) := by
    rw [hDb]
    exact groups.store_update (by decide) v rfl rfl hSet
  have hInv' : Inv w' := by
    refine ⟨hSteady, ?_⟩
    rw [hStore, ← hId]
    exact hInv.linked.replace (List.mem_map_of_mem hMem) (hVersion.ref.trans hId.symm) hVersion.identity
      (newest hInv.toSteady hVersion.id _) nofun
  refine ⟨hInv', hInv'.stored (r := r.set (updateSets c c.dateTime)) ?_ hOwner hIdentity⟩
  have hUpdated := mem_updated hMem hId (updateSets c c.dateTime)
  rw [hDb, Schema.applyAll_cons, Schema.applyAll_cons, Schema.applyAll_nil]
  exact mem_apply_insert.mpr (.inl hUpdated)

theorem inv_wrote {a : Group × GroupInfo} {log : List (Write Tbl Col)} (hInv : Inv w) (hSteady : Steady w')
    (hDb : w'.db = schema.applyAll log w.db) (hWrote : Wrote w c d a log) : Inv w' ∧ Stored w' c := by
  cases hWrote with
  | same hMem hOwner hId hIdentity hResult hHistory =>
    rw [Schema.applyAll_nil] at hDb
    have hInv' : Inv w' := ⟨hSteady, hDb ▸ hInv.linked⟩
    exact ⟨hInv', hInv'.stored (hDb ▸ hMem) hOwner hIdentity⟩
  | inserted hNew hRow hVersion hResult hHistory => exact inv_inserted hInv hSteady hDb hNew hRow hVersion
  | updated hMem hOwner hId hName hVersion hResult hHistory =>
    exact inv_updated hInv hSteady hDb hMem hOwner hId hName hVersion

theorem call_cases (hInv : Inv w) (h : Hashes) (c : GroupCall) :
    (Accepted w c ∧ ∃ a w', call h c w = (.ok a, w') ∧ Inv w' ∧ Stored w' c) ∨
    (¬ Accepted w c ∧ ∃ e w', call h c w = (.error e, w') ∧ Inv w' ∧ w'.db = w.db) := by
  rcases resolveGroup_cases hInv.toSteady c.reads_data h (.resolveGroup c.group) with
    ⟨hAccepted, a, log, w', hCall, hSteady, hDb, hWrote⟩ | ⟨hNot, e, w', hCall, hSteady, hDb⟩
  · obtain ⟨hInv', hStored⟩ := inv_wrote hInv hSteady hDb hWrote
    exact .inl ⟨hAccepted, a, w', hCall, hInv', hStored⟩
  · exact .inr ⟨hNot, e, w', hCall, ⟨hSteady, hDb ▸ hInv.linked⟩, hDb⟩

end Outcome

/-! ## Runs -/

def after (h : Hashes) (cs : List GroupCall) : World := cs.foldl (fun w c => (call h c w).2) .initial

theorem inv_call {w : World} (hInv : Inv w) (h : Hashes) (c : GroupCall) : Inv (call h c w).2 := by
  rcases call_cases hInv h c with ⟨_, _, _, hCall, hInv', _⟩ | ⟨_, _, _, hCall, hInv', _⟩
  · rw [hCall]
    exact hInv'
  · rw [hCall]
    exact hInv'

theorem inv_after (h : Hashes) (cs : List GroupCall) : Inv (after h cs) := by
  induction cs using List.reverseRecOn with
  | nil => exact inv_initial
  | append_singleton cs c ih =>
    rw [after, List.foldl_append]
    exact inv_call ih h c

/-- After any calls, the next one succeeds and leaves its values in both tables exactly
when they fit and the chat is new or has that title already. -/
theorem resolveGroup_stores_iff (h : Hashes) (cs : List GroupCall) (c : GroupCall) :
    ((∃ a, (call h c (after h cs)).1 = .ok a) ∧ Stored (call h c (after h cs)).2 c) ↔
      Accepted (after h cs) c := by
  rcases call_cases (inv_after h cs) h c with ⟨hAccepted, a, w', hCall, _, hStored⟩ | ⟨hNot, e, w', hCall, _⟩
  · rw [hCall]
    exact ⟨fun _ => hAccepted, fun _ => ⟨⟨a, rfl⟩, hStored⟩⟩
  · rw [hCall]
    constructor
    · rintro ⟨⟨a, hOk⟩, _⟩
      cases hOk
    · exact fun hAccepted => absurd hAccepted hNot

def named (title : String) : GroupCall := ⟨-100, none, some title, "2020-01-01 00:00:00"⟩

/-- A group is renamed: the second call is refused, and the tables keep the old title. -/
theorem resolveGroup_renamed :
    (call plainHashes (named "New") (after plainHashes [named "Old"])).1 =
        .error (pdoException (.unknownColumn .firstName)) ∧
      (groupsOf (call plainHashes (named "New") (after plainHashes [named "Old"])).2.db (-100)).map (· .name) =
        [.str "Old"] := by
  decide +kernel

end TeaBot.Loggers.GroupTitle
