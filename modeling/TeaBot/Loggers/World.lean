import TeaBot.Foundation.Choices
import TeaBot.Foundation.Interleaving
import TeaBot.Loggers.Logger

/-! # The world of the loggers

Every coroutine has a connection of its own. In a transaction its writes stay in its
log, which only it sees, until the commit applies them; outside one each statement takes
effect at once. Auto-increment counters grow whether or not the insertion commits. The
journal lists the committed transactions in order.
-/

namespace TeaBot.Loggers

open Foundation Foundation.Sql

structure World where
  db : Tables Tbl Col
  next : Tbl → Nat
  tx : Nat → Option (List (Write Tbl Col))
  lastId : Nat → Nat
  locks : Mutex → Option Nat
  journal : List (Nat × Job)
  files : String → Option String
  chans : List (List AdminRow)

/-- The tables as `database.sql` creates them. -/
def World.initial : World where
  db := fun _ => []
  next := fun _ => 1
  tx := fun _ => none
  lastId := fun _ => 0
  locks := fun _ => none
  journal := []
  files := fun _ => none
  chans := []

/-- What the environment settles at an operation: that it is carried out, that it
raises, what the API answers, what a download brings, whether a `rename` works, or that
the stat cache has lost a file to another one. -/
inductive Choice
  | ok
  | fail (e : Throwable)
  | answer (v : Php)
  | downloaded (success : Bool) (content : String)
  | renamed (success : Bool)
  | forgotten

/-- The hash functions and `mime_content_type`, by content, and the sort key by which the
server compares texts: the collation decides about letter case, accents and trailing spaces. -/
structure Hashes where
  md5 : String → String
  sha1 : String → String
  mime : String → String
  collate : String → List Nat

/-- Hash functions that keep the content, and a collation that ignores the letter case of
ASCII letters and trailing spaces. -/
def plainHashes : Hashes where
  md5 := id
  sha1 := id
  mime := id
  collate s := (s.toList.reverse.dropWhile (· = ' ')).reverse.map fun c => c.toLower.toNat

namespace World

variable (w : World)

def view (t : Nat) : Tables Tbl Col := schema.applyAll ((w.tx t).getD []) w.db

def write (t : Nat) (ws : List (Write Tbl Col)) : World :=
  match w.tx t with
  | some log => { w with tx := Function.update w.tx t (some (log ++ ws)) }
  | none => { w with db := schema.applyAll ws w.db }

def takeId (t : Nat) (tb : Tbl) : World :=
  { w with
    next := Function.update w.next tb (w.next tb + 1)
    lastId := Function.update w.lastId t (w.next tb) }

def release (t : Nat) (m : Mutex) : World :=
  if w.locks m = some t then { w with locks := Function.update w.locks m none } else w

@[simp] theorem release_tx (t : Nat) (m : Mutex) : (w.release t m).tx = w.tx := by
  rw [release]
  split <;> rfl

@[simp] theorem release_db (t : Nat) (m : Mutex) : (w.release t m).db = w.db := by
  rw [release]
  split <;> rfl

@[simp] theorem release_next (t : Nat) (m : Mutex) : (w.release t m).next = w.next := by
  rw [release]
  split <;> rfl

@[simp] theorem release_journal (t : Nat) (m : Mutex) : (w.release t m).journal = w.journal := by
  rw [release]
  split <;> rfl

def fetchRow (collate : String → List Nat) (t : Nat) (tb : Tbl) (cols : List Col) (key : Col) (v : Php) :
    Option (Col → Php) :=
  ((w.view t tb).find? (schema.selects collate tb key (bindParam v))).map fun row c =>
    if c ∈ cols then fetchValue (row c) else .null

def fetchWhere (collate : String → List Nat) (t : Nat) (tb : Tbl) (cols : List Col) (conds : List (Col × Php)) :
    Option (Col → Php) :=
  ((w.view t tb).find? fun row => conds.all fun (key, v) =>
    schema.selects collate tb key (bindParam v) row).map fun row c => if c ∈ cols then fetchValue (row c) else .null

def execute (t : Nat) (stmt : Stmt Tbl Col) (params : List Php) : Except Throwable Unit × World :=
  match schema.writes (w.view t) w.next stmt (params.map bindParam) with
  | .error e => (.error (pdoException e), w)
  | .ok ws =>
    match stmt with
    | .insert tb _ => (.ok (), (w.takeId t tb).write t ws)
    | _ => (.ok (), w.write t ws)

theorem execute_eq {w w' : World} {t : Nat} {stmt : Stmt Tbl Col} {params : List Php}
    {r : Except Throwable Unit} (h : w.execute t stmt params = (r, w')) :
    (∃ e, r = .error e ∧ w' = w) ∨
      ∃ ws, schema.writes (w.view t) w.next stmt (params.map bindParam) = .ok ws ∧ r = .ok () ∧
        w' = (match stmt with | .insert tb _ => w.takeId t tb | _ => w).write t ws := by
  simp only [execute] at h
  split at h
  · obtain ⟨rfl, rfl⟩ := Prod.mk.inj h
    exact .inl ⟨_, rfl, rfl⟩
  · rename_i ws hWrites
    refine .inr ⟨ws, hWrites, ?_⟩
    split at h <;> exact ⟨(Prod.mk.inj h).1.symm, (Prod.mk.inj h).2.symm⟩

/-- The rows of a multi-row `INSERT` one after the other; one refused row refuses all. -/
def insertRows (t : Nat) (tb : Tbl) (cols : List Col) (params : List (String × Php)) :
    List (List String) → World → Except Throwable Unit × World
  | [], w => (.ok (), w)
  | names :: rest, w =>
    match names.mapM fun name => params.lookup name with
    | none => (.error (pdoException .parameterNumber), w)
    | some vs =>
      match w.execute t (.insert tb cols) vs with
      | (.ok (), w') => insertRows t tb cols params rest w'
      | (.error e, w') => (.error e, w')

def noTransaction : Throwable := .exception "PDOException" "There is no active transaction"

def commit (t : Nat) (j : Job) : Except Throwable Unit × World :=
  match w.tx t with
  | some log =>
    (.ok (), { w with
      db := schema.applyAll log w.db
      tx := Function.update w.tx t none
      journal := w.journal ++ [(t, j)] })
  | none => (.error noTransaction, w)

def rollback (t : Nat) : Except Throwable Unit × World :=
  match w.tx t with
  | some _ => (.ok (), { w with tx := Function.update w.tx t none })
  | none => (.error noTransaction, w)

def beginTransaction (t : Nat) : Except Throwable Unit × World :=
  match w.tx t with
  | some _ => (.error (.exception "PDOException" "There is already an active transaction"), w)
  | none => (.ok (), { w with tx := Function.update w.tx t (some []) })

end World

/-- Locks, channels and the scheduler raise nothing, PDO raises exceptions only, and
what the HTTP client or the file functions raise can be of either family. -/
def Op.raises : Op → Throwable → Bool
  | .connect, e | .beginTransaction, e | .commit, e | .rollback, e | .fetch .., e | .fetchWhere .., e
  | .execute .., e | .executeNamed .., e | .lastInsertId, e => e.isException
  | .exe _, _ | .download .., _ => true
  | _, _ => false

/-- One operation that does not raise by itself; `none` when it has to wait. -/
def carry (h : Hashes) (t : Nat) (j : Job) (w : World) :
    (o : Op) → Choice → Option (Except Throwable o.Res × World)
  | .lock m, .ok =>
    if w.locks m = none then some (.ok (), { w with locks := Function.update w.locks m (some t) })
    else none
  | .unlock m, .ok => some (.ok (), w.release t m)
  | .fclose m, .ok => some (.ok (), w.release t m)
  | .connect, .ok => some (.ok (), w)
  | .beginTransaction, .ok => some (w.beginTransaction t)
  | .commit, .ok => some (w.commit t j)
  | .rollback, .ok => some (w.rollback t)
  | .fetch tb cols key v, .ok => some (.ok (w.fetchRow h.collate t tb cols key v), w)
  | .execute stmt params, .ok => some (w.execute t stmt params)
  | .executeNamed tb cols rows params, .ok =>
    match World.insertRows t tb cols params rows w with
    | (.ok (), w') => some (.ok (), w')
    | (.error e, _) => some (.error e, w)
  | .lastInsertId, .ok => some (.ok (w.lastId t), w)
  | .exe _, .answer v => some (.ok v, w)
  | .errorLog _, .ok => some (.ok (), w)
  | .download _ file, .downloaded success content =>
    some (.ok success, { w with files := Function.update w.files file (some content) })
  -- the cache is right about no file that has been written since
  | .filesize file cached, .ok => some (.ok (cached.getD ((w.files file).elim 0 String.length)), w)
  | .filesize file _, .forgotten => some (.ok ((w.files file).elim 0 String.length), w)
  | .md5File file, .ok => some (.ok ((w.files file).elim "" h.md5), w)
  | .sha1File file, .ok => some (.ok ((w.files file).elim "" h.sha1), w)
  | .mimeContentType file, .ok => some (.ok (h.mime ((w.files file).getD "")), w)
  | .rename source target, .renamed success =>
    if success then
      some (.ok true, { w with
        files := Function.update (Function.update w.files target (w.files source)) source none })
    else some (.ok false, w)
  | .go _, .ok => some (.ok (), w)
  | .newChannel _, .ok => some (.ok w.chans.length, { w with chans := w.chans ++ [[]] })
  | .push chan row, .ok => some (.ok (), { w with chans := w.chans.modify chan (· ++ [row]) })
  | .pop chan, .ok =>
    match w.chans[chan]? with
    | some (row :: rest) => some (.ok row, { w with chans := w.chans.set chan rest })
    | _ => none
  | .fetchWhere tb cols conds, .ok => some (.ok (w.fetchWhere h.collate t tb cols conds), w)
  | _, _ => none

def exec (h : Hashes) (t : Nat) (j : Job) (o : Op) (ch : Choice) (w : World) :
    Option (Except Throwable o.Res × World) :=
  match ch with
  | .fail e => if o.raises e then some (.error e, w) else none
  | ch => carry h t j w o ch

theorem exec_eq_some {h : Hashes} {t : Nat} {j : Job} {o : Op} {ch : Choice} {w w' : World}
    {r : Except Throwable o.Res} (hExec : exec h t j o ch w = some (r, w')) :
    (∃ e, o.raises e = true ∧ r = .error e ∧ w' = w) ∨ carry h t j w o ch = some (r, w') := by
  cases ch with
  | fail e =>
    simp only [exec] at hExec
    split at hExec
    · rename_i hRaises
      obtain ⟨rfl, rfl⟩ := Prod.mk.inj (Option.some.inj hExec)
      exact .inl ⟨e, hRaises, rfl, rfl⟩
    · cases hExec
  | _ => exact .inr hExec

def spawned : (o : Op) → Except Throwable o.Res → List Job
  | .go job, .ok _ => [job]
  | _, _ => []

/-- The coroutines of all logger workers over one database and one lock directory. -/
def system (h : Hashes) : System World Op Op.Res Throwable Unit Job Choice where
  code := code h.md5
  exec := exec h
  spawned := spawned

/-! ## Runs with everything settled written down

A single coroutine on connection 0; every operation may raise what it can raise.
-/

abbrev LoggedWorld := Logged World Op Choice

abbrev LoggedRun (h : Hashes) (j : Job) {α : Type} (p : Run α) (s : LoggedWorld) (out : Except Throwable α)
    (s' : LoggedWorld) : Prop :=
  p.Runs (logged (exec h 0 j)) s out s'

theorem logged_perform {h : Hashes} {j : Job} {s s' : LoggedWorld} {o : Op} {r : Except Throwable o.Res}
    (hRun : LoggedRun h j (perform o) s r s') :
    ∃ ch, exec h 0 j o ch s.state = some (r, s'.state) ∧ s'.log = s.log ++ [(o, ch)] :=
  Prog.Runs.perform_iff.mp hRun

end TeaBot.Loggers
