import TeaBot.Foundation.Typestate
import TeaBot.Loggers.Downloads

/-! # The stages of `resolveFile`

A call looks the file up under the lock of its id. If there is no row it downloads the
file and inserts one, outside any transaction.
-/

namespace TeaBot.Loggers.File

open Foundation Foundation.Sql

structure Request where
  tgFileId : String
  dateTime : String
  deriving DecidableEq

def Request.mutex (h : Hashes) (x : Request) : Mutex := Mutex.new "tg_files" (h.md5 x.tgFileId)

def Spells (h : Hashes) (v : Php) (tgFileId : String) : Prop :=
  ∃ s, (bindParam v).text = .str s ∧ h.collate s = h.collate tgFileId

inductive Stage
  | outside
  | locked
  /-- There is no row; the file is being downloaded. -/
  | missing
  | inserted
  /-- The result is settled. -/
  | known (r : Option Nat)
  | released (r : Option Nat)
  | failing
  | ended

namespace Stage

def Admits (h : Hashes) (x : Request) : Stage → Op → Prop
  | .outside, .lock m => m = x.mutex h
  | .locked, .fetch tb cols key v => tb = .tgFiles ∧ cols = [.id] ∧ key = .tgFileId ∧ v = .str x.tgFileId
  | .missing, .execute stmt params =>
    stmt = .insert .tgFiles insertCols ∧ ∃ v rest, params = v :: rest ∧ Spells h v x.tgFileId
  | .missing, .exe call => call = .getFile x.tgFileId
  | .inserted, .lastInsertId => True
  | .missing, .unlock m => m = x.mutex h
  | .known _, .unlock m => m = x.mutex h
  | _, .fclose m => m = x.mutex h
  | .missing, o => Offline o
  | _, _ => False

def after : Stage → (o : Op) → Except Throwable o.Res → Stage
  | .outside, .lock _, .ok _ => .locked
  | .locked, .fetch .., .ok (some u) => .known ((u .id).intParam.map Int.toNat)
  | .locked, .fetch .., .ok none => .missing
  | .missing, .execute .., .ok _ => .inserted
  | .missing, .execute .., .error _ => .failing
  | .inserted, .lastInsertId, .ok n => .known (some n)
  | .missing, .unlock _, _ => .released none
  | .known r, .unlock _, _ => .released r
  | .released r, .fclose _, _ => .released r
  | _, .fclose _, _ => .ended
  | .missing, _, _ => .missing
  | _, _, _ => .failing

end Stage

/-- A `getFile` answer that passes the check carries the id asked for, as the collation has it. -/
def Echoes (h : Hashes) : (o : Op) → Except Throwable o.Res → Prop
  | .exe (.getFile tgFileId), .ok v =>
    fieldsSet (v.get (.str "result")) = true → Spells h ((v.get (.str "result")).read "file_id") tgFileId
  | _, _ => True

def stages (h : Hashes) (x : Request) : Discipline Op Op.Res Throwable Stage where
  admits := Stage.Admits h x
  answers o r := (∀ e, r = .error e → o.raises e = true) ∧ Echoes h o r
  after := Stage.after

section Program

variable {h : Hashes} {x : Request} {j : Php} {ext : Option String} {tmpFile : String}

variable {o : Op}

theorem admits_offline (hOffline : Offline o) (hExe : ∀ call, o = .exe call → call = .getFile x.tgFileId) :
    Stage.missing.Admits h x o := by
  cases o <;> first | exact hOffline | exact hExe _ rfl | cases hOffline

theorem after_offline (hOffline : Offline o) (r : Except Throwable o.Res) : Stage.missing.after o r = .missing := by
  cases o <;> first | rfl | cases hOffline

theorem offline_keeps (hOffline : Offline o) (hExe : ∀ call, o ≠ .exe call) :
    (perform o).Keeps (stages h x) (fun _ s => s = .missing) .missing :=
  .perform (admits_offline hOffline fun call hCall => absurd hCall (hExe call)) fun r _ => after_offline hOffline r

def Fetched (j : Php) (out : Except Throwable (Option Download)) (s : Stage) : Prop :=
  s = .missing ∧ ∀ u, out = .ok (some u) → u.j = j

theorem Fetched.raised (e : Throwable) : Fetched j (.error e) .missing := ⟨rfl, fun _ hEq => by cases hEq⟩

theorem Fetched.none : Fetched j (.ok none) .missing := ⟨rfl, fun _ hEq => by cases hEq⟩

theorem offline_then {f : o.Res → Run (Option Download)} (hOffline : Offline o) (hExe : ∀ call, o ≠ .exe call)
    (hf : ∀ a, (f a).Keeps (stages h x) (Fetched j) .missing) :
    ((perform o).bind f).Keeps (stages h x) (Fetched j) .missing := by
  refine .bind (offline_keeps hOffline hExe) ?_ ?_
  · rintro a _ rfl
    exact hf a
  · rintro e _ rfl
    exact .raised e

theorem store_keeps : (store j ext tmpFile).Keeps (stages h x) (Fetched j) .missing := by
  rw [store_eq]
  refine offline_then rfl (fun _ hEq => by cases hEq) fun md5Hash => ?_
  refine offline_then rfl (fun _ hEq => by cases hEq) fun sha1Hash => ?_
  refine offline_then rfl (fun _ hEq => by cases hEq) fun moved => ?_
  have hSome : Fetched j (.ok (some ⟨placeOf ext md5Hash sha1Hash, md5Hash, sha1Hash, ext, j⟩)) .missing := by
    refine ⟨rfl, fun u hEq => ?_⟩
    cases hEq
    rfl
  cases moved with
  | true => exact hSome
  | false =>
    refine offline_then rfl (fun _ hEq => by cases hEq) fun kept => ?_
    cases kept with
    | true => exact hSome
    | false => exact .none

theorem attempt_keeps (stat : Option Nat) : (attempt j tmpFile stat).Keeps (stages h x) (fun _ s => s = .missing) .missing := by
  refine .bind (Q := fun _ s => s = .missing) ?_ ?_ fun _ _ hs => hs
  · refine .tryCatch (offline_keeps rfl fun _ hEq => (by cases hEq)) (fun _ _ hs => hs) ?_
    rintro e _ rfl
    split <;> rfl
  · rintro success _ rfl
    cases success with
    | false => rfl
    | true => exact .bind (offline_keeps rfl fun _ hEq => (by cases hEq)) (fun _ _ hs => hs) fun _ _ hs => hs

theorem downloadFrom_keeps (fuel downTry : Nat) (stat : Option Nat) :
    (downloadFrom j ext tmpFile fuel downTry stat).Keeps (stages h x) (Fetched j) .missing := by
  induction fuel generalizing downTry stat with
  | zero => exact .none
  | succ fuel ih =>
    refine .bind (attempt_keeps stat) ?_ ?_
    · rintro ⟨complete, stat'⟩ _ rfl
      cases complete with
      | true => exact store_keeps
      | false =>
        change (if downTry + 1 > 5 then pure none else downloadFrom j ext tmpFile fuel (downTry + 1) stat' :
          Run (Option Download)).Keeps _ _ _
        split
        · exact .none
        · exact ih (downTry + 1) stat'
    · rintro e _ rfl
      exact .raised e

/-- What is downloaded for `x` goes by its id. -/
theorem downloadFile_keeps (uniqId : String) :
    (downloadFile x.tgFileId uniqId).Keeps (stages h x)
      (fun out s => s = .missing ∧ ∀ u, out = .ok (some u) → Spells h (u.j.read "file_id") x.tgFileId) .missing := by
  rw [downloadFile_eq]
  refine .perform_bind rfl (fun _ _ => ⟨rfl, fun _ hEq => by cases hEq⟩) fun v hv => ?_
  split
  · rename_i hFields
    refine (downloadFrom_keeps 6 0 none).mono fun out s hOut => ⟨hOut.1, fun u hu => ?_⟩
    rw [hOut.2 u hu]
    exact hv.2 hFields
  · exact ⟨rfl, fun _ hEq => by cases hEq⟩

def Settled {α : Type} (result : α → Option Nat) (out : Except Throwable α) (s : Stage) : Prop :=
  match out with
  | .ok a => s = .known (result a) ∨ (s = .missing ∧ result a = none)
  | .error _ => True

theorem insertFile_keeps {u : Download} {dateTime : String} (hSpells : Spells h (u.j.read "file_id") x.tgFileId) :
    (insertFile u dateTime).Keeps (stages h x) (Settled some) .missing := by
  refine .bind (offline_keeps rfl fun _ hEq => (by cases hEq)) ?_ ?_
  · rintro mime _ rfl
    refine .perform_bind ⟨rfl, _, _, rfl, hSpells⟩ (fun _ _ => trivial) fun _ _ => .perform trivial fun r _ => ?_
    cases r with
    | error e => trivial
    | ok n => exact .inl rfl
  · exact fun _ _ _ => trivial

theorem resolveOrDownload_keeps (uniqId : String) :
    (resolveOrDownload x.tgFileId uniqId x.dateTime).Keeps (stages h x) (Settled id) .locked := by
  refine .perform_bind ⟨rfl, rfl, rfl, rfl⟩ (fun _ _ => trivial) fun row _ => ?_
  cases row with
  | some u => exact .inl rfl
  | none =>
    refine .bind (downloadFile_keeps uniqId) ?_ ?_
    · rintro found _ ⟨rfl, hFound⟩
      cases found with
      | none => exact .inr ⟨rfl, rfl⟩
      | some u => exact .bind (insertFile_keeps (hFound u rfl)) (fun _ _ hs => hs) fun _ _ hs => hs
    · exact fun _ _ _ => trivial

theorem admits_fclose (s : Stage) : s.Admits h x (.fclose (x.mutex h)) := by
  cases s <;> rfl

theorem resolveFile_keeps :
    (resolveFile h.md5 x.tgFileId x.dateTime).Keeps (stages h x) (fun out s => ∀ r, out = .ok r → s = .released r)
      .outside := by
  refine .tryFinally (Q := fun out s => ∀ r, out = .ok r → s = .released r) ?_ fun out s hOut => ?_
  · refine .perform_bind rfl (fun _ _ _ hEq => by cases hEq) fun _ _ => ?_
    refine .bind (resolveOrDownload_keeps (h.md5 x.tgFileId)) ?_ fun _ _ _ _ hEq => by cases hEq
    intro r s hSettled
    have hUnlock : s.Admits h x (.unlock (x.mutex h)) ∧ s.after (.unlock (x.mutex h)) (.ok ()) = .released r := by
      rcases hSettled with rfl | ⟨rfl, rfl⟩ <;> exact ⟨rfl, rfl⟩
    refine .perform_bind hUnlock.1 (fun _ _ _ hEq => by cases hEq) fun _ _ r' hEq => ?_
    cases hEq
    exact hUnlock.2
  · refine .perform (admits_fclose s) fun r hr => ?_
    cases r with
    | ok _ =>
      intro r hEq
      rw [hOut r hEq]
      rfl
    | error e => exact absurd (hr.1 e rfl) Bool.false_ne_true

end Program

end TeaBot.Loggers.File
