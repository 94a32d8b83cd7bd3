import Mathlib.Logic.Function.Basic
import TeaBot.Captcha.Runtime
import TeaBot.Foundation.History
import TeaBot.Foundation.Interleaving

/-! # The world of the captchas

The captcha files of the responder processes, with paths and inodes apart: a handle keeps
its inode open after the path is unlinked or created anew. `flock` is exclusive per inode
and belongs to the handle. Time is counted in microseconds and only moves forward. The
trace lists what has been carried out, the latest first.
-/

namespace TeaBot.Captcha

open Foundation Responder

structure Entry where
  time : Nat
  thread : Nat
  event : Event Op Op.Res Throwable

structure World where
  now : Nat
  /-- When a coroutine was last resumed. -/
  since : Nat → Nat
  dirs : String → Bool
  files : Path → Option Nat
  content : Nat → Php
  inodes : Nat
  opened : Nat → Handle → Option Nat
  holder : Nat → Option (Nat × Handle)
  /-- The names below `<dir>/d`. -/
  messages : String → List String
  trace : List Entry

def World.initial : World where
  now := 0
  since := fun _ => 0
  dirs := fun _ => false
  files := fun _ => none
  content := fun _ => .null
  inodes := 0
  opened := fun _ _ => none
  holder := fun _ => none
  messages := fun _ => []
  trace := []

/-- What the environment settles at an operation. -/
inductive Outcome
  | ok
  | fail (e : Throwable)
  | answer (v : Php)
  | point (str : String) (mantissa : Int)
  | latex (url : Option String)

structure Choice where
  /-- The microseconds that pass until the operation is done. -/
  elapsed : Nat := 0
  outcome : Outcome := .ok

/-- Only what goes over HTTP raises. -/
def raises : Op → Bool
  | .exe .. | .genLatex _ => true
  | _ => false

variable {p : Path} {i t : Nat} {h : Handle} {o : Op}

namespace World

variable (w : World)

/-- The directory of the fast locks has been made by the constructor. -/
def hasDir : Path → Bool
  | .captchaFile dir | .lockFile dir => w.dirs dir
  | .fastLockFile _ => true

/-- A path that is opened to append or touched: an empty file is made if there is none. -/
def ensure (p : Path) : World :=
  if (w.files p).isSome || !w.hasDir p then w
  else { w with
    files := Function.update w.files p (some w.inodes)
    content := Function.update w.content w.inodes .null
    inodes := w.inodes + 1 }

def write (p : Path) (v : Php) : World :=
  match (w.ensure p).files p with
  | some i => { w.ensure p with content := Function.update (w.ensure p).content i v }
  | none => w.ensure p

def json (p : Path) : Php :=
  match w.files p with
  | some i => w.content i
  | none => .null

variable {w}

theorem ensure_of_some (h : w.files p = some i) : w.ensure p = w := by
  simp [ensure, h]

theorem ensure_of_none (h : w.files p = none) (hDir : w.hasDir p = true) :
    w.ensure p = { w with
      files := Function.update w.files p (some w.inodes)
      content := Function.update w.content w.inodes .null
      inodes := w.inodes + 1 } := by
  simp [ensure, h, hDir]

theorem files_ensure (hDir : w.hasDir p = true) : ((w.ensure p).files p).isSome = true := by
  cases hFile : w.files p with
  | some i => simp [ensure_of_some hFile, hFile]
  | none => simp [ensure_of_none hFile hDir]

theorem files_ensure_of_ne {q : Path} (h : p ≠ q) : (w.ensure q).files p = w.files p := by
  rw [ensure]
  split
  · rfl
  · exact Function.update_of_ne h _ _

theorem files_write_of_ne {q : Path} (v : Php) (h : p ≠ q) : (w.write q v).files p = w.files p := by
  rw [write]
  split <;> exact files_ensure_of_ne h

@[simp] theorem ensure_opened (p : Path) : (w.ensure p).opened = w.opened := by
  rw [ensure]
  split <;> rfl

@[simp] theorem ensure_holder (p : Path) : (w.ensure p).holder = w.holder := by
  rw [ensure]
  split <;> rfl

@[simp] theorem write_opened (p : Path) (v : Php) : (w.write p v).opened = w.opened := by
  rw [write]
  split <;> exact ensure_opened p

@[simp] theorem write_holder (p : Path) (v : Php) : (w.write p v).holder = w.holder := by
  rw [write]
  split <;> exact ensure_holder p

variable (w)

def release (t : Nat) (h : Handle) : World :=
  { w with holder := fun i => if w.holder i = some (t, h) then none else w.holder i }

def store (t : Nat) (h : Handle) (x : Option Nat) : World :=
  { w.release t h with opened := fun u h' => if u = t ∧ h' = h then x else w.opened u h' }

/-- The file is opened before the handle that was there is closed. -/
def fopen (t : Nat) (h : Handle) (p : Path) : World := (w.ensure p).store t h ((w.ensure p).files p)

def blocked (t : Nat) (h : Handle) : Bool :=
  match w.opened t h with
  | some i => (w.holder i).isSome && w.holder i ≠ some (t, h)
  | none => false

def acquire (t : Nat) (h : Handle) : World :=
  match w.opened t h with
  | some i => { w with holder := Function.update w.holder i (some (t, h)) }
  | none => w

def destruct (t : Nat) : World := (w.store t .lockHandle none).store t .fastLockHandle none

def effect (t : Nat) : Op → World
  | .buildDir dir => { w with dirs := Function.update w.dirs dir true }
  | .fopen h p => w.fopen t h p
  | .flock h => w.acquire t h
  | .unflock h => w.release t h
  | .destruct => w.destruct t
  | .touch p => w.ensure p
  | .writeJson p v => w.write p v
  | .unlink p => { w with files := Function.update w.files p none }
  | .touchMsg dir name =>
    if w.dirs dir && !(w.messages dir).contains name then
      { w with messages := Function.update w.messages dir (w.messages dir ++ [name]) }
    else w
  | .unlinkMsg dir name =>
    { w with messages := Function.update w.messages dir ((w.messages dir).filter (· ≠ name)) }
  | _ => w

def respond (t : Nat) : (o : Op) → Outcome → Option o.Res
  | .buildDir _, .ok | .fopen _ _, .ok | .unflock _, .ok | .destruct, .ok | .touch _, .ok | .writeJson _ _, .ok
  | .unlink _, .ok | .touchMsg _ _, .ok | .unlinkMsg _ _, .ok | .enterFailKick, .ok | .go _, .ok => some ()
  | .flock h, .ok => if w.blocked t h then none else some ()
  | .fileExists p, .ok => some (w.files p).isSome
  | .readJson p, .ok => some (w.json p)
  | .scandir dir, .ok => some (if w.dirs dir then "." :: ".." :: w.messages dir else [])
  | .newFloatingPoint, .point str m => some (str, m)
  | .genLatex _, .latex url => some url
  | .exe .., .answer v => some v
  | .time, .ok => some (w.now / 1000000 : Nat)
  | .usleep n, .ok => if w.since t + n ≤ w.now then some () else none
  | .sleep n, .ok => if w.since t + n * 1000000 ≤ w.now then some () else none
  | _, _ => none

def advance (elapsed : Nat) : World := { w with now := w.now + elapsed }

def record (t : Nat) (event : Event Op Op.Res Throwable) : World :=
  { w with since := Function.update w.since t w.now, trace := ⟨w.now, t, event⟩ :: w.trace }

variable {w}

theorem effect_frame (t : Nat) (o : Op) : (w.effect t o).now = w.now ∧ (w.effect t o).trace = w.trace := by
  cases o with
  | fopen h p =>
    simp only [effect, fopen, store, release, ensure]
    split <;> exact ⟨rfl, rfl⟩
  | flock h =>
    simp only [effect, acquire]
    split <;> exact ⟨rfl, rfl⟩
  | touch p =>
    simp only [effect, ensure]
    split <;> exact ⟨rfl, rfl⟩
  | writeJson p v =>
    simp only [effect, write, ensure]
    split <;> split <;> exact ⟨rfl, rfl⟩
  | touchMsg dir name =>
    simp only [effect]
    split <;> exact ⟨rfl, rfl⟩
  | _ => exact ⟨rfl, rfl⟩

theorem acquire_frame (t : Nat) (h : Handle) : (w.acquire t h).opened = w.opened ∧ (w.acquire t h).files = w.files ∧
    (w.acquire t h).inodes = w.inodes := by
  unfold acquire
  split <;> exact ⟨rfl, rfl, rfl⟩

theorem holder_acquire {u : Nat} {h' : Handle} (hHolder : (w.acquire t h).holder i = some (u, h')) :
    w.holder i = some (u, h') ∨ (u = t ∧ h' = h ∧ w.opened t h = some i) := by
  unfold acquire at hHolder
  split at hHolder
  · rename_i i₀ hi₀
    dsimp only at hHolder
    by_cases hi : i = i₀
    · subst hi
      rw [Function.update_self] at hHolder
      cases hHolder
      exact .inr ⟨rfl, rfl, hi₀⟩
    · rw [Function.update_of_ne hi] at hHolder
      exact .inl hHolder
  · exact .inl hHolder

/-! ### What an operation leaves as it was -/

theorem dirs_ensure (p : Path) : (w.ensure p).dirs = w.dirs := by
  rw [ensure]
  split <;> rfl

theorem dirs_effect (t : Nat) (o : Op) {dir : String} (h : w.dirs dir = true ∨ o = .buildDir dir) :
    (w.effect t o).dirs dir = true := by
  cases o with
  | buildDir dir' =>
    by_cases hDir : dir = dir'
    · exact hDir ▸ Function.update_self _ _ _
    · have hOld : w.dirs dir = true := h.resolve_right fun hEq => hDir (Op.buildDir.inj hEq).symm
      exact (Function.update_of_ne hDir _ _).trans hOld
  | fopen h' p | touch p => exact (congrFun (dirs_ensure p) dir).trans (h.resolve_right nofun)
  | writeJson p v =>
    simp only [effect, write]
    split <;> exact (congrFun (dirs_ensure p) dir).trans (h.resolve_right nofun)
  | flock h' =>
    simp only [effect, acquire]
    split <;> exact h.resolve_right nofun
  | touchMsg dir' name =>
    simp only [effect]
    split <;> exact h.resolve_right nofun
  | _ => exact h.resolve_right nofun

theorem json_ensure (hBound : ∀ i, w.files p = some i → i < w.inodes) (q : Path) :
    (w.ensure q).json p = w.json p ∧ ∀ i, (w.ensure q).files p = some i → i < (w.ensure q).inodes := by
  unfold ensure
  split
  · exact ⟨rfl, hBound⟩
  · rename_i hNew
    have hNone : w.files q = none := by
      simp only [Bool.or_eq_true, not_or, Bool.not_eq_true, Option.isSome_eq_false_iff, Option.isNone_iff_eq_none] at hNew
      exact hNew.1
    by_cases hq : p = q
    · subst hq
      refine ⟨by simp [json, hNone], fun i hi => ?_⟩
      dsimp only at hi ⊢
      rw [Function.update_self] at hi
      cases hi
      exact Nat.lt_succ_self _
    · refine ⟨?_, fun i hi => ?_⟩
      · simp only [json, Function.update_of_ne hq]
        cases hi : w.files p with
        | none => rfl
        | some i => exact Function.update_of_ne (hBound i hi).ne _ _
      · dsimp only at hi ⊢
        rw [Function.update_of_ne hq] at hi
        exact Nat.lt_succ_of_lt (hBound i hi)

theorem files_write (p : Path) (v : Php) : (w.write p v).files = (w.ensure p).files ∧
    (w.write p v).inodes = (w.ensure p).inodes := by
  rw [write]
  split <;> exact ⟨rfl, rfl⟩

theorem json_effect (hBound : ∀ i, w.files p = some i → i < w.inodes) (t : Nat) (o : Op) :
    ((w.effect t o).json p = w.json p ∨ (∃ q v, o = .writeJson q v) ∨ o = .unlink p) ∧
      ∀ i, (w.effect t o).files p = some i → i < (w.effect t o).inodes := by
  cases o with
  | fopen h q | touch q =>
    obtain ⟨hJson, hBound'⟩ := json_ensure hBound q
    exact ⟨.inl hJson, hBound'⟩
  | writeJson q v =>
    obtain ⟨hFiles, hInodes⟩ := files_write (w := w) q v
    refine ⟨.inr (.inl ⟨q, v, rfl⟩), ?_⟩
    rw [effect, hFiles, hInodes]
    exact (json_ensure hBound q).2
  | unlink q =>
    by_cases hq : p = q
    · exact ⟨.inr (.inr (by rw [hq])), fun i hi => by simp [effect, hq] at hi⟩
    · have hFile : (w.effect t (.unlink q)).files p = w.files p := Function.update_of_ne hq _ _
      refine ⟨.inl ?_, hFile ▸ hBound⟩
      rw [json, hFile]
      rfl
  | flock h =>
    simp only [effect, acquire]
    split <;> exact ⟨.inl rfl, hBound⟩
  | touchMsg dir name =>
    simp only [effect]
    split <;> exact ⟨.inl rfl, hBound⟩
  | _ => exact ⟨.inl rfl, hBound⟩

def locking : Op → Bool
  | .fopen .. | .flock _ | .unflock _ | .destruct => true
  | _ => false

theorem locks_effect (t : Nat) (h : locking o = false) :
    (w.effect t o).opened = w.opened ∧ (w.effect t o).holder = w.holder := by
  cases o with
  | fopen | flock | unflock | destruct => cases h
  | touch p => exact ⟨ensure_opened p, ensure_holder p⟩
  | writeJson p v => exact ⟨write_opened p v, write_holder p v⟩
  | touchMsg dir name =>
    simp only [effect]
    split <;> exact ⟨rfl, rfl⟩
  | _ => exact ⟨rfl, rfl⟩

theorem inodes_le_ensure (p : Path) : w.inodes ≤ (w.ensure p).inodes := by
  rw [ensure]
  split
  · exact le_rfl
  · exact Nat.le_succ _

theorem inodes_le_effect (t : Nat) (o : Op) : w.inodes ≤ (w.effect t o).inodes := by
  cases o with
  | fopen h p | touch p => exact inodes_le_ensure p
  | writeJson p v =>
    simp only [effect, write]
    split <;> exact inodes_le_ensure p
  | flock h =>
    simp only [effect, acquire]
    split <;> exact le_rfl
  | touchMsg dir name =>
    simp only [effect]
    split <;> exact le_rfl
  | _ => exact le_rfl

def makes (p : Path) : Op → Prop
  | .fopen _ q | .touch q | .writeJson q _ => q = p
  | _ => False

/-- A path names what it named before, or has been made or unlinked. -/
theorem files_effect (t : Nat) (o : Op) (p : Path) :
    (w.effect t o).files p = w.files p ∨ makes p o ∨ (o = .unlink p ∧ (w.effect t o).files p = none) := by
  cases o with
  | fopen h q | touch q =>
    by_cases hq : q = p
    · exact .inr (.inl hq)
    · exact .inl (files_ensure_of_ne (Ne.symm hq))
  | writeJson q v =>
    by_cases hq : q = p
    · exact .inr (.inl hq)
    · exact .inl (files_write_of_ne v (Ne.symm hq))
  | unlink q =>
    by_cases hq : q = p
    · subst hq
      exact .inr (.inr ⟨rfl, Function.update_self _ _ _⟩)
    · exact .inl (Function.update_of_ne (Ne.symm hq) _ _)
  | flock h =>
    simp only [effect, acquire]
    split <;> exact .inl rfl
  | touchMsg dir name =>
    simp only [effect]
    split <;> exact .inl rfl
  | _ => exact .inl rfl

end World

/-- Where a coroutine stands with one of its handles. -/
inductive Grip
  | free
  | waiting
  | held
  deriving DecidableEq

def Grip.after (h : Handle) (g : Grip) : Op → Grip
  | .fopen h' _ => if h' = h then .waiting else g
  | .flock h' => if h' = h then .held else g
  | .unflock h' => if h' = h then .free else g
  | .destruct => .free
  | _ => g

/-- A call on a captcha object. -/
inductive Job
  | dropCaptcha (d : Data) (rounds : Nat)
  | checkAnswer (d : Data)
  | isHavingCaptcha (d : Data)
  /-- A message with a text, as `Response::run` handles it as far as captchas go. -/
  | message (d : Data)
  /-- `fastLock`, a critical section and `fastUnlock`, again and again. -/
  | sections (d : Data) (bodies : List (Run Unit))
  | task (task : Task)

def sections (d : Data) : List (Run Unit) → Run Unit
  | [] => pure ()
  | body :: rest => do
    fastLock d
    body
    fastUnlock d
    sections d rest

def message (d : Data) : Run Unit := do
  let having ← isHavingCaptcha d
  Prog.when having (checkAnswer d)

def code : Job → Run Unit
  | .dropCaptcha d rounds => withObject (dropCaptcha d rounds)
  | .checkAnswer d => withObject (checkAnswer d)
  | .isHavingCaptcha d => withObject ((isHavingCaptcha d).bind fun _ => pure ())
  | .message d => withObject (message d)
  | .sections d bodies => withObject (sections d bodies)
  | .task (.deleteMessage chatId messageId) =>
    (perform (.exe (.deleteMessage chatId messageId) false)).bind fun _ => pure ()
  | .task (.timer d rounds) => withObject (timer d rounds)

def exec (t : Nat) (_ : Job) (o : Op) (ch : Choice) (w : World) : Option (Except Throwable o.Res × World) :=
  match ch.outcome with
  | .fail e => if raises o then some (.error e, (w.advance ch.elapsed).record t ⟨o, .error e⟩) else none
  | out => ((w.advance ch.elapsed).respond t o out).map fun a =>
      (.ok a, ((w.advance ch.elapsed).effect t o).record t ⟨o, .ok a⟩)

def spawned : (o : Op) → Except Throwable o.Res → List Job
  | .go task, .ok _ => [.task task]
  | _, _ => []

def system : System World Op Op.Res Throwable Unit Job Choice where
  code := code
  exec := exec
  spawned := spawned

theorem exec_eq_some {j : Job} {ch : Choice} {w w' : World} {r : Except Throwable o.Res}
    (h : exec t j o ch w = some (r, w')) :
    (∃ e, raises o = true ∧ r = .error e ∧ w' = (w.advance ch.elapsed).record t ⟨o, r⟩) ∨
      ∃ a, (w.advance ch.elapsed).respond t o ch.outcome = some a ∧ r = .ok a ∧
        w' = ((w.advance ch.elapsed).effect t o).record t ⟨o, r⟩ := by
  obtain ⟨elapsed, out⟩ := ch
  cases out with
  | fail e =>
    simp only [exec] at h
    split at h
    · rename_i hRaises
      obtain ⟨rfl, rfl⟩ := Prod.mk.inj (Option.some.inj h)
      exact .inl ⟨e, hRaises, rfl, rfl⟩
    · cases h
  | _ =>
    obtain ⟨a, ha, hEq⟩ := Option.map_eq_some_iff.mp h
    obtain ⟨rfl, rfl⟩ := Prod.mk.inj hEq
    exact .inr ⟨a, ha, rfl, rfl⟩

theorem fail_of_exec {j : Job} {ch : Choice} {w w' : World} {e : Throwable}
    (h : exec t j o ch w = some (.error e, w')) :
    raises o = true ∧ ch.outcome = .fail e := by
  obtain ⟨elapsed, out⟩ := ch
  cases out with
  | fail e' =>
    simp only [exec] at h
    split at h
    · rename_i hRaises
      cases h
      exact ⟨hRaises, rfl⟩
    · cases h
  | _ =>
    obtain ⟨a, _, hEq⟩ := Option.map_eq_some_iff.mp h
    cases hEq

section Exec

variable {t : Nat} {j : Job} {o : Op} {ch : Choice} {w w' : World} {r : Except Throwable o.Res}

theorem trace_of_exec (h : exec t j o ch w = some (r, w')) :
    w'.now = w.now + ch.elapsed ∧ w'.trace = ⟨w'.now, t, ⟨o, r⟩⟩ :: w.trace := by
  rcases exec_eq_some h with ⟨e, _, rfl, rfl⟩ | ⟨a, _, rfl, rfl⟩
  · exact ⟨rfl, rfl⟩
  · obtain ⟨hNow, hTrace⟩ := World.effect_frame (w := w.advance ch.elapsed) t o
    exact ⟨hNow, congrArg _ hTrace⟩

theorem ne_beyond_of_exec (h : exec t j o ch w = some (r, w')) : o ≠ .beyond := by
  rintro rfl
  rcases exec_eq_some h with ⟨e, hRaises, _⟩ | ⟨a, hRespond, _⟩
  · cases hRaises
  · simp [World.respond] at hRespond

theorem files_of_exec (h : exec t j o ch w = some (r, w')) (p : Path) :
    w'.files p = w.files p ∨ World.makes p o ∨ (o = .unlink p ∧ w'.files p = none) := by
  rcases exec_eq_some h with ⟨e, _, rfl, rfl⟩ | ⟨a, _, rfl, rfl⟩
  · exact .inl rfl
  · exact World.files_effect t o p

theorem json_of_exec (h : exec t j o ch w = some (r, w')) (hBound : ∀ i, w.files p = some i → i < w.inodes) :
    (w'.json p = w.json p ∨ (∃ q v, o = .writeJson q v) ∨ o = .unlink p) ∧
      ∀ i, w'.files p = some i → i < w'.inodes := by
  rcases exec_eq_some h with ⟨e, _, rfl, rfl⟩ | ⟨a, _, rfl, rfl⟩
  · exact ⟨.inl rfl, hBound⟩
  · exact World.json_effect (w := w.advance ch.elapsed) hBound t o

theorem dirs_of_exec {dir : String} (h : exec t j o ch w = some (r, w')) (hDir : w.dirs dir = true ∨ o = .buildDir dir) :
    w'.dirs dir = true := by
  rcases exec_eq_some h with ⟨e, hRaises, rfl, rfl⟩ | ⟨a, _, rfl, rfl⟩
  · refine hDir.resolve_right ?_
    rintro rfl
    cases hRaises
  · exact World.dirs_effect (w := w.advance ch.elapsed) t o hDir

theorem locks_of_exec (h : exec t j o ch w = some (r, w')) (hLocking : World.locking o = false) :
    w'.opened = w.opened ∧ w'.holder = w.holder := by
  rcases exec_eq_some h with ⟨e, _, rfl, rfl⟩ | ⟨a, _, rfl, rfl⟩
  · exact ⟨rfl, rfl⟩
  · exact World.locks_effect (w := w.advance ch.elapsed) t hLocking

theorem raises_not_locking (h : raises o = true) : World.locking o = false := by
  cases o with
  | exe => rfl
  | genLatex str => rfl
  | _ => cases h

theorem holder_of_exec {u : Nat} (hExec : exec t j o ch w = some (r, w')) (hHolder : w'.holder i = some (u, h)) :
    (w.holder i = some (u, h) ∧ (u = t → o ≠ .unflock h ∧ o ≠ .destruct)) ∨ (u = t ∧ o = .flock h) := by
  by_cases hLocking : World.locking o = false
  · rw [(locks_of_exec hExec hLocking).2] at hHolder
    refine .inl ⟨hHolder, fun _ => ⟨?_, ?_⟩⟩ <;> rintro rfl <;> cases hLocking
  · rcases exec_eq_some hExec with ⟨e, hRaises, _⟩ | ⟨a, _, rfl, rfl⟩
    · exact absurd (raises_not_locking hRaises) hLocking
    · have hEffect : ((w.advance ch.elapsed).effect t o).holder i = some (u, h) := hHolder
      cases o with
      | fopen h' p =>
        simp only [World.effect, World.fopen, World.store, World.release, World.ensure_holder] at hEffect
        split at hEffect
        · cases hEffect
        · exact .inl ⟨hEffect, fun _ => ⟨nofun, nofun⟩⟩
      | flock h' =>
        rcases World.holder_acquire hEffect with hOld | ⟨rfl, rfl, _⟩
        · exact .inl ⟨hOld, fun _ => ⟨nofun, nofun⟩⟩
        · exact .inr ⟨rfl, rfl⟩
      | unflock h' =>
        simp only [World.effect, World.release] at hEffect
        split at hEffect
        · cases hEffect
        · rename_i hNot
          refine .inl ⟨hEffect, ?_⟩
          rintro rfl
          refine ⟨?_, nofun⟩
          rintro ⟨⟩
          exact hNot hEffect
      | destruct =>
        simp only [World.effect, World.destruct, World.store, World.release] at hEffect
        split at hEffect
        · cases hEffect
        · rename_i hLock
          split at hEffect
          · cases hEffect
          · rename_i hFast
            refine .inl ⟨hEffect, ?_⟩
            rintro rfl
            cases h with
            | lockHandle => exact absurd hEffect hLock
            | fastLockHandle => exact absurd hEffect hFast
      | _ => exact absurd rfl hLocking

theorem unblocked_of_exec {r : Except Throwable Unit} (hExec : exec t j (.flock h) ch w = some (r, w')) :
    w.blocked t h = false := by
  rcases exec_eq_some hExec with ⟨e, hRaises, _⟩ | ⟨a, hRespond, _⟩
  · cases hRaises
  · cases hBlocked : w.blocked t h with
    | false => rfl
    | true =>
      have hAdvance : (w.advance ch.elapsed).blocked t h = true := hBlocked
      cases hOut : ch.outcome <;> simp [World.respond, hOut, hAdvance] at hRespond

theorem exists_of_exec {b : Bool} (h : exec t j (.fileExists p) ch w = some (.ok b, w')) : b = (w.files p).isSome := by
  rcases exec_eq_some h with ⟨e, hRaises, _⟩ | ⟨a, hRespond, hEq, _⟩
  · cases hRaises
  · cases hEq
    cases hOut : ch.outcome <;> simp only [hOut, World.respond, reduceCtorEq] at hRespond
    exact (Option.some.inj hRespond).symm

end Exec

/-! ## The fast lock under a discipline -/

section Discipline

variable {S : Type} {T : Discipline Op Op.Res Throwable S} {d : Data} {s m n : S}

section

variable (hRaises : ∀ o e, T.answers o (.error e) → raises o = true)

include hRaises

theorem perform_silent (hSilent : raises o = false) (hAdmits : T.admits s o) (hAfter : ∀ a, T.after s o (.ok a) = m) :
    (perform o).Keeps T (Prog.Silent m) s :=
  .perform_silent hAdmits (fun e he => absurd (hRaises o e he) (by simp [hSilent])) hAfter

theorem fastLock_silent (hOpen : T.admits s (.fopen .fastLockHandle (fastLockFile d)))
    (hOpened : T.after s (.fopen .fastLockHandle (fastLockFile d)) (.ok ()) = m)
    (hLock : T.admits m (.flock .fastLockHandle)) (hLocked : T.after m (.flock .fastLockHandle) (.ok ()) = n) :
    (fastLock d).Keeps T (Prog.Silent n) s :=
  .silent_then (perform_silent hRaises rfl hOpen fun _ => hOpened) fun _ =>
    perform_silent hRaises rfl hLock fun _ => hLocked

theorem fastUnlock_silent (hUnlock : T.admits s (.unflock .fastLockHandle))
    (hUnlocked : T.after s (.unflock .fastLockHandle) (.ok ()) = m) (hUnlink : T.admits m (.unlink (fastLockFile d)))
    (hUnlinked : T.after m (.unlink (fastLockFile d)) (.ok ()) = n) : (fastUnlock d).Keeps T (Prog.Silent n) s :=
  .silent_then (perform_silent hRaises rfl hUnlock fun _ => hUnlocked) fun _ =>
    perform_silent hRaises rfl hUnlink fun _ => hUnlinked

end

end Discipline

end TeaBot.Captcha
