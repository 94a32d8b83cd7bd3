import TeaBot.Captcha.World
import TeaBot.Foundation.Runs

/-! # The folder of one user

What the directory of a chat and a user holds, and what has been done outside: the API
calls with their answers and the coroutines that were started, the latest first. Locks,
inodes and the clock are left out. A call that runs alone does to the folder of its user
what its operations do here.
-/

namespace TeaBot.Captcha

open Foundation Responder

structure Folder where
  made : Bool
  /-- The content of `info.json`. -/
  info : Option Php
  /-- The names below `d`. -/
  messages : List String
  calls : List (Api × Except Throwable Php)
  tasks : List Task

def callOf : (o : Op) → Except Throwable o.Res → Option (Api × Except Throwable Php)
  | .exe call _, r => some (call, r)
  | _, _ => none

def taskOf : Op → Option Task
  | .go task => some task
  | _ => none

def callsIn (entries : List Entry) : List (Api × Except Throwable Php) :=
  entries.filterMap fun e => callOf e.event.op e.event.answer

def tasksIn (entries : List Entry) : List Task := entries.filterMap fun e => taskOf e.event.op

def World.folder (dir : String) (w : World) : Folder where
  made := w.dirs dir
  info := (w.files (.captchaFile dir)).map w.content
  messages := w.messages dir
  calls := callsIn w.trace
  tasks := tasksIn w.trace

abbrev Environment := (o : Op) → Except Throwable o.Res → Bool

def anything : Environment := fun _ _ => true

namespace Folder

def touched (f : Folder) (name : String) : Folder :=
  if f.made && !f.messages.contains name then { f with messages := f.messages ++ [name] } else f

def effect (dir : String) (f : Folder) : Op → Folder
  | .buildDir dir' => if dir' = dir then { f with made := true } else f
  | .fopen _ p | .touch p =>
    if p = .captchaFile dir ∧ f.made = true then { f with info := some (f.info.getD .null) } else f
  | .writeJson p v =>
    if p = .captchaFile dir ∧ (f.made || f.info.isSome) = true then { f with info := some v } else f
  | .unlink p => if p = .captchaFile dir then { f with info := none } else f
  | .touchMsg dir' name => if dir' = dir then f.touched name else f
  | .unlinkMsg dir' name =>
    if dir' = dir then { f with messages := f.messages.filter (· ≠ name) } else f
  | _ => f

def after (dir : String) (f : Folder) (o : Op) (r : Except Throwable o.Res) : Folder :=
  { f.effect dir o with
    calls := (callOf o r).toList ++ f.calls
    tasks := (taskOf o).toList ++ f.tasks }

theorem effect_frame {f : Folder} (dir : String) (o : Op) :
    (f.effect dir o).calls = f.calls ∧ (f.effect dir o).tasks = f.tasks := by
  cases o with
  | touchMsg dir' name =>
    simp only [effect, touched]
    split
    · split <;> exact ⟨rfl, rfl⟩
    · exact ⟨rfl, rfl⟩
  | buildDir | fopen | touch | writeJson | unlink | unlinkMsg =>
    simp only [effect]
    split <;> exact ⟨rfl, rfl⟩
  | _ => exact ⟨rfl, rfl⟩

def Answers (dir : String) (f : Folder) : (o : Op) → Except Throwable o.Res → Prop
  | o, .error _ => raises o = true
  | .fileExists p, .ok b => p = .captchaFile dir → b = f.info.isSome
  | .readJson p, .ok v => p = .captchaFile dir → v = f.info.getD .null
  | .scandir dir', .ok names => dir' = dir → names = if f.made then "." :: ".." :: f.messages else []
  | _, .ok _ => True

def Step (E : Environment) (dir : String) (o : Op) (f : Folder)
    (r : Except Throwable o.Res) (f' : Folder) : Prop :=
  f.Answers dir o r ∧ E o r = true ∧ f' = f.after dir o r

end Folder

/-! ## The folder in the world -/

def Allocated (p : Path) (w : World) : Prop := ∀ i, w.files p = some i → i < w.inodes

theorem info_of_json {dir : String} {w : World} {v : Php} (h : w.json (.captchaFile dir) = v) (hArray : v.isArray = true) :
    (w.folder dir).info = some v := by
  unfold World.json at h
  cases hFile : w.files (.captchaFile dir) with
  | none =>
    rw [hFile] at h
    subst h
    cases hArray
  | some i =>
    rw [hFile] at h
    simpa [World.folder, hFile] using h

section Simulation

variable {dir : String} {w w' : World} {t : Nat} {j : Job} {o : Op} {ch : Choice} {r : Except Throwable o.Res}

section

variable (hBound : Allocated (.captchaFile dir) w)

include hBound

theorem info_ensure (q : Path) :
    ((w.ensure q).files (.captchaFile dir)).map (w.ensure q).content =
      if q = .captchaFile dir ∧ w.dirs dir = true then some (((w.files (.captchaFile dir)).map w.content).getD .null)
      else (w.files (.captchaFile dir)).map w.content := by
  cases hFile : w.files (.captchaFile dir) with
  | some i =>
    have hContent : (w.ensure q).files (.captchaFile dir) = some i ∧ (w.ensure q).content i = w.content i := by
      unfold World.ensure
      split
      · exact ⟨hFile, rfl⟩
      · rename_i hNew
        have hq : Path.captchaFile dir ≠ q := by
          rintro rfl
          simp [hFile] at hNew
        exact ⟨(Function.update_of_ne hq _ _).trans hFile, Function.update_of_ne (hBound i hFile).ne _ _⟩
    rw [hContent.1]
    simp [hContent.2]
  | none =>
    by_cases hq : q = .captchaFile dir
    · subst hq
      cases hMade : w.dirs dir <;> simp [World.ensure, hFile, World.hasDir, hMade]
    · rw [World.files_ensure_of_ne (Ne.symm hq), hFile, if_neg fun h => hq h.1]
      rfl

theorem folder_ensure (q : Path) :
    (w.ensure q).folder dir =
      if q = .captchaFile dir ∧ w.dirs dir = true then
        { w.folder dir with info := some ((w.folder dir).info.getD .null) }
      else w.folder dir := by
  have hInfo := info_ensure hBound q
  have hFrame : (w.ensure q).dirs = w.dirs ∧ (w.ensure q).messages = w.messages ∧ (w.ensure q).trace = w.trace := by
    unfold World.ensure
    split <;> exact ⟨rfl, rfl, rfl⟩
  rw [World.folder, hInfo, hFrame.1, hFrame.2.1, hFrame.2.2]
  split <;> rfl

theorem folder_write (v : Php) :
    (w.write (.captchaFile dir) v).folder dir =
      if ((w.folder dir).made || (w.folder dir).info.isSome) = true then { w.folder dir with info := some v }
      else w.folder dir := by
  have hEnsure := folder_ensure hBound (.captchaFile dir)
  unfold World.write
  split
  · rename_i i hi
    have hWritten : World.folder dir { w.ensure (.captchaFile dir) with
        content := Function.update (w.ensure (.captchaFile dir)).content i v } =
        { (w.ensure (.captchaFile dir)).folder dir with info := some v } := by
      simp [World.folder, hi]
    have hInfo : ((w.ensure (.captchaFile dir)).folder dir).info = some ((w.ensure (.captchaFile dir)).content i) := by
      simp [World.folder, hi]
    rw [hWritten]
    rw [hEnsure] at hInfo ⊢
    cases hMade : (w.folder dir).made with
    | true => simp [show w.dirs dir = true from hMade]
    | false =>
      rw [if_neg fun h => Bool.false_ne_true (hMade.symm.trans h.2)] at hInfo ⊢
      simp [hInfo]
  · rename_i hNone
    have hInfo : ((w.ensure (.captchaFile dir)).folder dir).info = none := by
      simp [World.folder, hNone]
    rw [hEnsure] at hInfo ⊢
    cases hMade : (w.folder dir).made with
    | true => simp [show w.dirs dir = true from hMade] at hInfo
    | false =>
      rw [if_neg fun h => Bool.false_ne_true (hMade.symm.trans h.2)] at hInfo ⊢
      simp [hInfo]

theorem folder_effect (hWrite : ∀ p v, o = .writeJson p v → p = .captchaFile dir) :
    (w.effect t o).folder dir = (w.folder dir).effect dir o := by
  cases o with
  | buildDir dir' | unlinkMsg dir' name =>
    by_cases hDir : dir' = dir
    · subst hDir
      simp [World.effect, World.folder, Folder.effect]
    · simp [World.effect, World.folder, Folder.effect, hDir, Function.update_of_ne (Ne.symm hDir)]
  | fopen h q | touch q => exact folder_ensure hBound q
  | writeJson q v =>
    obtain rfl := hWrite q v rfl
    rw [World.effect, folder_write hBound, Folder.effect]
    simp
  | unlink q =>
    by_cases hq : q = .captchaFile dir
    · subst hq
      simp [World.effect, World.folder, Folder.effect]
    · simp [World.effect, World.folder, Folder.effect, hq, Function.update_of_ne (Ne.symm hq)]
  | touchMsg dir' name =>
    by_cases hDir : dir' = dir
    · subst hDir
      rw [World.effect, Folder.effect, if_pos rfl, Folder.touched]
      by_cases hNew : (w.dirs dir' && !(w.messages dir').contains name) = true
      · rw [if_pos hNew, if_pos (show ((w.folder dir').made && !(w.folder dir').messages.contains name) = true from hNew)]
        simp [World.folder]
      · rw [if_neg hNew, if_neg (show ¬ ((w.folder dir').made && !(w.folder dir').messages.contains name) = true from hNew)]
    · simp only [World.effect, Folder.effect, hDir, if_false]
      split
      · simp [World.folder, Function.update_of_ne (Ne.symm hDir)]
      · rfl
  | flock h =>
    simp only [World.effect, World.acquire]
    split <;> rfl
  | _ => rfl

end

theorem folder_record (e : Event Op Op.Res Throwable) :
    (w.record t e).folder dir =
      { w.folder dir with
        calls := (callOf e.op e.answer).toList ++ (w.folder dir).calls
        tasks := (taskOf e.op).toList ++ (w.folder dir).tasks } := by
  have hCalls : callsIn (w.record t e).trace = (callOf e.op e.answer).toList ++ callsIn w.trace := by
    unfold callsIn World.record
    rw [List.filterMap_cons]
    cases callOf e.op e.answer <;> rfl
  have hTasks : tasksIn (w.record t e).trace = (taskOf e.op).toList ++ tasksIn w.trace := by
    unfold tasksIn World.record
    rw [List.filterMap_cons]
    cases taskOf e.op <;> rfl
  rw [World.folder, hCalls, hTasks]
  rfl

theorem answers_of_respond {out : Outcome} {a : o.Res} (h : w.respond t o out = some a) :
    (w.folder dir).Answers dir o (.ok a) := by
  cases o with
  | fileExists p =>
    rintro rfl
    cases out <;> simp only [World.respond, reduceCtorEq] at h
    rw [← Option.some.inj h]
    simp [World.folder]
  | readJson p =>
    rintro rfl
    cases out <;> simp only [World.respond, reduceCtorEq] at h
    rw [← Option.some.inj h, World.json]
    cases hFile : w.files (.captchaFile dir) <;> simp [World.folder, hFile]
  | scandir dir' =>
    rintro rfl
    cases out <;> simp only [World.respond, reduceCtorEq] at h
    exact (Option.some.inj h).symm
  | _ => trivial

theorem folder_of_exec (hWrite : ∀ p v, o = .writeJson p v → p = .captchaFile dir)
    (hExec : exec t j o ch w = some (r, w')) (hBound : Allocated (.captchaFile dir) w) :
    (w.folder dir).Answers dir o r ∧ w'.folder dir = (w.folder dir).after dir o r ∧ Allocated (.captchaFile dir) w' := by
  have hBound' : Allocated (.captchaFile dir) w' := (json_of_exec hExec hBound).2
  rcases exec_eq_some hExec with ⟨e, hRaises, rfl, rfl⟩ | ⟨a, hRespond, rfl, rfl⟩
  · refine ⟨?_, ?_, hBound'⟩
    · cases o <;> exact hRaises
    · rw [folder_record, Folder.after]
      cases o with
      | exe | genLatex => rfl
      | _ => cases hRaises
  · refine ⟨answers_of_respond (w := w.advance ch.elapsed) hRespond, ?_, hBound'⟩
    obtain ⟨hCalls, hTasks⟩ := Folder.effect_frame (f := w.folder dir) dir o
    rw [folder_record, folder_effect (w := w.advance ch.elapsed) hBound hWrite, Folder.after, ← hCalls, ← hTasks]
    rfl

end Simulation

end TeaBot.Captcha
