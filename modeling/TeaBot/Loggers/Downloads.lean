import Mathlib.Data.List.TakeWhile
import TeaBot.Loggers.Footprint
import TeaBot.Loggers.World

/-! # What a download leaves behind

The runs of `File::downloadFile`, with the outcome of every download and every `rename`
in their log.
-/

namespace TeaBot.Loggers.File

open Foundation

inductive Tried
  | raised (e : Throwable)
  | answered (success : Bool) (content : String)
  deriving DecidableEq

def Tried.complete (size : Rat) : Tried → Bool
  | .raised _ => false
  | .answered success content => success && decide (size ≤ content.length)

def Tried.short (size : Rat) : Tried → Bool
  | .raised _ => false
  | .answered success content => success && !decide (size ≤ content.length)

def tried : Op × Choice → Option Tried
  | (.download .., .fail e) => some (.raised e)
  | (.download .., .downloaded success content) => some (.answered success content)
  | _ => none

abbrev tries (log : List (Op × Choice)) : List Tried := log.filterMap tried

def moved : Op × Choice → Option (String × String × Bool)
  | (.rename source target, .renamed success) => some (source, target, success)
  | _ => none

abbrev moves (log : List (Op × Choice)) : List (String × String × Bool) := log.filterMap moved

/-- `$fixFile` -/
def placeOf (ext : Option String) (md5Hash sha1Hash : String) : String :=
  withExt (genIndexDir fileDir (md5Hash ++ sha1Hash) ++ "/" ++ md5Hash ++ sha1Hash) ext

/-- `$fixFileRecover` -/
def recoverOf (ext : Option String) (md5Hash sha1Hash : String) : String :=
  withExt (tmpDir ++ "/" ++ md5Hash ++ sha1Hash) ext

variable {r : Except Throwable Bool}

variable {o : Op} {path : String}

section Steps

variable {h : Hashes} {j : Job} {s s' : LoggedWorld}

theorem logged_look {r : Except Throwable o.Res} {a : o.Res} (hRaises : ∀ e, o.raises e = false)
    (hOk : carry h 0 j s.state o .ok = some (.ok a, s.state)) (hOnly : ∀ ch, ch ≠ .ok → carry h 0 j s.state o ch = none)
    (hRun : LoggedRun h j (perform o) s r s') : r = .ok a ∧ s' = ⟨s.state, s.log ++ [(o, .ok)]⟩ := by
  obtain ⟨ch, hExec, hLog⟩ := logged_perform hRun
  rcases exec_eq_some hExec with ⟨e, hRaise, _⟩ | hCarry
  · rw [hRaises e] at hRaise
    cases hRaise
  · by_cases hCh : ch = .ok
    · subst hCh
      rw [hOk] at hCarry
      obtain ⟨rfl, hState⟩ := Prod.mk.inj (Option.some.inj hCarry)
      cases s'
      simp_all
    · rw [hOnly ch hCh] at hCarry
      cases hCarry

variable {file : String}

theorem logged_download (hRun : LoggedRun h j (perform (.download path file)) s r s') :
    (∃ e : Throwable, r = .error e ∧ s' = ⟨s.state, s.log ++ [(.download path file, .fail e)]⟩) ∨
      ∃ (success : Bool) (content : String), r = .ok success ∧
        s' = ⟨{ s.state with files := Function.update s.state.files file (some content) },
          s.log ++ [(.download path file, .downloaded success content)]⟩ := by
  obtain ⟨ch, hExec, hLog⟩ := logged_perform hRun
  cases s' with
  | mk w' log' =>
    cases ch with
    | fail e =>
      cases hExec
      exact .inl ⟨e, rfl, congrArg _ hLog⟩
    | downloaded success content =>
      cases hExec
      exact .inr ⟨success, content, rfl, congrArg _ hLog⟩
    | _ => cases hExec

theorem logged_filesize {cached : Option Nat} {r : Except Throwable Nat}
    (hRun : LoggedRun h j (perform (.filesize file cached)) s r s') :
    ∃ ch n, r = .ok n ∧ s' = ⟨s.state, s.log ++ [(.filesize file cached, ch)]⟩ ∧
      (n ∈ cached ∨ n = (s.state.files file).elim 0 String.length) := by
  obtain ⟨ch, hExec, hLog⟩ := logged_perform hRun
  cases s' with
  | mk w' log' =>
    cases ch with
    | ok =>
      cases hExec
      refine ⟨.ok, _, rfl, congrArg _ hLog, ?_⟩
      cases cached with
      | none => exact .inr rfl
      | some n => exact .inl rfl
    | forgotten =>
      cases hExec
      exact ⟨.forgotten, _, rfl, congrArg _ hLog, .inr rfl⟩
    | _ => cases hExec

theorem logged_md5File {r : Except Throwable String} (hRun : LoggedRun h j (perform (.md5File file)) s r s') :
    r = .ok ((s.state.files file).elim "" h.md5) ∧ s' = ⟨s.state, s.log ++ [(.md5File file, .ok)]⟩ := by
  refine logged_look (fun _ => rfl) rfl (fun ch hCh => ?_) hRun
  cases ch <;> first | rfl | exact absurd rfl hCh

theorem logged_sha1File {r : Except Throwable String} (hRun : LoggedRun h j (perform (.sha1File file)) s r s') :
    r = .ok ((s.state.files file).elim "" h.sha1) ∧ s' = ⟨s.state, s.log ++ [(.sha1File file, .ok)]⟩ := by
  refine logged_look (fun _ => rfl) rfl (fun ch hCh => ?_) hRun
  cases ch <;> first | rfl | exact absurd rfl hCh

theorem logged_rename {source target : String} (hRun : LoggedRun h j (perform (.rename source target)) s r s') :
    (r = .ok true ∧ s' = ⟨{ s.state with
        files := Function.update (Function.update s.state.files target (s.state.files source)) source none },
          s.log ++ [(.rename source target, .renamed true)]⟩) ∨
      (r = .ok false ∧ s' = ⟨s.state, s.log ++ [(.rename source target, .renamed false)]⟩) := by
  obtain ⟨ch, hExec, hLog⟩ := logged_perform hRun
  cases s' with
  | mk w' log' =>
    cases ch with
    | renamed success =>
      cases success with
      | true =>
        cases hExec
        exact .inl ⟨rfl, congrArg _ hLog⟩
      | false =>
        cases hExec
        exact .inr ⟨rfl, congrArg _ hLog⟩
    | _ => cases hExec

end Steps

variable {t : Tried}

variable {fuel downTry : Nat}

section Loop

variable {h : Hashes} {job : Job} {s s' : LoggedWorld} {j : Php} {ext : Option String} {tmpFile : String}

structure Attempted (s : LoggedWorld) (tmpFile : String) (t : Tried) (s' : LoggedWorld) : Prop where
  tries : tries s'.log = tries s.log ++ [t]
  moves : moves s'.log = moves s.log
  files : ∀ f, f ≠ tmpFile → s'.state.files f = s.state.files f

theorem attempted_raised (s : LoggedWorld) (path tmpFile : String) (e : Throwable) :
    Attempted s tmpFile (.raised e) ⟨s.state, s.log ++ [(.download path tmpFile, .fail e)]⟩ where
  tries := by simp [tries, tried]
  moves := by simp [moves, moved]
  files _ _ := rfl

theorem attempted_answered (s : LoggedWorld) (path tmpFile : String) (success : Bool) (content : String) :
    Attempted s tmpFile (.answered success content)
      ⟨{ s.state with files := Function.update s.state.files tmpFile (some content) },
        s.log ++ [(.download path tmpFile, .downloaded success content)]⟩ where
  tries := by simp [tries, tried]
  moves := by simp [moves, moved]
  files _ hf := Function.update_of_ne hf _ _

theorem Attempted.sized (hDid : Attempted s tmpFile t s') (file : String) (cached : Option Nat) (ch : Choice) :
    Attempted s tmpFile t ⟨s'.state, s'.log ++ [(.filesize file cached, ch)]⟩ where
  tries := by
    rw [← hDid.tries]
    simp [File.tries, tried]
  moves := by
    rw [← hDid.moves]
    simp [File.moves, moved]
  files := hDid.files

theorem caught_download_cases
    (hRun : LoggedRun h job (catchException (perform (.download path tmpFile)) fun _ => pure false) s r s') :
    ∃ t, Attempted s tmpFile t s' ∧
      ((∃ success content, r = .ok success ∧ t = .answered success content ∧ s'.state.files tmpFile = some content) ∨
        (∃ e, r = .ok false ∧ t = .raised e ∧ e.isException = true) ∨
        ∃ e, r = .error e ∧ t = .raised e ∧ e.isException = false) := by
  rcases Prog.Runs.tryCatch_cases hRun with ⟨success, rfl, hDownload⟩ | ⟨e, s₁, hDownload, hHandler⟩
  · rcases logged_download hDownload with ⟨_, hEq, _⟩ | ⟨_, content, hEq, rfl⟩
    · cases hEq
    · cases hEq
      exact ⟨_, attempted_answered s path tmpFile success content,
        .inl ⟨success, content, rfl, rfl, Function.update_self ..⟩⟩
  · rcases logged_download hDownload with ⟨_, hEq, rfl⟩ | ⟨_, _, hEq, _⟩
    · cases hEq
      split at hHandler
      · rename_i hException
        cases hHandler
        exact ⟨_, attempted_raised s path tmpFile e, .inr (.inl ⟨e, rfl, rfl, hException⟩)⟩
      · rename_i hError
        cases hHandler
        exact ⟨_, attempted_raised s path tmpFile e, .inr (.inr ⟨e, rfl, rfl, Bool.eq_false_iff.mpr hError⟩)⟩
    · cases hEq

variable {stat : Option Nat}

/-- One pass over `download:` with a size `stat` in the stat cache that was too small. Only
then can a complete file be taken for a short one. -/
theorem attempt_cases (hStat : ∀ n ∈ stat, ¬ number (j.read "file_size") ≤ n)
    {out : Except Throwable (Bool × Option Nat)} (hRun : LoggedRun h job (attempt j tmpFile stat) s out s') :
    ∃ t, Attempted s tmpFile t s' ∧
      ((∃ content stat', out = .ok (true, stat') ∧ t = .answered true content ∧
          number (j.read "file_size") ≤ content.length ∧ s'.state.files tmpFile = some content) ∨
        (∃ stat', out = .ok (false, stat') ∧ (∀ n ∈ stat', ¬ number (j.read "file_size") ≤ n) ∧
          (t.complete (number (j.read "file_size")) = true → stat.isSome = true) ∧
          stat'.isSome = (stat.isSome || t.short (number (j.read "file_size")))) ∨
        ∃ e, out = .error e ∧ t = .raised e ∧ e.isException = false) := by
  rcases hRun.bind_cases with ⟨e, rfl, hTry⟩ | ⟨success, s₁, hTry, hRest⟩
  · obtain ⟨t, hDid, ⟨_, _, hEq, _⟩ | ⟨_, hEq, _⟩ | ⟨_, hEq, rfl, hError⟩⟩ := caught_download_cases hTry
    · cases hEq
    · cases hEq
    · cases hEq
      exact ⟨_, hDid, .inr (.inr ⟨e, rfl, rfl, hError⟩)⟩
  · obtain ⟨t, hDid, ⟨_, content, hEq, rfl, hFile⟩ | ⟨e, hEq, rfl, hException⟩ | ⟨_, hEq, _⟩⟩ :=
      caught_download_cases hTry
    · cases hEq
      cases success with
      | false =>
        cases hRest
        exact ⟨_, hDid, .inr (.inl ⟨stat, rfl, hStat, by simp [Tried.complete], by simp [Tried.short]⟩)⟩
      | true =>
        rcases Prog.Runs.bind_cases hRest with ⟨_, _, hSize⟩ | ⟨size, s₂, hSize, hRet⟩
        · obtain ⟨_, _, hEq, _⟩ := logged_filesize hSize
          cases hEq
        · obtain ⟨ch, n, hEq, rfl, hn⟩ := logged_filesize hSize
          cases hEq
          cases hRet
          refine ⟨_, hDid.sized tmpFile stat ch, ?_⟩
          have hn : size ∈ stat ∨ size = content.length := by simpa [hFile] using hn
          by_cases hLong : number (j.read "file_size") ≤ (size : Nat)
          · rcases hn with hCached | rfl
            · exact absurd hLong (hStat size hCached)
            · exact .inl ⟨content, some content.length, by simp [hLong], rfl, hLong, hFile⟩
          · refine .inr (.inl ⟨some size, by simp [hLong], by simpa using hLong, fun hComplete => ?_, ?_⟩)
            · rcases hn with hCached | rfl
              · exact Option.isSome_of_mem hCached
              · simp [Tried.complete, hLong] at hComplete
            · rcases hn with hCached | rfl
              · simp [Option.isSome_of_mem hCached]
              · simp [Tried.short, hLong]
    · cases hEq
      cases hRest
      exact ⟨_, hDid, .inr (.inl ⟨stat, rfl, hStat, by simp [Tried.complete], by simp [Tried.short]⟩)⟩
    · cases hEq

/-- Outcomes that the loop can pass by: a complete file only once a short one has been seen. -/
def Blinded (size : Rat) : Bool → List Tried → Prop
  | _, [] => True
  | seen, t :: rest => (t.complete size = true → seen = true) ∧ Blinded size (seen || t.short size) rest

variable {out : Except Throwable (Option Download)}

/-- The loop: attempts that are passed by, then a complete one that is stored, or no more
attempts, or an error that no handler names. -/
theorem downloadFrom_cases (hStat : ∀ n ∈ stat, ¬ number (j.read "file_size") ≤ n) (hFuel : fuel + downTry = 6)
    (hRun : LoggedRun h job (downloadFrom j ext tmpFile fuel downTry stat) s out s') :
    ∃ failed : List Tried, Blinded (number (j.read "file_size")) stat.isSome failed ∧
      ((∃ (content : String) (s₁ : LoggedWorld), number (j.read "file_size") ≤ content.length ∧ failed.length < fuel ∧
          tries s₁.log = tries s.log ++ failed ++ [.answered true content] ∧ moves s₁.log = moves s.log ∧
          (∀ f, f ≠ tmpFile → s₁.state.files f = s.state.files f) ∧ s₁.state.files tmpFile = some content ∧
          LoggedRun h job (store j ext tmpFile) s₁ out s') ∨
        (out = .ok none ∧ failed.length = fuel ∧ tries s'.log = tries s.log ++ failed) ∨
        ∃ e : Throwable, out = .error e ∧ e.isException = false ∧ failed.length < fuel ∧
          tries s'.log = tries s.log ++ failed ++ [.raised e]) := by
  induction fuel generalizing s downTry stat with
  | zero =>
    cases hRun
    exact ⟨[], trivial, .inr (.inl ⟨rfl, rfl, by simp⟩)⟩
  | succ fuel ih =>
    rcases Prog.Runs.bind_cases hRun with ⟨e, rfl, hAttempt⟩ | ⟨⟨complete, stat'⟩, s₁, hAttempt, hRest⟩
    · obtain ⟨t, hDid, ⟨_, _, hEq, _⟩ | ⟨_, hEq, _⟩ | ⟨_, hEq, rfl, hError⟩⟩ := attempt_cases hStat hAttempt
      · cases hEq
      · cases hEq
      · cases hEq
        exact ⟨[], trivial, .inr (.inr ⟨e, rfl, hError, fuel.succ_pos, by simpa using hDid.tries⟩)⟩
    · obtain ⟨t, hDid, ⟨content, _, hEq, rfl, hLong, hFile⟩ | ⟨_, hEq, hStat', hSeen, hSome⟩ | ⟨_, hEq, _⟩⟩ :=
        attempt_cases hStat hAttempt
      · cases hEq
        exact ⟨[], trivial, .inl ⟨content, s₁, hLong, fuel.succ_pos, by simpa using hDid.tries, hDid.moves, hDid.files,
          hFile, hRest⟩⟩
      · cases hEq
        have hRetry : LoggedRun h job
            (if downTry + 1 > 5 then pure none else downloadFrom j ext tmpFile fuel (downTry + 1) stat') s₁ out s' :=
              hRest
        by_cases hLast : downTry + 1 > 5
        · rw [if_pos hLast] at hRetry
          cases hRetry
          refine ⟨[t], ⟨hSeen, trivial⟩, .inr (.inl ⟨rfl, ?_, hDid.tries⟩)⟩
          simp
          omega
        · rw [if_neg hLast] at hRetry
          obtain ⟨failed, hFailed, hCases⟩ := ih hStat' (by omega) hRetry
          refine ⟨t :: failed, ⟨hSeen, hSome ▸ hFailed⟩, ?_⟩
          rcases hCases with ⟨content, s₂, hLong, hLen, hTries, hMoves, hFiles, hFile, hStore⟩ | ⟨rfl, hLen, hTries⟩ |
            ⟨e, hEq, hError, hLen, hTries⟩
          · refine .inl ⟨content, s₂, hLong, Nat.succ_lt_succ hLen, ?_, hMoves.trans hDid.moves, ?_, hFile, hStore⟩
            · rw [hTries, hDid.tries]
              simp
            · exact fun f hf => (hFiles f hf).trans (hDid.files f hf)
          · refine .inr (.inl ⟨rfl, congrArg _ hLen, ?_⟩)
            rw [hTries, hDid.tries]
            simp
          · refine .inr (.inr ⟨e, hEq, hError, Nat.succ_lt_succ hLen, ?_⟩)
            rw [hTries, hDid.tries]
            simp
      · cases hEq

def place (j : Php) (ext : Option String) (tmpFile md5Hash sha1Hash : String) : Run (Option Download) := do
  if ← perform (.rename tmpFile (placeOf ext md5Hash sha1Hash)) then
    pure (some ⟨placeOf ext md5Hash sha1Hash, md5Hash, sha1Hash, ext, j⟩)
  else if ← perform (.rename tmpFile (recoverOf ext md5Hash sha1Hash)) then
    pure (some ⟨placeOf ext md5Hash sha1Hash, md5Hash, sha1Hash, ext, j⟩)
  else pure none

theorem store_eq : store j ext tmpFile =
    (perform (.md5File tmpFile)).bind fun md5Hash =>
      (perform (.sha1File tmpFile)).bind fun sha1Hash => place j ext tmpFile md5Hash sha1Hash := rfl

theorem place_cases {md5Hash sha1Hash : String}
    (hRun : LoggedRun h job (place j ext tmpFile md5Hash sha1Hash) s out s') :
    tries s'.log = tries s.log ∧
      ((out = .ok (some ⟨placeOf ext md5Hash sha1Hash, md5Hash, sha1Hash, ext, j⟩) ∧
          moves s'.log = moves s.log ++ [(tmpFile, placeOf ext md5Hash sha1Hash, true)] ∧
          s'.state.files = Function.update (Function.update s.state.files
            (placeOf ext md5Hash sha1Hash) (s.state.files tmpFile)) tmpFile none) ∨
        (out = .ok (some ⟨placeOf ext md5Hash sha1Hash, md5Hash, sha1Hash, ext, j⟩) ∧
          moves s'.log = moves s.log ++ [(tmpFile, placeOf ext md5Hash sha1Hash, false),
            (tmpFile, recoverOf ext md5Hash sha1Hash, true)] ∧
          s'.state.files = Function.update (Function.update s.state.files
            (recoverOf ext md5Hash sha1Hash) (s.state.files tmpFile)) tmpFile none) ∨
        (out = .ok none ∧ moves s'.log = moves s.log ++ [(tmpFile, placeOf ext md5Hash sha1Hash, false),
          (tmpFile, recoverOf ext md5Hash sha1Hash, false)])) := by
  rcases hRun.bind_cases with ⟨_, _, hMove⟩ | ⟨done, s₁, hMove, hRest⟩
  · rcases logged_rename hMove with ⟨hEq, _⟩ | ⟨hEq, _⟩ <;> cases hEq
  rcases logged_rename hMove with ⟨hEq, rfl⟩ | ⟨hEq, rfl⟩
  · cases hEq
    cases hRest
    exact ⟨by simp [tries, tried], .inl ⟨rfl, by simp [moves, moved], rfl⟩⟩
  · cases hEq
    rcases Prog.Runs.bind_cases hRest with ⟨_, _, hMove⟩ | ⟨done, s₁, hMove, hRest⟩
    · rcases logged_rename hMove with ⟨hEq, _⟩ | ⟨hEq, _⟩ <;> cases hEq
    rcases logged_rename hMove with ⟨hEq, rfl⟩ | ⟨hEq, rfl⟩
    · cases hEq
      cases hRest
      exact ⟨by simp [tries, tried], .inr (.inl ⟨rfl, by simp [moves, moved], rfl⟩)⟩
    · cases hEq
      cases hRest
      exact ⟨by simp [tries, tried], .inr (.inr ⟨rfl, by simp [moves, moved]⟩)⟩

theorem store_cases {content : String} (hFile : s.state.files tmpFile = some content)
    (hRun : LoggedRun h job (store j ext tmpFile) s out s') :
    ∃ s₁ : LoggedWorld, s₁.state = s.state ∧ tries s₁.log = tries s.log ∧ moves s₁.log = moves s.log ∧
      LoggedRun h job (place j ext tmpFile (h.md5 content) (h.sha1 content)) s₁ out s' := by
  rw [store_eq] at hRun
  rcases hRun.bind_cases with ⟨_, _, hMd5⟩ | ⟨md5Hash, s₁, hMd5, hRest⟩
  · obtain ⟨hEq, _⟩ := logged_md5File hMd5
    cases hEq
  obtain ⟨hEq, rfl⟩ := logged_md5File hMd5
  rw [hFile] at hEq
  cases hEq
  rcases hRest.bind_cases with ⟨_, _, hSha1⟩ | ⟨sha1Hash, s₁, hSha1, hPlace⟩
  · obtain ⟨hEq, _⟩ := logged_sha1File hSha1
    cases hEq
  obtain ⟨hEq, rfl⟩ := logged_sha1File hSha1
  rw [hFile] at hEq
  cases hEq
  refine ⟨_, ?_, ?_, ?_, hPlace⟩
  · rfl
  · simp [tries, tried]
  · simp [moves, moved]

end Loop

/-- `isset($j["file_id"], $j["file_unique_id"], $j["file_size"], $j["file_path"])` -/
def fieldsSet (j : Php) : Bool :=
  ["file_id", "file_unique_id", "file_size", "file_path"].all fun f => (j.get (.str f)).isset

def tmpFileOf (j : Php) (uniqId : String) : String :=
  withExt (tmpDir ++ "/" ++ uniqId) (extension (j.read "file_path").toStr)

def loop (j : Php) (uniqId : String) : Run (Option Download) :=
  downloadFrom j (extension (j.read "file_path").toStr) (tmpFileOf j uniqId) 6 0 none

theorem downloadFile_eq (tgFileId uniqId : String) : downloadFile tgFileId uniqId =
    (perform (.exe (.getFile tgFileId))).bind fun answer =>
      if fieldsSet (answer.get (.str "result")) then loop (answer.get (.str "result")) uniqId else .ret none := rfl

section Results

variable {h : Hashes} {job : Job} {tgFileId uniqId : String} {s : LoggedWorld} {w w' : World} {v : Php}
  {log : List (Op × Choice)} {out : Except Throwable (Option Download)}

theorem logged_exe {call : Api} {r : Except Throwable Php} {s' : LoggedWorld}
    (hRun : LoggedRun h job (perform (.exe call)) s r s') :
    (∃ e : Throwable, r = .error e ∧ s' = ⟨s.state, s.log ++ [(.exe call, .fail e)]⟩) ∨
      ∃ v : Php, r = .ok v ∧ s' = ⟨s.state, s.log ++ [(.exe call, .answer v)]⟩ := by
  obtain ⟨ch, hExec, hLog⟩ := logged_perform hRun
  cases s' with
  | mk w' log' =>
    cases ch with
    | fail e =>
      cases hExec
      exact .inl ⟨e, rfl, congrArg _ hLog⟩
    | answer v =>
      cases hExec
      exact .inr ⟨v, rfl, congrArg _ hLog⟩
    | _ => cases hExec

section Outcomes

variable {size : Rat} {tape failed : List Tried}

end Outcomes

variable {tape : List Tried}

section Passed

variable {j : Php} {stat : Option Nat}

theorem attempt_raised {e : Throwable} (hException : e.isException = true) (tmpFile : String) (s : LoggedWorld) :
    LoggedRun h job (attempt j tmpFile stat) s (.ok (false, stat))
      ⟨s.state, s.log ++ [(.download (j.read "file_path").toStr tmpFile, .fail e)]⟩ := by
  refine Prog.replay_runs (?_ : (attempt j tmpFile stat).replay (exec h 0 job) [.fail e] s = _)
  simp [attempt, catchException, perform, Prog.perform, Prog.replay, exec, Op.raises, hException]

end Passed

variable {j : Php}

variable {log₀ : List (Op × Choice)}

end Results

def getFileAnswer (fileId : String) (size : Int) : Php :=
  .obj [("result", .obj [("file_id", .str fileId), ("file_unique_id", .str "q"), ("file_size", .int size),
    ("file_path", .str "photo")])]

theorem genIndexDir_below (dir hash : String) : ∃ l, (genIndexDir dir hash).toList = dir.toList ++ l := by
  rw [genIndexDir]
  generalize splitPairs _ = parts
  induction parts generalizing dir with
  | nil => exact ⟨[], by simp⟩
  | cons part parts ih =>
    obtain ⟨l, hl⟩ := ih (dir ++ "/" ++ part)
    exact ⟨'/' :: part.toList ++ l, by rw [List.foldl_cons, hl]; simp⟩

theorem withExt_below (name : String) (ext : Option String) : ∃ l, (withExt name ext).toList = name.toList ++ l := by
  cases ext with
  | none => exact ⟨[], by simp [withExt]⟩
  | some ext => exact ⟨'.' :: ext.toList, by simp [withExt]⟩

theorem placeOf_below (ext : Option String) (md5Hash sha1Hash : String) :
    ∃ l, (placeOf ext md5Hash sha1Hash).toList = '/' :: 'f' :: l := by
  obtain ⟨l₁, h₁⟩ := withExt_below (genIndexDir fileDir (md5Hash ++ sha1Hash) ++ "/" ++ md5Hash ++ sha1Hash) ext
  obtain ⟨l₂, h₂⟩ := genIndexDir_below fileDir (md5Hash ++ sha1Hash)
  rw [placeOf, h₁]
  simp only [String.toList_append, h₂]
  exact ⟨_, rfl⟩

theorem placeOf_ne (ext ext' : Option String) (md5Hash sha1Hash name : String) :
    placeOf ext md5Hash sha1Hash ≠ withExt (tmpDir ++ "/" ++ name) ext' := by
  intro hEq
  obtain ⟨l₁, h₁⟩ := placeOf_below ext md5Hash sha1Hash
  obtain ⟨l₂, h₂⟩ := withExt_below (tmpDir ++ "/" ++ name) ext'
  rw [hEq, h₂, String.toList_append, String.toList_append] at h₁
  have hSecond := congrArg (fun l => l[1]?) h₁
  exact absurd hSecond (by simp [tmpDir])

theorem placeOf_ne_recoverOf (ext : Option String) (md5Hash sha1Hash : String) :
    placeOf ext md5Hash sha1Hash ≠ recoverOf ext md5Hash sha1Hash := by
  have hNe := placeOf_ne ext ext md5Hash sha1Hash (md5Hash ++ sha1Hash)
  rwa [← String.append_assoc] at hNe

/-- The file named by `fix_file` is there and has the hashes that go with it. -/
def Recorded (h : Hashes) (u : Download) (w : World) : Prop :=
  ∃ content, w.files u.fixFile = some content ∧ h.md5 content = u.md5 ∧ h.sha1 content = u.sha1

section Places

variable {h : Hashes} {job : Job} {tgFileId uniqId : String} {w w' : World} {u : Download} {log : List (Op × Choice)}

theorem downloadFile_some (hRun : LoggedRun h job (downloadFile tgFileId uniqId) ⟨w, []⟩ (.ok (some u)) ⟨w', log⟩) :
    ∃ j log₁, moves log₁ = [] ∧ LoggedRun h job (loop j uniqId) ⟨w, log₁⟩ (.ok (some u)) ⟨w', log⟩ := by
  rw [downloadFile_eq] at hRun
  rcases hRun.bind_cases with ⟨_, hEq, _⟩ | ⟨answer, s₁, hExe, hRest⟩
  · cases hEq
  rcases logged_exe hExe with ⟨_, hEq, _⟩ | ⟨_, _, rfl⟩
  · cases hEq
  split at hRest
  · exact ⟨_, _, rfl, hRest⟩
  · cases hRest

/-- What the loop reports is where it is said to be if the first move has worked, or if
the same content was there before. -/
theorem fix_file_recorded_iff (hRun : LoggedRun h job (downloadFile tgFileId uniqId) ⟨w, []⟩ (.ok (some u)) ⟨w', log⟩) :
    Recorded h u w' ↔ (∃ source, (source, u.fixFile, true) ∈ moves log) ∨ Recorded h u w := by
  obtain ⟨j, log₁, hNone, hLoop⟩ := downloadFile_some hRun
  obtain ⟨failed, _, ⟨content, s₁, _, _, _, hMoves, hFiles, hFile, hStore⟩ | ⟨hEq, _⟩ | ⟨_, hEq, _⟩⟩ :=
    downloadFrom_cases (by nofun) rfl hLoop
  · obtain ⟨s₂, hState, _, hSame, hPlace⟩ := store_cases hFile hStore
    have hTmp : ∀ ext, placeOf ext (h.md5 content) (h.sha1 content) ≠ tmpFileOf j uniqId :=
      fun ext => placeOf_ne ext _ _ _ uniqId
    rw [hNone] at hMoves
    rw [hMoves] at hSame
    obtain ⟨_, ⟨hOut, hMoved, hEnd⟩ | ⟨hOut, hMoved, hEnd⟩ | hOut⟩ := place_cases hPlace
    · cases hOut
      rw [hSame] at hMoved
      constructor
      · intro _
        exact .inl ⟨tmpFileOf j uniqId, by rw [hMoved]; simp⟩
      · intro _
        refine ⟨content, ?_, rfl, rfl⟩
        rw [hEnd, Function.update_of_ne (hTmp _), Function.update_self, hState, hFile]
    · cases hOut
      rw [hSame] at hMoved
      have hKept : w'.files (placeOf (extension (j.read "file_path").toStr) (h.md5 content) (h.sha1 content)) =
          w.files (placeOf (extension (j.read "file_path").toStr) (h.md5 content) (h.sha1 content)) := by
        rw [hEnd, Function.update_of_ne (hTmp _), Function.update_of_ne (placeOf_ne_recoverOf _ _ _), hState]
        exact hFiles _ (hTmp _)
      have hNot : ¬ ∃ source, (source, placeOf (extension (j.read "file_path").toStr) (h.md5 content) (h.sha1 content),
          true) ∈ moves log := by
        rintro ⟨source, hMem⟩
        rw [hMoved] at hMem
        simp [placeOf_ne_recoverOf] at hMem
      simp only [Recorded, hKept, hNot, false_or]
    · cases hOut.1
  · cases hEq
  · cases hEq

end Places

theorem moved_file_recorded :
    ∃ u w' log, LoggedRun plainHashes (.resolveFile "f" "") (downloadFile "f" "u") ⟨.initial, []⟩ (.ok (some u))
      ⟨w', log⟩ ∧
      Recorded plainHashes u w' := by
  have hRun := Prog.replay_runs (rfl : (downloadFile "f" "u").replay (exec plainHashes 0 (.resolveFile "f" ""))
    [.answer (getFileAnswer "f" 3), .downloaded true "abc", .ok, .ok, .ok, .renamed true]
    ⟨.initial, []⟩ = some (.ok (some _), ⟨_, _⟩))
  exact ⟨_, _, _, hRun, (fix_file_recorded_iff hRun).mpr (.inl ⟨_, List.mem_singleton_self _⟩)⟩

/-- The first move fails and the recovery succeeds: nothing is at `fix_file`. -/
theorem recovered_file_not_recorded :
    ∃ u w' log, LoggedRun plainHashes (.resolveFile "f" "") (downloadFile "f" "u") ⟨.initial, []⟩ (.ok (some u))
      ⟨w', log⟩ ∧
      ¬ Recorded plainHashes u w' := by
  have hRun := Prog.replay_runs (rfl : (downloadFile "f" "u").replay (exec plainHashes 0 (.resolveFile "f" ""))
    [.answer (getFileAnswer "f" 3), .downloaded true "abc", .ok, .ok, .ok, .renamed false, .renamed true]
    ⟨.initial, []⟩ = some (.ok (some _), ⟨_, _⟩))
  refine ⟨_, _, _, hRun, ?_⟩
  rintro ⟨content, hFile, _⟩
  cases (show (none : Option String) = some content from hFile)

end TeaBot.Loggers.File
