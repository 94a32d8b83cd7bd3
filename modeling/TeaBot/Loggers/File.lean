import TeaBot.Loggers.Op

/-! # `LoggerUtils\File`

`resolveFile` and the download loop behind it. `md5` is PHP's hash function; directories
are taken to exist (`is_dir(..) or mkdir(..)`).
-/

namespace TeaBot.Loggers.File

open Foundation Foundation.Sql

structure Download where
  fixFile : String
  md5 : String
  sha1 : String
  ext : Option String
  j : Php
  deriving DecidableEq

def fileDir : String := "/files"

def tmpDir : String := "/tmp_download"

/-- `explode(".", $path)`, whose last part is the extension if there are two or more. -/
def extension (path : String) : Option String :=
  if '.' ∈ path.toList then
    some (String.ofList (path.toList.reverse.takeWhile (· ≠ '.')).reverse)
  else none

def withExt (name : String) : Option String → String
  | none => name
  | some ext => name ++ "." ++ ext

/-- `str_split($hash, 2)` as directories below `$fileDir`. -/
def splitPairs : List Char → List String
  | a :: b :: rest => String.ofList [a, b] :: splitPairs rest
  | [a] => [String.ofList [a]]
  | [] => []

def genIndexDir (dir hash : String) : String :=
  (splitPairs (hash.toList.take 14)).foldl (fun d c => d ++ "/" ++ c) dir

/-- The numeric value a comparison with an integer sees. -/
def number : Php → Rat
  | .int n => n
  | .float q => q
  | .bool b => if b then 1 else 0
  | .str s => (numericPrefix s.toList).getD 0
  | _ => 0

/-- From a complete temporary file to its place: the second `rename` is the recovery
into the temporary directory, which still reports the first target. -/
def store (j : Php) (ext : Option String) (tmpFile : String) : Run (Option Download) := do
  let md5Hash ← perform (.md5File tmpFile)
  let sha1Hash ← perform (.sha1File tmpFile)
  let fixFile := withExt (genIndexDir fileDir (md5Hash ++ sha1Hash) ++ "/" ++ md5Hash ++ sha1Hash) ext
  let retVal : Download := ⟨fixFile, md5Hash, sha1Hash, ext, j⟩
  if ← perform (.rename tmpFile fixFile) then
    pure (some retVal)
  else if ← perform (.rename tmpFile (withExt (tmpDir ++ "/" ++ md5Hash ++ sha1Hash) ext)) then
    pure (some retVal)
  else pure none

/-- One pass over the label `download:`: whether the temporary file is taken for complete, and
the size that the stat cache has of it from then on. -/
def attempt (j : Php) (tmpFile : String) (stat : Option Nat) : Run (Bool × Option Nat) := do
  let success ← catchException (perform (.download (j.read "file_path").toStr tmpFile)) fun _ => pure false
  if success then
    let fileSize ← perform (.filesize tmpFile stat)
    pure (decide (number (j.read "file_size") ≤ fileSize), some fileSize)
  else pure (false, stat)

/-- The loop between `download:` and `retry_download:`. The fuel only bounds the
recursion: the counter leaves the loop at the sixth failure. -/
def downloadFrom (j : Php) (ext : Option String) (tmpFile : String) :
    Nat → Nat → Option Nat → Run (Option Download)
  | 0, _, _ => pure none
  | fuel + 1, downTry, stat => do
    let (complete, stat) ← attempt j tmpFile stat
    if complete then store j ext tmpFile
    else if downTry + 1 > 5 then pure none
    else downloadFrom j ext tmpFile fuel (downTry + 1) stat

/-- The stat cache knows one file at a time, and before the loop `is_dir` has asked it for a
directory. -/
def downloadFile (tgFileId uniqId : String) : Run (Option Download) := do
  let answer ← perform (.exe (.getFile tgFileId))
  let j := answer.get (.str "result")
  if ["file_id", "file_unique_id", "file_size", "file_path"].all fun f => (j.get (.str f)).isset then
    let ext := extension (j.read "file_path").toStr
    downloadFrom j ext (withExt (tmpDir ++ "/" ++ uniqId) ext) 6 0 none
  else pure none

def insertCols : List Col :=
  [.tgFileId, .tgUniqId, .md5Sum, .sha1Sum, .fileType, .ext, .size, .createdAt]

/-- The row for a downloaded file; the hashes stand for their `hex2bin`. -/
def insertFile (u : Download) (dateTime : String) : Run Nat := do
  let mime ← perform (.mimeContentType u.fixFile)
  perform (.execute (.insert .tgFiles insertCols)
    [u.j.read "file_id", u.j.read "file_unique_id", .str u.md5, .str u.sha1, .str mime,
      .ofOption u.ext, u.j.read "file_size", .str dateTime])
  perform .lastInsertId

def resolveOrDownload (tgFileId uniqId dateTime : String) : Run (Option Nat) := do
  match ← perform (.fetch .tgFiles [.id] .tgFileId (.str tgFileId)) with
  | some u => pure ((u .id).intParam.map Int.toNat)
  | none =>
    match ← downloadFile tgFileId uniqId with
    | some u => do
      let fileId ← insertFile u dateTime
      pure (some fileId)
    | none => pure none

def resolveFile (md5 : String → String) (tgFileId dateTime : String) : Run (Option Nat) :=
  let m := Mutex.new "tg_files" (md5 tgFileId)
  m.scoped do
    perform (.lock m)
    let fileId ← resolveOrDownload tgFileId (md5 tgFileId) dateTime
    perform (.unlock m)
    pure fileId

end TeaBot.Loggers.File
