import TeaBot.Foundation.Numeral
import TeaBot.Foundation.Scan
import TeaBot.Loggers.FileCalls
import TeaBot.Loggers.Group
import TeaBot.Loggers.GroupMessage

/-! # The names of the mutexes

Every key that the loggers lock, and the lock file that `Mutex` makes of it: the directory
is the table, and a minus sign becomes an underscore.
-/

namespace TeaBot.Loggers

open Foundation Foundation.Numeral

/-- What `md5` returns. -/
@[ext]
structure Digest where
  text : String
  length : text.toList.length = 32
  hex : ∀ c ∈ text.toList, c ∈ "0123456789abcdef".toList

inductive LockKey
  | user (userId : Nat)
  | userRow (id : Nat)
  | group (chatId : Int)
  | groupRow (id : Nat)
  | groupAdmins (id : Nat)
  | message (groupId msgId : Nat)
  | file (uniqId : Digest)

namespace LockKey

def tableName : LockKey → String
  | .user _ | .userRow _ => "tg_users"
  | .group _ | .groupRow _ => "tg_groups"
  | .groupAdmins _ => "tg_group_admins"
  | .message .. => "tg_group_messages"
  | .file _ => "tg_files"

def uniqueId : LockKey → String
  | .user userId => toString userId
  | .userRow id | .groupRow id => "id_" ++ toString id
  | .group chatId => toString chatId
  | .groupAdmins id => toString id
  | .message groupId msgId => toString groupId ++ "_" ++ toString msgId
  | .file uniqId => uniqId.text

def mutex (k : LockKey) : Mutex := Mutex.new k.tableName k.uniqueId

end LockKey

/-- The mutexes that the loggers make, each with its key. -/
inductive Locks : LockKey → Mutex → Prop
  | user {d : Data} {n : Nat} (h : d.userId.toStr = toString n) : Locks (.user n) (User.userMutex d)
  | userRow {u : UserInfo} {n : Nat} (h : u.id.toStr = toString n) : Locks (.userRow n) (User.rowMutex u)
  | group {d : Data} {chatId : Int} (h : d.chatId.toStr = toString chatId) : Locks (.group chatId) (Group.groupMutex d)
  | groupRow {u : GroupInfo} {n : Nat} (h : u.id.toStr = toString n) : Locks (.groupRow n) (Group.rowMutex u)
  | groupAdmins {u : GroupInfo} {n : Nat} (h : u.id.toStr = toString n) : Locks (.groupAdmins n) (Group.adminsMutex u)
  | message {d : Data} {n : Nat} (groupId : Nat) (h : d.msgId.toStr = toString n) :
      Locks (.message groupId n) (GroupMessage.messageMutex groupId d)
  | file {h : Hashes} {x : File.Request} {uniqId : Digest} (hHash : h.md5 x.tgFileId = uniqId.text) :
      Locks (.file uniqId) (x.mutex h)

theorem Locks.eq {k : LockKey} {m : Mutex} (h : Locks k m) : m = k.mutex := by
  cases h with
  | user h => rw [User.userMutex, h]; rfl
  | userRow h => rw [User.rowMutex, h]; rfl
  | group h => rw [Group.groupMutex, h]; rfl
  | groupRow h => rw [Group.rowMutex, h]; rfl
  | groupAdmins h => rw [Group.adminsMutex, h]; rfl
  | message groupId h => rw [GroupMessage.messageMutex, h]; rfl
  | file hHash => rw [File.Request.mutex, hHash]; rfl

/-! ## What is left of a name -/

/-- `str_replace("-", "_", $uniqueId)` of one character. -/
def dash (c : Char) : Char := if c = '-' then '_' else c

theorem toList_uniqueId (tableName uniqueId : String) :
    (Mutex.new tableName uniqueId).uniqueId.toList = uniqueId.toList.map dash := String.toList_ofList

theorem map_dash_of_not_mem {s : List Char} (h : '-' ∉ s) : s.map dash = s := by
  refine (List.map_congr_left fun c hc => ?_).trans (List.map_id s)
  exact if_neg (ne_of_mem_of_not_mem hc h)

theorem map_dash_injective {s t : List Char} (hs : '_' ∉ s) (ht : '_' ∉ t) (h : s.map dash = t.map dash) : s = t := by
  have hUndo : ∀ s : List Char, '_' ∉ s → (s.map dash).map (fun c => if c = '_' then '-' else c) = s := by
    intro s hs
    rw [List.map_map]
    refine (List.map_congr_left fun c hc => ?_).trans (List.map_id s)
    have hc : c ≠ '_' := ne_of_mem_of_not_mem hc hs
    by_cases hMinus : c = '-'
    · simp [dash, hMinus]
    · simp [dash, hMinus, hc]
  rw [← hUndo s hs, ← hUndo t ht, h]

theorem lockFile_injective {dir : String} {m m' : Mutex} (hTable : '/' ∉ m.tableName.toList)
    (hTable' : '/' ∉ m'.tableName.toList) (h : m.lockFile dir = m'.lockFile dir) : m = m' := by
  have hPath : ∀ m : Mutex, (m.lockFile dir).toList =
      dir.toList ++ '/' :: (m.tableName.toList ++ '/' :: (m.uniqueId.toList ++ ".lock".toList)) := by
    intro m
    simp [Mutex.lockFile, String.toList_append]
  have hList := congrArg String.toList h
  rw [hPath, hPath] at hList
  have hRest := (List.cons.inj (List.append_cancel_left hList)).2
  obtain ⟨hName, hId⟩ := Text.append_sep_inj hTable hTable' hRest
  have hId := List.append_cancel_right hId
  cases m
  cases m'
  exact congrArg₂ Mutex.mk (String.toList_inj.mp hName) (String.toList_inj.mp hId)

namespace LockKey

def name : LockKey → List Char
  | .user n | .groupAdmins n => digits n
  | .userRow n | .groupRow n => "id_".toList ++ digits n
  | .group chatId => (numeral chatId).map dash
  | .message groupId msgId => digits groupId ++ '_' :: digits msgId
  | .file uniqId => uniqId.text.toList

theorem underscore_not_mem (n : Nat) : '_' ∉ digits n := Nat.underscore_not_in_toDigits

theorem minus_not_mem_hex (g : Digest) : '-' ∉ g.text.toList := fun h => absurd (g.hex _ h) (by decide)

theorem toList_row (n : Nat) : ("id_" ++ toString n).toList.map dash = "id_".toList ++ digits n := by
  rw [String.toList_append, toList_nat, List.map_append, map_dash_of_not_mem (minus_not_mem n)]
  rfl

theorem toList_mutex (k : LockKey) : k.mutex.uniqueId.toList = k.name := by
  rw [mutex, toList_uniqueId]
  cases k with
  | user n | groupAdmins n => rw [uniqueId, toList_nat, map_dash_of_not_mem (minus_not_mem n), name]
  | userRow n | groupRow n => exact toList_row n
  | group chatId => rw [uniqueId, toList_int, name]
  | message g m =>
    rw [uniqueId, String.toList_append, String.toList_append, toList_nat, toList_nat, List.map_append, List.map_append,
      map_dash_of_not_mem (minus_not_mem g), map_dash_of_not_mem (minus_not_mem m), List.append_assoc]
    rfl
  | file g => exact map_dash_of_not_mem (minus_not_mem_hex g)

theorem row_ne_digits (m n : Nat) : "id_".toList ++ digits m ≠ digits n := by
  intro h
  have hMem : 'i' ∈ digits n := h ▸ List.mem_append_left _ (by decide)
  exact absurd (isDigit_of_mem hMem) (by decide)

theorem row_ne_chat (m : Nat) (chatId : Int) : "id_".toList ++ digits m ≠ (numeral chatId).map dash := by
  intro h
  have hMem : 'i' ∈ (numeral chatId).map dash := h ▸ List.mem_append_left _ (by decide)
  obtain ⟨c, hc, hDash⟩ := List.mem_map.mp hMem
  have hi : c = 'i' := by
    unfold dash at hDash
    split at hDash
    · cases hDash
    · exact hDash
  subst hi
  rcases lt_or_ge chatId 0 with hNeg | hNonneg
  · rw [numeral_of_neg hNeg] at hc
    rcases List.mem_cons.mp hc with hMinus | hDigit
    · cases hMinus
    · exact absurd (isDigit_of_mem hDigit) (by decide)
  · rw [numeral_of_nonneg hNonneg] at hc
    exact absurd (isDigit_of_mem hc) (by decide)

theorem underscore_not_mem_numeral (n : Int) : '_' ∉ numeral n := by
  rcases lt_or_ge n 0 with hNeg | hNonneg
  · rw [numeral_of_neg hNeg]
    exact List.not_mem_cons_of_ne_of_not_mem (by decide) (underscore_not_mem _)
  · rw [numeral_of_nonneg hNonneg]
    exact underscore_not_mem _

theorem slash_not_mem (k : LockKey) : '/' ∉ k.mutex.tableName.toList := by
  cases k <;> simp [mutex, tableName, Mutex.new]

theorem eq_of_name_eq {k k' : LockKey} (hTable : k.tableName = k'.tableName) (hName : k.name = k'.name) : k = k' := by
  cases k with
  | user n =>
    cases k' with
    | user n' => rw [digits_injective hName]
    | userRow n' => exact absurd hName.symm (row_ne_digits n' n)
    | _ => simp [tableName] at hTable
  | userRow n =>
    cases k' with
    | user n' => exact absurd hName (row_ne_digits n n')
    | userRow n' => rw [digits_injective (List.append_cancel_left hName)]
    | _ => simp [tableName] at hTable
  | group c =>
    cases k' with
    | group c' =>
      have hNumeral := map_dash_injective (underscore_not_mem_numeral c) (underscore_not_mem_numeral c') hName
      rw [numeral_injective hNumeral]
    | groupRow n' => exact absurd hName.symm (row_ne_chat n' c)
    | _ => simp [tableName] at hTable
  | groupRow n =>
    cases k' with
    | group c' => exact absurd hName (row_ne_chat n c')
    | groupRow n' => rw [digits_injective (List.append_cancel_left hName)]
    | _ => simp [tableName] at hTable
  | groupAdmins n =>
    cases k' with
    | groupAdmins n' => rw [digits_injective hName]
    | _ => simp [tableName] at hTable
  | message g m =>
    cases k' with
    | message g' m' =>
      obtain ⟨hGroup, hMsg⟩ := Text.append_sep_inj (underscore_not_mem g) (underscore_not_mem g') hName
      rw [digits_injective hGroup, digits_injective hMsg]
    | _ => simp [tableName] at hTable
  | file g =>
    cases k' with
    | file g' => rw [Digest.ext (String.toList_inj.mp hName)]
    | _ => simp [tableName] at hTable

theorem eq_of_lockFile_eq {dir : String} {k k' : LockKey} (h : k.mutex.lockFile dir = k'.mutex.lockFile dir) :
    k = k' := by
  have hMutex := lockFile_injective (slash_not_mem k) (slash_not_mem k') h
  refine eq_of_name_eq (congrArg Mutex.tableName hMutex) ?_
  rw [← toList_mutex, ← toList_mutex, hMutex]

end LockKey

/-- Two mutexes of the loggers have one lock file exactly if their keys are the same. -/
theorem lockFile_unique {dir : String} {k k' : LockKey} {m m' : Mutex} (h : Locks k m) (h' : Locks k' m') :
    m.lockFile dir = m'.lockFile dir ↔ k = k' := by
  rw [h.eq, h'.eq]
  constructor
  · exact LockKey.eq_of_lockFile_eq
  · rintro rfl
    rfl

theorem lockFile_unique_group :
    (Group.groupMutex { chatId := .int (-5) }).lockFile "mutexes" ≠
      (Group.rowMutex ⟨.str "5", .null, .null, .null⟩).lockFile "mutexes" := by
  intro hSame
  have hKeys := (lockFile_unique (.group rfl) (.groupRow rfl : Locks (.groupRow 5) _)).mp hSame
  cases hKeys

end TeaBot.Loggers
