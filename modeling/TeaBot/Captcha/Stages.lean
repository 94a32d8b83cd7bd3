import TeaBot.Captcha.World
import TeaBot.Foundation.Typestate

/-! # The stages of the captcha coroutines

What a coroutine of one chat and user may do with the two locks and with `info.json`, and
how far it has got. Under `strict` a `dropCaptcha` that has touched the file does not end
before its timer is started, unless an operation of it has failed.
-/

namespace TeaBot.Captcha

open Foundation Responder
open Foundation.Prog (Silent)
open Foundation.Prog.Keeps (silent_then)

structure Pair where
  dir : String
  name : String
  deriving DecidableEq

namespace Pair

def of (d : Data) : Pair := ⟨captchaStDir d, bin2hex (d.chatId.toStr ++ d.userId.toStr)⟩

def info (pr : Pair) : Path := .captchaFile pr.dir

def lock (pr : Pair) : Path := .lockFile pr.dir

def fast (pr : Pair) : Path := .fastLockFile pr.name

end Pair

inductive Stage
  /-- `dropCaptcha`: before its directory, before `touch`, before the file is written, and
  before the timer is started. -/
  | joining
  | built
  | issuing
  | written
  /-- It has failed after `touch`. -/
  | lost
  /-- A message before its test for a captcha. -/
  | calling
  /-- `checkAnswer`: before a captcha is read, with one in hand, and after its removal. -/
  | asking
  | found
  | removed
  /-- The timer: its clock readings, and whether the last test has found the captcha. -/
  | timing
  | counting (start : Int)
  | polling (start cur : Int)
  | overdue (start cur : Int)
  | failing
  | over
  deriving DecidableEq

variable {o : Op} {s : Stage}

namespace Stage

def seen : Stage → Bool → Stage
  | .calling, b => if b then .asking else .over
  | .polling s c, b => if b then (if c - s ≤ 600 then .counting s else .overdue s c) else .over
  | s, _ => s

def read : Stage → Php → Stage
  | .asking, v => if v.isArray then .found else .asking
  | s, _ => s

def tick : Stage → Int → Stage
  | .timing, v => .counting v
  | .counting s, v => .polling s v
  | s, _ => s

/-- A call of the API that answers. A captcha whose message has no id is lost. -/
def called : Stage → Api → Php → Stage
  | .issuing, .sendPhoto .., v => if (resultMessageId v).isset then .issuing else .lost
  | .removed, .sendMessage .., _ => .over
  | .failing, .kickChatMember .., _ => .over
  | s, _, _ => s

def raised : Stage → Op → Stage
  | .issuing, _ => .lost
  | .removed, .exe (.sendMessage ..) _ => .over
  | .failing, .exe (.kickChatMember ..) _ => .over
  | s, _ => s

def dropped : Stage → Stage
  | .issuing => .lost
  | .found => .over
  | s => s

def after (s : Stage) : (o : Op) → Except Throwable o.Res → Stage
  | .buildDir _, _ => if s = .joining then .built else s
  | .touch _, _ => if s = .built then .issuing else s
  | .writeJson _ _, _ => if s = .issuing then .written else s
  | .go (.timer _ _), _ => if s = .written then .over else s
  | .readJson _, .ok v => s.read v
  | .unlink (.captchaFile _), _ => if s = .found then .removed else s
  | .unflock .lockHandle, _ => if s = .found then .over else s
  | .destruct, _ => s.dropped
  | .time, .ok v => s.tick v
  | .fileExists _, .ok b => s.seen b
  | .enterFailKick, _ => .failing
  | .exe call _, .ok v => s.called call v
  | .exe call read, .error _ => s.raised (.exe call read)
  | .genLatex str, .error _ => s.raised (.genLatex str)
  | _, _ => s

/-- How far one answered operation can take a coroutine. -/
inductive Moves : Stage → (o : Op) → Except Throwable o.Res → Stage → Prop
  | stay {s : Stage} {o : Op} {r : Except Throwable o.Res} : o ≠ .enterFailKick → Moves s o r s
  | build {dir : String} {r : Except Throwable Unit} : Moves .joining (.buildDir dir) r .built
  | touch {p : Path} {r : Except Throwable Unit} : Moves .built (.touch p) r .issuing
  | write {p : Path} {v : Php} {r : Except Throwable Unit} : Moves .issuing (.writeJson p v) r .written
  | start {d : Data} {rounds : Nat} {r : Except Throwable Unit} : Moves .written (.go (.timer d rounds)) r .over
  | unsent {chatId v : Php} {photo : Option String} {caption : String} {read : Bool} : ¬ (resultMessageId v).isset = true →
      Moves .issuing (.exe (.sendPhoto chatId photo caption) read) (.ok v) .lost
  | failed {o : Op} {e : Throwable} : raises o = true → Moves .issuing o (.error e) .lost
  | die {r : Except Throwable Unit} : Moves .issuing .destruct r .lost
  | call {p : Path} : Moves .calling (.fileExists p) (.ok true) .asking
  | pass {p : Path} : Moves .calling (.fileExists p) (.ok false) .over
  | find {p : Path} {v : Php} : v.isArray = true → Moves .asking (.readJson p) (.ok v) .found
  | remove {dir : String} {r : Except Throwable Unit} : Moves .found (.unlink (.captchaFile dir)) r .removed
  | leave {o : Op} {r : Except Throwable o.Res} : o = .unflock .lockHandle ∨ o = .destruct → Moves .found o r .over
  | welcome {chatId replyTo : Php} {text : String} {read : Bool} {r : Except Throwable Php} :
      Moves .removed (.exe (.sendMessage chatId text replyTo) read) r .over
  | begin {v : Int} : Moves .timing .time (.ok v) (.counting v)
  | look {s v : Int} : Moves (.counting s) .time (.ok v) (.polling s v)
  | again {s c : Int} {p : Path} : c - s ≤ 600 → Moves (.polling s c) (.fileExists p) (.ok true) (.counting s)
  | expire {s c : Int} {p : Path} : Moves (.polling s c) (.fileExists p) (.ok true) (.overdue s c)
  | solved {s c : Int} {p : Path} : Moves (.polling s c) (.fileExists p) (.ok false) .over
  | enter {s : Stage} {r : Except Throwable Unit} : Moves s .enterFailKick r .failing
  | kick {userId chatId : Php} {read : Bool} {r : Except Throwable Php} :
      Moves .failing (.exe (.kickChatMember userId chatId) read) r .over

theorem moves_seen (s : Stage) (p : Path) (b : Bool) : Moves s (.fileExists p) (.ok b) (s.seen b) := by
  cases s with
  | calling =>
    cases b with
    | false => exact .pass
    | true => exact .call
  | polling s c =>
    cases b with
    | false => exact .solved
    | true =>
      simp only [seen, if_true]
      split_ifs with h
      · exact .again h
      · exact .expire
  | _ => exact .stay nofun

theorem moves_called (s : Stage) (call : Api) (read : Bool) (v : Php) :
    Moves s (.exe call read) (.ok v) (s.called call v) := by
  unfold called
  split
  · split_ifs with h
    · exact .stay nofun
    · exact .unsent h
  · exact .welcome
  · exact .kick
  · exact .stay nofun

theorem moves_raised (s : Stage) (h : raises o = true) (e : Throwable) : Moves s o (.error e) (s.raised o) := by
  unfold raised
  split
  · exact .failed h
  · exact .welcome
  · exact .kick
  · refine .stay ?_
    rintro rfl
    cases h

theorem moves_after (s : Stage) (o : Op) (r : Except Throwable o.Res) : Moves s o r (s.after o r) := by
  unfold after
  split
  · split_ifs with h
    · exact h ▸ .build
    · exact .stay nofun
  · split_ifs with h
    · exact h ▸ .touch
    · exact .stay nofun
  · split_ifs with h
    · exact h ▸ .write
    · exact .stay nofun
  · split_ifs with h
    · exact h ▸ .start
    · exact .stay nofun
  · cases s with
    | asking =>
      simp only [read]
      split_ifs with h
      · exact .find h
      · exact .stay nofun
    | _ => exact .stay nofun
  · split_ifs with h
    · exact h ▸ .remove
    · exact .stay nofun
  · split_ifs with h
    · exact h ▸ .leave (.inl rfl)
    · exact .stay nofun
  · cases s with
    | issuing => exact .die
    | found => exact .leave (.inr rfl)
    | _ => exact .stay nofun
  · cases s with
    | timing => exact .begin
    | counting s => exact .look
    | _ => exact .stay nofun
  · exact moves_seen s _ _
  · exact .enter
  · exact moves_called s _ _ _
  · exact moves_raised s rfl _
  · exact moves_raised s rfl _
  · rename_i hKick _ _ _
    refine .stay ?_
    rintro rfl
    exact hKick _ rfl HEq.rfl

def dropping : Stage → Bool
  | .joining | .built | .issuing | .written => true
  | _ => false

def watching : Stage → Bool
  | .timing | .counting _ | .polling .. | .overdue .. => true
  | _ => false

section Moves

variable {s s' : Stage} {o : Op} {r : Except Throwable o.Res}

theorem Moves.dropping (hMoves : s.Moves o r s') (h : s'.dropping = true) : s.dropping = true := by
  cases hMoves with
  | stay _ => exact h
  | build | touch | write => rfl
  | _ => cases h

theorem Moves.watching (hMoves : s.Moves o r s') (h : s'.watching = true) :
    s.watching = true ∧ o ≠ .enterFailKick := by
  cases hMoves with
  | stay hNe => exact ⟨h, hNe⟩
  | begin | look | again | expire => exact ⟨rfl, nofun⟩
  | _ => cases h

end Moves

/-- The stages in which a coroutine can end. -/
def settled : Stage → Bool
  | .lost | .asking | .removed | .over => true
  | _ => false

/-- Between the written file and its timer there is nothing, and little between the last
test of the timer and the kick. -/
def permits : Stage → Op → Bool
  | .written, _ => false
  | .overdue .., .unflock _ | .overdue .., .unlink _ | .overdue .., .enterFailKick => true
  | .overdue .., _ => false
  | .failing, .fopen .. | .failing, .exe (.kickChatMember ..) _ => true
  | .failing, _ => false
  | _, _ => true

def plain : Stage → Bool
  | .written | .overdue .. | .failing => false
  | _ => true

theorem permits_of_plain (h : s.plain = true) (o : Op) : s.permits o = true := by
  cases s <;> first | rfl | cases h

theorem permits_seen (h : s.plain = true) (b : Bool) :
    (∀ h, (s.seen b).permits (.unflock h) = true) ∧ ∀ p, (s.seen b).permits (.unlink p) = true := by
  cases s with
  | calling | polling s c =>
    simp only [seen]
    split_ifs <;> exact ⟨fun _ => rfl, fun _ => rfl⟩
  | written | overdue s c | failing => cases h
  | _ => exact ⟨fun _ => rfl, fun _ => rfl⟩

end Stage

structure Local where
  fast : Grip
  lock : Grip
  stage : Stage
  deriving DecidableEq

namespace Local

def grip (ℓ : Local) : Handle → Grip
  | .lockHandle => ℓ.lock
  | .fastLockHandle => ℓ.fast

def Ready (ℓ : Local) : Prop := ℓ.fast ≠ .waiting ∧ ℓ.lock ≠ .waiting

def after (ℓ : Local) (o : Op) (r : Except Throwable o.Res) : Local where
  fast := ℓ.fast.after .fastLockHandle o
  lock := ℓ.lock.after .lockHandle o
  stage := ℓ.stage.after o r

end Local

/-- The text that greets a user whose answer was right. -/
def isWelcome (text : String) : Bool := welcomeText.toList.isSuffixOf text.toList

/-- What an operation needs besides a coroutine that is ready for it. -/
def Allowed (strict : Prop) (pr : Pair) (ℓ : Local) : Op → Prop
  | .buildDir dir => dir = pr.dir
  | .fopen .lockHandle p => p = pr.lock ∧ ℓ.lock = .free ∧ (ℓ.stage = .issuing ∨ ℓ.stage = .asking)
  | .fopen .fastLockHandle p => p = pr.fast
  | .destruct => strict → ℓ.stage ≠ .issuing
  | .fileExists p => p = pr.info
  | .touch p => p = pr.info ∧ ℓ.stage = .built
  | .readJson p => p = pr.info ∧ (ℓ.stage = .asking → ℓ.lock = .held)
  | .writeJson p v => p = pr.info ∧ ℓ.stage = .issuing ∧ ℓ.lock = .held ∧ v.isArray = true
  | .unlink p => p = pr.fast ∨ (p = pr.info ∧ ℓ.stage = .found ∧ ℓ.lock = .held)
  | .exe (.sendMessage _ text _) _ => isWelcome text = true → ℓ.stage = .removed
  | .exe (.kickChatMember ..) _ => ℓ.stage = .failing
  | .time => ℓ.stage = .timing ∨ ∃ s, ℓ.stage = .counting s
  | .enterFailKick => ∃ s c, ℓ.stage = .overdue s c ∧ 600 < c - s
  | _ => True

def Admits (strict : Prop) (pr : Pair) (ℓ : Local) : Op → Prop
  | .flock h => ℓ.grip h = .waiting
  | .go (.timer d _) => ℓ.Ready ∧ Pair.of d = pr ∧ ℓ.stage = .written
  | o => ℓ.Ready ∧ ℓ.stage.permits o = true ∧ Allowed strict pr ℓ o

/-- What raises, and what does not come back. -/
def Answers (o : Op) (r : Except Throwable o.Res) : Prop := o ≠ .beyond ∧ ∀ e, r = .error e → raises o = true

theorem answers_ok (o : Op) (hOp : o ≠ .beyond) (a : o.Res) : Answers o (.ok a) :=
  ⟨hOp, fun _ hErr => by cases hErr⟩

def stages (strict : Prop) (pr : Pair) : Discipline Op Op.Res Throwable Local where
  admits := Admits strict pr
  answers := Answers
  after := Local.after

def Job.local : Job → Local
  | .dropCaptcha .. => ⟨.free, .free, .joining⟩
  | .checkAnswer _ => ⟨.free, .free, .asking⟩
  | .message _ => ⟨.free, .free, .calling⟩
  | .task (.timer ..) => ⟨.free, .free, .timing⟩
  | _ => ⟨.free, .free, .over⟩

def Finished (_ : Job) (_ : Except Throwable Unit) (ℓ : Local) : Prop :=
  ℓ.fast = .free ∧ ℓ.lock = .free ∧ ℓ.stage.settled = true

/-- Data with a name and ids, as every update has them. -/
def Proper (d : Data) : Prop := (∃ s, d.fullName = .str s) ∧ d.chatId.isset = true ∧ d.userId.isset = true

def Job.Of (strict : Prop) (pr : Pair) : Job → Prop
  | .dropCaptcha d _ => Pair.of d = pr ∧ (strict → Proper d)
  | .checkAnswer d | .isHavingCaptcha d | .message d | .task (.timer d _) => Pair.of d = pr
  | .task (.deleteMessage ..) => True
  | .sections .. => False

/-! ## The programs keep to the stages -/

section Keeps

variable {strict : Prop} {d : Data}

theorem raises_of_answers {e : Throwable} (h : Answers o (.error e)) : raises o = true := h.2 e rfl

variable {ℓ : Local} {pr : Pair}

theorem perform_keeps {ℓ' : Local} (hSilent : raises o = false) (hAdmits : Admits strict pr ℓ o)
    (hAfter : ∀ a, ℓ.after o (.ok a) = ℓ') : (perform o).Keeps (stages strict pr) (Silent ℓ') ℓ :=
  perform_silent (fun _ _ => raises_of_answers) hSilent hAdmits hAfter

theorem idle_keeps (hSilent : raises o = false) (hAdmits : Admits strict pr ℓ o) (hAfter : ∀ a, ℓ.after o (.ok a) = ℓ) :
    (perform o).Keeps (stages strict pr) (Silent ℓ) ℓ :=
  perform_keeps hSilent hAdmits hAfter

theorem still_keeps (hAdmits : Admits strict pr ℓ o) (hAfter : ∀ r, ℓ.after o r = ℓ) :
    (perform o).Keeps (stages strict pr) (fun _ ℓ' => ℓ' = ℓ) ℓ :=
  .perform hAdmits fun r _ => hAfter r

theorem still_then {α β : Type} {q : Run α} {f : α → Run β} {Q : Except Throwable β → Local → Prop} {m : Local}
    (hq : q.Keeps (stages strict pr) (fun _ ℓ => ℓ = m) ℓ) (hf : ∀ a, (f a).Keeps (stages strict pr) Q m)
    (hErr : ∀ e, Q (.error e) m) : (q.bind f).Keeps (stages strict pr) Q ℓ := by
  refine hq.bind ?_ ?_
  · rintro a _ rfl
    exact hf a
  · rintro e _ rfl
    exact hErr e

theorem fastLock_keeps (hReady : ℓ.Ready) (hPermits : ∀ h p, ℓ.stage.permits (.fopen h p) = true) :
    (fastLock d).Keeps (stages strict (.of d)) (Silent { ℓ with fast := .held }) ℓ :=
  fastLock_silent (fun _ _ => raises_of_answers) ⟨hReady, hPermits _ _, rfl⟩ rfl rfl rfl

theorem fastUnlock_keeps (hReady : ℓ.Ready) (hUnflock : ∀ h, ℓ.stage.permits (.unflock h) = true)
    (hUnlink : ∀ p, ℓ.stage.permits (.unlink p) = true) :
    (fastUnlock d).Keeps (stages strict (.of d)) (Silent { ℓ with fast := .free }) ℓ :=
  fastUnlock_silent (fun _ _ => raises_of_answers) ⟨hReady, hUnflock _, trivial⟩ rfl
    ⟨⟨nofun, hReady.2⟩, hUnlink _, .inl rfl⟩ rfl

theorem lock_keeps (hFast : ℓ.fast ≠ .waiting) (hFree : ℓ.lock = .free)
    (hStage : ℓ.stage = .issuing ∨ ℓ.stage = .asking) :
    (lock d).Keeps (stages strict (.of d)) (Silent { ℓ with lock := .held }) ℓ := by
  have hPlain : ℓ.stage.plain = true := by rcases hStage with h | h <;> rw [h] <;> rfl
  refine silent_then (m := { ℓ with lock := .waiting }) ?_ fun _ => ?_
  · exact perform_keeps rfl ⟨⟨hFast, by simp [hFree]⟩, Stage.permits_of_plain hPlain _, rfl, hFree, hStage⟩ fun _ => rfl
  · exact perform_keeps rfl rfl fun _ => rfl

theorem isHavingCaptcha_keeps (hReady : ℓ.Ready) (hPlain : ℓ.stage.plain = true) :
    (isHavingCaptcha d).Keeps (stages strict (.of d))
      (fun out ℓ' => ∃ b, out = .ok b ∧ ℓ' = { ℓ with fast := .free, stage := ℓ.stage.seen b }) ℓ := by
  refine silent_then (fastLock_keeps hReady fun _ _ => Stage.permits_of_plain hPlain _) fun _ => ?_
  have hTest : (perform (.fileExists (captchaFile d))).Keeps (stages strict (.of d))
      (fun out ℓ' => ∃ b, out = .ok b ∧ ℓ' = { ℓ with fast := .held, stage := ℓ.stage.seen b })
      { ℓ with fast := .held } := by
    refine .perform ⟨⟨nofun, hReady.2⟩, Stage.permits_of_plain hPlain _, rfl⟩ fun r hr => ?_
    cases r with
    | ok b => exact ⟨b, rfl, rfl⟩
    | error e => exact absurd (hr.2 e rfl) nofun
  refine hTest.bind ?_ ?_
  · rintro b _ ⟨_, hEq, rfl⟩
    cases hEq
    obtain ⟨hUnflock, hUnlink⟩ := Stage.permits_seen hPlain b
    exact silent_then (fastUnlock_keeps ⟨nofun, hReady.2⟩ hUnflock hUnlink) fun _ => ⟨b, rfl, rfl⟩
  · rintro e _ ⟨_, hEq, _⟩
    cases hEq

theorem deleteAll_keeps (hReady : ℓ.Ready) (hPlain : ℓ.stage.plain = true) (names : List String) :
    (deleteAll d names).Keeps (stages strict (.of d)) (Silent ℓ) ℓ := by
  induction names with
  | nil => exact ⟨rfl, rfl⟩
  | cons v rest ih =>
    refine silent_then (.when (fun _ => ?_) ⟨rfl, rfl⟩) fun _ => ih
    refine silent_then (idle_keeps rfl ⟨hReady, Stage.permits_of_plain hPlain _, trivial⟩ fun _ => rfl) fun _ => ?_
    exact perform_keeps rfl ⟨hReady, Stage.permits_of_plain hPlain _, trivial⟩ fun _ => rfl

def Stage.Quiet (s : Stage) : Prop := s = .issuing ∨ s = .over

theorem Stage.Quiet.plain (h : s.Quiet) : s.plain = true := by
  rcases h with rfl | rfl <;> rfl

theorem deleteCaptchaMessage_keeps (hReady : ℓ.Ready) (hQuiet : ℓ.stage.Quiet) :
    (deleteCaptchaMessage d).Keeps (stages strict (.of d)) (Silent ℓ) ℓ := by
  obtain ⟨fast, lock, stage⟩ := ℓ
  have hPermits := Stage.permits_of_plain hQuiet.plain
  refine silent_then (m := ⟨fast, lock, stage⟩) ?_ fun json => .when (fun _ => ?_) ⟨rfl, rfl⟩
  · refine perform_keeps rfl ⟨hReady, hPermits _, rfl, ?_⟩ fun _ => ?_
    · rintro rfl
      rcases hQuiet with h | h <;> cases h
    · rcases hQuiet with rfl | rfl <;> rfl
  · refine silent_then (idle_keeps rfl ⟨hReady, hPermits _, trivial⟩ fun _ => rfl) fun _ => ?_
    exact perform_keeps rfl ⟨hReady, hPermits _, trivial⟩ fun _ => rfl

theorem cleanUpMessages_keeps (hReady : ℓ.Ready) (hQuiet : ℓ.stage.Quiet) :
    (cleanUpMessages d).Keeps (stages strict (.of d)) (Silent { ℓ with fast := .free }) ℓ := by
  have hReady' : Local.Ready { ℓ with fast := .free } := ⟨nofun, hReady.2⟩
  have hSame : ∀ b, ℓ.stage.seen b = ℓ.stage := fun b => by
    rcases hQuiet with h | h <;> rw [h] <;> rfl
  refine (isHavingCaptcha_keeps hReady hQuiet.plain).bind ?_ ?_
  · rintro b _ ⟨_, _, rfl⟩
    rw [hSame]
    refine silent_then (.when (fun _ => deleteCaptchaMessage_keeps hReady' hQuiet) ⟨rfl, rfl⟩) fun _ => ?_
    refine silent_then (idle_keeps rfl ⟨hReady', Stage.permits_of_plain hQuiet.plain _, trivial⟩ fun _ => rfl)
      fun names => ?_
    exact deleteAll_keeps hReady' hQuiet.plain names
  · rintro e _ ⟨_, hEq, _⟩
    cases hEq

theorem mention_keeps (ℓ : Local) : (mention d).Keeps (stages strict pr)
    (fun out ℓ' => ℓ' = ℓ ∧ ((∃ s, d.fullName = .str s) → out.isOk = true)) ℓ := by
  unfold mention
  cases d.fullName with
  | null | arr entries => exact ⟨rfl, fun ⟨_, hStr⟩ => nomatch hStr⟩
  | _ => exact ⟨rfl, fun _ => rfl⟩

/-! ## The kick -/

theorem isWelcome_kicked (user : String) : isWelcome (user ++ kickedText) = false := by
  rw [Bool.eq_false_iff]
  intro h
  have hSuffix : welcomeText.toList <:+ user.toList ++ kickedText.toList := by
    simpa [isWelcome] using h
  obtain ⟨front, hEq⟩ := hSuffix
  have hLast := congrArg List.getLast? hEq
  have hWelcome : welcomeText.toList.getLast? = some '!' := by decide
  have hKicked : kickedText.toList.getLast? = some '.' := by decide
  simp [List.getLast?_append, hWelcome, hKicked] at hLast

theorem isWelcome_wrong : isWelcome "Wrong answer!" = false := by decide

def Leaves {α : Type} (strict : Prop) (_ : Except Throwable α) (ℓ : Local) : Prop :=
  ℓ.Ready ∧ ℓ.stage.dropped.settled = true ∧ (strict → ℓ.stage ≠ .issuing)

variable {lock fast : Grip}

theorem leaves_over {α : Type} (hReady : Local.Ready ⟨fast, lock, .over⟩) (out : Except Throwable α) :
    Leaves strict out ⟨fast, lock, .over⟩ :=
  ⟨hReady, rfl, fun _ => nofun⟩

theorem withObject_keeps {body : Run Unit} {j : Job} (hBody : body.Keeps (stages strict pr) (Leaves strict) ℓ) :
    (withObject body).Keeps (stages strict pr) (Finished j) ℓ := by
  refine .tryFinally hBody fun out ℓ hLeaves => ?_
  obtain ⟨hReady, hSettled, hIssuing⟩ := hLeaves
  refine .perform ⟨hReady, ?_, hIssuing⟩ fun r _ => ⟨rfl, rfl, hSettled⟩
  cases hStage : ℓ.stage <;> first | rfl | simp [hStage, Stage.dropped, Stage.settled] at hSettled

theorem exe_over {call : Api} {read : Bool} (hReady : Local.Ready ⟨fast, lock, .over⟩)
    (hAllowed : Allowed strict pr ⟨fast, lock, .over⟩ (.exe call read)) :
    (perform (.exe call read)).Keeps (stages strict pr) (fun _ ℓ => ℓ = ⟨fast, lock, .over⟩) ⟨fast, lock, .over⟩ := by
  refine still_keeps ⟨hReady, rfl, hAllowed⟩ fun r => ?_
  cases r <;> rfl

theorem reportKick_keeps (hReady : Local.Ready ⟨fast, lock, .over⟩) (ret : Php) :
    (reportKick d ret).Keeps (stages strict pr) (fun _ ℓ => ℓ = ⟨fast, lock, .over⟩) ⟨fast, lock, .over⟩ := by
  rw [reportKick]
  split
  · refine still_then ((mention_keeps _).mono fun _ _ h => h.1) (fun user => ?_) fun _ => rfl
    refine still_then (exe_over hReady fun h => ?_) (fun _ => rfl) fun _ => rfl
    rw [isWelcome_kicked] at h
    cases h
  · rfl

theorem captchaFailKick_keeps {s c : Int} (hLate : 600 < c - s) :
    (captchaFailKick d).Keeps (stages strict (.of d)) (Leaves strict) ⟨.free, .free, .overdue s c⟩ := by
  have hFree : Local.Ready ⟨.free, .free, .over⟩ := ⟨nofun, nofun⟩
  have hHeld : Local.Ready ⟨.held, .free, .over⟩ := ⟨nofun, nofun⟩
  refine silent_then (m := ⟨.free, .free, .failing⟩) ?_ fun _ => ?_
  · exact perform_keeps rfl ⟨⟨nofun, nofun⟩, rfl, s, c, rfl, hLate⟩ fun _ => rfl
  refine silent_then (fastLock_keeps ⟨nofun, nofun⟩ fun _ _ => rfl) fun _ => ?_
  refine still_then (m := ⟨.held, .free, .over⟩) ?_ (fun ret => ?_) fun _ => leaves_over hHeld _
  · refine .perform ⟨⟨nofun, nofun⟩, rfl, rfl⟩ fun r _ => ?_
    cases r <;> rfl
  refine still_then (reportKick_keeps hHeld ret) (fun kickMsgId => ?_) fun _ => leaves_over hHeld _
  refine silent_then (fastUnlock_keeps hHeld (fun _ => rfl) fun _ => rfl) fun _ => ?_
  refine silent_then (cleanUpMessages_keeps hFree (.inr rfl)) fun _ => ?_
  refine silent_then (idle_keeps rfl ⟨hFree, rfl, trivial⟩ fun _ => rfl) fun _ => ?_
  refine still_then (exe_over hFree trivial) (fun _ => ?_) fun _ => leaves_over hFree _
  refine still_then (.when (fun _ => ?_) rfl) (fun _ => ?_) fun _ => leaves_over hFree _
  · refine silent_then (idle_keeps rfl ⟨hFree, rfl, trivial⟩ fun _ => rfl) fun _ => ?_
    exact still_then (exe_over hFree trivial) (fun _ => rfl) fun _ => rfl
  · exact still_then (exe_over hFree trivial) (fun _ => leaves_over hFree _) fun _ => leaves_over hFree _

/-! ## The timer -/

theorem awaitAnswer_keeps (s : Int) (rounds : Nat) :
    (awaitAnswer d s rounds).Keeps (stages strict (.of d))
      (fun out ℓ => (out = .ok true ∧ ℓ = ⟨.free, .free, .over⟩) ∨
        ∃ c, out = .ok false ∧ 600 < c - s ∧ ℓ = ⟨.free, .free, .overdue s c⟩)
      ⟨.free, .free, .counting s⟩ := by
  have hReady : ∀ stage, Local.Ready ⟨.free, .free, stage⟩ := fun _ => ⟨nofun, nofun⟩
  induction rounds with
  | zero => exact ⟨⟨hReady _, rfl, trivial⟩, fun r hr => absurd rfl hr.1⟩
  | succ rounds ih =>
    have hTime : (perform .time).Keeps (stages strict (.of d))
        (fun out ℓ => ∃ c, out = .ok c ∧ ℓ = ⟨.free, .free, .polling s c⟩) ⟨.free, .free, .counting s⟩ := by
      refine .perform ⟨hReady _, rfl, .inr ⟨s, rfl⟩⟩ fun r hr => ?_
      cases r with
      | ok c => exact ⟨c, rfl, rfl⟩
      | error e => exact absurd (hr.2 e rfl) nofun
    refine hTime.bind ?_ ?_
    · rintro c _ ⟨_, hEq, rfl⟩
      cases hEq
      refine silent_then (idle_keeps rfl ⟨hReady _, rfl, trivial⟩ fun _ => rfl) fun _ => ?_
      refine (isHavingCaptcha_keeps (hReady _) rfl).bind ?_ ?_
      · rintro b _ ⟨_, hEq, rfl⟩
        cases hEq
        cases b with
        | false => exact .inl ⟨rfl, rfl⟩
        | true =>
          simp only [Stage.seen]
          by_cases hTime : c - s ≤ 600
          · simpa [hTime] using ih
          · simp only [hTime, if_true, if_false]
            exact .inr ⟨c, rfl, by omega, rfl⟩
      · rintro e _ ⟨_, hEq, _⟩
        cases hEq
    · rintro e _ ⟨_, hEq, _⟩
      cases hEq

theorem timer_keeps (rounds : Nat) :
    (timer d rounds).Keeps (stages strict (.of d)) (Leaves strict) ⟨.free, .free, .timing⟩ := by
  have hTime : (perform .time).Keeps (stages strict (.of d))
      (fun out ℓ => ∃ s, out = .ok s ∧ ℓ = ⟨.free, .free, .counting s⟩) ⟨.free, .free, .timing⟩ := by
    refine .perform ⟨⟨nofun, nofun⟩, rfl, .inl rfl⟩ fun r hr => ?_
    cases r with
    | ok c => exact ⟨c, rfl, rfl⟩
    | error e => exact absurd (hr.2 e rfl) nofun
  refine hTime.bind ?_ ?_
  · rintro s _ ⟨_, hEq, rfl⟩
    cases hEq
    refine (awaitAnswer_keeps s rounds).bind ?_ ?_
    · rintro b _ (⟨hEq, rfl⟩ | ⟨c, hEq, hLate, rfl⟩)
      · cases hEq
        have hFree : Local.Ready ⟨.free, .free, .over⟩ := ⟨nofun, nofun⟩
        exact leaves_over hFree _
      · cases hEq
        exact captchaFailKick_keeps hLate
    · rintro e _ (⟨hEq, _⟩ | ⟨_, hEq, _⟩) <;> cases hEq
  · rintro e _ ⟨_, hEq, _⟩
    cases hEq

/-! ## The challenge -/

/-- The captcha is written, or it is lost. -/
def Issued (strict : Prop) (out : Except Throwable Unit) (ℓ : Local) : Prop :=
  (out.isOk = true ∧ ℓ = ⟨.free, .held, .over⟩) ∨ (out.isOk = false ∧ Leaves strict out ℓ)

theorem Issued.raised {e : Throwable} {stage : Stage} (hDropped : stage.dropped.settled = true)
    (hIssuing : strict → stage ≠ .issuing) : Issued strict (.error e) ⟨.free, .held, stage⟩ :=
  .inr ⟨rfl, ⟨nofun, nofun⟩, hDropped, hIssuing⟩

theorem writeCaptchaFile_keeps (rounds : Nat) (hProper : strict → Proper d) (json : Php) (photo : Option String)
    (answer : String) :
    (do writeCaptchaFile d (captchaInfo d (resultMessageId json) photo answer)
        perform (.go (.timer d rounds))).Keeps (stages strict (.of d)) (Issued strict)
      ⟨.free, .held, if (resultMessageId json).isset then .issuing else .lost⟩ := by
  have hReady : ∀ stage, Local.Ready ⟨.free, .held, stage⟩ := fun _ => ⟨nofun, nofun⟩
  rw [writeCaptchaFile]
  split
  · rename_i hIsset
    have hId : (resultMessageId json).isset = true := by
      have hAll := List.all_eq_true.mp hIsset "msg_id" (by simp)
      exact hAll
    rw [if_pos hId]
    refine silent_then (m := ⟨.free, .held, .written⟩) ?_ fun _ => ?_
    · exact perform_keeps rfl ⟨hReady _, rfl, rfl, rfl, rfl, rfl⟩ fun _ => rfl
    · refine .mono (Q := Silent ⟨.free, .held, .over⟩) (perform_keeps rfl ⟨hReady _, rfl, rfl⟩ fun _ => rfl) ?_
      rintro out _ ⟨hOk, rfl⟩
      exact .inl ⟨hOk, rfl⟩
  · rename_i hIsset
    split
    · rename_i hId
      refine Issued.raised rfl fun hStrict => absurd ?_ hIsset
      obtain ⟨_, hChat, hUser⟩ := hProper hStrict
      simp only [List.all_cons, List.all_nil, Bool.and_true, Bool.and_eq_true]
      exact ⟨hChat, hUser, hId, rfl⟩
    · exact Issued.raised rfl fun _ => nofun

theorem mantissa_keeps (rounds : Nat) (hProper : strict → Proper d) :
    (mantissa d rounds).Keeps (stages strict (.of d)) (Issued strict) ⟨.free, .held, .issuing⟩ := by
  have hReady : ∀ stage, Local.Ready ⟨.free, .held, stage⟩ := fun _ => ⟨nofun, nofun⟩
  refine silent_then (idle_keeps rfl ⟨hReady _, rfl, trivial⟩ fun _ => rfl) fun point => ?_
  have hLatex : (perform (.genLatex point.1)).Keeps (stages strict (.of d))
      (fun out ℓ => ℓ = ⟨.free, .held, if out.isOk then .issuing else .lost⟩) ⟨.free, .held, .issuing⟩ := by
    refine .perform ⟨hReady _, rfl, trivial⟩ fun r _ => ?_
    cases r <;> rfl
  refine hLatex.bind ?_ ?_
  · rintro latexImgUrl _ rfl
    refine (mention_keeps _).bind ?_ ?_
    · rintro user _ ⟨rfl, _⟩
      have hPhoto : (perform (.exe (.sendPhoto d.chatId latexImgUrl (user ++ challengeText)) true)).Keeps
          (stages strict (.of d)) (fun out ℓ => match out with
            | .ok json => ℓ = ⟨.free, .held, if (resultMessageId json).isset then .issuing else .lost⟩
            | .error _ => ℓ = ⟨.free, .held, .lost⟩) ⟨.free, .held, .issuing⟩ := by
        refine .perform ⟨hReady _, rfl, trivial⟩ fun r _ => ?_
        cases r <;> rfl
      refine hPhoto.bind ?_ ?_
      · rintro json _ rfl
        exact writeCaptchaFile_keeps rounds hProper json _ _
      · rintro e _ rfl
        exact Issued.raised rfl fun _ => nofun
    · rintro e _ ⟨rfl, hOk⟩
      exact Issued.raised rfl fun hStrict => absurd (hOk (hProper hStrict).1) nofun
  · rintro e _ rfl
    exact Issued.raised rfl fun _ => nofun

theorem dropCaptcha_keeps (rounds : Nat) (hProper : strict → Proper d) :
    (dropCaptcha d rounds).Keeps (stages strict (.of d)) (Leaves strict) ⟨.free, .free, .joining⟩ := by
  refine silent_then (fastLock_keeps ⟨nofun, nofun⟩ fun _ _ => rfl) fun _ => ?_
  refine silent_then (m := ⟨.held, .free, .built⟩) ?_ fun _ => ?_
  · exact perform_keeps rfl ⟨⟨nofun, nofun⟩, rfl, rfl⟩ fun _ => rfl
  refine silent_then (m := ⟨.held, .free, .issuing⟩) ?_ fun _ => ?_
  · exact perform_keeps rfl ⟨⟨nofun, nofun⟩, rfl, rfl, rfl⟩ fun _ => rfl
  refine silent_then (fastUnlock_keeps ⟨nofun, nofun⟩ (fun _ => rfl) fun _ => rfl) fun _ => ?_
  refine silent_then (lock_keeps nofun rfl (.inl rfl)) fun _ => ?_
  refine silent_then (cleanUpMessages_keeps ⟨nofun, nofun⟩ (.inl rfl)) fun _ => ?_
  refine silent_then (idle_keeps rfl ⟨⟨nofun, nofun⟩, rfl, rfl⟩ fun _ => rfl) fun _ => ?_
  refine (mantissa_keeps rounds hProper).bind ?_ ?_
  · rintro _ _ (⟨_, rfl⟩ | ⟨hEq, _⟩)
    · have hReady : Local.Ready ⟨.free, .held, .over⟩ := ⟨nofun, nofun⟩
      refine .mono (Q := Silent ⟨.free, .free, .over⟩) (perform_keeps rfl ⟨hReady, rfl, trivial⟩ fun _ => rfl) ?_
      rintro out _ ⟨_, rfl⟩
      have hFree : Local.Ready ⟨.free, .free, .over⟩ := ⟨nofun, nofun⟩
      exact leaves_over hFree out
    · cases hEq
  · rintro e _ (⟨hEq, _⟩ | ⟨_, hLeaves⟩)
    · cases hEq
    · exact hLeaves

/-! ## The answer -/

theorem accept_keeps (json : Php) :
    (accept d json).Keeps (stages strict (.of d))
      (fun out ℓ => Leaves strict out ℓ ∧ (out.isOk = true → ℓ = ⟨.free, .held, .over⟩)) ⟨.held, .held, .found⟩ := by
  have hReady : Local.Ready ⟨.free, .held, .over⟩ := ⟨nofun, nofun⟩
  have hHeld : Local.Ready ⟨.held, .held, .over⟩ := ⟨nofun, nofun⟩
  refine silent_then (m := ⟨.held, .held, .removed⟩) ?_ fun _ => ?_
  · exact perform_keeps rfl ⟨⟨nofun, nofun⟩, rfl, .inr ⟨rfl, rfl, rfl⟩⟩ fun _ => rfl
  refine still_then ((mention_keeps _).mono fun _ _ h => h.1) (fun user => ?_) fun _ => ?_
  · refine still_then (m := ⟨.held, .held, .over⟩) ?_ (fun ret => ?_) fun _ => ⟨leaves_over hHeld _, nofun⟩
    · refine .perform ⟨⟨nofun, nofun⟩, rfl, fun _ => rfl⟩ fun r _ => ?_
      cases r <;> rfl
    refine silent_then (cleanUpMessages_keeps hHeld (.inr rfl)) fun _ => ?_
    refine still_then (exe_over hReady trivial) (fun _ => ?_) fun _ => ⟨leaves_over hReady _, nofun⟩
    refine still_then (.when (fun _ => ?_) rfl) (fun _ => ?_) fun _ => ⟨leaves_over hReady _, nofun⟩
    · refine silent_then (idle_keeps rfl ⟨hReady, rfl, trivial⟩ fun _ => rfl) fun _ => ?_
      exact still_then (exe_over hReady trivial) (fun _ => rfl) fun _ => rfl
    · refine still_then (exe_over hReady trivial) (fun _ => ?_) fun _ => ⟨leaves_over hReady _, nofun⟩
      exact ⟨leaves_over hReady _, fun _ => rfl⟩
  · exact ⟨⟨⟨nofun, nofun⟩, rfl, fun _ => nofun⟩, nofun⟩

theorem addDeleteMsg_keeps (hReady : ℓ.Ready) (hPlain : ℓ.stage.plain = true) (msgId : Php) :
    (addDeleteMsg d msgId).Keeps (stages strict pr) (fun _ ℓ' => ℓ' = ℓ) ℓ := by
  unfold addDeleteMsg intArg
  cases msgId.intParam with
  | some n =>
    have hTouch : Admits strict pr ℓ (.touchMsg (captchaStDir d) (toString n)) :=
      ⟨hReady, Stage.permits_of_plain hPlain _, trivial⟩
    exact still_keeps hTouch fun _ => rfl
  | none => exact rfl

theorem refuse_keeps : (refuse d).Keeps (stages strict (.of d)) (fun _ ℓ => ℓ = ⟨.held, .held, .found⟩)
    ⟨.held, .held, .found⟩ := by
  have hReady : Local.Ready ⟨.held, .held, .found⟩ := ⟨nofun, nofun⟩
  refine still_then (still_keeps ⟨hReady, rfl, fun h => ?_⟩ fun r => ?_) (fun ret => ?_) fun _ => rfl
  · rw [isWelcome_wrong] at h
    cases h
  · cases r <;> rfl
  · refine still_then (.when (fun _ => addDeleteMsg_keeps hReady rfl _) rfl) (fun _ => ?_) fun _ => rfl
    exact addDeleteMsg_keeps hReady rfl _

theorem giveBack_keeps (hReady : ℓ.Ready) (hStage : ℓ.stage = .over ∨ ℓ.stage = .found ∨ ℓ.stage = .asking) :
    (do unlock
        fastUnlock d).Keeps (stages strict (.of d)) (Leaves strict) ℓ := by
  obtain ⟨fast, lock, stage⟩ := ℓ
  obtain ⟨stage', hAfter, hStage'⟩ : ∃ stage', (∀ r, stage.after (.unflock .lockHandle) r = stage') ∧
      (stage' = .over ∨ stage' = .asking) := by
    rcases hStage with rfl | rfl | rfl
    · exact ⟨_, fun _ => rfl, .inl rfl⟩
    · exact ⟨_, fun _ => rfl, .inl rfl⟩
    · exact ⟨_, fun _ => rfl, .inr rfl⟩
  have hReady' : Local.Ready ⟨fast, .free, stage'⟩ := ⟨hReady.1, nofun⟩
  refine silent_then (m := ⟨fast, .free, stage'⟩) (perform_keeps rfl ⟨hReady, ?_, trivial⟩ fun a => ?_) fun _ => ?_
  · rcases hStage with rfl | rfl | rfl <;> rfl
  · rw [← hAfter (.ok a)]
    rfl
  · refine (fastUnlock_keeps hReady' ?_ ?_).mono ?_
    · rcases hStage' with rfl | rfl <;> exact fun _ => rfl
    · rcases hStage' with rfl | rfl <;> exact fun _ => rfl
    · rintro out _ ⟨_, rfl⟩
      refine ⟨⟨nofun, nofun⟩, ?_, fun _ => ?_⟩
      · rcases hStage' with rfl | rfl <;> rfl
      · rcases hStage' with rfl | rfl <;> exact nofun

theorem checkAnswer_keeps : (checkAnswer d).Keeps (stages strict (.of d)) (Leaves strict)
    ⟨.free, .free, .asking⟩ := by
  refine silent_then (fastLock_keeps ⟨nofun, nofun⟩ fun _ _ => rfl) fun _ => ?_
  refine silent_then (lock_keeps nofun rfl (.inr rfl)) fun _ => ?_
  have hRead : (perform (.readJson (captchaFile d))).Keeps (stages strict (.of d))
      (fun out ℓ => ∃ json, out = .ok json ∧ ℓ = ⟨.held, .held, if json.isArray then .found else .asking⟩)
      ⟨.held, .held, .asking⟩ := by
    refine .perform ⟨⟨nofun, nofun⟩, rfl, rfl, fun _ => rfl⟩ fun r hr => ?_
    cases r with
    | ok json => exact ⟨json, rfl, rfl⟩
    | error e => exact absurd (hr.2 e rfl) nofun
  refine hRead.bind ?_ ?_
  · rintro json _ ⟨_, hEq, rfl⟩
    cases hEq
    cases json.isArray with
    | false => exact giveBack_keeps ⟨nofun, nofun⟩ (.inr (.inr rfl))
    | true =>
      simp only [Prog.when, if_true]
      split
      · refine (accept_keeps json).bind ?_ fun e ℓ hLeaves => hLeaves.1
        rintro _ ℓ ⟨_, hOk⟩
        rw [hOk rfl]
        exact giveBack_keeps ⟨nofun, nofun⟩ (.inl rfl)
      · refine still_then refuse_keeps (fun _ => giveBack_keeps ⟨nofun, nofun⟩ (.inr (.inl rfl))) fun e => ?_
        exact ⟨⟨nofun, nofun⟩, rfl, fun _ => nofun⟩
  · rintro e _ ⟨_, hEq, _⟩
    cases hEq

theorem message_keeps : (message d).Keeps (stages strict (.of d)) (Leaves strict) ⟨.free, .free, .calling⟩ := by
  have hReady : Local.Ready ⟨.free, .free, .calling⟩ := ⟨nofun, nofun⟩
  refine (isHavingCaptcha_keeps hReady rfl).bind ?_ ?_
  · rintro b _ ⟨_, hEq, rfl⟩
    cases hEq
    cases b with
    | true => exact checkAnswer_keeps
    | false =>
      have hFree : Local.Ready ⟨.free, .free, .over⟩ := ⟨nofun, nofun⟩
      exact leaves_over hFree _
  · rintro e _ ⟨_, hEq, _⟩
    cases hEq

theorem code_keeps {j : Job} (hOf : j.Of strict pr) : (code j).Keeps (stages strict pr) (Finished j) j.local := by
  have hFree : Local.Ready ⟨.free, .free, .over⟩ := ⟨nofun, nofun⟩
  cases j with
  | dropCaptcha d rounds =>
    obtain ⟨rfl, hProper⟩ := hOf
    exact withObject_keeps (dropCaptcha_keeps rounds hProper)
  | checkAnswer d =>
    cases hOf
    exact withObject_keeps checkAnswer_keeps
  | isHavingCaptcha d =>
    cases hOf
    refine withObject_keeps ((isHavingCaptcha_keeps hFree rfl).bind ?_ ?_)
    · rintro b _ ⟨_, _, rfl⟩
      exact leaves_over hFree _
    · rintro e _ ⟨_, _, rfl⟩
      exact leaves_over hFree _
  | message d =>
    cases hOf
    exact withObject_keeps message_keeps
  | sections d bodies => cases hOf
  | task task =>
    cases task with
    | deleteMessage chatId messageId =>
      exact still_then (exe_over hFree trivial) (fun _ => ⟨rfl, rfl, rfl⟩) fun _ => ⟨rfl, rfl, rfl⟩
    | timer d rounds =>
      cases hOf
      exact withObject_keeps (timer_keeps rounds)

end Keeps

end TeaBot.Captcha
