import TeaBot.Exe
import TeaBot.Foundation.Prog
import TeaBot.Text

/-! # What the responder does to the outside

The coroutines of a responder worker call the API and work on the captcha files. The
two handles of a `CaptchaFoundation` object belong to the coroutine that runs it, so
they are named by the property that keeps them.
-/

namespace TeaBot.Responder

open Foundation

/-- The properties `$lockHandle` and `$fastLockHandle`. -/
inductive Handle
  | lockHandle
  | fastLockHandle
  deriving DecidableEq, Repr

/-- `dir` is a pair's directory below `captcha/`; the fast locks have a directory of
their own. -/
inductive Path
  | captchaFile (dir : String)
  | lockFile (dir : String)
  | fastLockFile (name : String)
  deriving DecidableEq, Repr

inductive Task
  /-- The closure of `cleanUpMessages` that deletes one message. -/
  | deleteMessage (chatId messageId : Php)
  /-- The captcha timer, with the number of rounds it is followed for. -/
  | timer (data : Data) (rounds : Nat)
  deriving DecidableEq

inductive Op
  | buildDir (dir : String)
  /-- `$this->h = fopen($p, "a+")`: the handle that was there is closed. -/
  | fopen (h : Handle) (p : Path)
  | flock (h : Handle)
  | unflock (h : Handle)
  /-- The object dies and its handles are closed. -/
  | destruct
  | fileExists (p : Path)
  | touch (p : Path)
  /-- `json_decode(file_get_contents($p), true)` -/
  | readJson (p : Path)
  | writeJson (p : Path) (v : Php)
  | unlink (p : Path)
  /-- Touch, remove and list the files below `<dir>/d`. -/
  | touchMsg (dir name : String)
  | unlinkMsg (dir name : String)
  | scandir (dir : String)
  | newFloatingPoint
  | genLatex (str : String)
  /-- With `read` the caller goes on with `->getBody()`, which is taken as part of the call. -/
  | exe (call : Api) (read : Bool)
  | time
  | usleep (microseconds : Nat)
  | sleep (seconds : Nat)
  /-- No effect; marks that `captchaFailKick` has been called. -/
  | enterFailKick
  | go (task : Task)
  /-- Where the rounds of a loop are used up: there is no answer to it. -/
  | beyond

@[reducible] def Op.Res : Op → Type
  | .fileExists _ => Bool
  | .readJson _ => Php
  | .scandir _ => List String
  | .newFloatingPoint => String × Int
  | .genLatex _ => Option String
  | .exe .. => Php
  | .time => Int
  | _ => Unit

abbrev Run (α : Type) := Prog Op Op.Res Throwable α

def perform (o : Op) : Run (Op.Res o) := Prog.perform o

end TeaBot.Responder
