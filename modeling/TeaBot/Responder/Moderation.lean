import TeaBot.Captcha.World
import TeaBot.Foundation.Scan
import TeaBot.Responder.Authorisation

/-! # Whether a moderation command takes effect

A command travels through the pattern, the class of its first letter and the method that
class names. What becomes of it is read off the executions of `Response::run`.
-/

namespace TeaBot.Responder.Moderation

open Foundation Captcha

/-! ## From the text to the method -/

variable {l : Char}

variable {w : String}

variable {text : String}

def moderations (tr : List Answered) : List Api :=
  tr.filterMap fun e => match e.op with
    | .exe call _ => if call.isModeration then some call else none
    | _ => none

def Raised (tr : List Answered) (x : Throwable) : Prop := ∃ e ∈ tr, e.answer = .error x

/-- Only what goes over HTTP raises. -/
def OnlyHttp (tr : List Answered) : Prop := ∀ e ∈ tr, ∀ x, e.answer = .error x → raises e.op = true

def NoCaptcha (d : Data) (tr : List Answered) : Prop :=
  ∀ b : Bool, (⟨.fileExists (captchaFile d), .ok b⟩ : Answered) ∈ tr → b = false

/-- The sender is configured, or reported to have the right whenever that is asked. -/
def Entitled (SUDOERS : List Int) (sender chat : Int) (tr : List Answered) : Prop :=
  sender ∈ SUDOERS ∨ ∀ r : Except Throwable Php, (⟨.exe (.getChatMember sender chat) true, r⟩ : Answered) ∈ tr →
    ∃ answer, r = .ok answer ∧
      ((answer.get (.str "result")).get (.str "status") = .str "creator" ∨
        ((answer.get (.str "result")).get (.str "can_restrict_members")).truthy = true)

variable {tr : List Answered}

theorem Entitled.mono {SUDOERS : List Int} {sender chat : Int} {tr' : List Answered}
    (h : Entitled SUDOERS sender chat tr) (hSub : tr' ⊆ tr) : Entitled SUDOERS sender chat tr' := by
  rcases h with hSudo | hReported
  · exact .inl hSudo
  · exact .inr fun r hMem => hReported r (hSub hMem)

theorem moderations_append (tr tr' : List Answered) : moderations (tr ++ tr') = moderations tr ++ moderations tr' :=
  List.filterMap_append

theorem moderations_cons (e : Answered) (tr : List Answered) :
    moderations (e :: tr) = moderations [e] ++ moderations tr :=
  moderations_append [e] tr

variable {e : Answered}

theorem moderations_harmless (h : e.op.isModeration = false) : moderations [e] = [] := by
  obtain ⟨o, r⟩ := e
  cases o with
  | exe call =>
    have hCall : call.isModeration = false := h
    simp [moderations, hCall]
  | _ => rfl

variable {x : Throwable}

theorem raised_cons : Raised (e :: tr) x ↔ e.answer = .error x ∨ Raised tr x := by
  simp [Raised]

structure Idle (tr : List Answered) : Prop where
  calls : moderations tr = []
  silent : ∀ x, ¬ Raised tr x

theorem Idle.cons (h : Idle tr) (hHarmless : e.op.isModeration = false) (hOk : ∀ x, e.answer ≠ .error x) :
    Idle (e :: tr) := by
  refine ⟨?_, fun x hRaised => ?_⟩
  · rw [moderations_cons, moderations_harmless hHarmless, h.calls, List.append_nil]
  · rcases raised_cons.mp hRaised with hHere | hLater
    · exact hOk x hHere
    · exact h.silent x hLater

variable {out : Except Throwable Bool}

section Method

variable {SUDOERS : List Int} {d : Data} {sender chat : Int} {tr : List Answered}

end Method

/-! ## The whole run -/

theorem exec_silent {α : Type} {o : Op} {k : Except Throwable o.Res → Run α} {out : Except Throwable α}
    (h : (Prog.op o k).Exec tr out) (hSilent : raises o = false) (hHttp : OnlyHttp tr) :
    ∃ v tr', tr = ⟨o, .ok v⟩ :: tr' ∧ OnlyHttp tr' ∧ (k (.ok v)).Exec tr' out := by
  cases h with
  | @op _ _ r tr' _ hRest =>
    cases r with
    | error x =>
      have hRaises := hHttp _ List.mem_cons_self x rfl
      rw [hSilent] at hRaises
      cases hRaises
    | ok v => exact ⟨v, tr', rfl, fun e he => hHttp e (List.mem_cons_of_mem _ he), hRest⟩

section Run

variable {SUDOERS : List Int} {d : Data} {sender chat : Int} {tr : List Answered}

end Run

def commandOn (text : String) : Data := { Data.constructGeneralInput banUpdate with text := .str text }

def traceOf (SUDOERS : List Int) (text : String) : List Answered :=
  (Response.run SUDOERS (commandOn text) 0).record creatorAnswers ()

section Traces

variable {SUDOERS : List Int} {text : String}

theorem answered (h : e ∈ traceOf SUDOERS text) : e.answer = (creatorAnswers e.op ()).1 := by
  obtain ⟨_, hAnswer⟩ := Prog.answer_of_mem_record h
  exact hAnswer

theorem noCaptcha : NoCaptcha (commandOn text) (traceOf SUDOERS text) := by
  intro b hMem
  cases answered hMem
  rfl

end Traces

end TeaBot.Responder.Moderation
