import TeaBot.Foundation.Interp
import TeaBot.Responder.Authorisation

/-! # The responder on the wire

`Exe::execPost` posts a call again when the answer is lost, and a caller that reads a
reply which never came raises an `Error`. What Telegram gets of a worker are the posts.
-/

namespace TeaBot.Responder

open Foundation

/-- How a `$saber->post` ends that does not raise anything else. -/
inductive Posted
  | response (v : Php)
  /-- `TransferException`, with what its `getResponse` returns. -/
  | transferException (response : Option Php)
  | connectException

/-- What `$ret` is after the attempt; `none` is null. -/
def Posted.ret : Posted → Option Php
  | .response v => some v
  | .transferException r => r
  | .connectException => none

inductive Wire
  | post (call : Api)
  | other (o : Op)

@[reducible] def Wire.Res : Wire → Type
  | .post _ => Posted
  | .other o => o.Res

abbrev WireRun (α : Type) := Prog Wire Wire.Res Throwable α

abbrev WireEvent := Event Wire Wire.Res Throwable

def wire (o : Wire) : WireRun o.Res := Prog.perform o

/-- From `try_ll` on, when the label may be jumped to so many times more. -/
def tryLl (call : Api) : Nat → WireRun (Option Php)
  | 0 => do
    let a ← wire (.post call)
    pure a.ret
  | n + 1 => do
    let a ← wire (.post call)
    match a.ret with
    | some v => pure (some v)
    | none => tryLl call n

/-- `$tryCounter` is 1 at the first attempt, and up to 5 it goes back to `try_ll`. -/
def execPost (call : Api) : WireRun (Option Php) := tryLl call 5

/-- What the caller has of `execPost`: one that reads the reply calls a method of it. -/
def getBody (read : Bool) (ret : Except Throwable (Option Php)) : Except Throwable Php :=
  ret.bind fun
    | some v => .ok v
    | none => if read then .error (.error "Error" "Call to a member function getBody() on null") else .ok .null

def onWire : (o : Op) → WireRun o.Res
  | .exe call read => (execPost call).attempt fun ret => .ofExcept (getBody read ret)
  | o => wire (.other o)

/-- A post that is made again. -/
def Lost (call : Api) (e : WireEvent) : Prop := ∃ a : Posted, a.ret = none ∧ e = ⟨.post call, .ok a⟩

/-- The posts of a call with `n` attempts to spare, and what `execPost` comes to. -/
inductive Posts (call : Api) : Nat → List WireEvent → Except Throwable (Option Php) → Prop
  | raised {n : Nat} {e : Throwable} : Posts call n [⟨.post call, .error e⟩] (.error e)
  /-- Only when no attempt is left may the last post go unanswered. -/
  | last {n : Nat} {a : Posted} : (a.ret = none → n = 0) → Posts call n [⟨.post call, .ok a⟩] (.ok a.ret)
  | again {n : Nat} {a : Posted} {tr : List WireEvent} {out : Except Throwable (Option Php)} : a.ret = none →
      Posts call n tr out → Posts call (n + 1) (⟨.post call, .ok a⟩ :: tr) out

section Retries

variable {call : Api} {n : Nat} {tr : List WireEvent} {out : Except Throwable (Option Php)}

theorem exec_tryLl : (tryLl call n).Exec tr out ↔ Posts call n tr out := by
  induction n generalizing tr with
  | zero =>
    refine Prog.Exec.perform_bind_iff.trans ⟨?_, fun hPosts => ?_⟩
    · rintro (⟨e, rfl, rfl⟩ | ⟨a, rest, rfl, hRest⟩)
      · exact .raised
      · cases hRest
        exact .last fun _ => rfl
    · cases hPosts with
      | raised => exact .inl ⟨_, rfl, rfl⟩
      | last => exact .inr ⟨_, _, rfl, .ret _⟩
  | succ n ih =>
    refine Prog.Exec.perform_bind_iff.trans ⟨?_, fun hPosts => ?_⟩
    · rintro (⟨e, rfl, rfl⟩ | ⟨a, rest, rfl, hRest⟩)
      · exact .raised
      · cases ha : a.ret with
        | some v =>
          rw [ha] at hRest
          cases hRest
          exact ha ▸ .last (by simp [ha])
        | none =>
          rw [ha] at hRest
          exact .again ha (ih.mp hRest)
    · cases hPosts with
      | raised => exact .inl ⟨_, rfl, rfl⟩
      | @last _ a hLast =>
        refine .inr ⟨a, _, rfl, ?_⟩
        cases ha : a.ret with
        | some v => exact .ret _
        | none => cases hLast ha
      | @again _ a _ _ ha hRest =>
        refine .inr ⟨a, _, rfl, ?_⟩
        rw [ha]
        exact ih.mpr hRest

theorem Posts.length_le (h : Posts call n tr out) : tr.length ≤ n + 1 := by
  induction h with
  | raised | last => simp
  | again _ _ ih => exact Nat.succ_le_succ ih

theorem Posts.op (h : Posts call n tr out) {e : WireEvent} (he : e ∈ tr) : e.op = .post call := by
  induction h with
  | raised | last => rw [List.mem_singleton.mp he]
  | again _ _ ih =>
    rcases List.mem_cons.mp he with rfl | he
    · rfl
    · exact ih he

/-- Before a post of a call there are only lost ones of the same call. -/
theorem Posts.split {call' : Api} {r : Except Throwable Posted} {before after : List WireEvent}
    (h : Posts call' n tr out) (hTr : tr = before ++ ⟨.post call, r⟩ :: after) :
    call = call' ∧ ∀ e ∈ before, Lost call e := by
  induction h generalizing before with
  | raised | last =>
    cases before with
    | nil =>
      cases hTr
      exact ⟨rfl, List.forall_mem_nil _⟩
    | cons x before => simp at hTr
  | @again _ a _ _ ha _ ih =>
    cases before with
    | nil =>
      cases hTr
      exact ⟨rfl, List.forall_mem_nil _⟩
    | cons x before =>
      obtain ⟨hHead, hTail⟩ := List.cons.inj hTr
      obtain ⟨rfl, hLost⟩ := ih hTail
      refine ⟨rfl, List.forall_mem_cons.mpr ⟨⟨a, ha, hHead.symm⟩, hLost⟩⟩

end Retries

/-! ## Calls and posts -/

/-- `tr` is what becomes of the operations on the wire: calls of the API are posted once to
six times, all else is as it was. -/
inductive OnWire : List Answered → List WireEvent → Prop
  | nil : OnWire [] []
  | call {call : Api} {read : Bool} {posts : List WireEvent} {ret : Except Throwable (Option Php)}
      {calls : List Answered} {tr : List WireEvent} :
      Posts call 5 posts ret → OnWire calls tr → OnWire (⟨.exe call read, getBody read ret⟩ :: calls) (posts ++ tr)
  | other {o : Op} {r : Except Throwable o.Res} {calls : List Answered} {tr : List WireEvent} :
      (∀ call read, o ≠ .exe call read) → OnWire calls tr → OnWire (⟨o, r⟩ :: calls) (⟨.other o, r⟩ :: tr)

section Blocks

variable {o : Op} {r : Except Throwable o.Res} {seg : List WireEvent}

theorem exec_exe {call : Api} {read : Bool} {r : Except Throwable Php} :
    (onWire (.exe call read)).Exec seg r ↔ ∃ ret, Posts call 5 seg ret ∧ r = getBody read ret := by
  refine Prog.Exec.attempt_iff.trans ⟨?_, ?_⟩
  · rintro ⟨ret, posts, rest, rfl, hPosts, hBody⟩
    obtain ⟨rfl, rfl⟩ := Prog.Exec.ofExcept_iff.mp hBody
    exact ⟨ret, by rw [List.append_nil]; exact exec_tryLl.mp hPosts, rfl⟩
  · rintro ⟨ret, hPosts, rfl⟩
    exact ⟨ret, seg, [], by simp, exec_tryLl.mpr hPosts, Prog.Exec.ofExcept_iff.mpr ⟨rfl, rfl⟩⟩

theorem exec_other (ho : ∀ call read, o ≠ .exe call read) : (onWire o).Exec seg r ↔ seg = [⟨.other o, r⟩] := by
  have hWire : onWire o = wire (.other o) := by
    cases o with
    | exe call read => exact absurd rfl (ho call read)
    | _ => rfl
  rw [hWire]
  exact Prog.Exec.perform_iff

theorem block_cases {e : Answered} (hSeg : (onWire e.op).Exec seg e.answer) :
    (∃ call read ret, e = ⟨.exe call read, getBody read ret⟩ ∧ Posts call 5 seg ret) ∨
      (∀ call read, e.op ≠ .exe call read) ∧ seg = [⟨.other e.op, e.answer⟩] := by
  obtain ⟨o, r⟩ := e
  by_cases ho : ∃ call read, o = .exe call read
  · obtain ⟨call, read, rfl⟩ := ho
    obtain ⟨ret, hPosts, rfl⟩ := exec_exe.mp hSeg
    exact .inl ⟨call, read, ret, rfl, hPosts⟩
  · push Not at ho
    exact .inr ⟨ho, (exec_other ho).mp hSeg⟩

theorem blocks_iff {calls : List Answered} {tr : List WireEvent} : Prog.Blocks onWire calls tr ↔ OnWire calls tr := by
  constructor
  · intro h
    induction h with
    | nil => exact .nil
    | cons hSeg _ ih =>
      rcases block_cases hSeg with ⟨call, read, ret, rfl, hPosts⟩ | ⟨ho, rfl⟩
      · exact .call hPosts ih
      · exact .other ho ih
  · intro h
    induction h with
    | nil => exact .nil
    | call hPosts _ ih => exact .cons (exec_exe.mpr ⟨_, hPosts, rfl⟩) ih
    | @other o r _ _ ho _ ih => exact .cons (e := ⟨o, r⟩) ((exec_other ho).mpr rfl) ih

end Blocks

/-- A worker does on the wire exactly what `Response::run` does in calls. -/
theorem wire_runs_are_calls (SUDOERS : List Int) (d : Data) (rounds : Nat) (tr : List WireEvent)
    (out : Except Throwable Unit) :
    ((Response.run SUDOERS d rounds).interp onWire).Exec tr out ↔
      ∃ calls, (Response.run SUDOERS d rounds).Exec calls out ∧ OnWire calls tr := by
  rw [Prog.Exec.interp_iff]
  simp only [blocks_iff]

/-! ## Moderation on the wire -/

def WireEvent.isModeration (e : WireEvent) : Bool :=
  match e.op with
  | .post call => call.isModeration
  | .other _ => false

theorem countP_onWire {e : Answered} {seg : List WireEvent} (hSeg : (onWire e.op).Exec seg e.answer) :
    seg.countP WireEvent.isModeration ≤ if e.op.isModeration then 6 else 0 := by
  rcases block_cases hSeg with ⟨call, read, ret, rfl, hPosts⟩ | ⟨_, rfl⟩
  · show _ ≤ if call.isModeration then 6 else 0
    split
    · exact List.countP_le_length.trans hPosts.length_le
    · rename_i hCall
      refine Nat.le_of_eq (List.countP_eq_zero.mpr fun e he => ?_)
      rwa [WireEvent.isModeration, hPosts.op he]
  · exact Nat.zero_le _

/-- Whatever the network loses, a moderation call is posted only where the calls before it
authorise it, and at most six times for one update. -/
theorem moderation_posts_authorised (SUDOERS : List Int) (d : Data) (rounds : Nat) (sender chat : Int)
    (hSender : d.userId = .int sender) (hChat : d.chatId = .int chat) (tr : List WireEvent)
    (out : Except Throwable Unit) (hExec : ((Response.run SUDOERS d rounds).interp onWire).Exec tr out) :
    (∀ before after call r, tr = before ++ ⟨.post call, r⟩ :: after → call.isModeration = true →
      ∃ calls tr₁ lost read, before = tr₁ ++ lost ∧ OnWire calls tr₁ ∧ (∀ e ∈ lost, Lost call e) ∧
        Authorised SUDOERS d sender chat calls (.exe call read)) ∧
    tr.countP WireEvent.isModeration ≤ 6 := by
  obtain ⟨calls, hCalls, hBlocks⟩ := Prog.Exec.interp_iff.mp hExec
  have hGuarded : (Response.run SUDOERS d rounds).Guarded (fun _ => True) (Authorised SUDOERS d sender chat)
      (fun _ _ => True) [] := run_guarded hSender hChat
  constructor
  · intro before after call r hTr _
    obtain ⟨calls₁, e, calls₂, tr₁, seg₁, seg₂, hSplit, rfl, hBefore, hSeg⟩ := hBlocks.split hTr
    rcases block_cases hSeg with ⟨call', read, ret, rfl, hPosts⟩ | ⟨_, hOther⟩
    · obtain ⟨rfl, hLost⟩ := hPosts.split rfl
      exact ⟨calls₁, tr₁, seg₁, read, rfl, blocks_iff.mp hBefore, hLost,
        hGuarded.event hCalls (fun _ _ => trivial) hSplit⟩
    · have hMem : (⟨.post call, r⟩ : WireEvent) ∈ [(⟨.other e.op, e.answer⟩ : WireEvent)] :=
        hOther ▸ List.mem_append_right _ List.mem_cons_self
      cases List.mem_singleton.mp hMem
  · have hOnce : calls.countP (fun e => e.op.isModeration) ≤ 1 :=
      countP_le_one calls fun before e after hCalls' he =>
        authorised_quiet he (hGuarded.event hCalls (fun _ _ => trivial) hCalls')
    have hAll := hBlocks.countP_le (n := 6) (Q := fun e => e.op.isModeration) fun e seg hSeg => countP_onWire hSeg
    omega

/-- Every other post gets no connection; the others are answered as for a creator. -/
def everySecond : (o : Wire) → Bool → Except Throwable o.Res × Bool
  | .post _, false => (.ok .connectException, true)
  | .post call, true => ((creatorAnswers (.exe call true) ()).1.map .response, false)
  | .other o, b => ((creatorAnswers o ()).1, b)

def banPosts : List WireEvent :=
  ((Response.run [] (Data.constructGeneralInput banUpdate) 0).interp onWire).record everySecond false

theorem banPosts_authorised :
    ∃ before after r, banPosts = before ++ ⟨.post (.kickChatMember (.int 9) (.int (-5))), r⟩ :: after ∧
      ∃ calls, Authorised [] (Data.constructGeneralInput banUpdate) 7 (-5) calls
        (.exe (.kickChatMember (.int 9) (.int (-5))) true) := by
  have hSplit : banPosts = banPosts.take 8 ++ ⟨.post (.kickChatMember (.int 9) (.int (-5))),
      .ok (.response (.obj [("ok", .bool true), ("result", .bool true)]))⟩ :: banPosts.drop 9 := by
    rfl
  obtain ⟨calls, _, _, _, _, _, _, hAuthorised⟩ := (moderation_posts_authorised []
    (Data.constructGeneralInput banUpdate) 0 7 (-5) rfl rfl banPosts _ (Prog.exec_record everySecond _ false)).1
    _ _ _ _ hSplit rfl
  exact ⟨_, _, _, hSplit, calls, hAuthorised⟩

end TeaBot.Responder
