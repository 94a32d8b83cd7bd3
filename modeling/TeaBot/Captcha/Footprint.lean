import TeaBot.Captcha.Runtime

/-! # Whom the captcha code touches

All of it works on one user: the directory and `info.json`, the texts, the kick and the
timer are those of the user that the object was made for.
-/

namespace TeaBot.Captcha

open Foundation Responder

/-- How every text about a user begins. -/
def linkTo (id : String) : String := "<a href=\"tg://user?id=" ++ id ++ "\">"

def Footprint (d : Data) : Op → Prop
  | .buildDir dir => dir = captchaStDir d
  | .writeJson p _ => p = captchaFile d
  | .exe (.sendPhoto _ _ caption) _ => ∃ rest, caption = linkTo d.userId.toStr ++ rest
  | .exe (.kickChatMember userId _) _ => userId = d.userId
  | .go (.timer d' _) => d' = d
  | _ => True

variable {d : Data}

variable {P : Op → Prop}

theorem mention_uses : (mention d).Uses P := .bind (strArg_uses d.fullName) fun _ => trivial

theorem mention_bind_uses {α : Type} {f : String → Run α} (hf : ∀ rest, (f (linkTo d.userId.toStr ++ rest)).Uses P) :
    ((mention d).bind f).Uses P := by
  have hAssoc : ∀ link name close handle : String, link ++ name ++ close ++ handle = link ++ (name ++ close ++ handle) := by
    intro link name close handle
    simp only [String.append_assoc]
  rw [mention, Prog.bind_eq, Prog.bind_assoc]
  refine (strArg_uses d.fullName).bind fun name => ?_
  rw [hAssoc]
  exact hf _

theorem refuse_uses (hSend : P (.exe (.sendMessage d.chatId "Wrong answer!" d.msgId) true))
    (hTouch : ∀ name, P (.touchMsg (captchaStDir d) name)) : (refuse d).Uses P := by
  have hAdd : ∀ msgId, (addDeleteMsg d msgId).Uses P := by
    intro msgId
    exact .bind (intArg_uses msgId) fun n => .perform (hTouch _)
  exact .bind (.perform hSend) fun _ => .bind (.when (hAdd _)) fun _ => hAdd _

theorem mantissa_uses {rounds : Nat} (hPoint : P .newFloatingPoint) (hLatex : ∀ str, P (.genLatex str))
    (hSend : ∀ url rest, P (.exe (.sendPhoto d.chatId url (linkTo d.userId.toStr ++ rest)) true))
    (hWrite : ∀ data, P (.writeJson (captchaFile d) data)) (hTimer : P (.go (.timer d rounds))) :
    (mantissa d rounds).Uses P := by
  have hFile : ∀ data, (writeCaptchaFile d data).Uses P := by
    intro data
    unfold writeCaptchaFile
    split
    · exact .perform (hWrite data)
    · trivial
  refine .bind (.perform hPoint) fun point => ?_
  obtain ⟨str, m⟩ := point
  refine .bind (.perform (hLatex str)) fun url => mention_bind_uses fun rest => ?_
  rw [String.append_assoc]
  exact .bind (.perform (hSend url _)) fun json => .bind (hFile _) fun _ => .perform hTimer

theorem lock_footprint {h : Handle} {p : Path} :
    (do perform (.fopen h p); perform (.flock h) : Run Unit).Uses (Footprint d) :=
  .bind (.perform trivial) fun _ => .perform trivial

theorem fastUnlock_footprint : (fastUnlock d).Uses (Footprint d) := .bind (.perform trivial) fun _ => .perform trivial

theorem isHavingCaptcha_footprint : (isHavingCaptcha d).Uses (Footprint d) :=
  .bind lock_footprint fun _ => .bind (.perform trivial) fun _ => .bind fastUnlock_footprint fun _ => trivial

theorem deleteAll_footprint (names : List String) : (deleteAll d names).Uses (Footprint d) := by
  induction names with
  | nil => trivial
  | cons v rest ih => exact .bind (.when (.bind (.perform trivial) fun _ => .perform trivial)) fun _ => ih

theorem cleanUpMessages_footprint : (cleanUpMessages d).Uses (Footprint d) := by
  refine .bind isHavingCaptcha_footprint fun having => .bind (.when ?_) fun _ => .bind (.perform trivial) deleteAll_footprint
  exact .bind (.perform trivial) fun _ => .when (.bind (.perform trivial) fun _ => .perform trivial)

theorem dropCaptcha_footprint (rounds : Nat) : (dropCaptcha d rounds).Uses (Footprint d) := by
  have hMantissa : (mantissa d rounds).Uses (Footprint d) :=
    mantissa_uses trivial (fun _ => trivial) (fun _ rest => ⟨rest, rfl⟩) (fun _ => rfl) rfl
  refine .bind lock_footprint fun _ => .bind (.perform rfl) fun _ => .bind (.perform trivial) fun _ => ?_
  refine .bind fastUnlock_footprint fun _ => .bind lock_footprint fun _ => ?_
  exact .bind cleanUpMessages_footprint fun _ => .bind (.perform rfl) fun _ => .bind hMantissa fun _ => .perform trivial

theorem captchaFailKick_footprint : (captchaFailKick d).Uses (Footprint d) := by
  have hReport : ∀ ret, (reportKick d ret).Uses (Footprint d) := by
    intro ret
    unfold reportKick
    split
    · exact mention_bind_uses fun rest => .bind (.perform trivial) fun _ => trivial
    · trivial
  refine .bind (.perform trivial) fun _ => .bind lock_footprint fun _ => ?_
  refine .bind (.perform rfl) fun ret => .bind (hReport ret) fun kickMsgId => ?_
  refine .bind fastUnlock_footprint fun _ => .bind cleanUpMessages_footprint fun _ => ?_
  refine .bind (.perform trivial) fun _ => .bind (.perform trivial) fun _ => .bind (.when ?_) fun _ => ?_
  · exact .bind (.perform trivial) fun _ => .bind (.perform trivial) fun _ => trivial
  · exact .bind (.perform trivial) fun _ => trivial

theorem awaitAnswer_footprint (startTime : Int) (rounds : Nat) :
    (awaitAnswer d startTime rounds).Uses (Footprint d) := by
  induction rounds with
  | zero => exact .bind (.perform trivial) fun _ => trivial
  | succ rounds ih =>
    refine .bind (.perform trivial) fun now => .bind (.perform trivial) fun _ => .bind isHavingCaptcha_footprint fun having => ?_
    cases having with
    | false => trivial
    | true =>
      simp only [if_true]
      split
      · exact ih
      · trivial

theorem timer_footprint (rounds : Nat) : (timer d rounds).Uses (Footprint d) :=
  .bind (.perform trivial) fun startTime => .bind (awaitAnswer_footprint startTime rounds) fun _ =>
    .when captchaFailKick_footprint

theorem checkAnswer_footprint : (checkAnswer d).Uses (Footprint d) := by
  have hAccept : ∀ json, (accept d json).Uses (Footprint d) := by
    intro json
    refine .bind (.perform trivial) fun _ => mention_bind_uses fun rest => .bind (.perform trivial) fun ret => ?_
    refine .bind cleanUpMessages_footprint fun _ => .bind (.perform trivial) fun _ => .bind (.when ?_) fun _ => ?_
    · exact .bind (.perform trivial) fun _ => .bind (.perform trivial) fun _ => trivial
    · exact .bind (.perform trivial) fun _ => trivial
  refine .bind lock_footprint fun _ => .bind lock_footprint fun _ => .bind (.perform trivial) fun json => ?_
  refine .bind (.when ?_) fun _ => .bind (.perform trivial) fun _ => fastUnlock_footprint
  split
  · exact hAccept json
  · exact refuse_uses trivial fun _ => trivial

end TeaBot.Captcha
