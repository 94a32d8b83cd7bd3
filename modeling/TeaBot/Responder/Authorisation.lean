import Mathlib.Data.List.Induction
import TeaBot.Captcha.Footprint
import TeaBot.Foundation.History
import TeaBot.Responder.Response

/-! # Who may moderate

Whatever the captcha files and the API answer, `Response::run` calls a moderation
method only for a command, a sender and a target that are entitled to it, and only once.
-/

namespace TeaBot.Responder

open Foundation Captcha

abbrev Answered := Event Op Op.Res Throwable

def Op.isModeration : Op → Bool
  | .exe call _ => call.isModeration
  | _ => false

/-- The text is a start character and a word up to the first white space, which in
lower case is `w`. -/
def CommandWord (text : List Char) (w : String) : Prop :=
  ∃ c word rest, text = c :: (word ++ rest) ∧ c ∈ startChars ∧ (∀ x ∈ word, isSpace x = false) ∧
    (∀ x ∈ rest.head?, isSpace x = true) ∧ strtolower word = w.toList

/-- What has to precede every moderation call. -/
structure Commanded (d : Data) (w : String) (before : List Answered) : Prop where
  notEdited : d.isEditedMsg.truthy = false
  noCaptcha : ⟨.fileExists (captchaFile d), .ok false⟩ ∈ before
  command : CommandWord d.text.toStr.toList w

/-- `getChatMember` of the sender has reported the creator or one who can restrict. -/
def ReportedAdmin (sender chat : Int) (before : List Answered) : Prop :=
  ∃ answer : Php, ⟨.exe (.getChatMember sender chat) true, .ok answer⟩ ∈ before ∧
    ((answer.get (.str "result")).get (.str "status") = .str "creator" ∨
      ((answer.get (.str "result")).get (.str "can_restrict_members")).truthy = true)

def IsReplied (d : Data) (target : Int) : Prop := (repliedTo d).intParam = some target

structure MayRestrict (SUDOERS : List Int) (d : Data) (sender chat : Int) (w : String)
    (before : List Answered) (userId chatId : Php) : Prop extends Commanded d w before where
  allowed : sender ∈ SUDOERS ∨ ReportedAdmin sender chat before
  target : ∃ t, IsReplied d t ∧ userId = .int t
  sameChat : chatId = .int chat

structure MayPromote (SUDOERS : List Int) (d : Data) (sender chat : Int)
    (before : List Answered) (userId chatId : Int) : Prop where
  command : (Commanded d "promote" before ∧ sender ∈ SUDOERS ∧ IsReplied d userId) ∨
    ((Commanded d "promote_me" before ∨ Commanded d "promoteme" before) ∧
      chat ∈ Promotion.PROMOTE_ME_ALLOWED_GROUPS ∧ userId = sender)
  sameChat : chatId = chat

/-! ## The command line -/

theorem mem_takeWhile_word {s : List Char} {x : Char} (h : x ∈ s.takeWhile fun x => !isSpace x) :
    isSpace x = false := by
  simpa using List.all_eq_true.mp List.all_takeWhile x h

theorem head_dropWhile_word {s : List Char} {x : Char} (h : x ∈ (s.dropWhile fun x => !isSpace x).head?) :
    isSpace x = true := by
  have hHead := List.head?_dropWhile_not (fun x => !isSpace x) s
  rw [Option.mem_def.mp h] at hHead
  simpa using hHead

theorem isSpace_of_isWord {c : Char} (h : isWord c = true) : isSpace c = false := by
  by_contra hSpace
  simp only [isSpace, decide_eq_true_eq, Bool.not_eq_false, List.mem_cons, List.not_mem_nil, or_false] at hSpace
  rcases hSpace with rfl | rfl | rfl | rfl | rfl | rfl <;> exact absurd h (by decide)

theorem parseCommand_word {text : List Char} {m : Command} (h : parseCommand text = some m) :
    CommandWord text (String.ofList (strtolower m.word)) := by
  unfold parseCommand at h
  split at h
  · rename_i c i rest
    split at h
    · rename_i hMatch
      obtain ⟨hStart, hIndex, _⟩ := hMatch
      cases h
      refine ⟨c, i :: rest.takeWhile fun x => !isSpace x, rest.dropWhile fun x => !isSpace x, ?_, hStart,
        ?_, fun x hx => head_dropWhile_word hx, by simp⟩
      · simp [List.takeWhile_append_dropWhile]
      · rintro x hx
        rcases List.mem_cons.mp hx with rfl | hx
        · exact isSpace_of_isWord hIndex
        · exact mem_takeWhile_word hx
    · cases h
  · cases h

theorem commandOf_word {text : Php} {m : Command} (h : commandOf text = some m) :
    CommandWord text.toStr.toList (String.ofList (strtolower m.word)) := by
  unfold commandOf at h
  split at h
  · cases h
  · exact parseCommand_word h

/-! ## Code that moderates nobody -/

abbrev Harmless (o : Op) : Prop := o.isModeration = false

theorem lock_harmless (d : Data) : (lock d).Uses Harmless :=
  .bind (.perform rfl) fun _ => .perform rfl

theorem fastLock_harmless (d : Data) : (fastLock d).Uses Harmless :=
  .bind (.perform rfl) fun _ => .perform rfl

theorem fastUnlock_harmless (d : Data) : (fastUnlock d).Uses Harmless :=
  .bind (.perform rfl) fun _ => .perform rfl

theorem isHavingCaptcha_harmless (d : Data) : (isHavingCaptcha d).Uses Harmless := by
  refine .bind (fastLock_harmless d) fun _ => .bind (.perform rfl) fun _ => ?_
  exact .bind (fastUnlock_harmless d) fun _ => trivial

theorem deleteAll_harmless (d : Data) (names : List String) : (deleteAll d names).Uses Harmless := by
  induction names with
  | nil => trivial
  | cons v rest ih =>
    refine .bind (.when ?_) fun _ => ih
    exact .bind (.perform rfl) fun _ => .perform rfl

theorem deleteCaptchaMessage_harmless (d : Data) : (deleteCaptchaMessage d).Uses Harmless := by
  refine .bind (.perform rfl) fun json => .when ?_
  exact .bind (.perform rfl) fun _ => .perform rfl

theorem cleanUpMessages_harmless (d : Data) : (cleanUpMessages d).Uses Harmless := by
  refine .bind (isHavingCaptcha_harmless d) fun having => ?_
  refine .bind (.when (deleteCaptchaMessage_harmless d)) fun _ => ?_
  exact .bind (.perform rfl) fun names => deleteAll_harmless d names

theorem accept_harmless (d : Data) (json : Php) : (accept d json).Uses Harmless := by
  refine .bind (.perform rfl) fun _ => .bind mention_uses fun _ => .bind (.perform rfl) fun ret => ?_
  refine .bind (cleanUpMessages_harmless d) fun _ => .bind (.perform rfl) fun _ => .bind (.when ?_) fun _ => ?_
  · exact .bind (.perform rfl) fun _ => .bind (.perform rfl) fun _ => trivial
  · exact .bind (.perform rfl) fun _ => trivial

theorem checkAnswer_harmless (d : Data) : (checkAnswer d).Uses Harmless := by
  refine .bind (fastLock_harmless d) fun _ => .bind (lock_harmless d) fun _ => .bind (.perform rfl) fun json => ?_
  refine .bind (.when ?_) fun _ => .bind (.perform rfl) fun _ => fastUnlock_harmless d
  split
  · exact accept_harmless d json
  · exact refuse_uses rfl fun _ => rfl

theorem dropCaptcha_harmless (d : Data) (rounds : Nat) : (dropCaptcha d rounds).Uses Harmless := by
  refine .bind (fastLock_harmless d) fun _ => .bind (.perform rfl) fun _ => .bind (.perform rfl) fun _ => ?_
  refine .bind (fastUnlock_harmless d) fun _ => .bind (lock_harmless d) fun _ => ?_
  refine .bind (cleanUpMessages_harmless d) fun _ => .bind (.perform rfl) fun _ => ?_
  refine .bind ?_ fun _ => .perform rfl
  exact mantissa_uses rfl (fun _ => rfl) (fun _ _ => rfl) (fun _ => rfl) rfl

theorem start_harmless (d : Data) : (Start.start d).Uses Harmless := by
  unfold Start.start
  split
  · exact .bind (.perform rfl) fun _ => trivial
  · refine .bind (.perform rfl) fun v => .bind (.when ?_) fun _ => trivial
    exact .bind (.perform rfl) fun _ => .bind (.perform rfl) fun _ => trivial

theorem needCaptcha_harmless (d : Data) : (needCaptcha d).Uses Harmless :=
  .bind (fastLock_harmless d) fun _ => .bind (fastUnlock_harmless d) fun _ => trivial

/-! ## The guard -/

def Quiet (before : List Answered) : Prop := ∀ e ∈ before, e.op.isModeration = false

variable {α : Type}

section Guard

variable (SUDOERS : List Int) (d : Data) (sender chat : Int)

/-- What a moderation call needs of the operations before it. -/
def Authorised (before : List Answered) : Op → Prop
  | .exe (.kickChatMember userId chatId) _ =>
    Quiet before ∧ MayRestrict SUDOERS d sender chat "ban" before userId chatId
  | .exe (.unbanChatMember userId chatId) _ =>
    Quiet before ∧ MayRestrict SUDOERS d sender chat "unban" before userId chatId
  | .exe (.promoteChatMember userId chatId) _ =>
    Quiet before ∧ MayPromote SUDOERS d sender chat before userId chatId
  | _ => True

variable {SUDOERS d sender chat}

variable {before : List Answered}

theorem authorised_of_harmless {o : Op} (h : Harmless o) : Authorised SUDOERS d sender chat before o := by
  cases o with
  | exe call =>
    cases call with
    | kickChatMember => cases h
    | unbanChatMember => cases h
    | promoteChatMember => cases h
    | _ => trivial
  | _ => trivial

theorem authorised_quiet {o : Op} (hModeration : o.isModeration = true)
    (h : Authorised SUDOERS d sender chat before o) :
    Quiet before := by
  cases o with
  | exe call =>
    cases call with
    | kickChatMember => exact h.1
    | unbanChatMember => exact h.1
    | promoteChatMember => exact h.1
    | _ => cases hModeration
  | _ => cases hModeration

theorem Quiet.append {e : Answered} (h : Quiet before) (he : Harmless e.op) : Quiet (before ++ [e]) := by
  intro e' he'
  rcases List.mem_append.mp he' with hOld | hNew
  · exact h e' hOld
  · rw [List.mem_singleton.mp hNew]
    exact he

/-- Harmless code keeps the history quiet and whatever it already contains. -/
theorem harmless_guarded {p : Run α} {seen : List Answered} (hUses : p.Uses Harmless) (hQuiet : Quiet before)
    (hSeen : seen ⊆ before) :
    p.Guarded (fun _ => True) (Authorised SUDOERS d sender chat) (fun _ after => Quiet after ∧ seen ⊆ after) before :=
  Prog.Keeps.of_uses hUses (fun _ _ _ => authorised_of_harmless)
    (fun _ _ _ h he _ => ⟨h.1.append he, List.subset_append_of_subset_left _ h.2⟩) ⟨hQuiet, hSeen⟩

theorem isHavingCaptcha_guarded (hQuiet : Quiet before) :
    (isHavingCaptcha d).Guarded (fun _ => True) (Authorised SUDOERS d sender chat)
      (fun out after => Quiet after ∧
        (out = .ok false → (⟨.fileExists (captchaFile d), .ok false⟩ : Answered) ∈ after)) before := by
  refine .bind (harmless_guarded (fastLock_harmless d) hQuiet (List.nil_subset _)) ?_ ?_
  · rintro _ h₁ ⟨hQuiet₁, _⟩
    refine .bind (Q := fun out after => Quiet after ∧ ⟨.fileExists (captchaFile d), out⟩ ∈ after) ?_ ?_ ?_
    · exact .perform trivial fun r _ => ⟨hQuiet₁.append rfl, List.mem_append_right _ List.mem_cons_self⟩
    · rintro ret h₂ ⟨hQuiet₂, hSeen⟩
      refine .bind (harmless_guarded (fastUnlock_harmless d) hQuiet₂
        (List.cons_subset.mpr ⟨hSeen, List.nil_subset _⟩)) ?_ ?_
      · rintro _ h₃ ⟨hQuiet₃, hSeen₃⟩
        refine ⟨hQuiet₃, fun hRet => ?_⟩
        cases hRet
        exact hSeen₃ List.mem_cons_self
      · rintro e h₃ ⟨hQuiet₃, _⟩
        exact ⟨hQuiet₃, nofun⟩
    · rintro e h₂ ⟨hQuiet₂, _⟩
      exact ⟨hQuiet₂, nofun⟩
  · rintro e h₁ ⟨hQuiet₁, _⟩
    exact ⟨hQuiet₁, nofun⟩

theorem intArg_int (n : Int) : (intArg (.int n) : Run Int) = .ret n := rfl

theorem intArg_guarded {A : List Answered → Op → Prop} {Q : Except Throwable Int → List Answered → Prop} {v : Php}
    (hOk : ∀ n, v.intParam = some n → Q (.ok n) before) (hErr : ∀ e, Q (.error e) before) :
    (intArg v).Guarded (fun _ => True) A Q before := by
  unfold intArg
  split
  · rename_i n hn
    exact hOk n hn
  · exact hErr _

theorem harmless_admitted {p : Run α} (hUses : p.Uses Harmless) :
    p.Guarded (fun _ => True) (Authorised SUDOERS d sender chat) (fun _ _ => True) before :=
  Prog.Keeps.of_uses hUses (fun _ _ _ => authorised_of_harmless) (fun _ _ _ _ _ _ => trivial) trivial

theorem Commanded.mono {w : String} {after : List Answered} (h : Commanded d w before) (hSub : before ⊆ after) :
    Commanded d w after :=
  ⟨h.notEdited, hSub h.noCaptcha, h.command⟩

theorem mayRestrict_reported {answer : Php} {entries : PhpArray}
    (hResult : answer.get (.str "result") = .arr entries)
    (h : Restriction.mayRestrict (.arr entries) = true) :
    (answer.get (.str "result")).get (.str "status") = .str "creator" ∨
      ((answer.get (.str "result")).get (.str "can_restrict_members")).truthy = true := by
  rw [hResult]
  rcases Bool.or_eq_true_iff.mp (Bool.and_eq_true_iff.mp h).2 with hStatus | hCan
  · exact .inl (of_decide_eq_true hStatus)
  · exact .inr hCan

theorem getUserInfo_guarded (hQuiet : Quiet before) :
    (Restriction.getUserInfo (.int sender) (.int chat)).Guarded (fun _ => True) (Authorised SUDOERS d sender chat)
      (fun out after => Quiet after ∧ before ⊆ after ∧
        ∀ info, out = .ok info → Restriction.mayRestrict info = true → ReportedAdmin sender chat after)
      before := by
  refine .bind (Q := fun out after => Quiet after ∧ before ⊆ after ∧
    (⟨.exe (.getChatMember sender chat) true, out⟩ : Answered) ∈ after) ?_ ?_ ?_
  · exact .perform trivial fun r _ => ⟨hQuiet.append rfl, List.subset_append_left _ _,
      List.mem_append_right _ List.mem_cons_self⟩
  · rintro answer after ⟨hQuiet', hSub, hSeen⟩
    split
    · exact ⟨hQuiet', hSub, fun info hInfo hMay => by cases hInfo; cases hMay⟩
    · rename_i entries hResult
      refine ⟨hQuiet', hSub, fun info hInfo hMay => ?_⟩
      cases hInfo
      exact ⟨answer, hSeen, mayRestrict_reported hResult hMay⟩
    · exact ⟨hQuiet', hSub, nofun⟩
  · rintro e after ⟨hQuiet', hSub, _⟩
    exact ⟨hQuiet', hSub, nofun⟩

theorem hasAbilityToUseBanHammer_guarded (hSender : d.userId = .int sender) (hChat : d.chatId = .int chat)
    (hQuiet : Quiet before) :
    (Restriction.hasAbilityToUseBanHammer SUDOERS d).Guarded (fun _ => True) (Authorised SUDOERS d sender chat)
      (fun out after => Quiet after ∧ before ⊆ after ∧
        (out = .ok true → sender ∈ SUDOERS ∨ ReportedAdmin sender chat after)) before := by
  unfold Restriction.hasAbilityToUseBanHammer
  rw [hSender, hChat]
  split
  · rename_i hSudo
    exact ⟨hQuiet, List.Subset.refl _, fun _ => .inl (by simpa using hSudo)⟩
  · refine .bind (getUserInfo_guarded hQuiet) ?_ ?_
    · rintro info after ⟨hQuiet', hSub, hReported⟩
      refine ⟨hQuiet', hSub, fun hMay => .inr (hReported info rfl ?_)⟩
      simpa using hMay
    · rintro e after ⟨hQuiet', hSub, _⟩
      exact ⟨hQuiet', hSub, nofun⟩

theorem restrict_guarded {call : Php → Php → Api} {w rtype reason : String}
    (hCall : ∀ before userId chatId, Quiet before →
      MayRestrict SUDOERS d sender chat w before userId chatId →
      Authorised SUDOERS d sender chat before (.exe (call userId chatId) true)) (hSender : d.userId = .int sender)
    (hChat : d.chatId = .int chat) (hQuiet : Quiet before) (hCommanded : Commanded d w before) :
    (Restriction.restrict call rtype SUDOERS d reason).Guarded (fun _ => True) (Authorised SUDOERS d sender chat)
      (fun _ _ => True) before := by
  refine .bind (hasAbilityToUseBanHammer_guarded hSender hChat hQuiet) ?_ fun _ _ _ => trivial
  rintro able h₁ ⟨hQuiet₁, hSub₁, hAble⟩
  cases able with
  | false => exact harmless_admitted (.bind (.bind (.perform rfl) fun _ => trivial) fun _ => trivial)
  | true =>
    refine .bind (Q := fun _ after => after = h₁) rfl ?_ fun _ _ _ => trivial
    rintro _ _ rfl
    refine .bind (Q := fun _ _ => True) (.when (fun _ => ?_) trivial) (fun _ _ _ => trivial) fun _ _ _ => trivial
    -- the coerced arguments are the replied-to user and the chat of the message
    refine .bind (intArg_guarded (Q := fun out after => after = _ ∧ ∀ t, out = .ok t → IsReplied d t)
      (fun t ht => ⟨rfl, fun t' ht' => by cases ht'; exact ht⟩) fun e => ⟨rfl, nofun⟩) ?_ fun _ _ _ => trivial
    rintro userId _ ⟨rfl, hTarget⟩
    rw [hChat, intArg_int, Prog.bind_eq, Prog.bind_ret]
    refine .bind (Q := fun _ _ => True) (.perform ?_ fun _ _ => trivial) ?_ fun _ _ _ => trivial
    · refine hCall _ _ _ hQuiet₁ ?_
      exact ⟨hCommanded.mono hSub₁, hAble rfl, ⟨userId, hTarget userId rfl, rfl⟩, rfl⟩
    · exact fun ret h _ => harmless_admitted (.bind (.perform rfl) fun _ => trivial)

theorem promoteAndReport_guarded {v : Php} {name : String} (hChat : d.chatId = .int chat)
    (hMay : ∀ t, v.intParam = some t → MayPromote SUDOERS d sender chat before t chat) (hQuiet : Quiet before) :
    (Promotion.promoteAndReport d v name).Guarded (fun _ => True) (Authorised SUDOERS d sender chat)
      (fun _ _ => True) before := by
  refine .bind (intArg_guarded (Q := fun out after => after = before ∧ ∀ t, out = .ok t → v.intParam = some t)
    (fun t ht => ⟨rfl, fun t' ht' => by cases ht'; exact ht⟩) fun e => ⟨rfl, nofun⟩) ?_ fun _ _ _ => trivial
  rintro userId _ ⟨rfl, hTarget⟩
  rw [hChat, intArg_int, Prog.bind_eq, Prog.bind_ret]
  refine .bind (Q := fun _ _ => True) (.perform ?_ fun _ _ => trivial) ?_ fun _ _ _ => trivial
  · exact ⟨hQuiet, hMay userId (hTarget userId rfl)⟩
  · exact fun ret h _ => harmless_admitted (.bind (.perform rfl) fun _ => trivial)

section

variable (hSender : d.userId = .int sender) (hChat : d.chatId = .int chat)

include hSender hChat

theorem P_guarded {cmd : String} (hQuiet : Quiet before) (hCommanded : Commanded d cmd before) :
    (IndexRoutes.P.execUnMapped SUDOERS d cmd).Guarded (fun _ => True) (Authorised SUDOERS d sender chat)
      (fun _ _ => True) before := by
  unfold IndexRoutes.P.execUnMapped
  by_cases hPromote : cmd = "promote"
  · subst hPromote
    refine .bind (Q := fun out _ => ∀ done, out = .ok done → done = true) ?_ ?_ fun _ _ _ => trivial
    · refine .bind (Q := fun _ _ => True) (.when (fun hAble => ?_) trivial) ?_ fun _ _ _ => nofun
      · obtain ⟨⟨hAble, _⟩, _⟩ : (_ ∧ _) ∧ _ := by simpa using hAble
        refine promoteAndReport_guarded hChat (fun t ht => ⟨.inl ⟨hCommanded, ?_, ht⟩, rfl⟩) hQuiet
        simpa [Promotion.hasAbilityToPromoteOther, hSender] using hAble
      · rintro _ _ _ done hDone
        cases hDone
        rfl
    · intro done h hDone
      rw [hDone done rfl]
      trivial
  · simp only [if_neg hPromote, Prog.pure_eq, Prog.bind_eq, Prog.bind_ret, Bool.false_eq_true, if_false]
    split
    · rename_i hMe
      refine .bind (Q := fun _ _ => True) (.when (fun hAllowed => ?_) trivial) (fun _ _ _ => trivial)
        fun _ _ _ => trivial
      refine promoteAndReport_guarded hChat (fun t ht => ⟨.inr ⟨?_, ?_, ?_⟩, rfl⟩) hQuiet
      · rcases hMe with rfl | rfl
        · exact .inl hCommanded
        · exact .inr hCommanded
      · simpa [Promotion.promoteMeAllowed, Promotion.integerKey, hChat] using hAllowed
      · rw [hSender] at ht
        exact (Option.some.inj ht).symm
    · trivial

theorem exec_guarded {cmd arg : String} {letter : Char} (hQuiet : Quiet before) (hCommanded : Commanded d cmd before) :
    (IndexRoutes.exec SUDOERS d cmd arg letter).Guarded (fun _ => True) (Authorised SUDOERS d sender chat)
      (fun _ _ => True) before := by
  unfold IndexRoutes.exec
  split
  · unfold IndexRoutes.B.execUnMapped
    split
    · rename_i hCmd
      subst hCmd
      exact restrict_guarded (fun _ _ _ hQuiet hMay => ⟨hQuiet, hMay⟩) hSender hChat hQuiet hCommanded
    · trivial
  · unfold IndexRoutes.D.execUnMapped
    split
    · exact harmless_admitted (.bind (.perform rfl) fun _ => trivial)
    · trivial
  · unfold IndexRoutes.K.execUnMapped
    split <;> trivial
  · exact P_guarded hSender hChat hQuiet hCommanded
  · unfold IndexRoutes.S.execUnMapped
    split
    · exact harmless_admitted (start_harmless d)
    · trivial
  · unfold IndexRoutes.U.execUnMapped
    split
    · rename_i hCmd
      subst hCmd
      exact restrict_guarded (fun _ _ _ hQuiet hMay => ⟨hQuiet, hMay⟩) hSender hChat hQuiet hCommanded
    · trivial
  · trivial

theorem execRoutes_guarded (hQuiet : Quiet before) (hSeen : ⟨.fileExists (captchaFile d), .ok false⟩ ∈ before) :
    (execRoutes SUDOERS d).Guarded (fun _ => True) (Authorised SUDOERS d sender chat) (fun _ _ => True) before := by
  unfold execRoutes
  split
  · trivial
  · rename_i hEdited
    split
    · rename_i m hCommand
      exact exec_guarded hSender hChat hQuiet
        ⟨Bool.eq_false_iff.mpr hEdited, hSeen, commandOf_word hCommand⟩
    · trivial

theorem run_guarded {rounds : Nat} :
    (Response.run SUDOERS d rounds).Guarded (fun _ => True) (Authorised SUDOERS d sender chat) (fun _ _ => True) [] := by
  have hDestruct : ∀ (out : Except Throwable Unit) h, True →
      (perform .destruct).Guarded (fun _ => True) (Authorised SUDOERS d sender chat)
        (fun r h => (fun _ _ => True) (r.bind fun _ => out) h) h :=
    fun _ h _ => .perform trivial fun _ _ => trivial
  unfold Response.run
  split
  · refine .tryFinally (Q := fun _ _ => True) ?_ hDestruct
    refine .bind (isHavingCaptcha_guarded nofun) ?_ fun _ _ _ => trivial
    rintro having h ⟨hQuiet, hSeen⟩
    cases having with
    | true => exact harmless_admitted (checkAnswer_harmless d)
    | false =>
      exact .bind (execRoutes_guarded hSender hChat hQuiet (hSeen rfl)) (fun _ _ _ => trivial)
        fun _ _ _ => trivial
  · split
    · refine .tryFinally (Q := fun _ _ => True) ?_ hDestruct
      exact harmless_admitted (.bind (needCaptcha_harmless d) fun _ => .when (dropCaptcha_harmless d rounds))
    · trivial

end

end Guard

theorem countP_le_one {P : α → Bool} (l : List α)
    (h : ∀ before e after, l = before ++ e :: after → P e = true → ∀ e' ∈ before, P e' = false) : l.countP P ≤ 1 := by
  induction l using List.reverseRecOn with
  | nil => exact Nat.zero_le 1
  | append_singleton l e ih =>
    rw [List.countP_append]
    by_cases he : P e = true
    · have hNone : l.countP P = 0 := List.countP_eq_zero.mpr fun e' he' => by
        simp [h l e [] (by simp) he e' he']
      simp [hNone, he]
    · have hRest := ih fun before e' after hl he' => h before e' (after ++ [e]) (by simp [hl]) he'
      simpa [he] using hRest

theorem moderation_is_authorised (SUDOERS : List Int) (input : Php) (rounds : Nat) (sender chat : Int)
    (hSender : (Data.constructGeneralInput input).userId = .int sender)
    (hChat : (Data.constructGeneralInput input).chatId = .int chat)
    (tr : List Answered) (out : Except Throwable Unit)
    (hExec : (Response.run SUDOERS (Data.constructGeneralInput input) rounds).Exec tr out) :
    (∀ before after userId chatId read r, tr = before ++ ⟨.exe (.kickChatMember userId chatId) read, r⟩ :: after →
      MayRestrict SUDOERS (Data.constructGeneralInput input) sender chat "ban" before userId chatId) ∧
    (∀ before after userId chatId read r, tr = before ++ ⟨.exe (.unbanChatMember userId chatId) read, r⟩ :: after →
      MayRestrict SUDOERS (Data.constructGeneralInput input) sender chat "unban" before userId chatId) ∧
    (∀ before after userId chatId read r, tr = before ++ ⟨.exe (.promoteChatMember userId chatId) read, r⟩ :: after →
      MayPromote SUDOERS (Data.constructGeneralInput input) sender chat before userId chatId) ∧
    tr.countP (fun e => e.op.isModeration) ≤ 1 := by
  have hGuarded : (Response.run SUDOERS (Data.constructGeneralInput input) rounds).Guarded (fun _ => True)
      (Authorised SUDOERS (Data.constructGeneralInput input) sender chat) (fun _ _ => True) [] := run_guarded hSender hChat
  have hEvent : ∀ before e after, tr = before ++ e :: after → Authorised SUDOERS _ sender chat before e.op :=
    fun _ _ _ => hGuarded.event hExec fun _ _ => trivial
  refine ⟨?_, ?_, ?_, countP_le_one tr fun before e after hTr he => authorised_quiet he (hEvent _ _ _ hTr)⟩
  all_goals exact fun before after userId chatId _ r hTr => (hEvent _ _ _ hTr).2

def banUpdate : Php :=
  .obj [("update_id", .int 1), ("message", .obj
    [("message_id", .int 4), ("text", .str "/Ban spam"),
      ("from", .obj [("id", .int 7), ("first_name", .str "A")]),
      ("chat", .obj [("id", .int (-5)), ("type", .str "supergroup"), ("title", .str "G")]),
      ("reply_to_message", .obj [("from", .obj [("id", .int 9), ("first_name", .str "B")])])])]

def creatorAnswers : (o : Op) → Unit → Except Throwable o.Res × Unit
  | .exe (.getChatMember ..) _, s => (.ok (.obj [("result", .obj [("status", .str "creator")])]), s)
  | .exe .., s => (.ok (.obj [("ok", .bool true), ("result", .bool true)]), s)
  | .fileExists _, s => (.ok false, s)
  | .readJson _, s => (.ok .null, s)
  | .scandir _, s => (.ok [], s)
  | .newFloatingPoint, s => (.ok ("", 0), s)
  | .genLatex _, s => (.ok none, s)
  | .time, s => (.ok 0, s)
  | .buildDir _, s | .fopen .., s | .flock _, s | .unflock _, s | .destruct, s | .touch _, s
  | .writeJson .., s | .unlink _, s | .touchMsg .., s | .unlinkMsg .., s | .usleep _, s
  | .sleep _, s | .enterFailKick, s | .go _, s | .beyond, s => (.ok (), s)

def banTrace : List Answered :=
  (Response.run [] (Data.constructGeneralInput banUpdate) 0).record creatorAnswers ()

theorem ban_by_creator_is_authorised :
    ∃ before after r, banTrace = before ++ ⟨.exe (.kickChatMember (.int 9) (.int (-5))) true, r⟩ :: after ∧
      MayRestrict [] (Data.constructGeneralInput banUpdate) 7 (-5) "ban" before (.int 9) (.int (-5)) :=
  have hSplit : banTrace = banTrace.take 6 ++ ⟨.exe (.kickChatMember (.int 9) (.int (-5))) true,
      .ok (.obj [("ok", .bool true), ("result", .bool true)])⟩ :: banTrace.drop 7 := by
    rfl
  ⟨_, _, _, hSplit, (moderation_is_authorised [] banUpdate 0 7 (-5) rfl rfl banTrace _
    (Prog.exec_record creatorAnswers _ ())).1 _ _ _ _ _ _ hSplit⟩

end TeaBot.Responder
