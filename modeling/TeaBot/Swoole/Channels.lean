import TeaBot.Swoole.Runtime

/-! # Who waits at a channel -/

namespace TeaBot.Swoole

open Foundation Loggers

def Opcode.other : Opcode → Opcode
  | .producer => .consumer
  | .consumer => .producer

theorem Opcode.eq_or_eq_other (x y : Opcode) : x = y ∨ x = y.other := by
  cases x <;> cases y <;> simp [other]

/-- What a coroutine is to a channel, as a producer or as a consumer. -/
inductive ChanRole
  | out
  /-- Pushed into the queue, about to yield. -/
  | queued (type : Opcode)
  | waiting (type : Opcode)
  /-- Did not have to wait. -/
  | ready (type : Opcode)
  /-- About to resume the coroutine that waited for what has just been done. -/
  | notifies (type : Opcode) (co : Nat)
  deriving DecidableEq

def ChanRole.busy : ChanRole → Bool
  | .queued _ | .ready _ | .notifies .. => true
  | _ => false

def ChanRole.serving : ChanRole → Bool
  | .waiting _ | .notifies .. => true
  | _ => false

/-- One channel of process `p`. `avail` is how often it can serve a producer or a consumer
at once, `pend` the coroutine that has been taken from its queue and not been served yet. -/
structure ChanSlot (p : Nat) (proc : Nat → Option Nat) (stack : List (Option Nat)) (role : Nat → ChanRole)
    (queue : Opcode → List Nat) (avail : Opcode → Nat) (pend : Option (Opcode × Nat)) : Prop where
  nodup : ∀ type, (queue type).Nodup
  mem : ∀ type u, u ∈ queue type ↔
    proc u = some p ∧ (role u = .queued type ∨ (role u = .waiting type ∧ pend ≠ some (type, u)))
  off : ∀ type, ∀ u ∈ queue type, role u = .waiting type → some u ∉ stack
  pending : ∀ type u, pend = some (type, u) → proc u = some p ∧ role u = .waiting type ∧
    (stack.head? = some (some u) ∨ (some u ∉ stack ∧ ∃ t, proc t = some p ∧ role t = .notifies type u))
  notifies : ∀ t type u, proc t = some p → role t = .notifies type u → pend = some (type, u) ∧ some u ∉ stack
  ready : ∀ t type, proc t = some p → role t = .ready type → avail type ≠ 0 ∧ queue type = []
  calm : pend = none → ∀ type, queue type = [] ∨ avail type = 0
  tense : ∀ type u, pend = some (type, u) → avail type = 1 ∧ queue type.other = []

variable {stack' : List (Option Nat)}

namespace ChanSlot

variable {p t : Nat} {proc : Nat → Option Nat} {stack : List (Option Nat)} {role : Nat → ChanRole}
variable {queue : Opcode → List Nat} {avail : Opcode → Nat} {pend : Option (Opcode × Nat)} {type : Opcode}

theorem frame (h : ChanSlot p proc stack role queue avail pend) {role' : Nat → ChanRole}
    (hRole : ∀ u, proc u = some p → role' u = role u) (hHead : stack'.head? = stack.head? ∨ pend = none)
    (hStack : ∀ u type, proc u = some p → role u = .waiting type → (some u ∈ stack' ↔ some u ∈ stack)) :
    ChanSlot p proc stack' role' queue avail pend := by
  obtain ⟨h1, h2, h3, h4, h5, h6, h7, h8⟩ := h
  constructor <;> grind

theorem pend_eq_none (h : ChanSlot p proc stack role queue avail pend)
    (hHead : ∀ u, stack.head? = some (some u) → (role u).serving = false)
    (hTop : ∀ u, proc u = some p → (role u).busy = true → stack.head? = some (some u)) : pend = none := by
  cases hPend : pend with
  | none => rfl
  | some x =>
    obtain ⟨type, u⟩ := x
    obtain ⟨_, hWaiting, hTop' | ⟨_, w, hProc, hRole⟩⟩ := h.pending type u hPend
    · have hNot := hHead u hTop'
      rw [hWaiting] at hNot
      cases hNot
    · have hNot := hHead w (hTop w hProc (by rw [hRole]; rfl))
      rw [hRole] at hNot
      cases hNot

theorem arrive_wait (h : ChanSlot p proc stack role queue avail none) (hProc : proc t = some p)
    (hRole : role t = .out) (hWait : avail type = 0 ∨ queue type ≠ []) :
    ChanSlot p proc stack (Function.update role t (.queued type))
      (Function.update queue type (queue type ++ [t])) avail none := by
  have hNot : t ∉ queue type := fun hMem => by
    have := (h.mem type t).mp hMem
    grind
  have hZero : avail type = 0 := hWait.elim id fun hNe => (h.calm rfl type).resolve_left hNe
  obtain ⟨h1, h2, h3, h4, h5, h6, h7, h8⟩ := h
  constructor <;> grind

theorem arrive_go (h : ChanSlot p proc stack role queue avail none)
    (hRole : role t = .out) (hGo : avail type ≠ 0 ∧ queue type = []) :
    ChanSlot p proc stack (Function.update role t (.ready type)) queue avail none := by
  obtain ⟨h1, h2, h3, h4, h5, h6, h7, h8⟩ := h
  constructor <;> grind

theorem yield {rest : List (Option Nat)} (h : ChanSlot p proc (some t :: rest) role queue avail pend)
    (hNot : some t ∉ rest) (hNone : pend = none) (hRole : role t = .queued type) :
    ChanSlot p proc rest (Function.update role t (.waiting type)) queue avail pend := by
  obtain ⟨h1, h2, h3, h4, h5, h6, h7, h8⟩ := h
  constructor <;> grind

def served (avail : Opcode → Nat) (type : Opcode) : Opcode → Nat := fun x =>
  if x = type then avail x - 1 else avail x + 1

theorem serve_ready (h : ChanSlot p proc stack role queue avail none) (hProc : proc t = some p)
    (hRole : role t = .ready type) (hOnly : ∀ u, u ≠ t → proc u = some p → (role u).busy = false) :
    (queue type.other = [] →
      ChanSlot p proc stack (Function.update role t .out) queue (served avail type) none) ∧
    ∀ co rest, queue type.other = co :: rest →
      ChanSlot p proc stack (Function.update role t (.notifies type.other co))
        (Function.update queue type.other rest) (served avail type) (some (type.other, co)) := by
  obtain ⟨h1, h2, h3, h4, h5, h6, h7, h8⟩ := h
  have hOther : type.other ≠ type := by cases type <;> simp [Opcode.other]
  have hTwice : type.other.other = type := by cases type <;> rfl
  obtain ⟨hAvail, hQueue⟩ := h6 t type hProc hRole
  constructor
  · intro hNone
    have hEmpty : ∀ x, queue x = [] := fun x => by
      rcases x.eq_or_eq_other type with rfl | rfl
      · exact hQueue
      · exact hNone
    constructor <;> grind [served, ChanRole.busy]
  · intro co rest hCo
    have hMem := (h2 type.other co).mp (hCo ▸ List.mem_cons_self)
    have hNot : co ∉ rest := (List.nodup_cons.mp (hCo ▸ h1 type.other)).1
    have hZero := (h7 rfl type.other).resolve_left (by simp [hCo])
    have hct : co ≠ t := by grind
    have hBusy := hOnly co hct hMem.1
    constructor <;> grind [served, ChanRole.busy]

theorem serve_waiting (h : ChanSlot p proc stack role queue avail pend) (hProc : proc t = some p)
    (hRole : role t = .waiting type) (hHead : stack.head? = some (some t))
    (hIdle : ∀ u, proc u = some p → (role u).busy = false) :
    queue type.other = [] ∧ avail type = 1 ∧
      ChanSlot p proc stack (Function.update role t .out) queue (served avail type) none := by
  have hPend : pend = some (type, t) := by
    by_contra hNot
    exact h.off type t ((h.mem type t).mpr ⟨hProc, .inr ⟨hRole, hNot⟩⟩) hRole (List.mem_of_mem_head? hHead)
  obtain ⟨h1, h2, h3, h4, h5, h6, h7, h8⟩ := h
  obtain ⟨hAvail, hQueue⟩ := h8 type t hPend
  have hCalm : ∀ x, queue x = [] ∨ served avail type x = 0 := fun x => by
    rcases x.eq_or_eq_other type with rfl | rfl
    · simp [served, hAvail]
    · exact .inl hQueue
  refine ⟨hQueue, hAvail, ?_⟩
  constructor <;> grind [served, ChanRole.busy]

theorem resume {co : Nat} (h : ChanSlot p proc stack role queue avail pend) (hProc : proc t = some p)
    (hRole : role t = .notifies type co) (hOnly : ∀ u, u ≠ t → proc u = some p → (role u).busy = false) :
    ChanSlot p proc (some co :: stack) (Function.update role t .out) queue avail pend := by
  obtain ⟨h1, h2, h3, h4, h5, h6, h7, h8⟩ := h
  constructor <;> grind [ChanRole.busy]

theorem append (h : ChanSlot p proc stack role queue avail pend) {n q : Nat} (hAbsent : proc n = none)
    (hRole : role n = .out) : ChanSlot p (Function.update proc n (some q)) stack role queue avail pend := by
  obtain ⟨h1, h2, h3, h4, h5, h6, h7, h8⟩ := h
  constructor <;> grind

end ChanSlot

/-- How often a channel with so many data can serve a producer or a consumer at once. -/
def Channel.avail (c : Channel) (size : Nat) : Opcode → Nat
  | .producer => c.capacity - size
  | .consumer => size

theorem Channel.mustWait_iff {c : Channel} {size : Nat} (hSize : size ≤ c.capacity) (type : Opcode) :
    c.mustWait size type = true ↔ c.avail size type = 0 ∨ c.queue type ≠ [] := by
  cases type with
  | producer =>
    have hFull : size = c.capacity ↔ c.capacity - size = 0 := by omega
    simp [mustWait, avail, queue, hFull]
  | consumer => simp [mustWait, avail, queue]

@[simp] theorem Channel.setQueue_queue (c : Channel) (l : List Nat) (type : Opcode) :
    (c.setQueue l type).queue = Function.update c.queue type l := by
  funext x
  cases type <;> cases x <;> rfl

@[simp] theorem Channel.setQueue_proc (c : Channel) (l : List Nat) (type : Opcode) :
    (c.setQueue l type).proc = c.proc := by
  cases type <;> rfl

@[simp] theorem Channel.setQueue_capacity (c : Channel) (l : List Nat) (type : Opcode) :
    (c.setQueue l type).capacity = c.capacity := by
  cases type <;> rfl

@[simp] theorem Channel.setQueue_avail (c : Channel) (l : List Nat) (type : Opcode) (size : Nat) :
    (c.setQueue l type).avail size = c.avail size := by
  funext x
  cases x <;> simp [avail]

theorem set_of_getElem? {α : Type} {l : List α} {i : Nat} {a : α} (h : l[i]? = some a) : l.set i a = l := by
  obtain ⟨hLt, rfl⟩ := List.getElem?_eq_some_iff.mp h
  exact List.set_getElem_self hLt

structure Channels (dead : Nat → Bool) (proc : Nat → Option Nat) (stack : Nat → List (Option Nat))
    (role : Nat → Nat → ChanRole) (channels : List Channel) (chans : List (List AdminRow))
    (pend : Nat → Option (Opcode × Nat)) : Prop where
  length : channels.length = chans.length
  size : ∀ (i : Nat) (c : Channel) (rows : List AdminRow), channels[i]? = some c → chans[i]? = some rows →
    rows.length ≤ c.capacity
  slot : ∀ (i : Nat) (c : Channel) (rows : List AdminRow), channels[i]? = some c → chans[i]? = some rows →
    dead c.proc = false →
    ChanSlot c.proc proc (stack c.proc) (fun u => role u i) c.queue (c.avail rows.length) (pend i)
  top : ∀ p t i, dead p = false → proc t = some p → (role t i).busy = true → (stack p).head? = some (some t)
  home : ∀ t i, role t i ≠ .out → ∃ c, channels[i]? = some c ∧ proc t = some c.proc

namespace Channels

variable {dead : Nat → Bool} {proc : Nat → Option Nat} {stack : Nat → List (Option Nat)}
variable {role : Nat → Nat → ChanRole} {channels : List Channel} {chans : List (List AdminRow)}
variable {pend : Nat → Option (Opcode × Nat)}
variable {p t i : Nat} {rest : List (Option Nat)} {c : Channel} {rows : List AdminRow}

section

variable (h : Channels dead proc stack role channels chans pend)

include h

theorem rows_of (hc : channels[i]? = some c) : ∃ rows, chans[i]? = some rows := by
  have hLt := (List.getElem?_eq_some_iff.mp hc).1
  rw [h.length] at hLt
  exact ⟨_, List.getElem?_eq_getElem hLt⟩

theorem idle (hAlive : dead p = false) {u : Nat} (hProc : proc u = some p) (hNot : (stack p).head? ≠ some (some u))
    (i : Nat) : (role u i).busy = false := by
  by_contra hBusy
  exact hNot (h.top p u i hAlive hProc (by simpa using hBusy))

theorem others_idle (hAlive : dead p = false) (hStack : stack p = some t :: rest) (u i : Nat) (hut : u ≠ t)
    (hu : proc u = some p) : (role u i).busy = false :=
  h.idle hAlive hu (by simpa [hStack] using Ne.symm hut) i

theorem pend_none (hAlive : dead p = false) (hc : channels[i]? = some c) (hr : chans[i]? = some rows) (hp : c.proc = p)
    (hHead : ∀ u, (stack p).head? = some (some u) → (role u i).serving = false) : pend i = none := by
  subst hp
  exact (h.slot i c rows hc hr hAlive).pend_eq_none hHead fun u hu hBusy => h.top c.proc u i hAlive hu hBusy

theorem pend_none_of_running (hAlive : dead p = false) (hStack : stack p = some t :: rest) (hc : channels[i]? = some c)
    (hr : chans[i]? = some rows) (hp : c.proc = p) (hRole : (role t i).serving = false) : pend i = none := by
  refine h.pend_none hAlive hc hr hp fun u hu => ?_
  rw [hStack] at hu
  cases hu
  exact hRole

end

variable {type : Opcode}

theorem idle_of_waiting (h : Channels dead proc stack role channels chans pend) (hAlive : dead p = false)
    (hStack : stack p = some t :: rest) (hRole : role t i = .waiting type) (u : Nat) (hu : proc u = some p) :
    (role u i).busy = false := by
  by_cases hut : u = t
  · rw [hut, hRole]
    rfl
  · exact h.others_idle hAlive hStack u i hut hu

theorem nobody_busy {x : ChanRole} (hx : x.busy = false) (hOut : ∀ j, j ≠ i → role t j = .out)
    (hOthers : ∀ u j, u ≠ t → proc u = some p → (role u j).busy = false) (u j : Nat) (hu : proc u = some p) :
    (become role t i x u j).busy = false := by
  by_cases hut : u = t
  · subst hut
    by_cases hji : j = i
    · subst hji
      rw [become_self, hx]
    · rw [become_other x hji, hOut j hji]
      rfl
  · rw [become_apart x hut, hOthers u j hut hu]

section

variable (h : Channels dead proc stack role channels chans pend)

include h

theorem step (hAlive : dead p = false) (hProc : proc t = some p) (hc : channels[i]? = some c)
    (hr : chans[i]? = some rows) (hp : c.proc = p) {x : ChanRole} {c' : Channel} {rows' : List AdminRow}
    {pend' : Option (Opcode × Nat)} (hp' : c'.proc = p) (hSize : rows'.length ≤ c'.capacity)
    (hSlot : ChanSlot p proc stack' (Function.update (fun u => role u i) t x) c'.queue (c'.avail rows'.length) pend')
    (hOther : ∀ (j : Nat) (cj : Channel) (rj : List AdminRow), j ≠ i → channels[j]? = some cj → chans[j]? = some rj →
      cj.proc = p →
      (stack'.head? = (stack p).head? ∨ pend j = none) ∧
      ∀ u type, proc u = some p → role u j = .waiting type → (some u ∈ stack' ↔ some u ∈ stack p))
    (hTop : ∀ u j, proc u = some p → (become role t i x u j).busy = true → stack'.head? = some (some u)) :
    Channels dead proc (Function.update stack p stack') (become role t i x) (channels.set i c') (chans.set i rows')
      (Function.update pend i pend') := by
  have hLt := (List.getElem?_eq_some_iff.mp hc).1
  have hLt' := (List.getElem?_eq_some_iff.mp hr).1
  refine ⟨by simpa using h.length, fun j cj rj hcj hrj => ?_, fun j cj rj hcj hrj hj => ?_, fun q u j hq hu hBusy => ?_,
    fun u j hOut => ?_⟩
  · by_cases hji : j = i
    · subst hji
      rw [List.getElem?_set_self hLt] at hcj
      rw [List.getElem?_set_self hLt'] at hrj
      cases hcj
      cases hrj
      exact hSize
    · rw [List.getElem?_set_ne (Ne.symm hji)] at hcj hrj
      exact h.size j cj rj hcj hrj
  · by_cases hji : j = i
    · subst hji
      rw [List.getElem?_set_self hLt] at hcj
      rw [List.getElem?_set_self hLt'] at hrj
      cases hcj
      cases hrj
      subst hp'
      simpa [become_at] using hSlot
    · rw [List.getElem?_set_ne (Ne.symm hji)] at hcj hrj
      rw [Function.update_of_ne hji]
      have hOld := h.slot j cj rj hcj hrj hj
      by_cases hjp : cj.proc = p
      · subst hjp
        obtain ⟨hHead, hWaiting⟩ := hOther j cj rj hji hcj hrj rfl
        rw [Function.update_self]
        exact hOld.frame (fun u _ => become_other x hji u) hHead hWaiting
      · rw [Function.update_of_ne hjp]
        refine hOld.frame (fun u hu => ?_) (.inl rfl) fun u type hu hw => Iff.rfl
        have hut : u ≠ t := by
          rintro rfl
          exact hjp (Option.some.inj (hu.symm.trans hProc))
        rw [become_apart x hut]
  · by_cases hqp : q = p
    · subst hqp
      rw [Function.update_self]
      exact hTop u j hu hBusy
    · have hut : u ≠ t := by
        rintro rfl
        exact hqp (Option.some.inj (hu.symm.trans hProc))
      rw [become_apart x hut] at hBusy
      rw [Function.update_of_ne hqp]
      exact h.top q u j hq hu hBusy
  · by_cases hji : j = i
    · subst hji
      rw [List.getElem?_set_self hLt]
      refine ⟨c', rfl, ?_⟩
      rw [hp']
      by_cases hut : u = t
      · rw [hut, hProc]
      · rw [become_apart x hut] at hOut
        obtain ⟨c₀, hc₀, hu⟩ := h.home u j hOut
        rw [hc] at hc₀
        cases hc₀
        rw [hu, hp]
    · rw [become_other x hji] at hOut
      rw [List.getElem?_set_ne (Ne.symm hji)]
      exact h.home u j hOut

theorem restack (hStack : ∀ u i type, proc u = some p → role u i = .waiting type → (some u ∈ stack' ↔ some u ∈ stack p))
    (hIdle : ∀ u i, proc u = some p → (role u i).busy = false)
    (hPend : ∀ (i : Nat) (c : Channel) (rows : List AdminRow), channels[i]? = some c → chans[i]? = some rows → c.proc =
      p → pend i = none) :
    Channels dead proc (Function.update stack p stack') role channels chans pend where
  length := h.length
  size := h.size
  slot j cj rj hcj hrj hj := by
    have hOld := h.slot j cj rj hcj hrj hj
    by_cases hjp : cj.proc = p
    · subst hjp
      rw [Function.update_self]
      exact hOld.frame (fun _ _ => rfl) (.inr (hPend j cj rj hcj hrj rfl)) fun u type hu hw => hStack u j type hu hw
    · rwa [Function.update_of_ne hjp]
  top q u j hq hu hBusy := by
    by_cases hqp : q = p
    · subst hqp
      rw [hIdle u j hu] at hBusy
      cases hBusy
    · rw [Function.update_of_ne hqp]
      exact h.top q u j hq hu hBusy
  home := h.home

theorem append {n q : Nat} (hAbsent : proc n = none) (hRole : ∀ i, role n i = .out) :
    Channels dead (Function.update proc n (some q)) stack role channels chans pend
    where
  length := h.length
  size := h.size
  slot j cj rj hcj hrj hj := (h.slot j cj rj hcj hrj hj).append hAbsent (hRole j)
  top p u j hp hu hBusy := by
    have hun : u ≠ n := by
      rintro rfl
      rw [hRole] at hBusy
      cases hBusy
    exact h.top p u j hp (by simpa [hun] using hu) hBusy
  home u j hOut := by
    have hun : u ≠ n := by
      rintro rfl
      exact hOut (hRole j)
    simpa [hun] using h.home u j hOut

theorem exit :
    Channels (Function.update dead p true) proc (Function.update stack p []) role channels chans pend where
  length := h.length
  size := h.size
  slot j cj rj hcj hrj hj := by
    have hjp : cj.proc ≠ p := by
      rintro rfl
      simp at hj
    rw [Function.update_of_ne hjp] at hj ⊢
    exact h.slot j cj rj hcj hrj hj
  top q u j hq hu hBusy := by
    have hqp : q ≠ p := by
      rintro rfl
      simp at hq
    rw [Function.update_of_ne hqp] at hq ⊢
    exact h.top q u j hq hu hBusy
  home := h.home

theorem newChannel (hQueue : ∀ type, c.queue type = []) :
    Channels dead proc stack role (channels ++ [c]) (chans ++ [[]])
      (Function.update pend channels.length none) := by
  have hCases : ∀ (i : Nat) (c' : Channel) (rows' : List AdminRow), (channels ++ [c])[i]? = some c' →
    (chans ++ [[]])[i]? = some rows' →
      (i = channels.length ∧ c' = c ∧ rows' = []) ∨
        (i ≠ channels.length ∧ channels[i]? = some c' ∧ chans[i]? = some rows') := by
    intro i c' rows' hc' hr'
    have hLength := h.length
    by_cases hi : i < channels.length
    · rw [List.getElem?_append_left hi] at hc'
      rw [List.getElem?_append_left (by omega)] at hr'
      exact .inr ⟨by omega, hc', hr'⟩
    · rw [List.getElem?_append_right (by omega)] at hc'
      rw [List.getElem?_append_right (by omega), ← hLength] at hr'
      have hZero : i - channels.length = 0 := by
        have hLt := (List.getElem?_eq_some_iff.mp hc').1
        simpa using hLt
      rw [hZero] at hc' hr'
      cases hc'
      cases hr'
      exact .inl ⟨by omega, rfl, rfl⟩
  have hNobody : ∀ u, role u channels.length = .out := fun u => by
    by_contra hOut
    obtain ⟨_, hc₀, _⟩ := h.home u channels.length hOut
    simp at hc₀
  refine ⟨by simp [h.length], fun i c' rows' hc' hr' => ?_, fun i c' rows' hc' hr' hi => ?_, h.top,
    fun u j hOut => ?_⟩
  · rcases hCases i c' rows' hc' hr' with ⟨rfl, rfl, rfl⟩ | ⟨_, hc'', hr''⟩
    · exact Nat.zero_le _
    · exact h.size i c' rows' hc'' hr''
  · rcases hCases i c' rows' hc' hr' with ⟨rfl, rfl, rfl⟩ | ⟨hNe, hc'', hr''⟩
    · rw [Function.update_self]
      constructor <;> simp [hNobody, hQueue]
    · rw [Function.update_of_ne hNe]
      exact h.slot i c' rows' hc'' hr'' hi
  · obtain ⟨c₀, hc₀, hp₀⟩ := h.home u j hOut
    exact ⟨c₀, by rw [List.getElem?_append_left (List.getElem?_eq_some_iff.mp hc₀).1, hc₀], hp₀⟩

end

/-! ## The operations -/

section Operations

variable (h : Channels dead proc stack role channels chans pend) (hAlive : dead p = false) (hProc : proc t = some p)
variable (hStack : stack p = some t :: rest) (hc : channels[i]? = some c) (hr : chans[i]? = some rows) (hp : c.proc = p)

include h hAlive hProc hStack hc hr hp

theorem act (x : ChanRole) (c' : Channel) (rows' : List AdminRow) (pend' : Option (Opcode × Nat)) (hp' : c'.proc = p)
    (hSize : rows'.length ≤ c'.capacity)
    (hSlot : ChanSlot p proc (stack p) (Function.update (fun u => role u i) t x) c'.queue (c'.avail rows'.length)
    pend') :
    Channels dead proc stack (become role t i x) (channels.set i c') (chans.set i rows')
      (Function.update pend i pend') := by
  have hStep := h.step hAlive hProc hc hr hp hp' hSize hSlot (fun _ _ _ _ _ _ _ => ⟨.inl rfl, fun _ _ _ _ => Iff.rfl⟩)
    ?_
  · rwa [Function.update_eq_self] at hStep
  · intro u j hu hBusy
    by_cases hut : u = t
    · simp [hStack, hut]
    · rw [become_apart x hut] at hBusy
      exact h.top p u j hAlive hu hBusy

theorem arrive (type : Opcode) (hRole : role t i = .out) :
    (c.mustWait rows.length type = true → Channels dead proc stack (become role t i (.queued type))
      (channels.set i (c.setQueue (c.queue type ++ [t]) type)) chans (Function.update pend i none)) ∧
    (c.mustWait rows.length type = false → Channels dead proc stack (become role t i (.ready type)) channels chans
      (Function.update pend i none)) := by
  have hNone := h.pend_none_of_running hAlive hStack hc hr hp (by rw [hRole]; rfl)
  have hSize := h.size i c rows hc hr
  have hSlot := h.slot i c rows hc hr (hp ▸ hAlive)
  rw [hNone, hp] at hSlot
  have hRows : chans.set i rows = chans := set_of_getElem? hr
  constructor
  · intro hWait
    have hAct := h.act hAlive hProc hStack hc hr hp (.queued type) (c.setQueue (c.queue type ++ [t]) type) rows none
      (by simpa using hp) (by simpa using hSize) ?_
    · rwa [hRows] at hAct
    · simpa using hSlot.arrive_wait hProc hRole ((Channel.mustWait_iff hSize type).mp hWait)
  · intro hGo
    have hNot : ¬ (c.avail rows.length type = 0 ∨ c.queue type ≠ []) := by
      rw [← Channel.mustWait_iff hSize, hGo]
      simp
    have hFree : c.avail rows.length type ≠ 0 ∧ c.queue type = [] := by tauto
    have hAct := h.act hAlive hProc hStack hc hr hp _ c rows none hp hSize (hSlot.arrive_go hRole hFree)
    rwa [hRows, set_of_getElem? hc] at hAct

theorem yield (type : Opcode) (hNot : some t ∉ rest) (hRole : role t i = .queued type)
    (hOut : ∀ j, j ≠ i → role t j = .out) :
    Channels dead proc (Function.update stack p rest) (become role t i (.waiting type)) channels chans pend := by
  have hSlot := h.slot i c rows hc hr (hp ▸ hAlive)
  have hNone := h.pend_none_of_running hAlive hStack hc hr hp (by rw [hRole]; rfl)
  rw [hp, hStack] at hSlot
  have hStep := h.step hAlive hProc hc hr hp hp (h.size i c rows hc hr) (hSlot.yield hNot hNone hRole) ?_ ?_
  · rwa [Function.update_eq_self, set_of_getElem? hc, set_of_getElem? hr] at hStep
  · intro j cj rj hji hcj hrj hj
    refine ⟨.inr (h.pend_none_of_running hAlive hStack hcj hrj hj (by rw [hOut j hji]; rfl)), fun u type' hu hw => ?_⟩
    have hut : u ≠ t := by
      rintro rfl
      cases (hOut j hji).symm.trans hw
    simp [hStack, hut]
  · intro u j hu hBusy
    rw [nobody_busy (p := p) rfl hOut (h.others_idle hAlive hStack) u j hu] at hBusy
    cases hBusy

theorem can_serve (hRole : role t i = .ready type ∨ role t i = .waiting type) : c.avail rows.length type ≠ 0 := by
  have hSlot := h.slot i c rows hc hr (hp ▸ hAlive)
  rw [hp] at hSlot
  rcases hRole with hRole | hRole
  · exact (hSlot.ready t type hProc hRole).1
  · obtain ⟨_, hOne, _⟩ := hSlot.serve_waiting hProc hRole (by rw [hStack]; rfl)
      (h.idle_of_waiting hAlive hStack hRole)
    omega

theorem serve (type : Opcode) (hRole : role t i = .ready type ∨ role t i = .waiting type)
    {rows' : List AdminRow} (hAvail : c.avail rows'.length = ChanSlot.served (c.avail rows.length) type)
    (hSize : rows'.length ≤ c.capacity) :
    ∃ pend', Channels dead proc stack
      (become role t i ((c.popCoroutine type.other).1.elim .out (.notifies type.other)))
      (channels.set i (c.popCoroutine type.other).2) (chans.set i rows') pend' := by
  have hSlot := h.slot i c rows hc hr (hp ▸ hAlive)
  rw [hp] at hSlot
  rcases hRole with hRole | hRole
  · have hNone := h.pend_none_of_running hAlive hStack hc hr hp (by rw [hRole]; rfl)
    rw [hNone] at hSlot
    obtain ⟨hLast, hNext⟩ := hSlot.serve_ready hProc hRole fun u hut hu => h.others_idle hAlive hStack u i hut hu
    cases hQueue : c.queue type.other with
    | nil =>
      have hPop : c.popCoroutine type.other = (none, c) := by simp [Channel.popCoroutine, hQueue]
      rw [hPop]
      exact ⟨_, h.act hAlive hProc hStack hc hr hp _ c rows' _ hp hSize (hAvail ▸ hLast hQueue)⟩
    | cons co l =>
      have hPop : c.popCoroutine type.other = (some co, c.setQueue l type.other) := by
        simp [Channel.popCoroutine, hQueue]
      rw [hPop]
      refine ⟨_, h.act hAlive hProc hStack hc hr hp _ _ rows' (some (type.other, co)) (by simpa using hp)
        (by simpa using hSize) ?_⟩
      simpa [hAvail] using hNext co l hQueue
  · obtain ⟨hQueue, _, hServed⟩ := hSlot.serve_waiting hProc hRole (by rw [hStack]; rfl)
      (h.idle_of_waiting hAlive hStack hRole)
    have hPop : c.popCoroutine type.other = (none, c) := by simp [Channel.popCoroutine, hQueue]
    rw [hPop]
    exact ⟨_, h.act hAlive hProc hStack hc hr hp _ c rows' _ hp hSize (hAvail ▸ hServed)⟩

theorem resume {co : Nat} (hRole : role t i = .notifies type co) (hOut : ∀ j, j ≠ i → role t j = .out)
    (hOff : ∀ j, j ≠ i → role co j = .out) :
    Channels dead proc (Function.update stack p (some co :: some t :: rest)) (become role t i .out) channels chans
      pend := by
  have hOthers := h.others_idle hAlive hStack
  have hSlot := h.slot i c rows hc hr (hp ▸ hAlive)
  rw [hp] at hSlot
  have hSlot' := hSlot.resume hProc hRole fun u hut hu => hOthers u i hut hu
  rw [hStack] at hSlot'
  have hStep := h.step hAlive hProc hc hr hp hp (h.size i c rows hc hr) hSlot' ?_ ?_
  · rwa [Function.update_eq_self, set_of_getElem? hc, set_of_getElem? hr] at hStep
  · intro j cj rj hji hcj hrj hj
    refine ⟨.inr (h.pend_none_of_running hAlive hStack hcj hrj hj (by rw [hOut j hji]; rfl)), fun u type' hu hw => ?_⟩
    have huc : u ≠ co := by
      rintro rfl
      cases (hOff j hji).symm.trans hw
    simp [hStack, huc]
  · intro u j hu hBusy
    rw [nobody_busy (p := p) rfl hOut hOthers u j hu] at hBusy
    cases hBusy

end Operations

end Channels

end TeaBot.Swoole
