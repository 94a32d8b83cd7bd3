import Mathlib.Algebra.BigOperators.Group.List.Basic
import TeaBot.Foundation.WaitFor
import TeaBot.Loggers.Pool
import TeaBot.Loggers.Sync

/-! # The accounts of a pool

Every coroutine of a living process keeps the duty that is written down for it, the locks
are held by those whose duty says so, and the items of a channel and the balances of its
users add up to nothing.
-/

namespace TeaBot.Loggers

open Foundation

def World.items (w : World) (chan : Nat) : Int := ((w.chans[chan]?).map List.length).getD 0

/-- What one operation does to the locks, the channels and the duty of its coroutine. -/
structure Effect (t : Nat) (w w' : World) (d : Duty) (o : Op) (r : Except Throwable o.Res) : Prop where
  answers : duties.answers o r
  locks : ∀ m u, w'.locks m = some u → (u = t ∧ m ∈ (d.after o r).held) ∨ (u ≠ t ∧ w.locks m = some u)
  grows : w.chans.length ≤ w'.chans.length
  chan : ∀ chan z, (d.after o r).chan = some (chan, z) → chan < w'.chans.length ∧
    ((∃ z', d.chan = some (chan, z')) ∨ chan = w.chans.length)
  started : ∀ i ∈ spawned o r, ∀ chan z, i.duty.chan = some (chan, z) → ∃ z', d.chan = some (chan, z')
  balance : ∀ chan, w'.items chan + (d.after o r).net chan + ((spawned o r).map fun i => i.duty.net chan).sum =
    w.items chan + d.net chan

section Effect

variable {t : Nat} {w w' : World} {d : Duty}

theorem locks_unchanged (hLocks : ∀ m, w.locks m = some t → m ∈ d.held) (hSame : w'.locks = w.locks)
    (m : Mutex) (u : Nat) (h : w'.locks m = some u) : (u = t ∧ m ∈ d.held) ∨ (u ≠ t ∧ w.locks m = some u) := by
  rw [hSame] at h
  by_cases hu : u = t
  · subst hu
    exact .inl ⟨rfl, hLocks m h⟩
  · exact .inr ⟨hu, h⟩

variable {o : Op} {r : Except Throwable o.Res}

theorem spawned_none (h : ∀ job, o ≠ .go job) : spawned o r = [] := by
  unfold spawned
  split
  · rename_i job _
    exact absurd rfl (h job)
  · rfl

theorem Effect.of_async (hLocks : ∀ m, w.locks m = some t → m ∈ d.held)
    (hChan : ∀ chan z, d.chan = some (chan, z) → chan < w.chans.length) (hAfter : d.after o r = d)
    (hGo : ∀ i ∈ spawned o r, i.duty = {}) (hAsync : SameSync w w' ∧ ∀ e, r = .error e → o.raises e = true) :
    Effect t w w' d o r := by
  obtain ⟨hSame, hAnswers⟩ := hAsync
  have hNet : ∀ chan, ((spawned o r).map fun i => i.duty.net chan).sum = 0 := by
    intro chan
    refine List.sum_eq_zero fun z hz => ?_
    obtain ⟨i, hi, rfl⟩ := List.mem_map.mp hz
    rw [hGo i hi]
    rfl
  refine ⟨hAnswers, ?_, hSame.chans ▸ Nat.le_refl _, ?_, ?_, ?_⟩
  · rw [hAfter]
    exact locks_unchanged hLocks hSame.locks
  · intro chan z hz
    rw [hAfter] at hz
    rw [hSame.chans]
    exact ⟨hChan chan z hz, .inl ⟨z, hz⟩⟩
  · intro i hi chan z hz
    rw [hGo i hi] at hz
    cases hz
  · intro chan
    rw [hAfter, hNet, World.items, hSame.chans]
    exact add_zero _

theorem Effect.of_release {m : Mutex} (hLocks : ∀ m, w.locks m = some t → m ∈ d.held)
    (hChan : ∀ chan z, d.chan = some (chan, z) → chan < w.chans.length) (hAfter : d.after o r = d.drop m)
    (hGo : ∀ job, o ≠ .go job) (hAnswers : duties.answers o r) : Effect t w (w.release t m) d o r := by
  have hChans : (w.release t m).chans = w.chans := by
    unfold World.release
    split <;> rfl
  refine ⟨hAnswers, ?_, hChans ▸ Nat.le_refl _, ?_, ?_, ?_⟩
  · intro m' u hu
    rw [hAfter]
    by_cases hOwn : w.locks m = some t ∧ m' = m
    · simp [World.release, hOwn] at hu
    · have hOld : w.locks m' = some u := by
        unfold World.release at hu
        split at hu
        · rename_i hm
          have hNe : m' ≠ m := fun hEq => hOwn ⟨hm, hEq⟩
          simpa [Function.update_of_ne hNe] using hu
        · exact hu
      rcases locks_unchanged hLocks rfl m' u hOld with ⟨rfl, hMem⟩ | hOther
      · refine .inl ⟨rfl, List.mem_filter.mpr ⟨hMem, ?_⟩⟩
        simpa using fun hEq : m' = m => hOwn ⟨hEq ▸ hOld, hEq⟩
      · exact .inr hOther
  · intro chan z hz
    rw [hAfter] at hz
    rw [hChans]
    exact ⟨hChan chan z hz, .inl ⟨z, hz⟩⟩
  · rw [spawned_none hGo]
    exact fun _ hi => absurd hi List.not_mem_nil
  · intro chan
    rw [hAfter, spawned_none hGo, World.items, hChans]
    exact add_zero _

variable {chan : Nat} {z : Int}

theorem net_add {a : Int} (h : d.chan = some (chan, z)) (c : Nat) :
    (d.add a).net c = d.net c + if chan = c then a else 0 := by
  simp only [Duty.net, Duty.add, h, Option.map_some]
  split <;> omega

theorem chan_add {c : Nat} {z' a : Int} (h : d.chan = some (chan, z)) (h' : (d.add a).chan = some (c, z')) :
    c = chan := by
  simp only [Duty.add, h, Option.map_some, Option.some.injEq, Prod.mk.injEq] at h'
  exact h'.1.symm

/-! ### The operations -/

theorem items_newChannel (w : World) (c : Nat) :
    ({ w with chans := w.chans ++ [[]] } : World).items c = w.items c := by
  simp only [World.items, List.getElem?_append]
  split
  · rfl
  · rename_i hLe
    rw [List.getElem?_eq_none (by omega : w.chans.length ≤ c)]
    cases hSub : c - w.chans.length <;> simp

theorem items_push (hLt : chan < w.chans.length) (row : AdminRow) (c : Nat) :
    ({ w with chans := w.chans.modify chan (· ++ [row]) } : World).items c = w.items c + if chan = c then 1 else 0 := by
  simp only [World.items, List.getElem?_modify]
  split
  · subst_vars
    simp [List.getElem?_eq_getElem hLt]
  · simp

variable {row : AdminRow}

theorem items_pop {rest : List AdminRow} (hRow : w.chans[chan]? = some (row :: rest)) (c : Nat) :
    ({ w with chans := w.chans.set chan rest } : World).items c = w.items c - if chan = c then 1 else 0 := by
  simp only [World.items, List.getElem?_set]
  split
  · subst_vars
    rw [if_pos (List.getElem?_eq_some_iff.mp hRow).1, hRow]
    simp
  · simp

namespace Effect

variable (hLocks : ∀ m, w.locks m = some t → m ∈ d.held)
  (hChan : ∀ chan z, d.chan = some (chan, z) → chan < w.chans.length)

include hLocks hChan

theorem lock {m : Mutex} (hAnswers : duties.answers (.lock m) (.ok ())) :
    Effect t w { w with locks := Function.update w.locks m (some t) } d (.lock m) (.ok ()) := by
  refine ⟨hAnswers, ?_, Nat.le_refl _, fun chan z hz => ⟨hChan chan z hz, .inl ⟨z, hz⟩⟩, ?_, ?_⟩
  · intro m' u hu
    change Function.update w.locks m (some t) m' = some u at hu
    by_cases hEq : m' = m
    · subst hEq
      rw [Function.update_self] at hu
      exact .inl ⟨(Option.some.inj hu).symm, List.mem_cons_self⟩
    · rw [Function.update_of_ne hEq] at hu
      exact (locks_unchanged hLocks rfl m' u hu).imp_left (And.imp_right (List.mem_cons_of_mem m))
  · exact fun _ hi => absurd hi List.not_mem_nil
  · exact fun _ => add_zero _

omit hChan in
theorem newChannel {n : Nat} (hNone : d.chan = none) (hAnswers : duties.answers (.newChannel n) (.ok w.chans.length)) :
    Effect t w { w with chans := w.chans ++ [[]] } d (.newChannel n) (.ok w.chans.length) := by
  refine ⟨hAnswers, locks_unchanged hLocks rfl, by simp, ?_, fun _ hi => absurd hi List.not_mem_nil, ?_⟩
  · intro chan z hz
    simp only [Duty.after, Option.some.injEq, Prod.mk.injEq] at hz
    exact ⟨by simp [← hz.1], .inr hz.1.symm⟩
  · intro chan
    have hNet : Duty.net { d with chan := some (w.chans.length, 0) } chan = d.net chan := by
      simp [Duty.net, hNone]
    simp only [Duty.after, spawned, List.map_nil, List.sum_nil, add_zero, items_newChannel, hNet]

theorem push (hz : d.chan = some (chan, z)) (hAnswers : duties.answers (.push chan row) (.ok ())) :
    Effect t w { w with chans := w.chans.modify chan (· ++ [row]) } d (.push chan row) (.ok ()) := by
  have hLt := hChan chan z hz
  refine ⟨hAnswers, locks_unchanged hLocks rfl, by simp, ?_, fun _ hi => absurd hi List.not_mem_nil, ?_⟩
  · intro c z' hz'
    obtain rfl := chan_add hz hz'
    exact ⟨by simpa using hLt, .inl ⟨z, hz⟩⟩
  · intro c
    simp only [Duty.after, spawned, List.map_nil, List.sum_nil, items_push hLt, net_add hz]
    split <;> omega

theorem pop {rest : List AdminRow} (hz : d.chan = some (chan, z)) (hRow : w.chans[chan]? = some (row :: rest))
    (hAnswers : duties.answers (.pop chan) (.ok row)) :
    Effect t w { w with chans := w.chans.set chan rest } d (.pop chan) (.ok row) := by
  have hLt := hChan chan z hz
  refine ⟨hAnswers, locks_unchanged hLocks rfl, by simp, ?_, fun _ hi => absurd hi List.not_mem_nil, ?_⟩
  · intro c z' hz'
    obtain rfl := chan_add hz hz'
    exact ⟨by simpa using hLt, .inl ⟨z, hz⟩⟩
  · intro c
    simp only [Duty.after, spawned, List.map_nil, List.sum_nil, items_pop hRow, net_add hz]
    split <;> omega

theorem go_admin {k : Key} {v : Php} {dateTime : String} (hz : d.chan = some (chan, z)) (hSame : SameSync w w')
    (hAnswers : duties.answers (.go (.adminUser k v chan dateTime)) (.ok ())) :
    Effect t w w' d (.go (.adminUser k v chan dateTime)) (.ok ()) := by
  refine ⟨hAnswers, locks_unchanged hLocks hSame.locks, hSame.chans ▸ Nat.le_refl _, ?_, ?_, ?_⟩
  · intro c z' hz'
    obtain rfl := chan_add hz hz'
    rw [hSame.chans]
    exact ⟨hChan c z hz, .inl ⟨z, hz⟩⟩
  · intro i hi c z' hz'
    rw [List.mem_singleton.mp hi] at hz'
    cases hz'
    exact ⟨z, hz⟩
  · intro c
    have hItems : w'.items c = w.items c := by rw [World.items, World.items, hSame.chans]
    have hNew : (Job.adminUser k v chan dateTime).duty.net c = if chan = c then 1 else 0 := rfl
    simp only [Duty.after, spawned, List.map_cons, List.map_nil, List.sum_singleton, hItems, net_add hz, hNew]
    split <;> omega

theorem go {job : Job} {r : Except Throwable Unit} (hAdmits : d.Admits (.go job))
    (hAsync : SameSync w w' ∧ ∀ e, r = .error e → (Op.go job).raises e = true) : Effect t w w' d (.go job) r := by
  obtain ⟨hSame, hAnswers⟩ := hAsync
  cases r with
  | error e => exact absurd (hAnswers e rfl) Bool.false_ne_true
  | ok _ =>
    by_cases hAdmin : ∃ k v chan dateTime, job = .adminUser k v chan dateTime
    · obtain ⟨k, v, chan, dateTime, rfl⟩ := hAdmin
      obtain ⟨z, hz⟩ : ∃ z, d.chan = some (chan, z) := hAdmits
      exact go_admin hLocks hChan hz hSame hAnswers
    · have hPlain : job.duty = {} ∧ d.after (.go job) (.ok ()) = d := by
        cases job with
        | adminUser k v chan dateTime => exact absurd ⟨k, v, chan, dateTime, rfl⟩ hAdmin
        | _ => exact ⟨rfl, rfl⟩
      refine of_async hLocks hChan hPlain.2 (fun i hi => ?_) ⟨hSame, hAnswers⟩
      rw [List.mem_singleton.mp hi]
      exact hPlain.1

end Effect

theorem exec_effect {h : Hashes} {j : Job} {ch : Choice} (hExec : exec h t j o ch w = some (r, w'))
    (hAdmits : d.Admits o) (hLocks : ∀ m, w.locks m = some t → m ∈ d.held)
    (hChan : ∀ chan z, d.chan = some (chan, z) → chan < w.chans.length) : Effect t w w' d o r := by
  have hAnswers : duties.answers o r := exec_raises hExec
  cases o with
  | lock m =>
    obtain ⟨_, rfl, rfl⟩ := exec_lock hExec
    exact .lock hLocks hChan hAnswers
  | unlock m =>
    obtain ⟨rfl, rfl⟩ := exec_unlock hExec
    exact .of_release hLocks hChan rfl (fun _ => by simp) hAnswers
  | fclose m =>
    obtain ⟨rfl, rfl⟩ := exec_fclose hExec
    exact .of_release hLocks hChan rfl (fun _ => by simp) hAnswers
  | newChannel n =>
    obtain ⟨rfl, rfl⟩ := exec_newChannel hExec
    exact .newChannel hLocks hAdmits hAnswers
  | push chan row =>
    obtain ⟨rfl, rfl⟩ := exec_push hExec
    obtain ⟨z, hz⟩ := hAdmits
    exact .push hLocks hChan hz hAnswers
  | pop chan =>
    obtain ⟨row, rest, hRow, rfl, rfl⟩ := exec_pop hExec
    obtain ⟨⟨z, _, hz⟩, _⟩ := hAdmits
    exact .pop hLocks hChan hz hRow hAnswers
  | go job => exact .go hLocks hChan hAdmits (exec_async rfl hExec)
  | _ => exact .of_async hLocks hChan rfl (fun _ hi => absurd hi List.not_mem_nil) (exec_async rfl hExec)

end Effect

end TeaBot.Loggers
