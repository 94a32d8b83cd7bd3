import TeaBot.Foundation.Typestate
import TeaBot.Loggers.Footprint
import TeaBot.Loggers.World

/-! # What a coroutine owes

The locks a coroutine holds, taken in the order administrators, users and groups, files;
and the balance of its channel: what it still has to push or to start, less what it
still has to pop.
-/

namespace TeaBot.Loggers

open Foundation

def Mutex.rank (m : Mutex) : Nat :=
  if m.tableName = "tg_group_admins" then 0 else if m.tableName = "tg_files" then 2 else 1

theorem Mutex.rank_le (m : Mutex) : m.rank ≤ 2 := by
  unfold rank
  split
  · omega
  · split <;> omega

structure Duty where
  held : List Mutex := []
  chan : Option (Nat × Int) := none

namespace Duty

def take (d : Duty) (m : Mutex) : Duty := { d with held := m :: d.held }

def drop (d : Duty) (m : Mutex) : Duty := { d with held := d.held.filter (· ≠ m) }

def add (d : Duty) (z : Int) : Duty := { d with chan := d.chan.map fun cz => (cz.1, cz.2 + z) }

def net (d : Duty) (c : Nat) : Int :=
  match d.chan with
  | some (c', z) => if c' = c then z else 0
  | none => 0

end Duty

/-- The administrators' coroutines are started with a push to do. -/
def Job.duty : Job → Duty
  | .adminUser _ _ chan _ => { chan := some (chan, 1) }
  | _ => {}

/-- Nobody takes a lock below one they hold, or pops while holding more than the lock of
the administrators or before all that shall push is started. -/
def Duty.Admits (d : Duty) : Op → Prop
  | .lock m => (∀ m' ∈ d.held, m'.rank < m.rank) ∧ (d.chan ≠ none → 0 < m.rank)
  | .newChannel _ => d.chan = none
  | .go (.adminUser _ _ chan _) => ∃ z, d.chan = some (chan, z)
  | .push chan _ => ∃ z, d.chan = some (chan, z)
  | .pop chan => (∃ z < 0, d.chan = some (chan, z)) ∧ ∀ m ∈ d.held, m.rank = 0
  | _ => True

def Duty.after (d : Duty) : (o : Op) → Except Throwable o.Res → Duty
  | .lock m, .ok _ => d.take m
  | .unlock m, _ => d.drop m
  | .fclose m, _ => d.drop m
  | .newChannel _, .ok chan => { d with chan := some (chan, 0) }
  | .go (.adminUser ..), _ => d.add (-1)
  | .push .., _ => d.add (-1)
  | .pop _, .ok _ => d.add 1
  | _, _ => d

def duties : Discipline Op Op.Res Throwable Duty where
  admits := Duty.Admits
  answers o r := ∀ e, r = .error e → o.raises e = true
  after := Duty.after

def Discharged (out : Except Throwable Unit) (d : Duty) : Prop :=
  out = .ok () → d.held = [] ∧ ∀ c, d.net c = 0

/-! ## Code that takes no locks and uses no channels -/

variable {d : Duty}

theorem admits_of_plain {o : Op} (h : Plain o) : d.Admits o := by
  unfold Duty.Admits
  split <;> first | cases h | trivial

theorem after_of_plain {o : Op} {r : Except Throwable o.Res} (h : Plain o) : d.after o r = d := by
  unfold Duty.after
  split <;> first | cases h | rfl

/-! ## Locks are nested and given back -/

variable {m : Mutex}

theorem drop_of_notMem (h : m ∉ d.held) : d.drop m = d := by
  have hFilter : d.held.filter (· ≠ m) = d.held := by
    refine List.filter_eq_self.mpr fun m' hm' => ?_
    simpa using fun hEq : m' = m => h (hEq ▸ hm')
  rw [Duty.drop, hFilter]

theorem drop_take (h : m ∉ d.held) : (d.take m).drop m = d := by
  have hHead : (d.take m).drop m = d.drop m := by simp [Duty.take, Duty.drop]
  rw [hHead, drop_of_notMem h]

theorem notMem_of_admits (h : d.Admits (.lock m)) : m ∉ d.held :=
  fun hMem => absurd (h.1 m hMem) (Nat.lt_irrefl _)

theorem admits_free (hHeld : d.held = []) (hRank : 0 < m.rank) : d.Admits (.lock m) := by
  refine ⟨fun m' hm' => ?_, fun _ => hRank⟩
  rw [hHeld] at hm'
  cases hm'

/-- The shape that `trackPhoto`, `trackAdmins` and `resolveFile` share. -/
theorem locked_unit (m : Mutex) (body : Run Unit) :
    (m.scoped do
      perform (.lock m)
      body
      perform (.unlock m)) =
    (m.scoped do
      perform (.lock m)
      let r ← body
      perform (.unlock m)
      pure r) := by
  have hEnd : (fun _ : Unit => perform (.unlock m)) =
      fun r : Unit => (perform (.unlock m)).bind fun _ => (.ret r : Run Unit) :=
    funext fun _ => (Prog.bind_pure _).symm
  simp only [Prog.bind_eq, Prog.pure_eq, hEnd]

end TeaBot.Loggers
