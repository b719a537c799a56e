import Gem5.Events.EventOrder

/-!
# Events in checkpoints

An event is saved with its time, its priority and its flag word, read back into a fresh
event, and put into the queue by `checkpointReschedule`. Of the flags the queue reads
only two, so the word is kept here.
-/

namespace Gem5.Events

open List Bool BitVec

open LinkedList BinnedList

abbrev FlagsType := BitVec 16

namespace FlagsType

def squashed : FlagsType := 0x0001

def scheduled : FlagsType := 0x0002

def initialized : FlagsType := 0x7a40

def initMask : FlagsType := 0xffc0

def isSet (flags mask : FlagsType) : Bool := flags &&& mask != 0

def clear (flags mask : FlagsType) : FlagsType := flags &&& ~~~mask

def set (flags mask : FlagsType) : FlagsType := flags ||| mask

end FlagsType

/-- The section of an event in a checkpoint. The flags are written as a `short`. -/
structure EventSection where
  when : Nat
  priority : Int
  flags : Int

structure FlaggedEvent where
  when : Nat
  priority : Int
  flags : FlagsType

namespace FlaggedEvent

def scheduled (x : FlaggedEvent) : Bool := x.flags.isSet FlagsType.scheduled

def squashed (x : FlaggedEvent) : Bool := x.flags.isSet FlagsType.squashed

def initialized (x : FlaggedEvent) : Bool := x.flags &&& FlagsType.initMask == FlagsType.initialized

def serialize (x : FlaggedEvent) : EventSection where
  when := x.when
  priority := x.priority
  flags := x.flags.toInt

def unserialize (cp : EventSection) (x : FlaggedEvent) : Sim FlaggedEvent := do
  simAssert (!x.scheduled)
  simAssert x.initialized
  let flags := FlagsType.set (BitVec.ofInt 16 cp.flags) FlagsType.initialized
  if flags.isSet FlagsType.scheduled && !flags.isSet FlagsType.squashed then
    pure ⟨cp.when, cp.priority, flags.clear (FlagsType.squashed ||| FlagsType.scheduled)⟩
  else pure ⟨cp.when, cp.priority, flags⟩

end FlaggedEvent

namespace EventQueue

variable {n : Nat}

def checkpointReschedule (event : Fin n) (q : EventQueue n) : Sim (EventQueue n) :=
  if (q.events event).scheduled then q.insert event else pure q

def put (event : Fin n) (x : FlaggedEvent) : EventQueue n → EventQueue n :=
  modify event fun y =>
    { y with when := x.when, priority := x.priority, scheduled := x.scheduled,
             squashed := x.squashed }

/-- The saved event is restored into a fresh one, which is number `event` of the queue. -/
def restore (event : Fin n) (saved fresh : FlaggedEvent) (q : EventQueue n) :
    Sim (EventQueue n) := do
  let x ← fresh.unserialize saved.serialize
  (q.put event x).checkpointReschedule event

def Contains (q : EventQueue n) (event : Fin n) : Prop :=
  ∃ bins, q.Holds q.head bins ∧ event ∈ members bins

def RoundTrip (event : Fin n) (saved fresh : FlaggedEvent) (q : EventQueue n) : Prop :=
  ∃ q', q.restore event saved fresh = .ok q' ∧
    (q'.Contains event ↔ saved.scheduled = true ∧ saved.squashed = false) ∧
    (q'.Contains event →
      (q'.events event).when = saved.when ∧ (q'.events event).priority = saved.priority) ∧
    ((q'.events event).scheduled = true ↔ q'.Contains event)

end EventQueue

section Flags

variable {flags : FlagsType}

theorem set_initialized (h : flags &&& FlagsType.initMask = FlagsType.initialized) :
    flags.set FlagsType.initialized = flags := by
  rw [FlagsType.set, ← h]
  ext i hi
  simp only [getElem_or, getElem_and]
  cases flags[i] <;> rfl

theorem clear_scheduled :
    (flags.clear (FlagsType.squashed ||| FlagsType.scheduled)).isSet FlagsType.scheduled =
      false := by
  have hzero :
      flags &&& ~~~(FlagsType.squashed ||| FlagsType.scheduled) &&& FlagsType.scheduled = 0 := by
    rw [BitVec.and_assoc]
    exact and_zero
  rw [FlagsType.isSet, FlagsType.clear, hzero]
  rfl

end Flags

namespace FlaggedEvent

variable {saved fresh : FlaggedEvent}

theorem unserialize_spec (hsaved : saved.initialized = true) (hfresh : fresh.initialized = true)
    (hfree : fresh.scheduled = false) : ∃ x, fresh.unserialize saved.serialize = .ok x ∧
      x.when = saved.when ∧ x.priority = saved.priority ∧
      x.scheduled = (saved.scheduled && saved.squashed) := by
  have hflags : FlagsType.set (BitVec.ofInt 16 saved.serialize.flags) FlagsType.initialized =
      saved.flags := by
    rw [serialize, ofInt_toInt]
    exact set_initialized (beq_iff_eq.mp hsaved)
  unfold unserialize
  rw [hfree, hfresh, hflags]
  change ∃ x, (if saved.scheduled && !saved.squashed then _ else _) = Except.ok x ∧ _
  split
  · rename_i hboth
    obtain ⟨hscheduled, hsquashed⟩ := and_eq_true_iff.mp hboth
    rw [not_eq_true'] at hsquashed
    refine ⟨_, rfl, rfl, rfl, ?_⟩
    rw [hscheduled, hsquashed]
    exact clear_scheduled
  · rename_i hother
    refine ⟨_, rfl, rfl, rfl, ?_⟩
    change saved.scheduled = _
    revert hother
    cases saved.scheduled <;> cases saved.squashed <;> simp

end FlaggedEvent

namespace EventQueue

variable {n : Nat} {q : EventQueue n} {event : Fin n} {bins : List (Fin n × List (Fin n))}
  {saved fresh : FlaggedEvent}

theorem put_holds {x : FlaggedEvent} (h : q.Holds q.head bins) (hout : event ∉ members bins) :
    (q.put event x).Holds (q.put event x).head bins := by
  have hsame : ∀ a ∈ members bins, (q.put event x).events a = q.events a := fun a ha =>
    events_modify_ne fun heq => hout (heq ▸ ha)
  refine Binned.congr (p := q.head) h (fun a ha => ?_) fun a ha => ?_
  · rw [nextBin, hsame a ha, nextBin]
  · rw [nextInBin, hsame a ha, nextInBin]

theorem put_self (q : EventQueue n) (event : Fin n) (x : FlaggedEvent) :
    ((q.put event x).events event).when = x.when ∧
    ((q.put event x).events event).priority = x.priority ∧
    ((q.put event x).events event).scheduled = x.scheduled := by
  rw [put, events_modify_self]
  exact ⟨rfl, rfl, rfl⟩

section Restoring

variable (h : q.Holds q.head bins) (hnodup : (members bins).Nodup) (hout : event ∉ members bins)
  (hsaved : saved.initialized = true) (hfresh : fresh.initialized = true)
  (hfree : fresh.scheduled = false)
include h hnodup hout hsaved hfresh hfree

theorem restore_spec :
    ∃ q', q.restore event saved fresh = .ok q' ∧
      (q'.Contains event ↔ saved.scheduled = true ∧ saved.squashed = true) ∧
      (q'.events event).when = saved.when ∧ (q'.events event).priority = saved.priority ∧
      ((q'.events event).scheduled = true ↔ q'.Contains event) := by
  obtain ⟨x, hx, hwhen, hpriority, hkept⟩ := FlaggedEvent.unserialize_spec hsaved hfresh hfree
  obtain ⟨hwhen', hpriority', hscheduled⟩ := put_self q event x
  rw [hwhen] at hwhen'
  rw [hpriority] at hpriority'
  rw [hkept] at hscheduled
  have hput : (q.put event x).Holds (q.put event x).head bins := put_holds h hout
  rw [restore, hx, sim_ok_bind, checkpointReschedule, hscheduled]
  cases hboth : saved.scheduled && saved.squashed with
  | false =>
    have hgone : ¬(q.put event x).Contains event := by
      rintro ⟨bins', hbins', hmem⟩
      exact hout (hput.unique hbins' ▸ hmem)
    refine ⟨_, rfl, iff_of_false hgone ?_, hwhen', hpriority', iff_of_false ?_ hgone⟩
    · rw [← and_eq_true_iff, hboth]
      exact Bool.false_ne_true
    · rw [hscheduled, hboth]
      exact Bool.false_ne_true
  | true =>
    obtain ⟨q', hq', hsame, hholds⟩ := insert_holds hput hnodup hout
    have hin : q'.Contains event := ⟨_, hholds, mem_members_insertBins.mpr (.inl rfl)⟩
    refine ⟨q', hq', iff_of_true hin (and_eq_true_iff.mp hboth), ?_, ?_, iff_of_true ?_ hin⟩
    · rw [hsame.when, hwhen']
    · rw [hsame.priority, hpriority']
    · rw [hsame.scheduled, hscheduled, hboth]

theorem RoundTrip.not_scheduled (hround : RoundTrip event saved fresh q) :
    saved.scheduled = false := by
  obtain ⟨q', hq', hin, _⟩ := restore_spec h hnodup hout hsaved hfresh hfree
  obtain ⟨q'', hq'', hshould, _⟩ := hround
  obtain rfl := eq_of_ok hq' hq''
  have hsquash := hin.symm.trans hshould
  cases hs : saved.scheduled with
  | false => rfl
  | true =>
    rw [hs] at hsquash
    cases hq : saved.squashed <;> simp [hq] at hsquash

/-- Events that were not scheduled come back as they were, and no others: the queue gets
the squashed events in place of the live ones. -/
theorem checkpoint_round_trip :
    RoundTrip event saved fresh q ↔ saved.scheduled = false := by
  constructor
  · exact RoundTrip.not_scheduled h hnodup hout hsaved hfresh hfree
  · intro hidle
    obtain ⟨q', hq', hin, hwhen, hpriority, hscheduled⟩ :=
      restore_spec h hnodup hout hsaved hfresh hfree
    refine ⟨q', hq', ?_, fun _ => ⟨hwhen, hpriority⟩, hscheduled⟩
    rw [hin, hidle]
    exact iff_of_false (fun hc => Bool.false_ne_true hc.1) fun hc => Bool.false_ne_true hc.1

end Restoring

theorem construct_holds (priority : Fin n → Int) :
    (construct priority).Holds (construct priority).head [] :=
  ⟨rfl, forall_mem_nil _⟩

/-- Event 1 is in the queue when event 0 comes back. -/
theorem checkpoint_round_trip_idle : RoundTrip 0 ⟨7, 3, 0x7a41⟩ ⟨0, 0, 0x7a40⟩
    { construct (fun _ : Fin 2 => 0) with head := some 1 } := by
  have hone : Holds { construct (fun _ : Fin 2 => 0) with head := some 1 } (some 1) [(1, [])] :=
    ⟨⟨rfl, rfl⟩, fun b hb => by rw [mem_singleton.mp hb]; rfl⟩
  exact (checkpoint_round_trip hone (by decide) (by decide) (by decide) (by decide)
    (by decide)).mpr (by decide)

/-- An event that was scheduled at tick 7 is not in the restored queue, one that was
squashed as well is. -/
theorem checkpoint_swaps_squashed :
    (∃ q', (construct fun _ : Fin 1 => 0).restore 0 ⟨7, 3, 0x7a42⟩ ⟨0, 0, 0x7a40⟩ = .ok q' ∧
      q'.head = none) ∧
    (∃ q', (construct fun _ : Fin 1 => 0).restore 0 ⟨7, 3, 0x7a43⟩ ⟨0, 0, 0x7a40⟩ = .ok q' ∧
      q'.head = some 0) ∧
    ¬RoundTrip 0 ⟨7, 3, 0x7a42⟩ ⟨0, 0, 0x7a40⟩ (construct fun _ : Fin 1 => 0) ∧
    ¬RoundTrip 0 ⟨7, 3, 0x7a43⟩ ⟨0, 0, 0x7a40⟩ (construct fun _ : Fin 1 => 0) := by
  refine ⟨⟨_, rfl, rfl⟩, ⟨_, rfl, rfl⟩, fun hround => ?_, fun hround => ?_⟩
  · exact absurd (hround.not_scheduled (construct_holds _) nodup_nil not_mem_nil
      (by decide) (by decide) (by decide)) (by decide)
  · exact absurd (hround.not_scheduled (construct_holds _) nodup_nil not_mem_nil
      (by decide) (by decide) (by decide)) (by decide)

end EventQueue

end Gem5.Events
