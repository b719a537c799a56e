import Gem5.Shared.Sim
import Gem5.Shared.Reachability
import Mathlib.Algebra.Order.Ring.Nat
import Mathlib.Data.List.Nodup
import Mathlib.Data.List.Pairwise
import Mathlib.Data.List.Perm.Basic

/-!
# The queue of outstanding misses

`MSHRQueue` and its base class `Queue`. Entries are named by their position in the vector
`entries`; the iterators that an entry keeps are its places in the lists, so a call with an entry
that is not in the list reads freed memory. Of the targets only their number is kept: it is set by
functions of the entry, of which one changes the ready time too.
-/

namespace Gem5.Mem

open List

open Function (update update_of_ne update_self)

structure MSHREntry where
  readyTime : Nat
  inService : Bool
  numTargets : Nat
  deriving DecidableEq

structure MSHRQueue where
  numEntries : Nat
  entries : Nat → MSHREntry
  allocatedList : List Nat
  readyList : List Nat
  freeList : List Nat
  numInService : Int
  allocated : Int
  curTick : Nat

namespace MSHRQueue

def init (numEntries : Nat) : MSHRQueue where
  numEntries := numEntries
  entries := fun _ => ⟨0, false, 0⟩
  allocatedList := []
  readyList := []
  freeList := List.range numEntries
  numInService := 0
  allocated := 0
  curTick := 0

/-- The ready time of entry `i`. -/
def time (s : MSHRQueue) (i : Nat) : Nat := (s.entries i).readyTime

def setEntry (i : Nat) (e : MSHREntry) (s : MSHRQueue) : MSHRQueue :=
  { s with entries := update s.entries i e }

section Lists

/-- The loop of `addToReadyList`. -/
def insertBefore (time : Nat → Nat) (i : Nat) : List Nat → Sim (List Nat)
  | [] => .error (.panic "Failed to add to ready list.")
  | k :: rest =>
    if time i < time k then pure (i :: k :: rest)
    else do
      let rest ← insertBefore time i rest
      pure (k :: rest)

def addToReadyList (time : Nat → Nat) (i : Nat) (readyList : List Nat) : Sim (List Nat) :=
  if readyList.getLast?.all fun k => decide (time k ≤ time i) then pure (readyList ++ [i])
  else insertBefore time i readyList

/-- `splice` of the element at place `p` to the place in front of `it`. -/
def splice (it p : Nat) (l : List Nat) : List Nat :=
  match l[p]? with
  | some i => (l.eraseIdx p).insertIdx (if p < it then it - 1 else it) i
  | none => l

/-- `erase` of an iterator. -/
def eraseEntry (i : Nat) (l : List Nat) : Sim (List Nat) :=
  if i ∈ l then pure (l.erase i) else .error .outOfBounds

end Lists

def allocate (whenReady : Nat) (s : MSHRQueue) : Sim MSHRQueue :=
  match s.freeList with
  | [] => .error .assertion
  | i :: free => do
    simAssert ((s.entries i).numTargets == 0)
    let s := { s with freeList := free }.setEntry i ⟨whenReady, false, 1⟩
    let readyList ← addToReadyList s.time i s.readyList
    pure { s with
      allocatedList := s.allocatedList ++ [i]
      readyList := readyList
      allocated := s.allocated + 1 }

def deallocate (i : Nat) (s : MSHRQueue) : Sim MSHRQueue := do
  let allocatedList ← eraseEntry i s.allocatedList
  let e := s.entries i
  let s := { s with
    allocatedList := allocatedList, freeList := i :: s.freeList, allocated := s.allocated - 1 }
  let s ← if e.inService then pure { s with numInService := s.numInService - 1 }
    else do
      let readyList ← eraseEntry i s.readyList
      pure { s with readyList := readyList }
  simAssert (e.numTargets == 0)
  pure (s.setEntry i { e with inService := false })

def delay (i delayTicks : Nat) (s : MSHRQueue) : Sim MSHRQueue := do
  simAssert (s.time i ≤ s.curTick)
  let s := s.setEntry i { s.entries i with readyTime := s.curTick + delayTicks }
  if i ∈ s.readyList then
    let p := s.readyList.idxOf i
    let it := p + (s.readyList.drop p).findIdx fun k => decide (s.time k ≤ s.time i)
    pure { s with readyList := splice it p s.readyList }
  else .error .outOfBounds

def markInService (i : Nat) (s : MSHRQueue) : Sim MSHRQueue := do
  simAssert (!(s.entries i).inService)
  let s := s.setEntry i { s.entries i with inService := true }
  let readyList ← eraseEntry i s.readyList
  pure { s with readyList := readyList, numInService := s.numInService + 1 }

def markPending (i : Nat) (s : MSHRQueue) : Sim MSHRQueue := do
  simAssert (s.entries i).inService
  let s := s.setEntry i { s.entries i with inService := false }
  let readyList ← addToReadyList s.time i s.readyList
  pure { s with readyList := readyList, numInService := s.numInService - 1 }

def setTargets (i numTargets : Nat) (s : MSHRQueue) : Sim MSHRQueue :=
  if i ∈ s.allocatedList then pure (s.setEntry i { s.entries i with numTargets := numTargets })
  else .error .outOfBounds

/-- Of an entry in service, whose first target is then ready at `ready`. -/
def promoteDeferredTargets (i numTargets ready : Nat) (s : MSHRQueue) : Sim MSHRQueue :=
  if (s.entries i).inService then
    pure
      (s.setEntry i { s.entries i with readyTime := max s.curTick ready, numTargets := numTargets })
  else .error .outOfBounds

def getNext (s : MSHRQueue) : Option Nat :=
  match s.readyList with
  | [] => none
  | i :: _ => if s.curTick < s.time i then none else some i

def nextReadyTime (s : MSHRQueue) : Nat :=
  match s.readyList with
  | [] => maxTick
  | i :: _ => s.time i

inductive Action where
  | allocate (whenReady : Nat)
  | deallocate (i : Nat)
  | delay (i delayTicks : Nat)
  | markInService (i : Nat)
  | markPending (i : Nat)
  | setTargets (i numTargets : Nat)
  | promoteDeferredTargets (i numTargets ready : Nat)
  | passTime (ticks : Nat)

def step (s : MSHRQueue) : Action → Sim MSHRQueue
  | .allocate whenReady => s.allocate whenReady
  | .deallocate i => s.deallocate i
  | .delay i delayTicks => s.delay i delayTicks
  | .markInService i => s.markInService i
  | .markPending i => s.markPending i
  | .setTargets i numTargets => s.setTargets i numTargets
  | .promoteDeferredTargets i numTargets ready => s.promoteDeferredTargets i numTargets ready
  | .passTime ticks => pure { s with curTick := s.curTick + ticks }

def DelayedInPlace (s : MSHRQueue) : Action → Prop
  | .delay i delayTicks =>
    ∀ k ∈ s.readyList[s.readyList.idxOf i + 1]?, s.curTick + delayTicks ≤ s.time k
  | _ => True

instance (s : MSHRQueue) : (a : Action) → Decidable (s.DelayedInPlace a)
  | .delay i _ => inferInstanceAs (Decidable (∀ k ∈ s.readyList[s.readyList.idxOf i + 1]?, _ ≤ _))
  | .allocate _ | .deallocate _ | .markInService _ | .markPending _ | .setTargets _ _
  | .promoteDeferredTargets _ _ _ | .passTime _ => inferInstanceAs (Decidable True)

def Waits (s : MSHRQueue) (i : Nat) : Prop := i ∈ s.allocatedList ∧ (s.entries i).inService = false

structure Listed (s : MSHRQueue) : Prop where
  parts : (s.freeList ++ s.allocatedList).Perm (List.range s.numEntries)
  ready : ∀ i, i ∈ s.readyList ↔ s.Waits i
  once : s.readyList.Nodup
  idle : ∀ i, i ∉ s.allocatedList → (s.entries i).inService = false
  allocated : s.allocated = s.allocatedList.length
  inService : s.numInService = (s.allocatedList.countP fun i => (s.entries i).inService : Nat)

def Sorted (s : MSHRQueue) : Prop := s.readyList.Pairwise fun i k => s.time i ≤ s.time k

variable {s t : MSHRQueue} {i j : Nat} {l r : List Nat} {time : Nat → Nat}

section Insertion

/-- A new element among those of `l`, behind the last one that is due no later. -/
structure Inserted (time : Nat → Nat) (i : Nat) (l r : List Nat) : Prop where
  perm : r.Perm (i :: l)
  sorted : l.Pairwise (fun a b => time a ≤ time b) → r.Pairwise fun a b => time a ≤ time b

theorem insertBefore_inserted : ∀ {l r : List Nat}, insertBefore time i l = .ok r →
    Inserted time i l r := by
  intro l
  induction l with
  | nil =>
    intro r h
    cases h
  | cons k rest ih =>
    intro r h
    unfold insertBefore at h
    split at h
    · rename_i hlt
      cases h
      refine ⟨List.Perm.refl _, fun hs => pairwise_cons.mpr ⟨fun b hb => ?_, hs⟩⟩
      rcases mem_cons.mp hb with rfl | hrest
      · exact le_of_lt hlt
      · exact le_trans (le_of_lt hlt) ((pairwise_cons.mp hs).1 b hrest)
    · rename_i hle
      obtain ⟨r', hr', rfl⟩ := map_eq_ok.mp h
      obtain ⟨hperm, hsorted⟩ := ih hr'
      refine ⟨(hperm.cons k).trans (List.Perm.swap i k rest), fun hs => ?_⟩
      obtain ⟨hk, hrest⟩ := pairwise_cons.mp hs
      refine pairwise_cons.mpr ⟨fun b hb => ?_, hsorted hrest⟩
      rcases mem_cons.mp (hperm.subset hb) with rfl | hold
      · exact not_lt.mp hle
      · exact hk b hold

theorem le_of_le_getLast (hs : l.Pairwise fun a b => time a ≤ time b)
    (hlast : l.getLast?.all (fun k => decide (time k ≤ time i)) = true) :
    ∀ k ∈ l, time k ≤ time i := by
  intro k hk
  have : Std.Refl fun a b => time a ≤ time b := ⟨fun _ => le_rfl⟩
  rw [List.getLast?_eq_getLast_of_ne_nil (ne_nil_of_mem hk)] at hlast
  exact (hs.rel_getLast hk).trans (of_decide_eq_true hlast)

theorem addToReadyList_inserted (h : addToReadyList time i l = .ok r) : Inserted time i l r := by
  unfold addToReadyList at h
  split at h
  · rename_i hlast
    cases h
    refine ⟨perm_append_singleton i l, fun hs => ?_⟩
    refine pairwise_append.mpr ⟨hs, pairwise_singleton _ _, fun a ha b hb => ?_⟩
    rw [mem_singleton.mp hb]
    exact le_of_le_getLast hs hlast a ha
  · exact insertBefore_inserted h

theorem eraseEntry_eq_ok : eraseEntry i l = .ok r ↔ i ∈ l ∧ r = l.erase i := by
  unfold eraseEntry
  split
  · rename_i hmem
    exact ⟨fun h => ⟨hmem, eq_of_ok h rfl⟩, fun h => by rw [h.2]; rfl⟩
  · rename_i hnot
    exact ⟨fun h => (by cases h), fun h => absurd h.1 hnot⟩

theorem splice_self (hmem : i ∈ l) :
    splice (l.idxOf i + (l.drop (l.idxOf i)).findIdx fun k => decide (time k ≤ time i))
      (l.idxOf i) l =
      l := by
  have hlt : l.idxOf i < l.length := idxOf_lt_length_iff.mpr hmem
  have hfirst : (l.drop (l.idxOf i)).findIdx (fun k => decide (time k ≤ time i)) = 0 := by
    rw [drop_eq_getElem_cons hlt, findIdx_cons]
    simp
  rw [hfirst, add_zero]
  unfold splice
  rw [List.getElem?_eq_getElem hlt]
  rw [if_neg (lt_irrefl _)]
  exact insertIdx_eraseIdx_getElem hlt

end Insertion

section Counting

/-- The number of entries of `l` that are in service. -/
def serving (entries : Nat → MSHREntry) (l : List Nat) : Nat :=
  l.countP fun i => (entries i).inService

theorem serving_erase {entries : Nat → MSHREntry} (hidle : i ∉ l → (entries i).inService = false) :
    serving entries l = serving entries (l.erase i) + if (entries i).inService then 1 else 0 := by
  unfold serving
  by_cases hmem : i ∈ l
  · rw [(perm_cons_erase hmem).countP_eq, countP_cons]
  · rw [erase_of_not_mem hmem, hidle hmem]
    rfl

end Counting

section Cases

theorem allocate_cases {whenReady : Nat} (ht : s.allocate whenReady = .ok t) :
    ∃ i free r, s.freeList = i :: free ∧
      Inserted (s.setEntry i ⟨whenReady, false, 1⟩).time i s.readyList r ∧
      t = { s.setEntry i ⟨whenReady, false, 1⟩ with
        freeList := free, allocatedList := s.allocatedList ++ [i], readyList := r,
        allocated := s.allocated + 1 } := by
  unfold allocate at ht
  split at ht
  · cases ht
  · rename_i i free hfree
    obtain ⟨_, _, ht⟩ := bind_eq_ok.mp ht
    obtain ⟨r, hr, rfl⟩ := map_eq_ok.mp ht
    exact ⟨i, free, r, hfree, addToReadyList_inserted hr, rfl⟩

/-- An entry in service is not in the ready list, so that erasing it there changes nothing. -/
theorem deallocate_cases (hready : (s.entries i).inService = true → i ∉ s.readyList)
    (ht : s.deallocate i = .ok t) : i ∈ s.allocatedList ∧
      t = { s.setEntry i { s.entries i with inService := false } with
        freeList := i :: s.freeList, allocatedList := s.allocatedList.erase i,
        readyList := s.readyList.erase i, allocated := s.allocated - 1,
        numInService := s.numInService - if (s.entries i).inService then 1 else 0 } := by
  obtain ⟨l, hl, ht⟩ := bind_eq_ok.mp ht
  obtain ⟨hmem, rfl⟩ := eraseEntry_eq_ok.mp hl
  refine ⟨hmem, ?_⟩
  dsimp only at ht
  split at ht
  · rename_i hin
    obtain ⟨u, hu, ht⟩ := bind_eq_ok.mp ht
    cases hu
    obtain ⟨_, _, rfl⟩ := map_eq_ok.mp ht
    rw [if_pos hin, erase_of_not_mem (hready hin)]
    rfl
  · rename_i hout
    obtain ⟨r, hr, ht⟩ := bind_eq_ok.mp ht
    obtain ⟨u, hu, ht⟩ := bind_eq_ok.mp ht
    cases hu
    obtain ⟨_, _, rfl⟩ := map_eq_ok.mp ht
    obtain ⟨_, rfl⟩ := eraseEntry_eq_ok.mp hr
    rw [if_neg hout, sub_zero]
    rfl

theorem markInService_cases (ht : s.markInService i = .ok t) : i ∈ s.readyList ∧
    t = { s.setEntry i { s.entries i with inService := true } with
      readyList := s.readyList.erase i, numInService := s.numInService + 1 } := by
  obtain ⟨_, _, ht⟩ := bind_eq_ok.mp ht
  obtain ⟨r, hr, rfl⟩ := map_eq_ok.mp ht
  obtain ⟨hready, rfl⟩ := eraseEntry_eq_ok.mp hr
  exact ⟨hready, rfl⟩

theorem markPending_cases (ht : s.markPending i = .ok t) : (s.entries i).inService = true ∧
    ∃ r, Inserted (s.setEntry i { s.entries i with inService := false }).time i s.readyList r ∧
      t = { s.setEntry i { s.entries i with inService := false } with
        readyList := r, numInService := s.numInService - 1 } := by
  obtain ⟨_, hin, ht⟩ := bind_eq_ok.mp ht
  obtain ⟨r, hr, rfl⟩ := map_eq_ok.mp ht
  exact ⟨simAssert_eq_ok.mp hin, r, addToReadyList_inserted hr, rfl⟩

theorem setTargets_cases {numTargets : Nat} (ht : s.setTargets i numTargets = .ok t) :
    t = s.setEntry i { s.entries i with numTargets := numTargets } := by
  unfold setTargets at ht
  split at ht
  · exact eq_of_ok ht rfl
  · cases ht

theorem delay_cases {delayTicks : Nat} (ht : s.delay i delayTicks = .ok t) :
    s.time i ≤ s.curTick ∧ i ∈ s.readyList ∧
      t = s.setEntry i { s.entries i with readyTime := s.curTick + delayTicks } := by
  obtain ⟨_, hdue, ht⟩ := bind_eq_ok.mp ht
  dsimp only at ht
  split at ht
  · rename_i hmem
    cases ht
    refine ⟨of_decide_eq_true (simAssert_eq_ok.mp hdue), hmem, ?_⟩
    rw [splice_self hmem]
  · cases ht

theorem promoteDeferredTargets_cases {numTargets ready : Nat}
    (ht : s.promoteDeferredTargets i numTargets ready = .ok t) : (s.entries i).inService = true ∧
      t = s.setEntry i { s.entries i with
        readyTime := max s.curTick ready, numTargets := numTargets } := by
  unfold promoteDeferredTargets at ht
  split at ht
  · rename_i hin
    exact ⟨hin, eq_of_ok ht rfl⟩
  · cases ht

end Cases

namespace Listed

theorem init (numEntries : Nat) : Listed (init numEntries) where
  parts := by
    change (List.range numEntries ++ []).Perm (List.range numEntries)
    rw [append_nil]
  ready := fun _ => ⟨fun h => absurd h not_mem_nil, fun h => absurd h.1 not_mem_nil⟩
  once := nodup_nil
  idle := fun _ _ => rfl
  allocated := rfl
  inService := rfl

section

variable (h : Listed s)
include h

theorem nodup : (s.freeList ++ s.allocatedList).Nodup :=
  h.parts.nodup_iff.mpr nodup_range

theorem allocated_nodup : s.allocatedList.Nodup := (nodup_append.mp h.nodup).2.1

theorem not_free (hmem : i ∈ s.allocatedList) : i ∉ s.freeList := fun hfree =>
  (nodup_append.mp h.nodup).2.2 i hfree i hmem rfl

theorem not_ready (hin : (s.entries i).inService = true) : i ∉ s.readyList := by
  intro hready
  rw [((h.ready i).mp hready).2] at hin
  cases hin

theorem mem_of_inService (hin : (s.entries i).inService = true) : i ∈ s.allocatedList := by
  by_contra hnot
  rw [h.idle i hnot] at hin
  cases hin

/-- Entry `i` changes, and with it its places in the lists and its part of the count. -/
theorem change {e : MSHREntry} (hentries : t.entries = update s.entries i e)
    (hparts : (t.freeList ++ t.allocatedList).Perm (List.range t.numEntries))
    (hlists : ∀ k, k ≠ i → (k ∈ t.readyList ↔ k ∈ s.readyList) ∧
      (k ∈ t.allocatedList ↔ k ∈ s.allocatedList))
    (hself : i ∈ t.readyList ↔ i ∈ t.allocatedList ∧ e.inService = false)
    (hidle : i ∉ t.allocatedList → e.inService = false) (honce : t.readyList.Nodup)
    (hlen : t.allocated = t.allocatedList.length)
    (hcount : t.numInService + (if (s.entries i).inService then 1 else 0) =
      s.numInService + if e.inService then 1 else 0) : Listed t := by
  have hsame : ∀ k, k ≠ i → t.entries k = s.entries k := fun k hk => by
    rw [hentries, update_of_ne hk]
  have hnew : t.entries i = e := by rw [hentries, update_self]
  refine ⟨hparts, fun k => ?_, honce, fun k hk => ?_, hlen, ?_⟩
  · by_cases hk : k = i
    · rw [hk, hself, Waits, hnew]
    · rw [(hlists k hk).1, h.ready, Waits, Waits, (hlists k hk).2, hsame k hk]
  · by_cases hki : k = i
    · rw [hki, hnew]
      exact hidle (hki ▸ hk)
    · rw [hsame k hki]
      exact h.idle k (mt (hlists k hki).2.mpr hk)
  · have hnodup := (nodup_append.mp (hparts.nodup_iff.mpr nodup_range)).2.1
    have hperm : (t.allocatedList.erase i).Perm (s.allocatedList.erase i) := by
      rw [perm_ext_iff_of_nodup (hnodup.erase i) (h.allocated_nodup.erase i)]
      intro k
      rw [hnodup.mem_erase_iff, h.allocated_nodup.mem_erase_iff]
      exact and_congr_right fun hk => (hlists k hk).2
    have hrest : serving t.entries (t.allocatedList.erase i) =
        serving s.entries (s.allocatedList.erase i) := by
      rw [serving, countP_congr fun k hk => by rw [hsame k (hnodup.mem_erase_iff.mp hk).1],
        hperm.countP_eq, serving]
    have hold : s.numInService = (serving s.entries s.allocatedList : Nat) := h.inService
    change t.numInService = (serving t.entries t.allocatedList : Nat)
    rw [serving_erase (h.idle i)] at hold
    rw [serving_erase (hnew ▸ hidle), hrest, hnew]
    split_ifs at hold hcount ⊢ <;> omega

theorem setEntry {e : MSHREntry} (hsame : e.inService = (s.entries i).inService) :
    Listed (s.setEntry i e) := by
  refine h.change rfl h.parts (fun _ _ => ⟨Iff.rfl, Iff.rfl⟩) ?_ (hsame ▸ h.idle i) h.once
    h.allocated (by rw [hsame]; rfl)
  rw [hsame]
  exact h.ready i

theorem allocate {whenReady : Nat} (ht : s.allocate whenReady = .ok t) : Listed t := by
  obtain ⟨i, free, r, hfree, ⟨hperm, -⟩, rfl⟩ := allocate_cases ht
  have hnodup := h.nodup
  rw [hfree, cons_append, nodup_cons, mem_append, not_or] at hnodup
  have hnew : i ∉ s.allocatedList := hnodup.1.2
  refine h.change rfl ?_ (fun k hk => ?_) ?_ (fun _ => rfl) ?_ ?_ ?_
  · refine List.Perm.trans ?_ h.parts
    rw [hfree, ← append_assoc]
    exact perm_append_singleton i _
  · simp [hperm.mem_iff, hk]
  · simp [hperm.mem_iff]
  · exact hperm.nodup_iff.mpr (nodup_cons.mpr ⟨fun hi => hnew ((h.ready i).mp hi).1, h.once⟩)
  · rw [h.allocated, length_append]
    rfl
  · rw [h.idle i hnew]
    rfl

theorem deallocate (ht : s.deallocate i = .ok t) : Listed t := by
  obtain ⟨hmem, rfl⟩ := deallocate_cases h.not_ready ht
  refine h.change rfl ?_ (fun k hk => ⟨mem_erase_of_ne hk, mem_erase_of_ne hk⟩) ?_ (fun _ => rfl)
    (h.once.erase i) ?_ ?_
  · exact (perm_middle.symm.trans (.append_left _ (perm_cons_erase hmem).symm)).trans h.parts
  · simp [h.once.not_mem_erase, h.allocated_nodup.not_mem_erase]
  · change s.allocated - 1 = _
    rw [h.allocated, length_erase_of_mem hmem]
    have hpos := length_pos_of_mem hmem
    omega
  · simp

theorem markInService (ht : s.markInService i = .ok t) : Listed t := by
  obtain ⟨hready, rfl⟩ := markInService_cases ht
  obtain ⟨hmem, hout⟩ := (h.ready i).mp hready
  refine h.change rfl h.parts (fun k hk => ⟨mem_erase_of_ne hk, Iff.rfl⟩) ?_
    (fun hnot => absurd hmem hnot) (h.once.erase i) h.allocated ?_
  · simp [h.once.not_mem_erase]
  · simp [hout]

theorem markPending (ht : s.markPending i = .ok t) : Listed t := by
  obtain ⟨hin, r, ⟨hperm, -⟩, rfl⟩ := markPending_cases ht
  refine h.change rfl h.parts (fun k hk => ⟨by simp [hperm.mem_iff, hk], Iff.rfl⟩) ?_
    (fun _ => rfl) (hperm.nodup_iff.mpr (nodup_cons.mpr ⟨h.not_ready hin, h.once⟩)) h.allocated ?_
  · exact iff_of_true (hperm.mem_iff.mpr mem_cons_self) ⟨h.mem_of_inService hin, rfl⟩
  · simp [hin]

end

end Listed

theorem Listed.step {a : Action} (h : Listed s) (ht : step s a = .ok t) : Listed t := by
  cases a with
  | allocate whenReady => exact h.allocate ht
  | deallocate i => exact h.deallocate ht
  | delay i delayTicks =>
    obtain ⟨_, _, rfl⟩ := delay_cases ht
    exact h.setEntry rfl
  | markInService i => exact h.markInService ht
  | markPending i => exact h.markPending ht
  | setTargets i numTargets =>
    obtain rfl := setTargets_cases ht
    exact h.setEntry rfl
  | promoteDeferredTargets i numTargets ready =>
    obtain ⟨_, rfl⟩ := promoteDeferredTargets_cases ht
    exact h.setEntry rfl
  | passTime ticks =>
    cases ht
    exact ⟨h.parts, h.ready, h.once, h.idle, h.allocated, h.inService⟩

section Order

theorem time_of_ne {e : MSHREntry} {k : Nat} (hentries : t.entries = update s.entries i e)
    (hne : k ≠ i) : t.time k = s.time k := by
  unfold MSHRQueue.time
  rw [hentries, update_of_ne hne]

theorem time_self {e : MSHREntry} (hentries : t.entries = update s.entries i e) :
    t.time i = e.readyTime := by
  unfold MSHRQueue.time
  rw [hentries, update_self]

theorem time_of_update {e : MSHREntry} (hentries : t.entries = update s.entries i e)
    (hsame : e.readyTime = s.time i) (k : Nat) : t.time k = s.time k := by
  by_cases hk : k = i
  · rw [hk, time_self hentries, hsame]
  · exact time_of_ne hentries hk

theorem Sorted.of_time (h : Sorted s) (htime : ∀ k, t.time k = s.time k)
    (hsub : t.readyList <+ s.readyList) : Sorted t := by
  unfold Sorted
  simp only [htime]
  exact h.sublist hsub

theorem Sorted.setEntry {e : MSHREntry} (h : Sorted s) (hnot : i ∉ s.readyList) :
    Sorted (s.setEntry i e) := by
  have htime : ∀ k ∈ s.readyList, (s.setEntry i e).time k = s.time k := fun k hk =>
    time_of_ne rfl fun heq => hnot (heq ▸ hk)
  exact h.imp_of_mem fun ha hb hle => by rwa [htime _ ha, htime _ hb]

theorem Sorted.allocate {whenReady : Nat} (h : Sorted s) (hl : Listed s)
    (ht : s.allocate whenReady = .ok t) : Sorted t := by
  obtain ⟨i, free, r, hfree, hr, rfl⟩ := allocate_cases ht
  refine hr.sorted (h.setEntry fun hready => ?_)
  exact hl.not_free ((hl.ready i).mp hready).1 (hfree ▸ mem_cons_self)

theorem Sorted.markPending (h : Sorted s) (ht : s.markPending i = .ok t) : Sorted t := by
  obtain ⟨_, r, hr, rfl⟩ := markPending_cases ht
  exact hr.sorted (show Sorted (s.setEntry i _) from h.of_time (time_of_update rfl rfl) (.refl _))

theorem Sorted.delay_iff {delayTicks : Nat} (h : Sorted s) (hl : Listed s)
    (ht : s.delay i delayTicks = .ok t) : Sorted t ↔ s.DelayedInPlace (.delay i delayTicks) := by
  obtain ⟨hdue, hmem, rfl⟩ := delay_cases ht
  obtain ⟨front, back, hsplit⟩ := append_of_mem hmem
  have honce := hl.once
  rw [hsplit, nodup_append, nodup_cons] at honce
  obtain ⟨_, ⟨hback, _⟩, hfront⟩ := honce
  have hnotFront : i ∉ front := fun hi => hfront i hi i mem_cons_self rfl
  have hplace : s.readyList.idxOf i = front.length := by
    rw [hsplit, idxOf_append_of_notMem hnotFront, idxOf_cons_self, add_zero]
  have hnext : s.readyList[s.readyList.idxOf i + 1]? = back.head? := by
    rw [hplace, hsplit, List.getElem?_append_right (Nat.le_add_right _ 1), Nat.add_sub_cancel_left,
      List.getElem?_cons_succ, List.head?_eq_getElem?]
  have hself : ∀ e : MSHREntry, (s.setEntry i e).time i = e.readyTime :=
    fun e => time_self rfl
  have hfrontTime : ∀ e : MSHREntry, ∀ k ∈ front, (s.setEntry i e).time k = s.time k :=
    fun e k hk => time_of_ne rfl fun heq => hnotFront (heq ▸ hk)
  have hbackTime : ∀ e : MSHREntry, ∀ k ∈ back, (s.setEntry i e).time k = s.time k :=
    fun e k hk => time_of_ne rfl fun heq => hback (heq ▸ hk)
  have hold := h
  unfold Sorted at hold
  rw [hsplit, pairwise_append, pairwise_cons] at hold
  obtain ⟨holdFront, ⟨_, holdBack⟩, holdCross⟩ := hold
  change _ ↔ ∀ k ∈ s.readyList[s.readyList.idxOf i + 1]?, s.curTick + delayTicks ≤ s.time k
  unfold Sorted
  rw [hnext, show (s.setEntry i _).readyList = front ++ i :: back from hsplit, pairwise_append,
    pairwise_cons]
  constructor
  · rintro ⟨_, ⟨hbehind, _⟩, _⟩ k hk
    have hkb := mem_of_mem_head? hk
    have hle := hbehind k hkb
    rwa [hself, hbackTime _ k hkb] at hle
  · intro hin
    refine ⟨?_, ⟨?_, ?_⟩, ?_⟩
    · exact holdFront.imp_of_mem fun ha hb hle => by rwa [hfrontTime _ _ ha, hfrontTime _ _ hb]
    · intro k hk
      rw [hself, hbackTime _ k hk]
      cases back with
      | nil => exact absurd hk not_mem_nil
      | cons b rest =>
        have hb := hin b rfl
        rcases mem_cons.mp hk with rfl | hrest
        · exact hb
        · exact le_trans hb ((pairwise_cons.mp holdBack).1 k hrest)
    · exact holdBack.imp_of_mem fun ha hb hle => by rwa [hbackTime _ _ ha, hbackTime _ _ hb]
    · intro a ha b hb
      rw [hfrontTime _ a ha]
      rcases mem_cons.mp hb with rfl | hbb
      · rw [hself]
        have hle := holdCross a ha b mem_cons_self
        exact le_trans (le_trans hle hdue) (Nat.le_add_right _ _)
      · rw [hbackTime _ b hbb]
        exact holdCross a ha b hb

theorem Sorted.step {a : Action} (h : Sorted s) (hl : Listed s) (ha : s.DelayedInPlace a)
    (ht : step s a = .ok t) : Sorted t := by
  cases a with
  | allocate whenReady => exact h.allocate hl ht
  | deallocate i =>
    obtain ⟨_, rfl⟩ := deallocate_cases hl.not_ready ht
    exact h.of_time (time_of_update rfl rfl) erase_sublist
  | delay i delayTicks => exact (h.delay_iff hl ht).mpr ha
  | markInService i =>
    obtain ⟨_, rfl⟩ := markInService_cases ht
    exact h.of_time (time_of_update rfl rfl) erase_sublist
  | markPending i => exact h.markPending ht
  | setTargets i numTargets =>
    obtain rfl := setTargets_cases ht
    exact h.of_time (time_of_update rfl rfl) (.refl _)
  | promoteDeferredTargets i numTargets ready =>
    obtain ⟨hin, rfl⟩ := promoteDeferredTargets_cases ht
    exact h.setEntry (hl.not_ready hin)
  | passTime ticks =>
    cases ht
    exact h

end Order

structure Schedules (s : MSHRQueue) : Prop where
  none : (∀ i, ¬ s.Waits i) → s.nextReadyTime = maxTick ∧ s.getNext = none
  least : ∀ i, s.Waits i → s.nextReadyTime ≤ s.time i
  attained : (∃ i, s.Waits i) → ∃ i, s.Waits i ∧ s.time i = s.nextReadyTime
  next : (∃ i, s.Waits i ∧ s.time i ≤ s.curTick) →
    ∃ i, s.getNext = some i ∧ s.Waits i ∧ s.time i ≤ s.curTick

theorem Sorted.schedules (h : Sorted s) (hl : Listed s) : Schedules s := by
  unfold Sorted at h
  cases hready : s.readyList with
  | nil =>
    have hnone : ∀ i, ¬ s.Waits i := fun i hi => by
      have hmem := (hl.ready i).mpr hi
      rw [hready] at hmem
      exact absurd hmem not_mem_nil
    refine ⟨fun _ => ?_, fun i hi => absurd hi (hnone i), fun ⟨i, hi⟩ => absurd hi (hnone i),
      fun ⟨i, hi, _⟩ => absurd hi (hnone i)⟩
    unfold nextReadyTime getNext
    rw [hready]
    exact ⟨rfl, rfl⟩
  | cons front rest =>
    have hfront : s.Waits front := (hl.ready front).mp (hready ▸ mem_cons_self)
    have htime : s.nextReadyTime = s.time front := by
      unfold nextReadyTime
      rw [hready]
    have hleast : ∀ i, s.Waits i → s.time front ≤ s.time i := by
      intro i hi
      have hmem := (hl.ready i).mpr hi
      rw [hready] at hmem h
      rcases mem_cons.mp hmem with rfl | hrest
      · exact le_rfl
      · exact (pairwise_cons.mp h).1 i hrest
    refine ⟨fun hnone => absurd hfront (hnone front), fun i hi => htime ▸ hleast i hi,
      fun _ => ⟨front, hfront, htime.symm⟩, fun ⟨i, hi, hdue⟩ => ?_⟩
    have hnow := le_trans (hleast i hi) hdue
    refine ⟨front, ?_, hfront, hnow⟩
    unfold getNext
    rw [hready]
    exact if_neg (Nat.not_lt.mpr hnow)

/-- The lists and counts are right in every run. The ready list is in order, and `getNext` and
`nextReadyTime` mean what they say, as long as no delay takes an entry past the one behind it;
a delay that does leaves the list out of order. -/
theorem miss_queue_schedules (numEntries : Nat)
    (h : Reach step DelayedInPlace (init numEntries) s) :
    Listed s ∧ Sorted s ∧ Schedules s ∧
      ∀ i delayTicks t, step s (.delay i delayTicks) = .ok t →
        Listed t ∧ (Sorted t ↔ s.DelayedInPlace (.delay i delayTicks)) := by
  have hinv := h.invariant (P := fun s => Listed s ∧ Sorted s)
    ⟨Listed.init numEntries, List.Pairwise.nil⟩
    fun hi ha ht => ⟨hi.1.step ht, hi.2.step hi.1 ha ht⟩
  refine ⟨hinv.1, hinv.2, hinv.2.schedules hinv.1, fun i delayTicks t ht => ?_⟩
  exact ⟨hinv.1.step ht, hinv.2.delay_iff hinv.1 ht⟩

/-- The second miss is delayed, and the first one comes back behind it with its deferred targets. -/
theorem miss_queue_schedules_two : ∃ s, Reach step DelayedInPlace (init 3) s ∧
    s.readyList = [1, 0] ∧ s.getNext = some 1 ∧ Schedules s := by
  obtain ⟨s, hrun, hlist, hnext⟩ :
      ∃ s, Reach step DelayedInPlace (init 3) s ∧ s.readyList = [1, 0] ∧ s.getNext = some 1 :=
    Reach.exists_of_run [.allocate 2, .allocate 4, .passTime 5, .delay 1 10, .markInService 0,
      .passTime 20, .promoteDeferredTargets 0 2 9, .markPending 0] (by decide +kernel)
  exact ⟨s, hrun, hlist, hnext, (miss_queue_schedules 3 hrun).2.2.1⟩

/-- The first of two misses is delayed: the other one is due, and is not found. -/
theorem delayed_entry_hides_ready_one : ∃ s, Reach step (fun _ _ => True) (init 3) s ∧
    s.readyList = [0, 1] ∧ s.time 1 ≤ s.curTick ∧ s.getNext = none ∧ ¬ Sorted s := by
  obtain ⟨s, hrun, hlist, hdue, hnext, hlate⟩ :
      ∃ s, Reach step (fun _ _ => True) (init 3) s ∧ s.readyList = [0, 1] ∧ s.time 1 ≤ s.curTick ∧
      s.getNext = none ∧ s.time 1 < s.time 0 :=
    Reach.exists_of_run [.allocate 2, .allocate 4, .passTime 5, .delay 0 10] (by decide +kernel)
  refine ⟨s, hrun, hlist, hdue, hnext, fun hsorted => ?_⟩
  unfold Sorted at hsorted
  rw [hlist] at hsorted
  have hle := (pairwise_cons.mp hsorted).1 1 mem_cons_self
  omega

end MSHRQueue

end Gem5.Mem
