import Mathlib.Algebra.Order.Ring.Nat
import Mathlib.Data.List.DropRight

/-!
# Functional reads of a packet queue

A functional read looks through the queued packets from the oldest to the newest, copies the
bytes it shares with each and remembers which of its bytes it has found. It stops at the packet
that completes it. The bytes of a packet are a function of the offset, of which only the values
below its size are read.
-/

namespace Gem5.Mem

open List

structure QueuedWrite (β : Type) where
  addr : Nat
  size : Nat
  secure : Bool
  masked : Bool
  data : Nat → β
  nonempty : 0 < size
  fits : addr + size ≤ 2 ^ 64

/-- A functional read; `valid` is `bytesValid`, of which no byte is set at first. -/
structure FunctionalRead (β : Type) where
  addr : Nat
  size : Nat
  secure : Bool
  data : Nat → β
  valid : Nat → Bool
  nonempty : 0 < size
  fits : addr + size ≤ 2 ^ 64

namespace FunctionalRead

variable {β : Type} {r : FunctionalRead β} {w : QueuedWrite β} {ws : List (QueuedWrite β)} {i : Nat}

def touches (r : FunctionalRead β) (w : QueuedWrite β) : Bool :=
  r.secure == w.secure && decide (r.addr ≤ w.addr + w.size - 1) &&
    decide (w.addr ≤ r.addr + r.size - 1)

def valOffset (r : FunctionalRead β) (w : QueuedWrite β) : Nat :=
  if r.addr > w.addr then r.addr - w.addr else 0

def funcOffset (r : FunctionalRead β) (w : QueuedWrite β) : Nat :=
  if r.addr < w.addr then w.addr - r.addr else 0

def overlapSize (r : FunctionalRead β) (w : QueuedWrite β) : Nat :=
  min (w.addr + w.size - 1) (r.addr + r.size - 1) + 1 - max w.addr r.addr

/-- Byte `i` of the read is among the `overlapSize` ones that are copied. -/
def Copied (r : FunctionalRead β) (w : QueuedWrite β) (i : Nat) : Prop :=
  r.funcOffset w ≤ i ∧ i < r.funcOffset w + r.overlapSize w

instance : Decidable (r.Copied w i) := inferInstanceAs (Decidable (_ ∧ _))

def fill (r : FunctionalRead β) (w : QueuedWrite β) : FunctionalRead β :=
  { r with
    data := fun i =>
      if r.Copied w i then w.data (r.valOffset w + (i - r.funcOffset w)) else r.data i
    valid := fun i => decide (r.Copied w i) || r.valid i }

/-- `Packet::trySatisfyFunctional`. Only the bytes in front of the copied ones and behind them are
looked at, the copied ones have just been found. -/
def satisfy (r : FunctionalRead β) (w : QueuedWrite β) : Bool × FunctionalRead β :=
  if w.masked || !r.touches w then (false, r)
  else (decide (∀ i < r.size, i < r.funcOffset w ∨ r.funcOffset w + r.overlapSize w ≤ i →
    r.valid i = true), r.fill w)

/-- `PacketQueue::trySatisfyFunctional`. -/
def trySatisfyFunctional : List (QueuedWrite β) → FunctionalRead β → Bool × FunctionalRead β
  | [], r => (false, r)
  | w :: ws, r =>
    match r.satisfy w with
    | (true, r) => (true, r)
    | (false, r) => trySatisfyFunctional ws r

/-- The packet writes byte `i` of the read. -/
def Covers (r : FunctionalRead β) (w : QueuedWrite β) (i : Nat) : Prop :=
  r.secure = w.secure ∧ w.addr ≤ r.addr + i ∧ r.addr + i < w.addr + w.size

instance : Decidable (r.Covers w i) := inferInstanceAs (Decidable (_ ∧ _))

/-- What the packet has for byte `i` of the read. -/
def byte (r : FunctionalRead β) (i : Nat) (w : QueuedWrite β) : Option β :=
  if r.Covers w i then some (w.data (r.addr + i - w.addr)) else none

/-- What the last of the packets that write byte `i` has for it. -/
def newest (r : FunctionalRead β) (i : Nat) (ws : List (QueuedWrite β)) : Option β :=
  (ws.filterMap (r.byte i)).getLast?

def Gives (r : FunctionalRead β) (w : QueuedWrite β) (i : Nat) : Prop :=
  w.masked = false ∧ r.Covers w i

instance : Decidable (r.Gives w i) := inferInstanceAs (Decidable (_ ∧ _))

/-- One of the packets completes the read. -/
def Done (r : FunctionalRead β) (ws : List (QueuedWrite β)) : Prop :=
  (∀ i < r.size, r.valid i = true ∨ ∃ w ∈ ws, r.Gives w i) ∧ ∃ i < r.size, ∃ w ∈ ws, r.Gives w i

instance : Decidable (r.Done ws) := inferInstanceAs (Decidable (_ ∧ ∃ i < r.size, _))

/-- The packets up to the last that writes byte `i`. -/
def upToLast (r : FunctionalRead β) (i : Nat) (ws : List (QueuedWrite β)) : List (QueuedWrite β) :=
  ws.rdropWhile fun w => !decide (r.Covers w i)

/-- The last packet that writes byte `i` is not masked and none before it completes the read. -/
def Reads (r : FunctionalRead β) (ws : List (QueuedWrite β)) (i : Nat) : Prop :=
  ∀ w ∈ (r.upToLast i ws).getLast?, w.masked = false ∧ ¬r.Done (r.upToLast i ws).dropLast

instance : Decidable (r.Reads ws i) :=
  inferInstanceAs (Decidable (∀ w ∈ (r.upToLast i ws).getLast?, _ ∧ ¬_))

structure Sees (r : FunctionalRead β) (ws : List (QueuedWrite β)) : Prop where
  reads : ∀ i < r.size, r.Reads ws i
  touched : (∀ i < r.size, r.valid i = true) → ∃ w ∈ ws, r.touches w = true

structure Newest (r : FunctionalRead β) (ws : List (QueuedWrite β)) : Prop where
  data : ∀ i < r.size, (trySatisfyFunctional ws r).2.data i = (r.newest i ws).getD (r.data i)
  found : (trySatisfyFunctional ws r).1 = true ↔
    ∀ i < r.size, r.valid i = true ∨ ∃ w ∈ ws, r.Covers w i

/-- What is written to a byte of the read differs from write to write and from what it was. -/
def Distinct (r : FunctionalRead β) (ws : List (QueuedWrite β)) : Prop :=
  ∀ i < r.size, (r.data i :: ws.filterMap (r.byte i)).Nodup

section Packet

theorem touches_iff : r.touches w = true ↔ ∃ i < r.size, r.Covers w i := by
  have hr := r.nonempty
  have hw := w.nonempty
  simp only [touches, Bool.and_eq_true, beq_iff_eq, decide_eq_true_iff, Covers]
  constructor
  · rintro ⟨⟨hsecure, hlow⟩, hhigh⟩
    exact ⟨w.addr - r.addr, by omega, hsecure, by omega, by omega⟩
  · rintro ⟨i, hi, hsecure, hlow, hhigh⟩
    exact ⟨⟨hsecure, by omega⟩, by omega⟩

theorem covers_iff (h : r.touches w = true) (hi : i < r.size) : r.Covers w i ↔ r.Copied w i := by
  obtain ⟨j, hj, hsecure, hlow, hhigh⟩ := touches_iff.mp h
  rw [Covers, and_iff_right hsecure, Copied]
  unfold funcOffset overlapSize
  split <;> omega

/-- What a packet does to the read. -/
structure Satisfied (r : FunctionalRead β) (w : QueuedWrite β) (found : Bool)
    (q : FunctionalRead β) : Prop where
  place : q.addr = r.addr ∧ q.size = r.size ∧ q.secure = r.secure
  data : ∀ i < r.size,
    q.data i = if r.Gives w i then w.data (r.addr + i - w.addr) else r.data i
  valid : ∀ i < r.size, q.valid i = true ↔ r.Gives w i ∨ r.valid i = true
  found : found = true ↔ (∃ i < r.size, r.Gives w i) ∧ ∀ i < r.size, q.valid i = true

theorem satisfy_spec (r : FunctionalRead β) (w : QueuedWrite β) :
    Satisfied r w (r.satisfy w).1 (r.satisfy w).2 := by
  unfold satisfy
  split
  · rename_i hskip
    have hnot : ∀ i < r.size, ¬r.Gives w i := fun i hi hg => by
      rw [hg.1, touches_iff.mpr ⟨i, hi, hg.2⟩] at hskip
      cases hskip
    exact ⟨⟨rfl, rfl, rfl⟩, fun i hi => (if_neg (hnot i hi)).symm,
      fun i hi => (or_iff_right (hnot i hi)).symm,
      iff_of_false Bool.false_ne_true fun h => h.1.elim fun i hi => hnot i hi.1 hi.2⟩
  · rename_i hlook
    obtain ⟨hm, ht⟩ : w.masked = false ∧ r.touches w = true := by simpa using hlook
    have hgives : ∀ {i}, i < r.size → (r.Gives w i ↔ r.Copied w i) := fun hi =>
      (and_iff_right hm).trans (covers_iff ht hi)
    have hvalid : ∀ i < r.size, (r.fill w).valid i = true ↔ r.Gives w i ∨ r.valid i = true := by
      intro i hi
      rw [hgives hi, fill, Bool.or_eq_true, decide_eq_true_iff]
    refine ⟨⟨rfl, rfl, rfl⟩, fun i hi => ?_, hvalid, ?_⟩
    · by_cases hg : r.Gives w i
      · obtain ⟨-, -, hlow, -⟩ := id hg
        have hplace : r.valOffset w + (i - r.funcOffset w) = r.addr + i - w.addr := by
          unfold valOffset funcOffset
          split <;> split <;> omega
        rw [if_pos hg, ← hplace]
        exact if_pos ((hgives hi).mp hg)
      · rw [if_neg hg]
        exact if_neg ((hgives hi).not.mp hg)
    · obtain ⟨j, hj, hcov⟩ := touches_iff.mp ht
      rw [and_iff_right ⟨j, hj, hm, hcov⟩, decide_eq_true_iff]
      refine forall₂_congr fun i hi => ?_
      rw [hvalid i hi, hgives hi, Copied]
      exact ⟨fun h => or_iff_not_imp_left.mpr fun hnot => h (by omega),
        fun h hout => h.resolve_left (by omega)⟩

end Packet

section Queue

theorem trySatisfyFunctional_concat : trySatisfyFunctional (ws ++ [w]) r =
    if (trySatisfyFunctional ws r).1 then trySatisfyFunctional ws r
    else (trySatisfyFunctional ws r).2.satisfy w := by
  induction ws generalizing r with
  | nil =>
    show trySatisfyFunctional [w] r = r.satisfy w
    rw [trySatisfyFunctional]
    split <;> exact Eq.symm ‹_›
  | cons v ws ih =>
    rw [cons_append, trySatisfyFunctional, trySatisfyFunctional]
    split
    · rfl
    · exact ih

/-- The read after the packets: what is found, and if that is not all of it, which bytes. -/
structure Ran (r : FunctionalRead β) (ws : List (QueuedWrite β)) (found : Bool)
    (q : FunctionalRead β) : Prop where
  place : q.addr = r.addr ∧ q.size = r.size ∧ q.secure = r.secure
  found : found = true ↔ r.Done ws
  valid : ¬r.Done ws → ∀ i < r.size, q.valid i = true ↔ r.valid i = true ∨ ∃ w ∈ ws, r.Gives w i

theorem Done.concat (h : r.Done ws) : r.Done (ws ++ [w]) := by
  have hmem : ∀ {i}, (∃ v ∈ ws, r.Gives v i) → ∃ v ∈ ws ++ [w], r.Gives v i := fun ⟨v, hv, hg⟩ =>
    ⟨v, mem_append_left _ hv, hg⟩
  exact ⟨fun i hi => (h.1 i hi).imp_right hmem, h.2.imp fun _ hi => hi.imp_right hmem⟩

theorem trySatisfyFunctional_ran (ws : List (QueuedWrite β)) (r : FunctionalRead β) :
    Ran r ws (trySatisfyFunctional ws r).1 (trySatisfyFunctional ws r).2 := by
  induction ws using reverseRecOn with
  | nil =>
    refine ⟨⟨rfl, rfl, rfl⟩, iff_of_false Bool.false_ne_true ?_, fun _ i _ => ?_⟩
    · rintro ⟨-, i, -, w, hw, -⟩
      cases hw
    · simp [trySatisfyFunctional]
  | append_singleton ws w ih =>
    rw [trySatisfyFunctional_concat]
    by_cases hd : r.Done ws
    · rw [if_pos (ih.found.mpr hd)]
      exact ⟨ih.place, iff_of_true (ih.found.mpr hd) hd.concat, fun hnot => absurd hd.concat hnot⟩
    · rw [if_neg (ih.found.not.mpr hd)]
      obtain ⟨hplace, -, hvalid, hfound⟩ := satisfy_spec (trySatisfyFunctional ws r).2 w
      obtain ⟨haddr, hsize, hsecure⟩ := ih.place
      have hgives : (trySatisfyFunctional ws r).2.Gives = r.Gives := by
        unfold Gives Covers
        rw [haddr, hsecure]
      rw [hgives, hsize] at hvalid hfound
      have hnow : ∀ i < r.size, ((trySatisfyFunctional ws r).2.satisfy w).2.valid i = true ↔
          r.valid i = true ∨ ∃ v ∈ ws ++ [w], r.Gives v i := by
        intro i hi
        rw [hvalid i hi, ih.valid hd i hi, or_comm, or_assoc]
        simp [or_and_right, exists_or]
      refine ⟨by rwa [haddr, hsize, hsecure] at hplace, hfound.trans ⟨?_, ?_⟩, fun _ => hnow⟩
      · rintro ⟨⟨i, hi, hg⟩, hall⟩
        exact ⟨fun j hj => (hnow j hj).mp (hall j hj), i, hi, w, by simp, hg⟩
      · rintro ⟨hall, i, hi, v, hv, hg⟩
        refine ⟨?_, fun j hj => (hnow j hj).mpr (hall j hj)⟩
        -- if the last packet gives nothing, the others had completed the read
        by_contra hnone
        have hold : ∀ {j v}, j < r.size → v ∈ ws ++ [w] → r.Gives v j → v ∈ ws := by
          intro j v hj hv hg
          rcases mem_append.mp hv with hv | hv
          · exact hv
          · exact absurd ⟨j, hj, mem_singleton.mp hv ▸ hg⟩ hnone
        exact hd ⟨fun j hj => (hall j hj).imp_right fun ⟨v, hv, hg⟩ => ⟨v, hold hj hv hg, hg⟩,
          i, hi, v, hold hi hv hg, hg⟩

theorem data_concat (hi : i < r.size) : (trySatisfyFunctional (ws ++ [w]) r).2.data i =
    if ¬r.Done ws ∧ r.Gives w i then w.data (r.addr + i - w.addr)
    else (trySatisfyFunctional ws r).2.data i := by
  obtain ⟨⟨haddr, hsize, hsecure⟩, hfound, -⟩ := trySatisfyFunctional_ran ws r
  rw [trySatisfyFunctional_concat]
  by_cases hd : r.Done ws
  · rw [if_pos (hfound.mpr hd), if_neg fun h => h.1 hd]
  · rw [if_neg (hfound.not.mpr hd), (satisfy_spec _ w).data i (by rwa [hsize])]
    simp only [Gives, Covers, haddr, hsecure, not_false_eq_true, hd, true_and]

theorem newest_concat : r.newest i (ws ++ [w]) =
    if r.Covers w i then some (w.data (r.addr + i - w.addr)) else r.newest i ws := by
  rw [newest, filterMap_append, getLast?_append]
  by_cases hcov : r.Covers w i <;> simp [byte, hcov, newest]

theorem reads_concat : r.Reads (ws ++ [w]) i ↔
    if r.Covers w i then w.masked = false ∧ ¬r.Done ws else r.Reads ws i := by
  unfold Reads upToLast
  split
  · rw [rdropWhile_concat_neg _ _ _ (by simpa), getLast?_concat, dropLast_concat]
    simp
  · rw [rdropWhile_concat_pos _ _ _ (by simpa)]

/-- What is in a byte was there or is from one of the packets. -/
theorem data_mem (hi : i < r.size) :
    (trySatisfyFunctional ws r).2.data i ∈ r.data i :: ws.filterMap (r.byte i) := by
  induction ws using reverseRecOn with
  | nil => exact mem_cons_self
  | append_singleton ws w ih =>
    rw [data_concat hi, filterMap_append, ← cons_append]
    split
    · rename_i h
      exact mem_append_right _ (by simp [byte, h.2.2])
    · exact mem_append_left _ ih

theorem reads_iff (hi : i < r.size) :
    (r.Reads ws i → (trySatisfyFunctional ws r).2.data i = (r.newest i ws).getD (r.data i)) ∧
    ((r.data i :: ws.filterMap (r.byte i)).Nodup →
      (trySatisfyFunctional ws r).2.data i = (r.newest i ws).getD (r.data i) → r.Reads ws i) := by
  induction ws using reverseRecOn with
  | nil => exact ⟨fun _ => rfl, fun _ _ _ h => nomatch h⟩
  | append_singleton ws w ih =>
    rw [data_concat hi, newest_concat, reads_concat, filterMap_append, ← cons_append]
    by_cases hcov : r.Covers w i
    · rw [if_pos hcov, if_pos hcov, Option.getD_some]
      constructor
      · rintro ⟨hm, hd⟩
        exact if_pos ⟨hd, hm, hcov⟩
      · intro hdistinct heq
        -- the byte is then an older one, and differs from what the packet writes
        by_contra hnot
        rw [if_neg fun h => hnot ⟨h.2.1, h.1⟩] at heq
        exact (nodup_append.mp hdistinct).2.2 _ (data_mem hi) _ (by simp [byte, hcov]) heq
    · rw [if_neg hcov, if_neg hcov, if_neg fun h => hcov h.2.2]
      exact ⟨ih.1, fun hdistinct => ih.2 (hdistinct.sublist (sublist_append_left ..))⟩

theorem gives_of_reads (h : r.Reads ws i) (hcov : ∃ w ∈ ws, r.Covers w i) :
    ∃ w ∈ ws, r.Gives w i := by
  induction ws using reverseRecOn with
  | nil => exact nomatch hcov
  | append_singleton ws w ih =>
    rw [reads_concat] at h
    split at h
    · exact ⟨w, by simp, h.1, ‹_›⟩
    · obtain ⟨v, hv, hc⟩ := ih h (by
        obtain ⟨v, hv, hc⟩ := hcov
        rcases mem_append.mp hv with hv | hv
        · exact ⟨v, hv, hc⟩
        · exact absurd (mem_singleton.mp hv ▸ hc) ‹_›)
      exact ⟨v, mem_append_left _ hv, hc⟩

/-- The newest bytes are read if the last packet of each byte is looked at and not masked, and the
read is not complete before a queue without a packet for it; and only then, if what is written
differs. -/
theorem functional_read_newest (ws : List (QueuedWrite β)) (r : FunctionalRead β) :
    (r.Sees ws → r.Newest ws) ∧ (r.Distinct ws → r.Newest ws → r.Sees ws) := by
  have hdone := (trySatisfyFunctional_ran ws r).found
  constructor
  · intro h
    have hgives : ∀ i < r.size, (∃ w ∈ ws, r.Covers w i) → ∃ w ∈ ws, r.Gives w i := fun i hi =>
      gives_of_reads (h.reads i hi)
    refine ⟨fun i hi => (reads_iff hi).1 (h.reads i hi), hdone.trans ⟨fun hd i hi => ?_, ?_⟩⟩
    · exact (hd.1 i hi).imp_right fun ⟨w, hw, hg⟩ => ⟨w, hw, hg.2⟩
    · intro hfilled
      refine ⟨fun i hi => (hfilled i hi).imp_right (hgives i hi), ?_⟩
      by_cases hbefore : ∀ i < r.size, r.valid i = true
      · obtain ⟨w, hw, htouch⟩ := h.touched hbefore
        obtain ⟨i, hi, hcov⟩ := touches_iff.mp htouch
        exact ⟨i, hi, hgives i hi ⟨w, hw, hcov⟩⟩
      · push Not at hbefore
        obtain ⟨i, hi, hvalid⟩ := hbefore
        exact ⟨i, hi, hgives i hi ((hfilled i hi).resolve_left hvalid)⟩
  · intro hdistinct h
    refine ⟨fun i hi => (reads_iff hi).2 (hdistinct i hi) (h.data i hi), fun hvalid => ?_⟩
    obtain ⟨-, i, hi, w, hw, hg⟩ := hdone.mp (h.found.mpr fun i hi => .inl (hvalid i hi))
    exact ⟨w, hw, touches_iff.mpr ⟨i, hi, hg.2⟩⟩

end Queue

/-- A write of one byte. -/
def byteWrite (addr : Nat) (h : addr + 1 ≤ 2 ^ 64) (b : Nat) : QueuedWrite Nat :=
  ⟨addr, 1, false, false, fun _ => b, Nat.one_pos, h⟩

/-- A fresh read of the first `n` bytes. -/
def freshRead (n : Nat) (h : 0 < n) (hn : 0 + n ≤ 2 ^ 64) : FunctionalRead Nat :=
  ⟨0, n, false, fun _ => 0, fun _ => false, h, hn⟩

theorem functional_read_newest_overlapping :
    let ws := [byteWrite 0 (by decide) 1, byteWrite 0 (by decide) 2, byteWrite 1 (by decide) 3]
    let r := freshRead 2 (by decide) (by decide)
    r.Newest ws ∧ [0, 1].map (trySatisfyFunctional ws r).2.data = [2, 3] :=
  ⟨(functional_read_newest _ _).1 ⟨by decide, by decide⟩, by decide⟩

/-- The older of two writes completes the read, and the newer is not looked at. -/
theorem older_write_read :
    let ws := [byteWrite 0 (by decide) 1, byteWrite 0 (by decide) 2]
    let r := freshRead 1 (by decide) (by decide)
    (trySatisfyFunctional ws r).2.data 0 = 1 ∧ r.newest 0 ws = some 2 := by decide

end FunctionalRead

end Gem5.Mem
