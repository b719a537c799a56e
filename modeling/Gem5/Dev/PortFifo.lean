import Gem5.Shared.Sim
import Gem5.Shared.Reachability
import Mathlib.Algebra.Order.Ring.Nat
import Mathlib.Algebra.BigOperators.Group.List.Basic

/-!
# The output queue of a switch port

Packets are kept in a set that is ordered by the tick of their arrival and the port they came
from. A push drops packets from the end of the set until the others fit. `PortRun` records what
was pushed, sent and dropped.
-/

namespace Gem5.Dev

open List

structure PortPacket where
  ptr : Nat
  length : Nat
  deriving DecidableEq

structure PortFifoEntry where
  packet : PortPacket
  recvTick : Nat
  srcId : Nat
  deriving DecidableEq

/-- `EntryOrder`. -/
def PortFifoEntry.Before (e x : PortFifoEntry) : Prop :=
  if e.recvTick = x.recvTick then e.srcId < x.srcId else e.recvTick < x.recvTick

instance (e x : PortFifoEntry) : Decidable (e.Before x) :=
  inferInstanceAs (Decidable (ite _ _ _))

def emplace (e : PortFifoEntry) : List PortFifoEntry → List PortFifoEntry
  | [] => [e]
  | x :: xs =>
    if e.Before x then e :: x :: xs else if x.Before e then x :: emplace e xs else x :: xs

structure PortFifo where
  fifo : List PortFifoEntry
  maxsize : Nat
  size : Nat
  deriving DecidableEq

namespace PortFifo

/-- `avail() < 0`: a difference of 32-bit unsigned numbers, read as a signed one. -/
def overfull (maxsize size : Nat) : Bool := decide (2 ^ 31 ≤ (maxsize + 2 ^ 32 - size) % 2 ^ 32)

/-- Drops packets from the end, where the list starts. The end of an empty set is undefined. -/
def dropExtra (maxsize : Nat) : Nat → List PortFifoEntry → Sim (Nat × List PortFifoEntry)
  | size, [] => if overfull maxsize size then .error .outOfBounds else pure (size, [])
  | size, e :: es =>
    if overfull maxsize size then
      dropExtra maxsize ((size + 2 ^ 32 - e.packet.length) % 2 ^ 32) es
    else pure (size, e :: es)

def atHead (f : PortFifo) (p : PortPacket) : Sim Bool :=
  if f.size = 0 then pure false
  else
    match f.fifo with
    | [] => .error .outOfBounds
    | e :: _ => pure (e.packet.ptr == p.ptr)

def push (f : PortFifo) (p : PortPacket) (now src : Nat) : Sim (Bool × PortFifo) := do
  simAssert (p.length != 0)
  let (size, rest) ← dropExtra f.maxsize ((f.size + p.length) % 2 ^ 32)
    (emplace ⟨p, now, src⟩ f.fifo).reverse
  let f := { f with fifo := rest.reverse, size := size }
  let b ← f.atHead p
  pure (b, f)

end PortFifo

structure SwitchPort where
  outputFifo : PortFifo
  txEvent : Option Nat
  curTick : Nat
  deriving DecidableEq

namespace SwitchPort

/-- `switchingDelay` reads the packet at the head. -/
def switchingDelay (f : PortFifo) (delay : Nat) : Sim Nat :=
  if f.fifo = [] then .error .outOfBounds else pure delay

def enqueue (s : SwitchPort) (p : PortPacket) (src delay : Nat) : Sim SwitchPort := do
  let (first, f) ← s.outputFifo.push p s.curTick src
  if first then
    let delay ← switchingDelay f delay
    pure ⟨f, some (s.curTick + delay), s.curTick⟩
  else pure ⟨f, s.txEvent, s.curTick⟩

def transmit (s : SwitchPort) (sent : Bool) (delay : Nat) : Sim SwitchPort := do
  simAssert (s.outputFifo.size != 0)
  match s.outputFifo.fifo with
  | [] => .error .outOfBounds
  | e :: rest =>
    if !sent then pure { s with txEvent := some (s.curTick + delay) }
    else do
      simAssert (decide (e.packet.length ≤ s.outputFifo.size))
      let f := { s.outputFifo with fifo := rest, size := s.outputFifo.size - e.packet.length }
      if f.size = 0 then pure { s with outputFifo := f, txEvent := none }
      else
        let delay ← switchingDelay f delay
        pure { s with outputFifo := f, txEvent := some (s.curTick + delay) }

end SwitchPort

structure PortRun where
  port : SwitchPort
  pushed : List PortFifoEntry
  sent : List PortFifoEntry
  dropped : List PortFifoEntry
  deriving DecidableEq

namespace PortRun

inductive Act where
  | advance (tick : Nat)
  | enqueue (p : PortPacket) (src delay : Nat)
  | fire (sent : Bool) (delay : Nat)

def init (maxsize : Nat) : PortRun := ⟨⟨⟨[], maxsize, 0⟩, none, 0⟩, [], [], []⟩

def inserted (r : PortRun) (p : PortPacket) (src : Nat) : List PortFifoEntry :=
  emplace ⟨p, r.port.curTick, src⟩ r.port.outputFifo.fifo

def step (r : PortRun) : Act → Sim PortRun
  | .advance t => pure { r with port := { r.port with curTick := t } }
  | .enqueue p src delay => do
    let s ← r.port.enqueue p src delay
    pure ⟨s, r.pushed ++ [⟨p, r.port.curTick, src⟩], r.sent,
      r.dropped ++ (r.inserted p src).drop s.outputFifo.fifo.length⟩
  | .fire sent delay => do
    let s ← r.port.transmit sent delay
    pure ⟨s, r.pushed, if sent then r.sent ++ r.port.outputFifo.fifo.take 1 else r.sent, r.dropped⟩

def Happens (r : PortRun) : Act → Prop
  | .advance t => r.port.curTick ≤ t ∧ ∀ e ∈ r.port.txEvent, t ≤ e
  | .enqueue _ _ delay => 0 < delay
  | .fire sent delay => r.port.txEvent = some r.port.curTick ∧ (sent = true → 0 < delay)

/-- No packet of this port and tick is in the queue, and a packet that does not fit the empty
queue does not come to the head of another one. -/
def Act.Apart (r : PortRun) : Act → Prop
  | .enqueue p src _ => 0 < p.length ∧ p.length ≤ 2 ^ 31 ∧
    (∀ e ∈ r.port.outputFifo.fifo, e.recvTick = r.port.curTick → e.srcId ≠ src) ∧
    (r.port.outputFifo.maxsize < p.length →
      ∀ e ∈ r.port.outputFifo.fifo.head?, e.Before ⟨p, r.port.curTick, src⟩)
  | _ => True

instance (r : PortRun) : DecidablePred r.Happens
  | .advance _ => inferInstanceAs (Decidable (_ ∧ ∀ e ∈ r.port.txEvent, _))
  | .enqueue _ _ _ => inferInstanceAs (Decidable (_ < _))
  | .fire _ _ => inferInstanceAs (Decidable (_ = _ ∧ (_ → _)))

instance (r : PortRun) : DecidablePred (Act.Apart r)
  | .enqueue _ _ _ => inferInstanceAs (Decidable (_ ∧ _ ∧ (∀ e ∈ r.port.outputFifo.fifo, _) ∧
      (_ → ∀ e ∈ r.port.outputFifo.fifo.head?, _)))
  | .advance _ | .fire _ _ => isTrue trivial

def lengths (l : List PortFifoEntry) : Nat := (l.map (·.packet.length)).sum

structure Consistent (r : PortRun) : Prop where
  size : r.port.outputFifo.size = lengths r.port.outputFifo.fifo
  event : r.port.txEvent.isSome = true ↔ r.port.outputFifo.fifo ≠ []
  order : (r.sent ++ r.port.outputFifo.fifo).Pairwise PortFifoEntry.Before
  once : r.pushed.Perm (r.sent ++ r.port.outputFifo.fifo ++ r.dropped)

/-- A push keeps the packets up to the first that does not fit. -/
def Act.DropsExtra (r q : PortRun) : Act → Prop
  | .enqueue p src _ => ∀ l, l <+: r.inserted p src →
    lengths l ≤ r.port.outputFifo.maxsize → l <+: q.port.outputFifo.fifo
  | _ => True

structure Inv (maxsize : Nat) (r : PortRun) : Prop extends Consistent r where
  max : r.port.outputFifo.maxsize = maxsize
  room : lengths r.port.outputFifo.fifo ≤ maxsize
  pos : ∀ e ∈ r.port.outputFifo.fifo, 0 < e.packet.length
  past : ∀ e ∈ r.port.outputFifo.fifo, e.recvTick ≤ r.port.curTick
  gone : ∀ e ∈ r.sent, e.recvTick < r.port.curTick
  /-- The head arrived before the event. -/
  head : ∀ t e, r.port.txEvent = some t → r.port.outputFifo.fifo.head? = some e → e.recvTick < t
  ahead : ∀ t, r.port.txEvent = some t → r.port.curTick ≤ t

variable {maxsize : Nat} {r q : PortRun}

section Set

variable {e x y : PortFifoEntry} {l : List PortFifoEntry}

open PortFifoEntry

theorem before_iff : e.Before x ↔
    e.recvTick < x.recvTick ∨ e.recvTick = x.recvTick ∧ e.srcId < x.srcId := by
  unfold Before
  split <;> omega

theorem before_trans (h : e.Before x) (k : x.Before y) : e.Before y := by
  rw [before_iff] at *
  omega

def Fresh (e : PortFifoEntry) (l : List PortFifoEntry) : Prop :=
  ∀ x ∈ l, x.recvTick = e.recvTick → x.srcId ≠ e.srcId

theorem before_of_not (h : Fresh e (x :: l)) (hnot : ¬e.Before x) : x.Before e := by
  have hkey := h x mem_cons_self
  rw [before_iff] at hnot ⊢
  omega

theorem emplace_perm (h : Fresh e l) : (emplace e l).Perm (e :: l) := by
  induction l with
  | nil => exact .refl _
  | cons x xs ih =>
    unfold emplace
    split
    · exact .refl _
    · rename_i hnot
      rw [if_pos (before_of_not h hnot)]
      exact ((ih fun y hy => h y (mem_cons_of_mem x hy)).cons x).trans (.swap e x xs)

theorem emplace_ordered (h : Fresh e l) (hl : l.Pairwise Before) :
    (emplace e l).Pairwise Before := by
  induction l with
  | nil => exact pairwise_singleton _ _
  | cons x xs ih =>
    obtain ⟨hx, hxs⟩ := pairwise_cons.mp hl
    have hfresh : Fresh e xs := fun y hy => h y (mem_cons_of_mem x hy)
    have hmem := fun y => (emplace_perm hfresh).mem_iff (a := y)
    unfold emplace
    split
    · exact pairwise_cons.mpr ⟨fun y hy => by grind [before_trans], hl⟩
    · rename_i hnot
      have hbefore := before_of_not h hnot
      rw [if_pos hbefore]
      exact pairwise_cons.mpr ⟨by grind, ih hfresh hxs⟩

theorem emplace_head_of_before (h : x.Before e) : (emplace e (x :: l)).head? = some x := by
  have hnot : ¬e.Before x := by
    rw [before_iff] at *
    omega
  rw [emplace, if_neg hnot, if_pos h]
  rfl

theorem emplace_head (l : List PortFifoEntry) :
    (emplace e l).head? = some e ∨ (emplace e l).head? = l.head? := by
  cases l with
  | nil => exact .inl rfl
  | cons x xs =>
    unfold emplace
    grind

theorem lengths_cons (e : PortFifoEntry) (l : List PortFifoEntry) :
    lengths (e :: l) = e.packet.length + lengths l := rfl

theorem lengths_perm {l k : List PortFifoEntry} (h : l.Perm k) : lengths l = lengths k :=
  (h.map _).sum_eq

theorem lengths_eq_zero (h : ∀ e ∈ l, 0 < e.packet.length) : lengths l = 0 ↔ l = [] := by
  cases l <;> grind [lengths]

theorem overfull_iff {size : Nat} (hmax : maxsize < 2 ^ 31) (hsize : size ≤ maxsize + 2 ^ 31) :
    PortFifo.overfull maxsize size = true ↔ maxsize < size := by
  rw [PortFifo.overfull, decide_eq_true_iff]
  omega

theorem dropExtra_spec (hmax : maxsize < 2 ^ 31) (l : List PortFifoEntry)
    (hroom : lengths l ≤ maxsize + 2 ^ 31) :
    ∃ kept, PortFifo.dropExtra maxsize (lengths l) l = .ok (lengths kept, kept) ∧
      kept <:+ l ∧ lengths kept ≤ maxsize ∧ ∀ k, k <:+ l → lengths k ≤ maxsize → k <:+ kept := by
  induction l with
  | nil =>
    have hfull := (overfull_iff hmax hroom).not.mpr (Nat.not_lt.mpr (Nat.zero_le maxsize))
    refine ⟨[], ?_, suffix_refl [], Nat.zero_le _, fun _ hk _ => hk⟩
    rw [PortFifo.dropExtra, if_neg hfull]
    rfl
  | cons e es ih =>
    have hsum := lengths_cons e es
    rw [PortFifo.dropExtra]
    by_cases hover : maxsize < lengths (e :: es)
    · rw [if_pos ((overfull_iff hmax hroom).mpr hover)]
      have hrest : (lengths (e :: es) + 2 ^ 32 - e.packet.length) % 2 ^ 32 = lengths es := by omega
      obtain ⟨kept, hdrop, hsuffix, hkept, hall⟩ := ih (by omega)
      refine ⟨kept, by rw [hrest, hdrop], hsuffix.trans (suffix_cons e es), hkept, ?_⟩
      intro k hk hfits
      rcases suffix_cons_iff.mp hk with rfl | hk
      · omega
      · exact hall k hk hfits
    · rw [if_neg ((overfull_iff hmax hroom).not.mpr hover)]
      exact ⟨e :: es, rfl, suffix_refl _, Nat.not_lt.mp hover, fun k hk _ => hk⟩

end Set

section Steps

theorem Inv.advance {t : Nat} (h : Inv maxsize r) (ha : r.Happens (.advance t)) :
    Inv maxsize { r with port := { r.port with curTick := t } } where
  size := h.size
  event := h.event
  order := h.order
  once := h.once
  max := h.max
  room := h.room
  pos := h.pos
  past := fun e he => le_trans (h.past e he) ha.1
  gone := fun e he => lt_of_lt_of_le (h.gone e he) ha.1
  head := h.head
  ahead := fun e he => ha.2 e he

theorem Inv.fire {sent : Bool} {delay : Nat} (h : Inv maxsize r)
    (ha : r.Happens (.fire sent delay)) :
    ∃ q, r.step (.fire sent delay) = .ok q ∧ Inv maxsize q := by
  obtain ⟨hevent, hdelay⟩ := ha
  cases hf : r.port.outputFifo.fifo with
  | nil => exact absurd hf (h.event.mp (by rw [hevent]; rfl))
  | cons e rest =>
    have hsize : r.port.outputFifo.size = e.packet.length + lengths rest := by
      rw [h.size, hf, lengths_cons]
    have hpos := h.pos e (hf ▸ mem_cons_self)
    have hhead := h.head _ e hevent (by rw [hf]; rfl)
    have hnz : (r.port.outputFifo.size != 0) = true := bne_iff_ne.mpr (by omega)
    cases sent with
    | false =>
      have hstep : r.step (.fire false delay) = .ok { r with
          port := { r.port with txEvent := some (r.port.curTick + delay) } } := by
        simp [step, SwitchPort.transmit, hnz, hf]
      obtain ⟨⟨hsize, hev, horder, honce⟩, hmax, hroom, hfits, hpast, hgone, -, -⟩ := h
      refine ⟨_, hstep, ⟨hsize, ?_, horder, honce⟩, hmax, hroom, hfits, hpast, hgone, ?_, ?_⟩ <;>
        grind
    | true =>
      have hle : decide (e.packet.length ≤ r.port.outputFifo.size) = true :=
        decide_eq_true (by omega)
      have hsub : r.port.outputFifo.size - e.packet.length = lengths rest := by omega
      have hin : ∀ x ∈ rest, x ∈ r.port.outputFifo.fifo := fun x hx => hf ▸ mem_cons_of_mem e hx
      have hempty : lengths rest = 0 ↔ rest = [] := lengths_eq_zero fun x hx => h.pos x (hin x hx)
      have horder := h.order
      have honce := h.once
      rw [hf] at horder honce
      have hstep : r.step (.fire true delay) = .ok
          ⟨⟨⟨rest, r.port.outputFifo.maxsize, lengths rest⟩,
            if rest = [] then none else some (r.port.curTick + delay), r.port.curTick⟩,
            r.pushed, r.sent ++ [e], r.dropped⟩ := by
        by_cases hrest : rest = [] <;>
          simp [step, SwitchPort.transmit, SwitchPort.switchingDelay, hnz, hf, hle, hsub, hempty,
            hrest, show lengths [] = 0 from rfl]
      refine ⟨_, hstep, ⟨rfl, ?_, ?_, ?_⟩, h.max, ?_, fun x hx => h.pos x (hin x hx),
        fun x hx => h.past x (hin x hx), ?_, ?_, ?_⟩
      · grind
      · rwa [append_assoc]
      · rwa [append_assoc r.sent]
      · have hroom := h.room
        rw [← h.size, hsize] at hroom
        exact le_trans (Nat.le_add_left _ _) hroom
      · have hgone := h.gone
        grind
      · intro t x ht hx
        have hpast := h.past x (hin x (mem_of_head? hx))
        grind
      · grind

/-- The packets that a push leaves in the queue. -/
theorem Inv.push {p : PortPacket} {src delay : Nat} (hmax : maxsize < 2 ^ 31) (h : Inv maxsize r)
    (hapart : Act.Apart r (.enqueue p src delay)) : ∃ kept, kept <+: r.inserted p src ∧
      lengths kept ≤ maxsize ∧
      (∀ l, l <+: r.inserted p src → lengths l ≤ maxsize → l <+: kept) ∧
      r.port.outputFifo.push p r.port.curTick src =
        .ok (kept.head?.any (·.packet.ptr == p.ptr),
          ⟨kept, r.port.outputFifo.maxsize, lengths kept⟩) := by
  obtain ⟨hpos, hle, hfresh, -⟩ := hapart
  have hperm : (r.inserted p src).Perm (⟨p, r.port.curTick, src⟩ :: r.port.outputFifo.fifo) :=
    emplace_perm hfresh
  have hsum : lengths (r.inserted p src).reverse = p.length + lengths r.port.outputFifo.fifo := by
    rw [lengths_perm ((reverse_perm _).trans hperm), lengths_cons]
  have hroom := h.room
  obtain ⟨kept, hdrop, hsuffix, hkept, hall⟩ := dropExtra_spec hmax (r.inserted p src).reverse
    (by omega)
  have hlen : lengths kept.reverse = lengths kept := lengths_perm (reverse_perm kept)
  have hins : kept.reverse <+: r.inserted p src := by rwa [← reverse_suffix, reverse_reverse]
  refine ⟨kept.reverse, hins, hlen ▸ hkept, fun l hl hfits => ?_, ?_⟩
  · rw [← reverse_suffix, reverse_reverse]
    refine hall _ (reverse_suffix.mpr hl) ?_
    rwa [lengths_perm (reverse_perm l)]
  have hempty : lengths kept = 0 ↔ kept.reverse = [] := by
    rw [← hlen]
    refine lengths_eq_zero fun x hx => ?_
    rcases mem_cons.mp (hperm.mem_iff.mp (hins.subset hx)) with rfl | hx
    · exact hpos
    · exact h.pos x hx
  have hsize : (r.port.outputFifo.size + p.length) % 2 ^ 32 =
      lengths (r.inserted p src).reverse := by
    rw [h.size]
    omega
  rw [inserted] at hdrop hsize
  rw [← h.max] at hdrop
  simp only [PortFifo.push, bne_iff_ne.mpr (ne_of_gt hpos), simAssert_true, sim_ok_bind, hsize,
    hdrop, PortFifo.atHead, hlen, hempty]
  cases kept.reverse <;> rfl

/-- Unless the packet is at the head, the old head stays. -/
theorem Inv.head_kept {p : PortPacket} {src delay : Nat} {kept : List PortFifoEntry}
    (h : Inv maxsize r) (hapart : Act.Apart r (.enqueue p src delay))
    (hins : kept <+: r.inserted p src)
    (hall : ∀ l, l <+: r.inserted p src → lengths l ≤ maxsize → l <+: kept)
    (hany : kept.head?.any (·.packet.ptr == p.ptr) = false) :
    kept.head? = r.port.outputFifo.fifo.head? := by
  obtain ⟨-, -, hfresh, hlong⟩ := hapart
  rw [h.max] at hlong
  have hnew : kept.head? ≠ some ⟨p, r.port.curTick, src⟩ := by
    intro hhead
    rw [hhead] at hany
    simp at hany
  have hfirst : ∀ x, (r.inserted p src).head? = some x → x.packet.length ≤ maxsize →
      kept.head? = some x := by
    intro x hx hle
    obtain ⟨l, hl⟩ := head?_eq_some_iff.mp hx
    obtain ⟨k, rfl⟩ := hall [x] (hl ▸ ⟨l, rfl⟩) hle
    rfl
  cases hf : r.port.outputFifo.fifo with
  | nil =>
    cases kept with
    | nil => rfl
    | cons x rest =>
      obtain ⟨extra, hsplit⟩ := hins
      rw [inserted, hf] at hsplit
      exact absurd (congrArg head? hsplit) hnew
  | cons x xs =>
    rcases emplace_head (e := ⟨p, r.port.curTick, src⟩) r.port.outputFifo.fifo with hhead | hhead
    · have hover := not_le.mp fun hle => hnew (hfirst _ hhead hle)
      rw [hf, emplace_head_of_before (hlong hover x (by rw [hf]; rfl))] at hhead
      have hx := Option.some.inj hhead
      exact absurd rfl (hx ▸ hfresh x (hf ▸ mem_cons_self) (by rw [hx]))
    · have hle := h.room
      rw [hf, lengths_cons] at hle
      exact hfirst x (hhead.trans (by rw [hf]; rfl)) (by omega)

theorem Inv.enqueue {p : PortPacket} {src delay : Nat} (hmax : maxsize < 2 ^ 31) (h : Inv maxsize r)
    (ha : r.Happens (.enqueue p src delay)) (hapart : Act.Apart r (.enqueue p src delay)) :
    ∃ q, r.step (.enqueue p src delay) = .ok q ∧ Inv maxsize q ∧
      Act.DropsExtra r q (.enqueue p src delay) := by
  obtain ⟨kept, hins, hroom, hall, hpush⟩ := h.push hmax hapart
  have hkept := h.head_kept hapart hins hall
  obtain ⟨hpos, -, hfresh, -⟩ := hapart
  have hperm : (r.inserted p src).Perm (⟨p, r.port.curTick, src⟩ :: r.port.outputFifo.fifo) :=
    emplace_perm hfresh
  have hmem : ∀ y ∈ kept, y = ⟨p, r.port.curTick, src⟩ ∨ y ∈ r.port.outputFifo.fifo :=
    fun y hy => mem_cons.mp (hperm.mem_iff.mp (hins.subset hy))
  have hpast : ∀ y ∈ kept, y.recvTick ≤ r.port.curTick := by
    have hold := h.past
    grind
  have hstep : r.step (.enqueue p src delay) = .ok
      ⟨⟨⟨kept, r.port.outputFifo.maxsize, lengths kept⟩,
        if kept.head?.any (·.packet.ptr == p.ptr) then some (r.port.curTick + delay)
          else r.port.txEvent,
        r.port.curTick⟩, r.pushed ++ [⟨p, r.port.curTick, src⟩], r.sent,
        r.dropped ++ (r.inserted p src).drop kept.length⟩ := by
    simp only [step, SwitchPort.enqueue, hpush, sim_ok_bind, SwitchPort.switchingDelay]
    cases kept with
    | nil => rfl
    | cons x rest => split <;> rfl
  obtain ⟨extra, hsplit⟩ := hins
  refine ⟨_, hstep, ⟨⟨rfl, ?_, ?_, ?_⟩, h.max, hroom, ?_, hpast, h.gone, ?_, ?_⟩, ?_⟩
  · cases hany : kept.head?.any (·.packet.ptr == p.ptr) with
    | true => cases kept <;> simp at hany ⊢
    | false =>
      rw [if_neg Bool.false_ne_true, h.event, ne_eq, ne_eq, ← head?_eq_none_iff, ← hkept hany,
        head?_eq_none_iff]
  · obtain ⟨hsent, hfifo, hcross⟩ := pairwise_append.mp h.order
    have hordered : (r.inserted p src).Pairwise PortFifoEntry.Before := emplace_ordered hfresh hfifo
    rw [← hsplit] at hordered
    refine pairwise_append.mpr ⟨hsent, (pairwise_append.mp hordered).1, fun y hy z hz => ?_⟩
    rcases hmem z hz with rfl | hz
    · exact before_iff.mpr (.inl (h.gone y hy))
    · exact hcross y hy z hz
  · refine perm_iff_count.mpr fun y => ?_
    have honce := h.once.count_eq y
    have hcount := hperm.count_eq y
    rw [← hsplit, ← singleton_append (l := r.port.outputFifo.fifo)] at hcount
    rw [← hsplit, drop_left]
    simp only [count_append] at honce hcount ⊢
    omega
  · have hold := h.pos
    grind
  · intro t y ht hy
    have hold := h.head t y
    have hyle := hpast y (mem_of_head? hy)
    change 0 < delay at ha
    change (if _ then _ else _) = _ at ht
    split at ht
    · grind
    · exact hold ht (hkept (Bool.eq_false_iff.mpr ‹_›) ▸ hy)
  · intro t ht
    have hold := h.ahead t
    grind
  · intro l hl hfits
    exact hall l hl (h.max ▸ hfits)

end Steps

/-- In every run in which no two packets of one port and tick are in the queue, and none that
cannot fit comes to the head of other packets, the queue is consistent, no step fails, and a push
drops only what does not fit. -/
theorem port_queue_consistent (maxsize : Nat) (hmax : maxsize < 2 ^ 31) {r : PortRun}
    (hr : Reach step (fun r a => r.Happens a ∧ a.Apart r) (init maxsize) r) :
    r.Consistent ∧ ∀ a, r.Happens a → a.Apart r → ∃ q, r.step a = .ok q ∧ a.DropsExtra r q := by
  have hstep : ∀ {r : PortRun} {a : Act}, Inv maxsize r → r.Happens a → a.Apart r →
      ∃ q, r.step a = .ok q ∧ Inv maxsize q ∧ a.DropsExtra r q := by
    intro r a h ha hapart
    cases a with
    | advance t => exact ⟨_, rfl, h.advance ha, trivial⟩
    | enqueue p src delay => exact h.enqueue hmax ha hapart
    | fire sent delay =>
      obtain ⟨q, hq, hinv⟩ := h.fire ha
      exact ⟨q, hq, hinv, trivial⟩
  have hinv : Inv maxsize r := by
    refine hr.invariant (P := Inv maxsize) ?_ fun h ha hs => ?_
    · refine ⟨⟨rfl, by simp [init], List.Pairwise.nil, List.Perm.nil⟩, rfl, Nat.zero_le _,
        ?_, ?_, ?_,
        ?_, ?_⟩ <;> simp [init]
    · obtain ⟨q, hq, hinv, -⟩ := hstep h ha.1 ha.2
      obtain rfl := eq_of_ok hs hq
      exact hinv
  refine ⟨hinv.toConsistent, fun a ha hapart => ?_⟩
  obtain ⟨q, hq, -, hdrops⟩ := hstep hinv ha hapart
  exact ⟨q, hq, hdrops⟩

theorem port_queue_consistent_crossing : ∃ r : PortRun, r.Consistent ∧
    r.sent = [⟨⟨1, 4⟩, 0, 1⟩] ∧ r.port.outputFifo.fifo = [⟨⟨0, 4⟩, 0, 2⟩] ∧
    r.dropped = [⟨⟨3, 20⟩, 0, 1⟩, ⟨⟨2, 4⟩, 0, 3⟩] := by
  obtain ⟨r, hr, hsent⟩ :=
    Reach.exists_of_runFrom step (fun r a => r.Happens a ∧ a.Apart r) (init 10)
    [.enqueue ⟨3, 20⟩ 1 1, .enqueue ⟨0, 4⟩ 2 1, .enqueue ⟨1, 4⟩ 1 1, .enqueue ⟨2, 4⟩ 3 1,
      .advance 1, .fire true 1]
    (fun r => r.sent = [⟨⟨1, 4⟩, 0, 1⟩] ∧ r.port.outputFifo.fifo = [⟨⟨0, 4⟩, 0, 2⟩] ∧
      r.dropped = [⟨⟨3, 20⟩, 0, 1⟩, ⟨⟨2, 4⟩, 0, 3⟩]) (by decide)
  exact ⟨r, (port_queue_consistent 10 (by decide) hr).1, hsent⟩

/-- A second packet of one port and tick is lost, while the size counts it. -/
theorem second_packet_lost : ∃ r : PortRun, Reach step Happens (init 10) r ∧
    r.port.outputFifo.size = 8 ∧ lengths r.port.outputFifo.fifo = 4 :=
  Reach.exists_of_run [.enqueue ⟨0, 4⟩ 1 1, .enqueue ⟨1, 4⟩ 1 1] (by decide)

end PortRun

end Gem5.Dev
