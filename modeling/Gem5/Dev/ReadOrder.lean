import Gem5.Dev.ReadFifo
import Mathlib.Algebra.Order.BigOperators.Group.List

/-!
# The bytes of the read FIFO

The bytes handed out, those in the buffer and those that the pending requests are going to
bring follow each other in the order of the blocks and their addresses. A stop takes the
pending ones off the end of that line.
-/

namespace Gem5.Dev

open List BitVec

variable {β : Type}

section Spans

variable {b n k : Nat} {a : BitVec 64}

theorem span_append (b : Nat) (a : BitVec 64) (n k : Nat) :
    span b a n ++ span b (a + BitVec.ofNat 64 n) k = span b a (n + k) := by
  rw [span, span, span, range_add, map_append, map_map]
  congr 1
  apply map_congr_left
  intro i _
  rw [Function.comp_apply, ofNat_add, BitVec.add_assoc]

theorem span_initial (h : n ≤ k) : span b a n <+: span b a k := by
  obtain ⟨d, rfl⟩ := Nat.exists_eq_add_of_le h
  rw [← span_append]
  exact prefix_append _ _

theorem span_length : (span b a n).length = n := by
  rw [span, length_map, length_range]

def spans (blocks : List (BitVec 64 × BitVec 64)) : List (List (Nat × BitVec 64)) :=
  blocks.mapIdx fun b x => span b x.1 x.2.toNat

theorem spans_snoc (blocks : List (BitVec 64 × BitVec 64)) (start size : BitVec 64) :
    spans (blocks ++ [(start, size)]) = spans blocks ++ [span blocks.length start size.toNat] := by
  rw [spans, mapIdx_concat]
  rfl

end Spans

def DmaDoneEvent.fresh (size : Nat) (e : DmaDoneEvent β) : DmaDoneEvent β :=
  { e with done := false, canceled := false, requestSize := size }

theorem DmaDoneEvent.reset_eq {size : Nat} {e : DmaDoneEvent β} (h : size ≤ e.capacity) :
    e.reset size = .ok (e.fresh size) := by
  rw [reset, simAssert_of (decide_eq_true h)]
  rfl

namespace ReadRun

def coming (pending : List (DmaDoneEvent β)) : List (Nat × BitVec 64) :=
  (pending.filter fun e => !e.canceled).flatMap DmaDoneEvent.labels

def written (s : ReadRun β) : List (Sample β) := s.returned ++ s.fifo.buffer

def flow (s : ReadRun β) : List (Nat × BitVec 64) :=
  s.written.map Sample.label ++ coming s.fifo.pendingRequests

def Holds (memories : List (BitVec 64 → β)) (e : DmaDoneEvent β) : Prop :=
  e.data.map Sample.label = e.labels ∧
    ∀ x ∈ e.data, x.request = e.number ∧ ∃ m ∈ memories, x.value = m x.addr

def Filling (s : ReadRun β) : Prop :=
  ∃ (bs : List (BitVec 64 × BitVec 64)) (start size : BitVec 64) (n : Nat)
    (l : List (Nat × BitVec 64)), s.fifo.blocks = bs ++ [(start, size)] ∧ Prefixes (spans bs) l ∧
    s.flow = l ++ span bs.length start n ∧ n < size.toNat ∧
    s.fifo.nextAddr = start + BitVec.ofNat 64 n ∧ s.fifo.endAddr = start + size

theorem Filling.of_flow_eq {s t : ReadRun β} (h : s.Filling) (hflow : t.flow = s.flow)
    (hblocks : t.fifo.blocks = s.fifo.blocks) (hnext : t.fifo.nextAddr = s.fifo.nextAddr)
    (hend : t.fifo.endAddr = s.fifo.endAddr) : t.Filling := by
  obtain ⟨bs, start, size, n, l, hbs, hl, hline, hn, hat, hto⟩ := h
  exact ⟨bs, start, size, n, l, hblocks.trans hbs, hl, hflow.trans hline, hn, hnext.trans hat,
    hend.trans hto⟩

structure Inv (fifoSize maxPending : Nat) (s : ReadRun β) : Prop where
  fifoSize : s.fifo.fifoSize = fifoSize
  count : s.fifo.freeRequests.length + s.fifo.pendingRequests.length = maxPending
  capacity : ∀ e ∈ s.fifo.freeRequests ++ s.fifo.pendingRequests, s.fifo.maxReqSize ≤ e.capacity
  room : s.fifo.buffer.length + (s.fifo.pendingRequests.map DmaDoneEvent.requestSize).sum ≤
    s.fifo.fifoSize
  data : ∀ e ∈ s.fifo.pendingRequests, e.done = true → Holds s.memories e
  flow : Prefixes (spans s.fifo.blocks) s.flow
  filling : s.fifo.nextAddr ≠ s.fifo.endAddr → s.Filling
  written : ∀ x ∈ s.written, x.request < s.fifo.issued ∧ x.request ∉ s.stopped ∧
    ∃ m ∈ s.memories, x.value = m x.addr
  pending : ∀ e ∈ s.fifo.pendingRequests, e.number < s.fifo.issued ∧
    (∀ x ∈ s.written, x.request < e.number) ∧ (e.canceled = false → e.number ∉ s.stopped)
  increasing : (s.fifo.pendingRequests.map DmaDoneEvent.number).Pairwise (· < ·)
  stopped : ∀ n ∈ s.stopped, n < s.fifo.issued

variable {s t : ReadRun β} {fifoSize maxPending : Nat} {e : DmaDoneEvent β}
    {rest : List (DmaDoneEvent β)}

theorem coming_append (p q : List (DmaDoneEvent β)) : coming (p ++ q) = coming p ++ coming q := by
  rw [coming, filter_append, flatMap_append]
  rfl

theorem coming_singleton (h : e.canceled = false) : coming [e] = e.labels := by
  rw [coming, filter_singleton, h]
  exact flatMap_singleton ..

theorem coming_cons (h : e.canceled = false) : coming (e :: rest) = e.labels ++ coming rest := by
  rw [← singleton_append, coming_append, coming_singleton h]

theorem coming_cons_canceled (h : e.canceled = true) : coming (e :: rest) = coming rest := by
  rw [coming, filter_cons_of_neg (by rw [h]; exact Bool.false_ne_true)]
  rfl

theorem coming_cancel (p : List (DmaDoneEvent β)) : coming (p.map DmaDoneEvent.cancel) = [] := by
  have hnone : (p.map DmaDoneEvent.cancel).filter (fun e => !e.canceled) = [] := by
    apply filter_eq_nil_iff.mpr
    intro e he
    obtain ⟨x, _, rfl⟩ := mem_map.mp he
    exact Bool.false_ne_true
  rw [coming, hnone]
  rfl

theorem init_inv (fifoSize maxReqSize maxPending : Nat) :
    (init fifoSize maxReqSize maxPending : ReadRun β).Inv fifoSize maxPending where
  fifoSize := rfl
  count := List.length_replicate
  capacity := by
    intro e he
    rw [init, DmaReadFifo.init, append_nil] at he
    rw [(mem_replicate.mp he).2]
    exact Nat.le_refl _
  room := Nat.zero_le _
  data := fun e he => absurd he not_mem_nil
  flow := .nil
  filling := fun hne => absurd rfl hne
  written := fun x hx => absurd hx not_mem_nil
  pending := fun e he => absurd he not_mem_nil
  increasing := .nil
  stopped := fun n hn => absurd hn not_mem_nil

section

variable (h : s.Inv fifoSize maxPending)
include h

theorem Inv.issue {size : Nat} (hfree : s.fifo.freeRequests = e :: rest)
    (hmore : s.fifo.nextAddr ≠ s.fifo.endAddr)
    (hsize : size ≤ (s.fifo.endAddr - s.fifo.nextAddr).toNat)
    (hroom : s.fifo.buffer.length +
      (s.fifo.pendingRequests.map DmaDoneEvent.requestSize).sum + size ≤
      s.fifo.fifoSize) :
    Inv fifoSize maxPending { s with fifo := s.fifo.issue (e.fresh size) rest } := by
  obtain ⟨bs, start, all, n, l, hblocks, hl, hflow, hn, hnext, hend⟩ := h.filling hmore
  have hleft : (s.fifo.endAddr - s.fifo.nextAddr).toNat = all.toNat - n := by
    rw [hend, hnext, toNat_sub, toNat_add, toNat_add, toNat_ofNat]
    omega
  have hlast : s.fifo.blocks.length - 1 = bs.length := by
    rw [hblocks, length_append]
    exact Nat.add_sub_cancel _ _
  have hflow' : ReadRun.flow { s with fifo := s.fifo.issue (e.fresh size) rest } =
      l ++ span bs.length start (n + size) := by
    change s.written.map Sample.label ++ coming (s.fifo.pendingRequests ++ [_]) = _
    rw [coming_append, coming_singleton rfl, ← List.append_assoc]
    change s.flow ++ span (s.fifo.blocks.length - 1) s.fifo.nextAddr size = _
    rw [hflow, hlast, hnext, List.append_assoc, span_append]
  constructor
  · exact h.fifoSize
  · have hcount := h.count
    rw [hfree, length_cons] at hcount
    change rest.length + (s.fifo.pendingRequests ++ [_]).length = maxPending
    rw [length_append, length_singleton]
    omega
  · intro x hx
    have hcap := h.capacity
    rw [hfree] at hcap
    rcases mem_append.mp hx with hx | hx
    · exact hcap x (mem_append_left _ (mem_cons_of_mem _ hx))
    · rcases mem_append.mp hx with hx | hx
      · exact hcap x (mem_append_right _ hx)
      · obtain rfl := mem_singleton.mp hx
        exact hcap e (mem_append_left _ mem_cons_self)
  · change s.fifo.buffer.length +
      ((s.fifo.pendingRequests ++ [_]).map DmaDoneEvent.requestSize).sum ≤ s.fifo.fifoSize
    rw [map_append, sum_append]
    change _ + (_ + (size + 0)) ≤ _
    omega
  · intro x hx hdone
    rcases mem_append.mp hx with hx | hx
    · exact h.data x hx hdone
    · obtain rfl := mem_singleton.mp hx
      exact Bool.noConfusion hdone
  · rw [hflow']
    change Prefixes (spans s.fifo.blocks) _
    rw [hblocks, spans_snoc]
    exact hl.snoc (span_initial (by omega))
  · intro hne
    refine ⟨bs, start, all, n + size, l, hblocks, hl, hflow', ?_, ?_, hend⟩
    · -- at the end of the block the addresses would agree
      by_contra hge
      apply hne
      have hall : n + size = all.toNat := by omega
      change s.fifo.nextAddr + BitVec.ofNat 64 size = s.fifo.endAddr
      rw [hnext, BitVec.add_assoc, ← ofNat_add, hall, hend, ofNat_toNat,
        setWidth_eq]
    · change s.fifo.nextAddr + BitVec.ofNat 64 size = _
      rw [hnext, BitVec.add_assoc, ← ofNat_add]
  · intro x hx
    obtain ⟨hlt, hrest⟩ := h.written x hx
    exact ⟨Nat.lt_succ_of_lt hlt, hrest⟩
  · intro x hx
    rcases mem_append.mp hx with hx | hx
    · obtain ⟨hlt, hrest⟩ := h.pending x hx
      exact ⟨Nat.lt_succ_of_lt hlt, hrest⟩
    · obtain rfl := mem_singleton.mp hx
      refine ⟨Nat.lt_succ_self _, fun y hy => (h.written y hy).1, fun _ hmem => ?_⟩
      exact lt_irrefl _ (h.stopped _ hmem)
  · change ((s.fifo.pendingRequests ++ [_]).map DmaDoneEvent.number).Pairwise (· < ·)
    rw [map_append, pairwise_append]
    refine ⟨h.increasing, pairwise_singleton _ _, ?_⟩
    intro i hi j hj
    obtain ⟨x, hx, rfl⟩ := mem_map.mp hi
    obtain rfl := mem_singleton.mp hj
    exact (h.pending x hx).1
  · intro i hi
    exact Nat.lt_succ_of_lt (h.stopped i hi)

theorem Inv.fill {free : List (DmaDoneEvent β)}
    (hfree : s.fifo.freeRequests = free) {sizePending : Nat}
    (hsum : (s.fifo.pendingRequests.map DmaDoneEvent.requestSize).sum = sizePending) :
    ∃ f, DmaReadFifo.fill free sizePending s.fifo = .ok f ∧
      Inv fifoSize maxPending { s with fifo := f } := by
  induction free generalizing s sizePending with
  | nil => exact ⟨s.fifo, rfl, h⟩
  | cons e rest ih =>
    rw [DmaReadFifo.fill]
    split
    · exact ⟨s.fifo, rfl, h⟩
    · rename_i hmore
      dsimp only
      split
      · exact ⟨s.fifo, rfl, h⟩
      · rename_i hroom
        have hcap := h.capacity e (by rw [hfree]; exact mem_append_left _ mem_cons_self)
        rw [DmaDoneEvent.reset_eq (le_trans (Nat.min_le_left _ _) hcap)]
        have hne : s.fifo.nextAddr ≠ s.fifo.endAddr := fun heq => hmore (beq_iff_eq.mpr heq)
        have hissue := h.issue hfree hne (Nat.min_le_right _ _)
          (not_lt.mp (by rw [hsum]; exact hroom))
        apply ih hissue rfl
        change ((s.fifo.pendingRequests ++ [_]).map DmaDoneEvent.requestSize).sum = _
        rw [map_append, sum_append, hsum]
        rfl

theorem Inv.resumeFillTiming :
    ∃ f, s.fifo.resumeFillTiming = .ok f ∧ Inv fifoSize maxPending { s with fifo := f } :=
  h.fill rfl rfl

theorem Inv.shift (hp : s.fifo.pendingRequests = e :: rest)
    {d : List (Sample β)} (hlen : d.length ≤ e.requestSize)
    (hd : d.map Sample.label ++ coming rest = coming (e :: rest))
    (hnew : ∀ x ∈ d, x.request = e.number ∧ e.number ∉ s.stopped ∧
      ∃ m ∈ s.memories, x.value = m x.addr) :
    Inv fifoSize maxPending { s with fifo := { s.fifo with
      buffer := s.fifo.buffer ++ d
      pendingRequests := rest
      freeRequests := s.fifo.freeRequests ++ [e] } } := by
  have hmem : e ∈ s.fifo.pendingRequests := by
    rw [hp]
    exact mem_cons_self
  have hrest : ∀ {x}, x ∈ rest → x ∈ s.fifo.pendingRequests := by
    intro x hx
    rw [hp]
    exact mem_cons_of_mem _ hx
  have hflow : ReadRun.flow { s with fifo := { s.fifo with
      buffer := s.fifo.buffer ++ d
      pendingRequests := rest
      freeRequests := s.fifo.freeRequests ++ [e] } } = s.flow := by
    change (s.returned ++ (s.fifo.buffer ++ d)).map Sample.label ++ coming rest = _
    rw [← List.append_assoc, map_append, List.append_assoc, hd, ← hp]
    rfl
  have hincreasing := h.increasing
  rw [hp, map_cons, pairwise_cons] at hincreasing
  have hwritten : ∀ x ∈ s.returned ++ (s.fifo.buffer ++ d), x ∈ s.written ∨ x ∈ d := by
    intro x hx
    rw [← List.append_assoc] at hx
    exact mem_append.mp hx
  constructor
  · exact h.fifoSize
  · have hcount := h.count
    rw [hp, length_cons] at hcount
    change (s.fifo.freeRequests ++ [e]).length + rest.length = maxPending
    rw [length_append, length_singleton]
    omega
  · intro x hx
    apply h.capacity x
    rw [hp]
    rw [List.append_assoc] at hx
    exact hx
  · have hroom := h.room
    rw [hp, map_cons, sum_cons] at hroom
    change (s.fifo.buffer ++ d).length + (rest.map DmaDoneEvent.requestSize).sum ≤ s.fifo.fifoSize
    rw [length_append]
    omega
  · exact fun x hx => h.data x (hrest hx)
  · rw [hflow]
    exact h.flow
  · exact fun hne => (h.filling hne).of_flow_eq hflow rfl rfl rfl
  · intro x hx
    rcases hwritten x hx with hx | hx
    · exact h.written x hx
    · obtain ⟨hnumber, hnot, hvalue⟩ := hnew x hx
      rw [hnumber]
      exact ⟨(h.pending e hmem).1, hnot, hvalue⟩
  · intro x hx
    obtain ⟨hlt, hlater, hnot⟩ := h.pending x (hrest hx)
    refine ⟨hlt, fun y hy => ?_, hnot⟩
    rcases hwritten y hy with hy | hy
    · exact hlater y hy
    · rw [(hnew y hy).1]
      exact hincreasing.1 x.number (mem_map_of_mem hx)
  · exact hincreasing.2
  · exact h.stopped

end

theorem Holds.length_eq {memories : List (BitVec 64 → β)} (h : Holds memories e) :
    e.data.length = e.requestSize := by
  rw [← length_map Sample.label, h.1]
  exact span_length

theorem Inv.release (h : s.Inv fifoSize maxPending) {pending : List (DmaDoneEvent β)}
    (hp : s.fifo.pendingRequests = pending) :
    ∃ f, DmaReadFifo.release pending s.fifo = .ok f ∧
      Inv fifoSize maxPending { s with fifo := f } := by
  induction pending generalizing s with
  | nil => exact ⟨s.fifo, rfl, h⟩
  | cons e rest ih =>
    rw [DmaReadFifo.release]
    split
    · rename_i hdone
      have hmem : e ∈ s.fifo.pendingRequests := by
        rw [hp]
        exact mem_cons_self
      have hholds := h.data e hmem hdone
      cases hcanceled : e.canceled with
      | true =>
        have hshift := h.shift hp (d := []) (Nat.zero_le _)
          (coming_cons_canceled hcanceled).symm (fun x hx => absurd hx not_mem_nil)
        rw [append_nil] at hshift
        exact ih hshift rfl
      | false =>
        have hlen := hholds.length_eq
        have hroom := h.room
        rw [hp, map_cons, sum_cons] at hroom
        have hshift := h.shift hp (d := e.data) hlen.le
          (by rw [hholds.1, coming_cons hcanceled])
          (fun x hx => ⟨(hholds.2 x hx).1, (h.pending e hmem).2.2 hcanceled, (hholds.2 x hx).2⟩)
        rw [if_neg Bool.false_ne_true, DmaReadFifo.write, if_neg (by omega),
          take_of_length_le hlen.le]
        exact ih hshift rfl
    · exact ⟨s.fifo, rfl, h⟩

theorem Inv.handlePending (h : s.Inv fifoSize maxPending) :
    ∃ f, s.fifo.handlePending = .ok f ∧ Inv fifoSize maxPending { s with fifo := f } :=
  h.release rfl

theorem map_set_same {α γ : Type} {l : List α} {k : Nat} {x y : α} {f : α → γ}
    (hk : l[k]? = some x) (hf : f y = f x) : (l.set k y).map f = l.map f := by
  obtain ⟨hlt, rfl⟩ := List.getElem?_eq_some_iff.mp hk
  rw [List.map_set, hf, ← List.getElem_map f (h := by simpa using hlt), List.set_getElem_self]

theorem coming_eq_flatten (p : List (DmaDoneEvent β)) :
    coming p = (p.map fun e => if e.canceled then [] else e.labels).flatten := by
  induction p with
  | nil => rfl
  | cons e rest ih =>
    rw [map_cons, flatten_cons, ← ih]
    cases hcanceled : e.canceled with
    | true => exact coming_cons_canceled hcanceled
    | false => exact coming_cons hcanceled

theorem filled_holds (mem : BitVec 64 → β) (e : DmaDoneEvent β) (memories : List (BitVec 64 → β)) :
    Holds (memories ++ [mem]) (e.filled mem) := by
  refine ⟨?_, fun x hx => ?_⟩
  · change (e.labels.map _).map _ = e.labels
    rw [map_map]
    exact map_id _
  · obtain ⟨y, _, rfl⟩ := mem_map.mp hx
    exact ⟨rfl, mem, mem_append_right _ (mem_singleton_self _), rfl⟩

section

variable (h : s.Inv fifoSize maxPending)
include h

theorem Inv.filled {k : Nat} (hk : s.fifo.pendingRequests[k]? = some e) (mem : BitVec 64 → β) :
    Inv fifoSize maxPending { s with
      fifo := { s.fifo with pendingRequests := s.fifo.pendingRequests.set k (e.filled mem) }
      memories := s.memories ++ [mem] } := by
  have hmem : e ∈ s.fifo.pendingRequests := mem_of_getElem? hk
  have hcoming : coming (s.fifo.pendingRequests.set k (e.filled mem)) =
      coming s.fifo.pendingRequests := by
    rw [coming_eq_flatten, coming_eq_flatten, map_set_same hk]
    rfl
  have hflow : ReadRun.flow { s with
      fifo := { s.fifo with pendingRequests := s.fifo.pendingRequests.set k (e.filled mem) }
      memories := s.memories ++ [mem] } = s.flow := by
    change s.written.map Sample.label ++ _ = _
    rw [hcoming]
    rfl
  have hread : ∀ {x : Sample β}, (∃ m ∈ s.memories, x.value = m x.addr) →
      ∃ m ∈ s.memories ++ [mem], x.value = m x.addr := by
    rintro x ⟨m, hm, hx⟩
    exact ⟨m, mem_append_left _ hm, hx⟩
  constructor
  · exact h.fifoSize
  · rw [length_set]
    exact h.count
  · intro x hx
    rcases mem_append.mp hx with hx | hx
    · exact h.capacity x (mem_append_left _ hx)
    · rcases mem_or_eq_of_mem_set hx with hx | rfl
      · exact h.capacity x (mem_append_right _ hx)
      · exact h.capacity e (mem_append_right _ hmem)
  · rw [map_set_same (y := e.filled mem) hk rfl]
    exact h.room
  · intro x hx hdone
    rcases mem_or_eq_of_mem_set hx with hx | rfl
    · obtain ⟨hlabels, hall⟩ := h.data x hx hdone
      exact ⟨hlabels, fun y hy => ⟨(hall y hy).1, hread (hall y hy).2⟩⟩
    · exact filled_holds mem e s.memories
  · rw [hflow]
    exact h.flow
  · exact fun hne => (h.filling hne).of_flow_eq hflow rfl rfl rfl
  · intro x hx
    obtain ⟨hlt, hnot, hvalue⟩ := h.written x hx
    exact ⟨hlt, hnot, hread hvalue⟩
  · intro x hx
    rcases mem_or_eq_of_mem_set hx with hx | rfl
    · exact h.pending x hx
    · exact h.pending e hmem
  · rw [map_set_same (y := e.filled mem) hk rfl]
    exact h.increasing
  · exact h.stopped

theorem Inv.stopFill :
    Inv fifoSize maxPending { s with
      fifo := s.fifo.stopFill
      stopped := s.stopped ++ s.fifo.pendingRequests.map DmaDoneEvent.number } := by
  constructor
  · exact h.fifoSize
  · change _ + (s.fifo.pendingRequests.map _).length = _
    rw [length_map]
    exact h.count
  · intro x hx
    rcases mem_append.mp hx with hx | hx
    · exact h.capacity x (mem_append_left _ hx)
    · obtain ⟨y, hy, rfl⟩ := mem_map.mp hx
      exact h.capacity y (mem_append_right _ hy)
  · change _ + ((s.fifo.pendingRequests.map _).map DmaDoneEvent.requestSize).sum ≤ _
    rw [map_map]
    exact h.room
  · intro x hx hdone
    obtain ⟨y, hy, rfl⟩ := mem_map.mp hx
    exact h.data y hy hdone
  · apply h.flow.of_prefix
    change s.written.map Sample.label ++ coming (s.fifo.pendingRequests.map _) <+: _
    rw [coming_cancel, append_nil]
    exact prefix_append _ _
  · exact fun hne => absurd rfl hne
  · intro x hx
    obtain ⟨hlt, hnot, hvalue⟩ := h.written x hx
    refine ⟨hlt, fun hmem => ?_, hvalue⟩
    rcases mem_append.mp hmem with hmem | hmem
    · exact hnot hmem
    · -- the pending requests are later ones
      obtain ⟨e, he, heq⟩ := mem_map.mp hmem
      exact ne_of_lt ((h.pending e he).2.1 x hx) heq.symm
  · intro x hx
    obtain ⟨y, hy, rfl⟩ := mem_map.mp hx
    obtain ⟨hlt, hlater, _⟩ := h.pending y hy
    exact ⟨hlt, hlater, fun hno => Bool.noConfusion hno⟩
  · change ((s.fifo.pendingRequests.map _).map DmaDoneEvent.number).Pairwise (· < ·)
    rw [map_map]
    exact h.increasing
  · intro n hn
    rcases mem_append.mp hn with hn | hn
    · exact h.stopped n hn
    · obtain ⟨e, he, rfl⟩ := mem_map.mp hn
      exact (h.pending e he).1

theorem Inv.startFill (start size : BitVec 64) :
    Inv fifoSize maxPending { s with fifo := { s.fifo with
      nextAddr := start
      endAddr := start + size
      blocks := s.fifo.blocks ++ [(start, size)] } } where
  fifoSize := h.fifoSize
  count := h.count
  capacity := h.capacity
  room := h.room
  data := h.data
  flow := by
    change Prefixes (spans (s.fifo.blocks ++ [(start, size)])) s.flow
    rw [spans_snoc]
    exact h.flow.more _
  filling := by
    intro hne
    refine ⟨s.fifo.blocks, start, size, 0, s.flow, rfl, h.flow, (append_nil _).symm, ?_,
      (BitVec.add_zero start).symm, rfl⟩
    rw [Nat.pos_iff_ne_zero]
    intro hzero
    apply hne
    change start = start + size
    rw [eq_of_toNat_eq (x := size) (y := 0) hzero]
    exact (BitVec.add_zero start).symm
  written := h.written
  pending := h.pending
  increasing := h.increasing
  stopped := h.stopped

theorem Inv.read (len : Nat) :
    Inv fifoSize maxPending { s with
      fifo := { s.fifo with buffer := s.fifo.buffer.drop len }
      returned := s.returned ++ s.fifo.buffer.take len } := by
  have hwritten : ReadRun.written { s with
      fifo := { s.fifo with buffer := s.fifo.buffer.drop len }
      returned := s.returned ++ s.fifo.buffer.take len } = s.written := by
    change (s.returned ++ _) ++ _ = _
    rw [List.append_assoc, take_append_drop]
    rfl
  have hflow : ReadRun.flow { s with
      fifo := { s.fifo with buffer := s.fifo.buffer.drop len }
      returned := s.returned ++ s.fifo.buffer.take len } = s.flow := by
    rw [ReadRun.flow, hwritten]
    rfl
  refine ⟨h.fifoSize, h.count, h.capacity, ?_, h.data, ?_, ?_, ?_, ?_, h.increasing, h.stopped⟩
  · have hroom := h.room
    rw [length_drop]
    change _ + (s.fifo.pendingRequests.map DmaDoneEvent.requestSize).sum ≤ s.fifo.fifoSize
    omega
  · rw [hflow]
    exact h.flow
  · exact fun hne => (h.filling hne).of_flow_eq hflow rfl rfl rfl
  · rw [hwritten]
    exact h.written
  · rw [hwritten]
    exact h.pending

end

section Steps

theorem tryGet_inv (h : s.Inv fifoSize maxPending) {len : Nat} (hlen : len ≤ s.fifo.buffer.length) :
    ∃ f, s.fifo.tryGet len = .ok (some (s.fifo.buffer.take len), f) ∧
      Inv fifoSize maxPending
        { s with fifo := f, returned := s.returned ++ s.fifo.buffer.take len } := by
  obtain ⟨f, hf, hinv⟩ := (h.read len).resumeFillTiming
  refine ⟨f, ?_, hinv⟩
  rw [DmaReadFifo.tryGet, if_pos hlen]
  exact bind_eq_ok.mpr ⟨f, hf, rfl⟩

theorem tryGet_short {len : Nat} (hlen : s.fifo.buffer.length < len) :
    s.fifo.tryGet len = .ok (none, s.fifo) := by
  rw [DmaReadFifo.tryGet, if_neg (Nat.not_le_of_lt hlen)]
  rfl

theorem step_inv (h : s.Inv fifoSize maxPending) {a : Action β} (ha : s.Enabled a) :
    (∃ t, s.step a = .ok t ∧ t.Inv fifoSize maxPending) ∨ ∃ len, a = .get len ∧
      s.fifo.buffer.length < len ∧
      s.step a = .error (.panic "Buffer underrun in DmaReadFifo::get()") := by
  cases a with
  | startFill start size =>
    obtain ⟨f, hf, hinv⟩ := (h.startFill start size).resumeFillTiming
    refine .inl ⟨{ s with fifo := f }, bind_eq_ok.mpr ⟨f, ?_, rfl⟩, hinv⟩
    rw [DmaReadFifo.startFill, simAssert_of ha]
    exact hf
  | stopFill => exact .inl ⟨_, rfl, h.stopFill⟩
  | tryGet len =>
    rcases Nat.lt_or_ge s.fifo.buffer.length len with hshort | hlen
    · refine .inl ⟨s, bind_eq_ok.mpr ⟨_, tryGet_short hshort, ?_⟩, h⟩
      rw [Option.getD_none, append_nil]
      rfl
    · obtain ⟨f, hf, hinv⟩ := tryGet_inv h hlen
      exact .inl ⟨_, bind_eq_ok.mpr ⟨_, hf, rfl⟩, hinv⟩
  | get len =>
    rcases Nat.lt_or_ge s.fifo.buffer.length len with hshort | hlen
    · refine .inr ⟨len, rfl, hshort, ?_⟩
      rw [step, DmaReadFifo.get, tryGet_short hshort]
      rfl
    · obtain ⟨f, hf, hinv⟩ := tryGet_inv h hlen
      refine .inl ⟨_, bind_eq_ok.mpr ⟨(s.fifo.buffer.take len, f), ?_, rfl⟩, hinv⟩
      rw [DmaReadFifo.get, hf]
      rfl
  | dmaDone k mem =>
    obtain ⟨e, hk, hopen⟩ := ha
    obtain ⟨f, hf, hpending⟩ := (h.filled hk mem).handlePending
    obtain ⟨g, hg, hinv⟩ := hpending.resumeFillTiming
    refine .inl ⟨_, bind_eq_ok.mpr ⟨g, ?_, rfl⟩, hinv⟩
    rw [DmaReadFifo.dmaDone, hk]
    dsimp only
    rw [simAssert_of (by rw [hopen]; rfl), sim_ok_bind]
    exact bind_eq_ok.mpr ⟨f, hf, hg⟩

end Steps

theorem inv_of_reach {maxReqSize : Nat}
    (hr : Reach step Enabled (init fifoSize maxReqSize maxPending) s) :
    s.Inv fifoSize maxPending := by
  apply hr.invariant (P := Inv fifoSize maxPending) (init_inv fifoSize maxReqSize maxPending)
  intro s t a hs ha ht
  rcases step_inv hs ha with ⟨u, hu, hinv⟩ | ⟨len, _, _, herror⟩
  · obtain rfl := eq_of_ok hu ht
    exact hinv
  · exact absurd (herror.symm.trans ht) (fun hno => by cases hno)

theorem uncanceled_le (p : List (DmaDoneEvent β)) :
    ((p.filter fun e => !e.canceled).map DmaDoneEvent.requestSize).sum ≤
      (p.map DmaDoneEvent.requestSize).sum :=
  (filter_sublist.map _).sum_le_sum fun _ _ => Nat.zero_le _

/-- The reader gets a prefix of each block, in the order of the blocks and of the addresses, and
each byte as memory held it when the DMA ended. Nothing of a stopped request is in the FIFO, the
requests under way fit into it, none of them is lost, and no call stops the simulation but a
`get` of more bytes than there are. -/
theorem read_fifo_delivers {maxReqSize : Nat}
    (hr : Reach step Enabled (init fifoSize maxReqSize maxPending) s) :
    Prefixes (spans s.fifo.blocks) (s.returned.map Sample.label) ∧
    (∀ x ∈ s.returned, ∃ m ∈ s.memories, x.value = m x.addr) ∧
    (∀ x ∈ s.returned ++ s.fifo.buffer, x.request ∉ s.stopped) ∧
    s.fifo.buffer.length + ((s.fifo.pendingRequests.filter fun e => !e.canceled).map
      DmaDoneEvent.requestSize).sum ≤ fifoSize ∧
    s.fifo.freeRequests.length + s.fifo.pendingRequests.length = maxPending ∧
    ∀ a, s.Enabled a → (∃ t, s.step a = .ok t) ∨ ∃ len, a = .get len ∧
      s.fifo.buffer.length < len := by
  have h := inv_of_reach hr
  refine ⟨?_, ?_, fun x hx => (h.written x hx).2.1, ?_, h.count, fun a ha => ?_⟩
  · apply h.flow.of_prefix
    rw [ReadRun.flow, written, map_append, List.append_assoc]
    exact prefix_append _ _
  · exact fun x hx => (h.written x (mem_append_left _ hx)).2.2
  · have hroom := h.room
    have hle := uncanceled_le s.fifo.pendingRequests
    rw [h.fifoSize] at hroom
    omega
  · rcases step_inv h ha with ⟨t, ht, _⟩ | ⟨len, rfl, hshort, _⟩
    · exact .inl ⟨t, ht⟩
    · exact .inr ⟨len, rfl, hshort⟩

instance (s : ReadRun β) : DecidablePred s.Enabled
  | .startFill _ _ => inferInstanceAs (Decidable (_ = _))
  | .stopFill => inferInstanceAs (Decidable True)
  | .tryGet _ => inferInstanceAs (Decidable True)
  | .get _ => inferInstanceAs (Decidable True)
  | .dmaDone k _ =>
    inferInstanceAs (Decidable (∃ e ∈ s.fifo.pendingRequests[k]?, e.done = false))

theorem read_fifo_delivers_stopped : ∃ s : ReadRun Nat,
    s.returned.map (fun x => (x.block, x.value)) = [(0, 0), (0, 1), (0, 2), (0, 3), (0, 4), (0, 5),
      (0, 6), (0, 7), (2, 100), (2, 101)] ∧ s.stopped = [2, 3] ∧
    (∀ x ∈ s.returned ++ s.fifo.buffer, x.request ∉ s.stopped) ∧
    s.fifo.freeRequests.length + s.fifo.pendingRequests.length = 4 := by
  obtain ⟨s, hs, hreturned, hstopped⟩ :
      ∃ s, Reach step Enabled (init 16 4 4 : ReadRun Nat) s ∧
      s.returned.map (fun x => (x.block, x.value)) =
        [(0, 0), (0, 1), (0, 2), (0, 3), (0, 4), (0, 5), (0, 6), (0, 7), (2, 100), (2, 101)] ∧
      s.stopped = [2, 3] :=
    Reach.exists_of_run [.startFill 0 12, .startFill 200 8, .dmaDone 1 BitVec.toNat,
      .dmaDone 0 BitVec.toNat, .stopFill, .startFill 100 4, .get 8, .dmaDone 1 BitVec.toNat,
      .dmaDone 0 BitVec.toNat, .dmaDone 0 BitVec.toNat, .tryGet 2] (by decide +kernel)
  obtain ⟨_, _, hnot, _, hcount, _⟩ := read_fifo_delivers hs
  exact ⟨s, hreturned, hstopped, hnot, hcount⟩

/-- Whatever order the DMAs end in, requests are released in the order of issue, and of the block
being filled no byte asked for is lost. -/
theorem read_fifo_keeps_order {maxReqSize : Nat}
    (hr : Reach step Enabled (init fifoSize maxReqSize maxPending) s) :
    (s.fifo.pendingRequests.map DmaDoneEvent.number).Pairwise (· < ·) ∧
    (∀ e ∈ s.fifo.pendingRequests, ∀ x ∈ s.written, x.request < e.number) ∧
    (s.fifo.nextAddr ≠ s.fifo.endAddr → s.Filling) := by
  have h := inv_of_reach hr
  exact ⟨h.increasing, fun e he => (h.pending e he).2.1, h.filling⟩

/-- The second request ends first, then the first: eight bytes are in the FIFO and nothing is
asked for until some of them are read. -/
theorem read_fifo_fills_eight : ∃ s : ReadRun Nat, s.fifo.nextAddr = 12 ∧
    s.returned.map Sample.value = [0, 1, 2, 3] ∧ s.fifo.buffer.map Sample.value = [4, 5, 6, 7] ∧
    s.Filling ∧ ∀ e ∈ s.fifo.pendingRequests, ∀ x ∈ s.written, x.request < e.number := by
  obtain ⟨s, hs, hnext, hreturned, hbuffer, hmore⟩ :
      ∃ s, Reach step Enabled (init 8 4 4 : ReadRun Nat) s ∧ s.fifo.nextAddr = 12 ∧
      s.returned.map Sample.value = [0, 1, 2, 3] ∧ s.fifo.buffer.map Sample.value = [4, 5, 6, 7] ∧
      s.fifo.nextAddr ≠ s.fifo.endAddr :=
    Reach.exists_of_run [.startFill 0 16, .dmaDone 1 BitVec.toNat, .dmaDone 0 BitVec.toNat, .get 4]
      (by decide +kernel)
  obtain ⟨_, hbefore, hfilling⟩ := read_fifo_keeps_order hs
  exact ⟨s, hnext, hreturned, hbuffer, hfilling hmore, hbefore⟩

end ReadRun

end Gem5.Dev
