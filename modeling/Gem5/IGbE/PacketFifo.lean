import Gem5.IGbE.TxDesc

/-!
# The packet fifo

`PacketFifo` counts the bytes it holds and the bytes reserved for packets that are still
on their way. Its functions mix `int` and `unsigned`: `avail` is signed, and callers
compare it as an unsigned number of 32 or 64 bits. The fifo's size is an `int`. `pushed`
records every packet ever pushed.
-/

open List

namespace Gem5.IGbE

structure PacketFifo where
  fifo : List EthPacketData
  maxsize : Nat
  size : Nat
  reserved : Nat
  pushed : List EthPacketData

namespace PacketFifo

variable {f g : PacketFifo} {p : EthPacketData} {n w : Nat}

def construct (maxsize : Nat) : PacketFifo := ⟨[], maxsize, 0, 0, []⟩

def avail (f : PacketFifo) : Int := f.maxsize - f.size - f.reserved

/-- `avail` as an unsigned number of `w` bits. -/
def availUnsigned (w : Nat) (f : PacketFifo) : Nat := (f.avail % 2 ^ w).toNat

def reserve (n : Nat) (f : PacketFifo) : Sim PacketFifo := do
  simAssert (n ≤ f.availUnsigned 32)
  pure { f with reserved := (f.reserved + n) % 2 ^ 32 }

def add (p : EthPacketData) (f : PacketFifo) : PacketFifo :=
  { f with
    fifo := f.fifo ++ [p]
    size := f.size + p.length
    reserved := if p.length < f.reserved then f.reserved - p.length else 0
    pushed := f.pushed ++ [p] }

def push (p : EthPacketData) (f : PacketFifo) : Sim (Bool × PacketFifo) := do
  simAssert (p.length != 0)
  if f.avail < max 0 ((p.length : Int) - f.reserved) then pure (false, f)
  else if f.maxsize < (f.size + p.length) % 2 ^ 32 then pure (false, f)
  else pure (true, f.add p)

def pop (f : PacketFifo) : PacketFifo :=
  match f.fifo with
  | [] => f
  | p :: rest => if f.size = 0 then f else { f with fifo := rest, size := f.size - p.length }

structure Sound (f : PacketFifo) : Prop where
  size_eq : f.size = (f.fifo.map EthPacketData.length).sum
  room : f.size + f.reserved ≤ f.maxsize
  bounded : f.maxsize < 2 ^ 31
  filled : ∀ p ∈ f.fifo, 0 < p.length

namespace Sound

theorem construct (hmax : n < 2 ^ 31) : Sound (construct n) := by
  refine ⟨rfl, ?_, hmax, ?_⟩ <;> simp [PacketFifo.construct]

theorem avail_eq (h : Sound f) : f.avail = ((f.maxsize - f.size - f.reserved : Nat) : Int) := by
  have hroom := h.room
  unfold avail
  omega

theorem availUnsigned_eq (h : Sound f) (hw : 32 ≤ w) :
    f.availUnsigned w = f.maxsize - f.size - f.reserved := by
  have hb := h.bounded
  have hpow : (2 : Nat) ^ 32 ≤ 2 ^ w := Nat.pow_le_pow_right (by omega) hw
  have hpow' : ((2 : Int) ^ w) = ((2 ^ w : Nat) : Int) := by push_cast; rfl
  unfold availUnsigned
  rw [h.avail_eq, Int.emod_eq_of_lt (by omega) (by omega), Int.toNat_natCast]

theorem reserve (h : Sound f) (hs : f.reserve n = .ok g) :
    Sound g ∧ g.reserved = f.reserved + n ∧ g.fifo = f.fifo ∧ g.pushed = f.pushed ∧
      g.maxsize = f.maxsize := by
  have hroom := h.room
  have hb := h.bounded
  obtain ⟨_, hle, rfl⟩ := map_eq_ok.mp hs
  have hle' : n ≤ f.maxsize - f.size - f.reserved := by
    rw [← h.availUnsigned_eq le_rfl]
    simpa [simAssert_eq_ok] using hle
  have hmod : (f.reserved + n) % 2 ^ 32 = f.reserved + n := Nat.mod_eq_of_lt (by omega)
  refine ⟨⟨h.size_eq, ?_, hb, h.filled⟩, hmod, rfl, rfl, rfl⟩
  change f.size + (f.reserved + n) % 2 ^ 32 ≤ f.maxsize
  omega

theorem reserve_returns (h : Sound f) (hn : n ≤ f.maxsize - f.size - f.reserved) :
    ∃ g, f.reserve n = .ok g := by
  unfold PacketFifo.reserve
  rw [simAssert_of (by simpa [h.availUnsigned_eq le_rfl] using hn)]
  exact ⟨_, rfl⟩

theorem push (h : Sound f) (hpos : 0 < p.length) (hres : p.length ≤ f.reserved) :
    f.push p = .ok (true, f.add p) ∧ Sound (f.add p) ∧
      (f.add p).reserved = f.reserved - p.length := by
  have hroom := h.room
  have hb := h.bounded
  have hreserved : (f.add p).reserved = f.reserved - p.length := by
    unfold add
    simp only
    split <;> omega
  refine ⟨?_, ⟨?_, ?_, hb, ?_⟩, hreserved⟩
  · unfold PacketFifo.push
    have hfits : ¬ f.maxsize < (f.size + p.length) % 2 ^ 32 := by
      omega
    have hrequired : ¬ f.avail < max 0 ((p.length : Int) - f.reserved) := by
      rw [h.avail_eq]
      omega
    rw [simAssert_of (by simpa using Nat.pos_iff_ne_zero.mp hpos), if_neg hrequired,
      if_neg hfits]
    rfl
  · simp [add, h.size_eq]
  · rw [hreserved]
    change f.size + p.length + (f.reserved - p.length) ≤ f.maxsize
    omega
  · intro q hq
    rcases mem_append.mp hq with hq | hq
    · exact h.filled q hq
    · rw [mem_singleton.mp hq]
      exact hpos

theorem pop (h : Sound f) : Sound f.pop ∧ f.pop.reserved = f.reserved ∧
    f.pop.pushed = f.pushed ∧ f.pop.maxsize = f.maxsize ∧ f.pop.fifo = f.fifo.tail := by
  unfold PacketFifo.pop
  cases hf : f.fifo with
  | nil => exact ⟨h, rfl, rfl, rfl, hf⟩
  | cons p rest =>
    have hsize := h.size_eq
    have hpos := h.filled p (by rw [hf]; exact mem_cons_self)
    rw [hf, map_cons, sum_cons] at hsize
    have hroom := h.room
    simp only
    rw [if_neg (by omega)]
    refine ⟨⟨?_, ?_, h.bounded, ?_⟩, rfl, rfl, rfl, rfl⟩
    · change f.size - p.length = (rest.map EthPacketData.length).sum
      omega
    · change f.size - p.length + f.reserved ≤ f.maxsize
      omega
    · intro q hq
      exact h.filled q (by rw [hf]; exact mem_cons_of_mem p hq)

end Sound

end PacketFifo

end Gem5.IGbE
