import Gem5.Base.Stripes
import Gem5.Shared.MixedRadix
import Mathlib.Data.Set.Card

/-!
# The banks and rows of a memory channel

`decodePacket` splits the packed address of a burst into column, bank, rank and row, in an order
that the mapping gives. All sizes are powers of two and are given by their exponents.
-/

namespace Gem5.Mem

open Nat

open Base Finset

inductive AddrMap where
  | roRaBaChCo
  | roRaBaCoCh
  | roCoRaBaCh
  deriving DecidableEq

structure MemInterface where
  burstBits : Nat
  columnBits : Nat
  stripeBits : Nat
  bankBits : Nat
  rankBits : Nat
  rowBits : Nat
  banks_le : bankBits ≤ 8
  /-- The number of rows has 32 bits. -/
  rows_lt : rowBits < 32

namespace MemInterface

variable (m : MemInterface)

def burstSize : Nat := 2 ^ m.burstBits

def burstsPerRowBuffer : Nat := 2 ^ m.columnBits

def burstsPerStripe : Nat := 2 ^ m.stripeBits

def banksPerRank : Nat := 2 ^ m.bankBits

def ranksPerChannel : Nat := 2 ^ m.rankBits

def rowsPerBank : Nat := 2 ^ m.rowBits

def bursts : Nat := m.burstsPerRowBuffer * (m.banksPerRank * (m.ranksPerChannel * m.rowsPerBank))

structure Decoded where
  rank : Nat
  bank : Nat
  row : Nat
  deriving DecidableEq

/-- What comes of the address when the low part of the column has been removed; `high` is the
part between rank and row. Rank and bank have eight bits. -/
def split (high addr : Nat) : Decoded where
  bank := addr % m.banksPerRank % 256
  rank := addr / m.banksPerRank % m.ranksPerChannel % 256
  row := addr / m.banksPerRank / m.ranksPerChannel / high % m.rowsPerBank

def decode (mapping : AddrMap) (addr : Nat) : Decoded :=
  match mapping with
  | .roRaBaChCo | .roRaBaCoCh => m.split 1 (addr / m.burstsPerRowBuffer)
  | .roCoRaBaCh =>
    -- the columns may lie within one stripe
    let addr := if m.burstsPerStripe > m.burstsPerRowBuffer then addr / m.burstsPerRowBuffer
      else addr / m.burstsPerStripe
    m.split (if m.burstsPerStripe < m.burstsPerRowBuffer then
      m.burstsPerRowBuffer / m.burstsPerStripe else 1) addr

def noRow : Nat := 2 ^ 32 - 1

def bankId (d : Decoded) : Nat := (m.banksPerRank * d.rank + d.bank) % 2 ^ 16

def getCtrlAddr (range : AddrRange) (addr : BitVec 64) : Nat := (range.getOffset addr).toNat

def decodePacket (mapping : AddrMap) (range : AddrRange) (pktAddr : BitVec 64) :
    Sim (Decoded × Nat) := do
  let d := m.decode mapping (getCtrlAddr range pktAddr / m.burstSize)
  simAssert (decide (d.rank < m.ranksPerChannel))
  simAssert (decide (d.bank < m.banksPerRank))
  simAssert (decide (d.row < m.rowsPerBank))
  simAssert (decide (d.row < noRow))
  pure (d, m.bankId d)

def hits (mapping : AddrMap) (range : AddrRange) (d : Decoded) : Set (BitVec 64) :=
  {a | range.contains a = true ∧ m.burstSize ∣ getCtrlAddr range a ∧
    m.decodePacket mapping range a = .ok (d, m.bankId d)}

variable {m : MemInterface} {mapping : AddrMap} {range : AddrRange} {a : BitVec 64} {d : Decoded}

section Digits

theorem decode_eq_split (mapping : AddrMap) : ∃ low high, 0 < low ∧ 0 < high ∧
    low * high = m.burstsPerRowBuffer ∧ ∀ addr,
      m.decode mapping addr = m.split high (addr / low) := by
  have hpos : ∀ n, 0 < 2 ^ n := Nat.two_pow_pos
  cases mapping with
  | roRaBaChCo | roRaBaCoCh => exact ⟨_, 1, hpos _, Nat.one_pos, Nat.mul_one _, fun _ => rfl⟩
  | roCoRaBaCh =>
    rcases Nat.lt_trichotomy m.burstsPerStripe m.burstsPerRowBuffer with hlt | heq | hgt
    · have hle : m.stripeBits ≤ m.columnBits :=
        ((Nat.pow_lt_pow_iff_right Nat.one_lt_two).mp hlt).le
      have hdvd : m.burstsPerStripe ∣ m.burstsPerRowBuffer := Nat.pow_dvd_pow 2 hle
      refine ⟨m.burstsPerStripe, m.burstsPerRowBuffer / m.burstsPerStripe, hpos _,
        Nat.div_pos hlt.le (hpos _), Nat.mul_div_cancel' hdvd, fun addr => ?_⟩
      rw [decode, if_neg (Nat.lt_asymm hlt), if_pos hlt]
    · refine ⟨m.burstsPerRowBuffer, 1, hpos _, Nat.one_pos, Nat.mul_one _, fun addr => ?_⟩
      rw [decode, if_neg (le_of_eq heq).not_gt, if_neg (le_of_eq heq.symm).not_gt, heq]
    · refine ⟨m.burstsPerRowBuffer, 1, hpos _, Nat.one_pos, Nat.mul_one _, fun addr => ?_⟩
      rw [decode, if_pos hgt, if_neg (Nat.lt_asymm hgt)]

theorem bank_mod (addr : Nat) : addr % m.banksPerRank % 256 = addr % m.banksPerRank :=
  mod_eq_of_lt (lt_of_lt_of_le (mod_lt _ (Nat.two_pow_pos _))
    (Nat.pow_le_pow_right Nat.two_pos m.banks_le))

theorem rank_mod (hranks : m.ranksPerChannel ≤ 256) (addr : Nat) :
    addr % m.ranksPerChannel % 256 = addr % m.ranksPerChannel :=
  mod_eq_of_lt (lt_of_lt_of_le (mod_lt _ (Nat.two_pow_pos _)) hranks)

theorem decode_bounds (addr : Nat) : (m.decode mapping addr).rank < m.ranksPerChannel ∧
    (m.decode mapping addr).bank < m.banksPerRank ∧
      (m.decode mapping addr).row < m.rowsPerBank := by
  obtain ⟨low, high, -, -, -, hsplit⟩ := m.decode_eq_split mapping
  rw [hsplit]
  exact ⟨(mod_le _ _).trans_lt (mod_lt _ (Nat.two_pow_pos _)),
    (mod_le _ _).trans_lt (mod_lt _ (Nat.two_pow_pos _)), mod_lt _ (Nat.two_pow_pos _)⟩

theorem decodePacket_eq : m.decodePacket mapping range a =
    .ok (m.decode mapping (getCtrlAddr range a / m.burstSize),
      m.bankId (m.decode mapping (getCtrlAddr range a / m.burstSize))) := by
  obtain ⟨hrank, hbank, hrow⟩ := @decode_bounds m mapping (getCtrlAddr range a / m.burstSize)
  have hlast : (m.decode mapping (getCtrlAddr range a / m.burstSize)).row < noRow := by
    have hrows : m.rowsPerBank ≤ 2 ^ 31 :=
      Nat.pow_le_pow_right Nat.two_pos (le_of_lt_succ m.rows_lt)
    unfold noRow
    omega
  simp only [decodePacket, decide_eq_true hrank, decide_eq_true hbank, decide_eq_true hrow,
    decide_eq_true hlast, simAssert_true, sim_ok_bind, sim_pure]

theorem card_decode (hranks : m.ranksPerChannel ≤ 256) (hrank : d.rank < m.ranksPerChannel)
    (hbank : d.bank < m.banksPerRank) (hrow : d.row < m.rowsPerBank) :
    #{x ∈ Finset.range m.bursts | m.decode mapping x = d} = m.burstsPerRowBuffer := by
  obtain ⟨low, high, hlow, hhigh, hcols, hsplit⟩ := m.decode_eq_split mapping
  have htotal : m.bursts =
      low * (m.banksPerRank * (m.ranksPerChannel * (high * m.rowsPerBank))) := by
    rw [bursts, ← hcols, Nat.mul_assoc, Nat.mul_left_comm high, Nat.mul_left_comm high]
  have hiff : ∀ x, m.decode mapping x = d ↔ x / low % m.banksPerRank = d.bank ∧
      x / low / m.banksPerRank % m.ranksPerChannel = d.rank ∧
      x / low / m.banksPerRank / m.ranksPerChannel / high % m.rowsPerBank = d.row := by
    intro x
    rw [hsplit, split, bank_mod, rank_mod hranks]
    rw [Decoded.mk.injEq]
    exact ⟨fun h => ⟨h.2.1, h.1, h.2.2⟩, fun h => ⟨h.2.1, h.1, h.2.2⟩⟩
  have hone : #{w ∈ Finset.range m.rowsPerBank | w % m.rowsPerBank = d.row} = 1 := by
    rw [card_eq_one]
    refine ⟨d.row, ext fun w => ?_⟩
    rw [mem_filter, mem_range, mem_singleton]
    constructor
    · rintro ⟨hw, hmod⟩
      rwa [mod_eq_of_lt hw] at hmod
    · rintro rfl
      exact ⟨hrow, mod_eq_of_lt hrow⟩
  simp only [hiff, htotal]
  -- one digit after the other, from the lowest
  rw [MixedRadix.card_rest (P := fun y => y % m.banksPerRank = d.bank ∧
      y / m.banksPerRank % m.ranksPerChannel = d.rank ∧
      y / m.banksPerRank / m.ranksPerChannel / high % m.rowsPerBank = d.row) hlow,
    MixedRadix.card_digit (P := fun y => y % m.ranksPerChannel = d.rank ∧
      y / m.ranksPerChannel / high % m.rowsPerBank = d.row) hbank,
    MixedRadix.card_digit (P := fun y => y / high % m.rowsPerBank = d.row) hrank,
    MixedRadix.card_rest (P := fun w => w % m.rowsPerBank = d.row) hhigh, hone, Nat.mul_one, hcols]

end Digits

theorem ncard_hits (hr : range.Numbered) (hsize : range.size.toNat = m.burstSize * m.bursts) :
    (m.hits mapping range d).ncard = #{x ∈ Finset.range m.bursts | m.decode mapping x = d} := by
  have hpos : 0 < m.burstSize := Nat.two_pow_pos _
  have hin : ∀ a, range.contains a = true → getCtrlAddr range a < m.burstSize * m.bursts := by
    intro a ha
    rw [← hsize]
    exact hr.inside a ha
  have hinj : ∀ a b, range.contains a = true → range.contains b = true →
      getCtrlAddr range a = getCtrlAddr range b → a = b := by
    intro a b ha hb hab
    rcases BitVec.lt_trichotomy a b with hlt | heq | hgt
    · exact absurd hab (Nat.ne_of_lt (hr.mono a b ha hb hlt))
    · exact heq
    · exact absurd hab.symm (Nat.ne_of_lt (hr.mono b a hb ha hgt))
  rw [← Set.ncard_coe_finset]
  refine Set.ncard_congr (fun a _ => getCtrlAddr range a / m.burstSize) ?_ ?_ ?_
  · intro a ⟨ha, hdvd, hdec⟩
    rw [decodePacket_eq] at hdec
    rw [mem_coe, mem_filter, mem_range]
    exact ⟨Nat.div_lt_of_lt_mul (hin a ha), congrArg Prod.fst (Except.ok.inj hdec)⟩
  · intro a b ⟨ha, hda, _⟩ ⟨hb, hdb, _⟩ hab
    exact hinj a b ha hb (Nat.div_left_inj hda hdb |>.mp hab)
  · intro x hx
    rw [mem_coe, mem_filter, mem_range] at hx
    have hlt : m.burstSize * x < range.size.toNat := by
      rw [hsize]
      exact Nat.mul_lt_mul_of_pos_left hx.1 hpos
    have hnat : (BitVec.ofNat 64 (m.burstSize * x)).toNat = m.burstSize * x := by
      exact mod_eq_of_lt (hlt.trans range.size.isLt)
    obtain ⟨a, ha, hoff⟩ := hr.onto (BitVec.ofNat 64 (m.burstSize * x)) (by
      rw [BitVec.lt_def, hnat]
      exact hlt)
    have hctrl : getCtrlAddr range a = m.burstSize * x := by rw [getCtrlAddr, hoff, hnat]
    have hdiv : getCtrlAddr range a / m.burstSize = x := by
      rw [hctrl, Nat.mul_div_cancel_left x hpos]
    refine ⟨a, ⟨ha, ⟨x, hctrl⟩, ?_⟩, hdiv⟩
    rw [decodePacket_eq, hdiv, hx.2]

/-- With at most 256 ranks every bank and row of the channel gets the bursts of one row buffer,
and the number of a bank determines rank and bank. -/
theorem decode_partitions_channel (m : MemInterface) (mapping : AddrMap) (range : AddrRange)
    (hranks : m.ranksPerChannel ≤ 256) (hr : range.Numbered)
    (hsize : range.size.toNat = m.burstSize * m.bursts) :
    (∀ a, ∃ d, m.decodePacket mapping range a = .ok (d, m.bankId d) ∧
      d.rank < m.ranksPerChannel ∧ d.bank < m.banksPerRank ∧ d.row < m.rowsPerBank) ∧
    (∀ d : Decoded, d.rank < m.ranksPerChannel → d.bank < m.banksPerRank →
      d.row < m.rowsPerBank → (m.hits mapping range d).ncard = m.burstsPerRowBuffer) ∧
    ∀ a b d e, m.decodePacket mapping range a = .ok (d, m.bankId d) →
      m.decodePacket mapping range b = .ok (e, m.bankId e) → m.bankId d = m.bankId e →
      d.rank = e.rank ∧ d.bank = e.bank := by
  refine ⟨fun a => ⟨_, decodePacket_eq, decode_bounds _⟩, fun d hrank hbank hrow => ?_,
    fun a b d e hd he hid => ?_⟩
  · rw [ncard_hits hr hsize, card_decode hranks hrank hbank hrow]
  · have hdecoded : ∀ {a d}, m.decodePacket mapping range a = .ok (d, m.bankId d) →
        d.rank < 256 ∧ d.bank < m.banksPerRank := by
      intro a d h
      rw [decodePacket_eq] at h
      obtain ⟨rfl, -⟩ := Prod.mk.inj (Except.ok.inj h)
      exact ⟨(decode_bounds _).1.trans_le hranks, (decode_bounds _).2.1⟩
    have hbanks : m.banksPerRank ≤ 256 := Nat.pow_le_pow_right Nat.two_pos m.banks_le
    have hsmall : ∀ d : Decoded, d.rank < 256 → d.bank < m.banksPerRank →
        m.bankId d = m.banksPerRank * d.rank + d.bank := by
      intro d hrank hbank
      have hle : m.banksPerRank * d.rank ≤ 256 * 255 := Nat.mul_le_mul hbanks (by omega)
      exact mod_eq_of_lt (by omega)
    obtain ⟨hdr, hdb⟩ := hdecoded hd
    obtain ⟨her, heb⟩ := hdecoded he
    rw [hsmall d hdr hdb, hsmall e her heb] at hid
    exact MixedRadix.mul_add_inj hdb heb hid

/-- The channels of an interleaved memory. -/
theorem ncard_hits_stripe {start endAddr : BitVec 64} {masks : List (BitVec 64)}
    (hnz : ∀ x ∈ masks, x ≠ 0) (hdis : masks.Pairwise fun x y => x &&& y = 0)
    (halign : ∀ x ∈ masks, 2 ^ (ctz64 x + 1) ∣ start.toNat ∧ 2 ^ (ctz64 x + 1) ∣ endAddr.toNat)
    (hle : start ≤ endAddr) {k : Fin (2 ^ masks.length)} (hranks : m.ranksPerChannel ≤ 256)
    (hsize : (AddrRange.stripe start endAddr masks k).size.toNat = m.burstSize * m.bursts)
    (hrank : d.rank < m.ranksPerChannel) (hbank : d.bank < m.banksPerRank)
    (hrow : d.row < m.rowsPerBank) :
    (m.hits mapping (AddrRange.stripe start endAddr masks k) d).ncard = m.burstsPerRowBuffer := by
  rw [ncard_hits (AddrRange.stripe_numbered hnz hdis halign hle k) hsize,
    card_decode hranks hrank hbank hrow]

/-- Two of everything, with bursts of 64 bytes. -/
def pairs : MemInterface where
  burstBits := 6
  columnBits := 1
  stripeBits := 0
  bankBits := 1
  rankBits := 1
  rowBits := 1
  banks_le := by decide
  rows_lt := by decide

theorem decode_partitions_channel_pairs :
    (pairs.hits .roCoRaBaCh (AddrRange.stripe 0 1024 [] 0) ⟨1, 1, 1⟩).ncard = 2 :=
  (decode_partitions_channel pairs .roCoRaBaCh (AddrRange.stripe 0 1024 [] 0) (by decide)
    (AddrRange.numbered_plain rfl rfl (by decide)) (by decide)).2.1 ⟨1, 1, 1⟩ (by decide)
    (by decide)
    (by decide)

/-- One bank and one row in each of 512 ranks, with bursts of one byte. -/
def manyRanks : MemInterface where
  burstBits := 0
  columnBits := 0
  stripeBits := 0
  bankBits := 0
  rankBits := 9
  rowBits := 0
  banks_le := zero_le 8
  rows_lt := by decide

/-- No burst is decoded to a rank from 256 on. -/
theorem upper_ranks_unused :
    (manyRanks.hits .roRaBaChCo (AddrRange.stripe 0 512 [] 0) ⟨256, 0, 0⟩).ncard ≠
      manyRanks.burstsPerRowBuffer := by
  have hnone : manyRanks.hits .roRaBaChCo (AddrRange.stripe 0 512 [] 0) ⟨256, 0, 0⟩ = ∅ := by
    refine Set.eq_empty_of_forall_notMem fun a ⟨_, _, hdec⟩ => ?_
    rw [decodePacket_eq] at hdec
    have hrank := congrArg (fun p => p.1.rank) (Except.ok.inj hdec)
    exact absurd hrank (Nat.ne_of_lt (mod_lt _ (by decide)))
  rw [hnone, Set.ncard_empty]
  decide

end MemInterface

end Gem5.Mem
