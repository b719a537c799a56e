import Gem5.Mem.DramAddress

/-!
# First-ready scheduling of DRAM packets

`chooseNextFRFCFS` goes through the queue once. It takes the first row hit that needs no delay;
failing that, it remembers the first row hit and the first row miss to one of the banks that
`minBankPrep` finds to be ready first.
-/

namespace Gem5.Mem

open List Bool

structure Bank where
  openRow : Nat
  rdAllowedAt : Nat
  wrAllowedAt : Nat
  preAllowedAt : Nat
  actAllowedAt : Nat

structure DramPacket (ranks banks : Nat) where
  isDram : Bool
  isRead : Bool
  rank : Fin ranks
  bank : Fin banks
  row : Nat

/-- The state that the scheduler reads. A mask has a bit for each of the 32 banks of a rank. -/
structure DRAMInterface (ranks banks : Nat) where
  bank : Fin ranks → Fin banks → Bank
  inRefIdleState : Fin ranks → Bool
  inReadBusState : Bool
  tRCD : Nat
  tRP : Nat
  curTick : Nat
  few : banks ≤ 32

/-- What `minBankPrep` keeps of the banks it has seen. -/
structure BankPrep (ranks banks : Nat) where
  minActAt : Nat
  mask : Fin ranks × Fin banks → Bool
  foundSeamless : Bool
  hidden : Bool

/-- What `chooseNextFRFCFS` keeps; the packet selected is given by its place. -/
structure Pick (ranks banks : Nat) where
  earliest : Option (BankPrep ranks banks)
  foundHidden : Bool
  foundPrepped : Bool
  foundEarliest : Bool
  selected : Option Nat
  colAt : Nat

namespace DRAMInterface

open MemInterface (noRow)

variable {ranks banks : Nat}

def bankId (b : Fin ranks × Fin banks) : Nat := (b.1 * banks + b.2) % 2 ^ 16

def place (p : DramPacket ranks banks) : Fin ranks × Fin banks := (p.rank, p.bank)

variable (s : DRAMInterface ranks banks) (minColAt : Nat)

def burstReady (p : DramPacket ranks banks) : Bool := s.inRefIdleState p.rank

def waiting (queue : List (DramPacket ranks banks)) (id : Nat) : Bool :=
  queue.any fun p => p.isDram && s.inRefIdleState p.rank && bankId (place p) == id

/-- Ticks have 64 bits. -/
def actAt (b : Fin ranks × Fin banks) : Nat :=
  (if (s.bank b.1 b.2).openRow = noRow then max (s.bank b.1 b.2).actAllowedAt s.curTick
    else max (s.bank b.1 b.2).preAllowedAt s.curTick + s.tRP) % 2 ^ 64

def colAt (b : Fin ranks × Fin banks) : Nat :=
  max (if s.inReadBusState then (s.bank b.1 b.2).rdAllowedAt else (s.bank b.1 b.2).wrAllowedAt)
    ((s.actAt b + s.tRCD) % 2 ^ 64)

def hiddenActMax : Nat := max ((minColAt + 2 ^ 64 - s.tRCD) % 2 ^ 64) s.curTick

def seamless (b : Fin ranks × Fin banks) : Bool := decide (s.colAt b ≤ minColAt)

def prepStep (queue : List (DramPacket ranks banks)) (p : BankPrep ranks banks)
    (b : Fin ranks × Fin banks) : Sim (BankPrep ranks banks) :=
  if s.waiting queue (bankId b) then do
    simAssert (s.inRefIdleState b.1)
    if s.seamless minColAt b || (!p.foundSeamless && decide (s.actAt b ≤ p.minActAt)) then
      let mask := if !p.foundSeamless && (s.seamless minColAt b || decide (s.actAt b < p.minActAt))
        then fun _ => false else p.mask
      pure ⟨s.actAt b, Function.update mask b true, p.foundSeamless || s.seamless minColAt b,
        decide (s.actAt b ≤ s.hiddenActMax minColAt)⟩
    else pure p
  else pure p

def rowHit (p : DramPacket ranks banks) : Bool := (s.bank p.rank p.bank).openRow == p.row

def ready (p : DramPacket ranks banks) : Bool := p.isDram && s.burstReady p

def readyHit (p : DramPacket ranks banks) : Bool := s.ready p && s.rowHit p

def readyMiss (mask : Fin ranks × Fin banks → Bool) (p : DramPacket ranks banks) : Bool :=
  s.ready p && !s.rowHit p && mask (place p)

def Waits (queue : List (DramPacket ranks banks)) (b : Fin ranks × Fin banks) : Prop :=
  ∃ p ∈ queue, s.ready p = true ∧ place p = b

def First (queue : List (DramPacket ranks banks)) (b : Fin ranks × Fin banks) : Prop :=
  s.Waits queue b ∧ (s.seamless minColAt b = true ∨
    (∀ c, s.Waits queue c → s.seamless minColAt c = false ∧ s.actAt b ≤ s.actAt c))

variable {s minColAt} {queue : List (DramPacket ranks banks)} {b : Fin ranks × Fin banks}

section Prep

theorem bankId_inj (h : ranks * banks ≤ 2 ^ 16) {b c : Fin ranks × Fin banks}
    (hbc : bankId b = bankId c) : b = c := by
  have hsmall : ∀ b : Fin ranks × Fin banks, bankId b = b.1 * banks + b.2 := by
    intro b
    refine Nat.mod_eq_of_lt (lt_of_lt_of_le ?_ h)
    calc b.1 * banks + b.2 < b.1 * banks + banks := Nat.add_lt_add_left b.2.isLt _
      _ = (b.1 + 1) * banks := (Nat.succ_mul _ _).symm
      _ ≤ ranks * banks := Nat.mul_le_mul_right _ b.1.isLt
  rw [hsmall, hsmall, mul_comm, mul_comm c.1.val] at hbc
  obtain ⟨hrank, hbank⟩ := MixedRadix.mul_add_inj b.2.isLt c.2.isLt hbc
  exact Prod.ext (Fin.ext hrank) (Fin.ext hbank)

theorem waiting_iff (h : ranks * banks ≤ 2 ^ 16) :
    s.waiting queue (bankId b) = true ↔ s.Waits queue b := by
  rw [waiting, any_eq_true]
  refine exists_congr fun p => and_congr_right fun _ => ?_
  rw [and_eq_true, beq_iff_eq]
  exact and_congr_right fun _ => ⟨bankId_inj h, fun hp => by rw [hp]⟩

def key (s : DRAMInterface ranks banks) (minColAt : Nat) (b : Fin ranks × Fin banks) : Nat :=
  if s.seamless minColAt b then 0 else s.actAt b + 1

def BankPrep.least (p : BankPrep ranks banks) : Nat := if p.foundSeamless then 0 else p.minActAt + 1

structure Prepared (s : DRAMInterface ranks banks) (minColAt : Nat)
    (queue : List (DramPacket ranks banks)) (l : List (Fin ranks × Fin banks))
    (p : BankPrep ranks banks) : Prop where
  le : ∀ c ∈ l, s.Waits queue c → BankPrep.least p ≤ s.key minColAt c
  mask : ∀ c, p.mask c = true ↔ c ∈ l ∧ s.Waits queue c ∧ s.key minColAt c = BankPrep.least p
  attained : BankPrep.least p = maxTick + 1 ∨
    ∃ c ∈ l, s.Waits queue c ∧ s.key minColAt c = BankPrep.least p

theorem prepStep_eq {p : BankPrep ranks banks} (hw : s.waiting queue (bankId b) = true)
    (hidle : s.inRefIdleState b.1 = true) : ∃ hidden, s.prepStep minColAt queue p b =
      if s.key minColAt b ≤ BankPrep.least p then
        .ok ⟨s.actAt b, Function.update (if s.key minColAt b < BankPrep.least p then fun _ => false
          else p.mask) b true, p.foundSeamless || s.seamless minColAt b, hidden⟩
      else .ok p := by
  refine ⟨decide (s.actAt b ≤ s.hiddenActMax minColAt), ?_⟩
  rw [prepStep, if_pos hw, hidle, key, BankPrep.least]
  cases s.seamless minColAt b <;> cases p.foundSeamless <;> simp

theorem least_update (p : BankPrep ranks banks) (mask : Fin ranks × Fin banks → Bool)
    (hidden : Bool)
    (h : s.key minColAt b ≤ BankPrep.least p) : BankPrep.least
      ⟨s.actAt b, mask, p.foundSeamless || s.seamless minColAt b, hidden⟩ = s.key minColAt b := by
  unfold key BankPrep.least at *
  cases hs : s.seamless minColAt b <;> cases hf : p.foundSeamless <;> simp_all

section Step

variable {l : List (Fin ranks × Fin banks)} {p : BankPrep ranks banks}

theorem Prepared.keep (h : Prepared s minColAt queue l p)
    (hb : s.Waits queue b → BankPrep.least p < s.key minColAt b) :
    Prepared s minColAt queue (l ++ [b]) p := by
  obtain ⟨hle, hmask, hattained⟩ := h
  constructor <;> grind

theorem Prepared.take {hidden : Bool} (h : Prepared s minColAt queue l p) (hb : s.Waits queue b)
    (hle : s.key minColAt b ≤ BankPrep.least p) : Prepared s minColAt queue (l ++ [b])
      ⟨s.actAt b, Function.update (if s.key minColAt b < BankPrep.least p then fun _ => false
        else p.mask) b true, p.foundSeamless || s.seamless minColAt b, hidden⟩ := by
  obtain ⟨hleast, hmask, hattained⟩ := h
  refine ⟨?_, ?_, ?_⟩ <;> rw [least_update p _ _ hle]
  · grind
  · intro c
    by_cases hcb : c = b <;> grind
  · exact .inr ⟨b, by simp, hb, rfl⟩

theorem Prepared.step (hid : ranks * banks ≤ 2 ^ 16) (h : Prepared s minColAt queue l p) :
    ∃ q, s.prepStep minColAt queue p b = .ok q ∧ Prepared s minColAt queue (l ++ [b]) q := by
  by_cases hw : s.waiting queue (bankId b) = true
  · have hwaits := (waiting_iff hid).mp hw
    obtain ⟨x, -, hready, hplace⟩ := id hwaits
    have hidle : s.inRefIdleState b.1 = true := hplace ▸ ((and_eq_true _ _).mp hready).2
    obtain ⟨hidden, heq⟩ := prepStep_eq (p := p) hw hidle
    rw [heq]
    split
    · rename_i hle
      exact ⟨_, rfl, h.take hwaits hle⟩
    · rename_i hgt
      exact ⟨p, rfl, h.keep fun _ => Nat.not_le.mp hgt⟩
  · refine ⟨p, by rw [prepStep, if_neg hw]; rfl, h.keep fun hb => ?_⟩
    exact absurd ((waiting_iff hid).mpr hb) hw

end Step

end Prep

section Choice

variable {pre rest : List (DramPacket ranks banks)} {k : Pick ranks banks}
  {prep : BankPrep ranks banks} {p : DramPacket ranks banks}

structure Chosen (prep : BankPrep ranks banks) (hit miss : Option Nat) (k : Pick ranks banks) :
    Prop where
  earliest : k.earliest = none ∨ k.earliest = some prep
  found : k.foundEarliest = miss.isSome
  hidden : k.foundHidden = true → k.foundEarliest = true
  open' : k.foundHidden = true ∨ k.foundPrepped = true ∨ hit = none
  kept : k.foundEarliest = true ∨ k.foundPrepped = true → k.selected.isSome
  selected : k.selected.isSome → k.selected = hit ∨ k.selected = miss

section Flags

variable {hit miss x y : Option Nat} {n col : Nat}

end Flags

def ChosenAmong (s : DRAMInterface ranks banks) (prep : BankPrep ranks banks)
    (pre : List (DramPacket ranks banks)) (k : Pick ranks banks) : Prop :=
  Chosen prep (pre.findIdx? s.readyHit) (pre.findIdx? (s.readyMiss prep.mask)) k

end Choice

theorem exists_first (h : s.Waits queue b) : ∃ c, s.First minColAt queue c := by
  by_cases hs : ∃ c, s.Waits queue c ∧ s.seamless minColAt c = true
  · obtain ⟨c, hc, hseamless⟩ := hs
    exact ⟨c, hc, .inl hseamless⟩
  · obtain ⟨c, hc, hmin⟩ := (measure s.actAt).wf.has_min {c | s.Waits queue c} ⟨b, h⟩
    refine ⟨c, hc, .inr fun d hd => ⟨?_, not_lt.mp (hmin d hd)⟩⟩
    exact eq_false_iff.mpr fun hx => hs ⟨d, hd, hx⟩

theorem ChosenAmong.not_ready {k : Pick ranks banks} {prep : BankPrep ranks banks}
    (h : ChosenAmong s prep queue k) (hmask : ∀ b, prep.mask b = true ↔ s.First minColAt queue b)
    (hk : k.selected = none) : ∀ p ∈ queue, s.ready p = false := by
  obtain ⟨-, hfound, hhidden, hopen, hkept, -⟩ := h
  intro p hp
  by_contra hready
  rw [not_eq_false] at hready
  obtain ⟨c, hc⟩ : ∃ c, s.First minColAt queue c := exists_first ⟨p, hp, hready, rfl⟩
  obtain ⟨q, hq, hqready, rfl⟩ := hc.1
  grind [readyHit, readyMiss]

section Refreshing

/-- All banks closed; the rank after the first `2 ^ 16` banks is being refreshed. -/
def manyRanks : DRAMInterface 4096 32 :=
  ⟨fun _ _ => ⟨noRow, 0, 0, 0, 0⟩, fun i => decide (i ≠ 2048), true, 4, 4, 0, by decide⟩

end Refreshing

end DRAMInterface

end Gem5.Mem
