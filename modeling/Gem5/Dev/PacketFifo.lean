import Gem5.IGbE.EthPacket
import Gem5.Shared.Numbered
import Gem5.Shared.Reachability

/-!
# The packet fifo with its positions

An entry of the fifo has the number of its push. `remove` takes an entry out of the middle and
leaves its bytes to the entry in front as slack, so that the bytes of the fifo stay the same. The
entries in front of an entry and behind it are counted by their numbers, which is right as long as
no number is missing. Sizes are unsigned numbers of 32 bits. The numbers are not reduced modulo
2 ^ 64: only their differences are read, and these are reduced.
-/

namespace Gem5.Dev

open List IGbE

/-- The conversion to an `int`. -/
def int32 (n : Int) : Int := Int.bmod n (2 ^ 32)

/-- The difference of unsigned numbers. -/
def sub32 (a b : Nat) : Nat := (((a : Int) - b) % 2 ^ 32).toNat

theorem int32_of_lt {n : Nat} (h : n < 2 ^ 31) : int32 n = n := by
  rw [int32, Int.bmod_def]
  omega

theorem sub32_of_le {a b : Nat} (h : b ≤ a) (ha : a < 2 ^ 32) : sub32 a b = a - b := by
  rw [sub32]
  omega

structure PacketFifoEntry where
  packet : EthPacket
  number : Nat
  slack : Nat

namespace PacketFifoEntry

def bytes (e : PacketFifoEntry) : Nat := e.packet.length + e.slack

end PacketFifoEntry

structure PacketFifo where
  fifo : List PacketFifoEntry
  counter : Nat
  maxsize : Nat
  size : Nat
  reserved : Nat

/-- The entry at position `i + 1` is removed, and the entry in front gets its bytes. -/
def absorb : List PacketFifoEntry → Nat → List PacketFifoEntry
  | e :: f :: rest, 0 =>
    { e with slack := (e.slack + f.packet.length + f.slack) % 2 ^ 32 } :: rest
  | e :: rest, i + 1 => e :: absorb rest i
  | l, _ => l

namespace PacketFifo

def construct (max : Nat) : PacketFifo := ⟨[], 0, max, 0, 0⟩

def avail (f : PacketFifo) : Int := int32 f.maxsize - int32 f.size - int32 f.reserved

/-- The available space is compared as an unsigned number. -/
def reserve (len : Nat) (f : PacketFifo) : Sim PacketFifo := do
  simAssert (len ≤ (f.avail % 2 ^ 32).toNat)
  return { f with reserved := (f.reserved + len) % 2 ^ 32 }

def add (p : EthPacket) (f : PacketFifo) : PacketFifo :=
  { f with
    fifo := f.fifo ++ [⟨p, f.counter, 0⟩]
    counter := f.counter + 1
    size := (f.size + p.length) % 2 ^ 32
    reserved := if p.length < f.reserved then f.reserved - p.length else 0 }

def push (p : EthPacket) (f : PacketFifo) : Sim (Bool × PacketFifo) := do
  simAssert (p.length != 0)
  return if f.avail < max 0 (int32 p.length - int32 f.reserved) then (false, f)
    else if f.maxsize < (f.size + p.length) % 2 ^ 32 then (false, f)
    else (true, f.add p)

def pop (f : PacketFifo) : Sim PacketFifo :=
  if f.size = 0 then .ok f
  else match f.fifo with
    | [] => .error .outOfBounds
    | e :: rest => .ok { f with fifo := rest, size := sub32 (sub32 f.size e.packet.length) e.slack }

def clear (f : PacketFifo) : PacketFifo := { f with fifo := [], size := 0, reserved := 0 }

/-- The iterator stands at position `i`. -/
def remove (i : Nat) (f : PacketFifo) : Sim PacketFifo :=
  match i, f.fifo with
  | _, [] => .error .outOfBounds
  | 0, e :: rest =>
    .ok { f with fifo := rest, size := sub32 (sub32 f.size e.packet.length) e.slack }
  | i + 1, _ :: rest =>
    if i < rest.length then .ok { f with fifo := absorb f.fifo i } else .error .outOfBounds

def distance (e f : Option PacketFifoEntry) : Int :=
  match e, f with
  | some e, some f => int32 (((e.number : Int) - f.number) % 2 ^ 64)
  | _, _ => 0

def countPacketsBefore (f : PacketFifo) (i : Nat) : Int := distance f.fifo[i]? f.fifo.head?

def countPacketsAfter (f : PacketFifo) (i : Nat) : Int := distance f.fifo.getLast? f.fifo[i]?

end PacketFifo

inductive FifoAct where
  | push (p : EthPacket)
  | pop
  | reserve (len : Nat)
  | remove (i : Nat)
  | clear

namespace PacketFifo

def step (f : PacketFifo) : FifoAct → Sim PacketFifo
  | .push p => (f.push p).map Prod.snd
  | .pop => f.pop
  | .reserve len => f.reserve len
  | .remove i => f.remove i
  | .clear => .ok f.clear

/-- The length of a pushed packet is an `int`. -/
def Short (_ : PacketFifo) : FifoAct → Prop
  | .push p => p.length < 2 ^ 31
  | _ => True

def AtEnds (f : PacketFifo) : FifoAct → Prop
  | .push p => p.length < 2 ^ 31 ∧ ∀ e ∈ f.fifo.getLast?, e.number + 1 = f.counter
  | .remove i => i = 0 ∨ i + 1 = f.fifo.length
  | _ => True

instance (f : PacketFifo) (a : FifoAct) : Decidable (f.AtEnds a) :=
  match a with
  | .push p => inferInstanceAs
    (Decidable (p.length < 2 ^ 31 ∧ ∀ e ∈ f.fifo.getLast?, e.number + 1 = f.counter))
  | .remove i => inferInstanceAs (Decidable (i = 0 ∨ i + 1 = f.fifo.length))
  | .pop | .reserve _ | .clear => isTrue trivial

instance (f : PacketFifo) (a : FifoAct) : Decidable (f.Short a) :=
  match a with
  | .push p => inferInstanceAs (Decidable (p.length < 2 ^ 31))
  | .remove _ | .pop | .reserve _ | .clear => isTrue trivial

end PacketFifo

section Absorb

variable {l : List PacketFifoEntry} {i : Nat} {β : Type}

theorem map_absorb {g : PacketFifoEntry → β} (hg : ∀ e k, g { e with slack := k } = g e) :
    i + 1 < l.length → (absorb l i).map g = (l.map g).eraseIdx (i + 1) := by
  intro hi
  fun_induction absorb l i with
  | case1 e f rest => simp [hg]
  | case2 e rest i ih =>
    have hi : i + 1 < rest.length := by simpa using hi
    simp [ih hi]
  | case3 l i hnil hcons =>
    match l, i, hi with
    | e :: f :: rest, 0, _ => exact absurd rfl (hnil e f rest rfl)
    | e :: f :: rest, i + 1, _ => exact absurd rfl (hcons e (f :: rest) i rfl)

theorem sum_bytes_absorb (hi : i + 1 < l.length)
    (hsum : (l.map PacketFifoEntry.bytes).sum < 2 ^ 32) :
    ((absorb l i).map PacketFifoEntry.bytes).sum = (l.map PacketFifoEntry.bytes).sum := by
  fun_induction absorb l i with
  | case1 e f rest =>
    simp only [map_cons, sum_cons, PacketFifoEntry.bytes] at hsum ⊢
    omega
  | case2 e rest i ih =>
    have hi : i + 1 < rest.length := by simpa using hi
    simp only [map_cons, sum_cons] at hsum ⊢
    rw [ih hi (by omega)]
  | case3 l i hnil hcons => rfl

end Absorb

namespace PacketFifo

variable {f g : PacketFifo} {p : EthPacket} {e : PacketFifoEntry} {i len capacity : Nat}
  {b : Bool}

def total (l : List PacketFifoEntry) : Nat := (l.map PacketFifoEntry.bytes).sum

/-- What `check` tests, with room for the bytes that are reserved. -/
structure Sound (f : PacketFifo) : Prop where
  max_lt : f.maxsize < 2 ^ 31
  size_eq : f.size = total f.fifo
  fits : f.size + f.reserved ≤ f.maxsize
  nonempty : ∀ e ∈ f.fifo, 0 < e.packet.length

theorem construct_sound (hmax : capacity < 2 ^ 31) : (construct capacity).Sound :=
  ⟨hmax, rfl, Nat.zero_le _, fun _ he => (nomatch he)⟩

theorem avail_eq (hf : f.Sound) : f.avail = ((f.maxsize - f.size - f.reserved : Nat) : Int) := by
  have hmax := hf.max_lt
  have hfits := hf.fits
  rw [avail, int32_of_lt hmax, int32_of_lt (by omega), int32_of_lt (by omega)]
  omega

theorem reserve_sound (hf : f.Sound) (h : f.reserve len = .ok g) : g.Sound := by
  have hmax := hf.max_lt
  have hfits := hf.fits
  rw [reserve, avail_eq hf] at h
  obtain ⟨_, hroom, h⟩ := bind_eq_ok.mp h
  have hroom := of_decide_eq_true (simAssert_eq_ok.mp hroom)
  cases h
  refine ⟨hmax, hf.size_eq, ?_, hf.nonempty⟩
  show f.size + (f.reserved + len) % 2 ^ 32 ≤ f.maxsize
  omega

theorem push_cases (h : f.push p = .ok (b, g)) :
    0 < p.length ∧ (g = f ∨ g = f.add p ∧ (f.size + p.length) % 2 ^ 32 ≤ f.maxsize) := by
  obtain ⟨_, hpos, h⟩ := bind_eq_ok.mp h
  have hpos : p.length ≠ 0 := by simpa using simAssert_eq_ok.mp hpos
  refine ⟨Nat.pos_of_ne_zero hpos, ?_⟩
  split at h
  next => cases h; exact .inl rfl
  next =>
    split at h
    next => cases h; exact .inl rfl
    next hsize =>
      cases h
      exact .inr ⟨rfl, Nat.not_lt.mp hsize⟩

theorem add_sound (hf : f.Sound) (hpos : 0 < p.length) (hshort : p.length < 2 ^ 31)
    (hsize : (f.size + p.length) % 2 ^ 32 ≤ f.maxsize) : (f.add p).Sound := by
  have hmax := hf.max_lt
  have hfits := hf.fits
  have hsum : (f.size + p.length) % 2 ^ 32 = f.size + p.length := Nat.mod_eq_of_lt (by omega)
  refine ⟨hmax, ?_, ?_, ?_⟩
  · show (f.size + p.length) % 2 ^ 32 = total (f.fifo ++ [⟨p, f.counter, 0⟩])
    rw [hsum, hf.size_eq]
    simp [total, PacketFifoEntry.bytes]
  · show (f.size + p.length) % 2 ^ 32 +
      (if p.length < f.reserved then f.reserved - p.length else 0) ≤
      f.maxsize
    split <;> omega
  · intro e he
    rcases mem_append.mp he with he | he
    · exact hf.nonempty e he
    · cases mem_singleton.mp he
      exact hpos

theorem tail_sound {rest : List PacketFifoEntry} (hf : f.Sound) (hfifo : f.fifo = e :: rest) :
    { f with
      fifo := rest
      size := sub32 (sub32 f.size e.packet.length) e.slack : PacketFifo }.Sound := by
  have hmax := hf.max_lt
  have hfits := hf.fits
  have htotal : f.size = e.packet.length + e.slack + total rest := by
    rw [hf.size_eq, hfifo]
    rfl
  have hsize : sub32 (sub32 f.size e.packet.length) e.slack = total rest := by
    rw [sub32_of_le (a := f.size) (by omega) (by omega), sub32_of_le (by omega) (by omega)]
    omega
  refine ⟨hmax, hsize, ?_, ?_⟩
  · show sub32 (sub32 f.size e.packet.length) e.slack + f.reserved ≤ f.maxsize
    omega
  · intro d hd
    exact hf.nonempty d (by rw [hfifo]; exact mem_cons_of_mem e hd)

theorem pop_cases (h : f.pop = .ok g) :
    g = f ∨ ∃ e rest, f.fifo = e :: rest ∧ g = { f with
      fifo := rest
      size := sub32 (sub32 f.size e.packet.length) e.slack } := by
  rw [pop] at h
  split at h
  next => cases h; exact .inl rfl
  next =>
    split at h
    next => nomatch h
    next e rest hfifo => cases h; exact .inr ⟨e, rest, hfifo, rfl⟩

theorem remove_cases (h : f.remove i = .ok g) :
    (i = 0 ∧ ∃ e rest, f.fifo = e :: rest ∧ g = { f with
      fifo := rest
      size := sub32 (sub32 f.size e.packet.length) e.slack }) ∨
    ∃ k, i = k + 1 ∧ k + 1 < f.fifo.length ∧ g = { f with fifo := absorb f.fifo k } := by
  unfold remove at h
  split at h
  next => nomatch h
  next e rest hfifo =>
    cases h
    exact .inl ⟨rfl, e, rest, hfifo, rfl⟩
  next k e rest hfifo =>
    split at h
    next hk =>
      cases h
      refine .inr ⟨k, rfl, ?_, rfl⟩
      rw [hfifo, length_cons]
      omega
    next => nomatch h

theorem absorb_sound (hf : f.Sound) (hi : i + 1 < f.fifo.length) :
    { f with fifo := absorb f.fifo i : PacketFifo }.Sound := by
  have hmax := hf.max_lt
  have hfits := hf.fits
  have hsize := hf.size_eq
  have htotal : total (absorb f.fifo i) = total f.fifo :=
    sum_bytes_absorb hi (by rw [total] at hsize; omega)
  refine ⟨hmax, hsize.trans htotal.symm, hfits, ?_⟩
  intro e he
  have hmem : e.packet ∈ (absorb f.fifo i).map PacketFifoEntry.packet := mem_map_of_mem he
  rw [map_absorb (fun _ _ => rfl) hi] at hmem
  obtain ⟨d, hd, hpacket⟩ := mem_map.mp (mem_of_mem_eraseIdx hmem)
  rw [← hpacket]
  exact hf.nonempty d hd

theorem step_sound {a : FifoAct} (hf : f.Sound) (ha : f.Short a) (h : f.step a = .ok g) :
    g.Sound := by
  cases a with
  | push p =>
    cases hp : f.push p with
    | error e =>
      rw [step, hp] at h
      nomatch h
    | ok r =>
      rw [step, hp] at h
      cases h
      obtain ⟨hpos, hsame | ⟨hadd, hsize⟩⟩ := push_cases hp
      · rwa [hsame]
      · rw [hadd]
        exact add_sound hf hpos ha hsize
  | pop =>
    obtain rfl | ⟨e, rest, hfifo, rfl⟩ := pop_cases h
    · exact hf
    · exact tail_sound hf hfifo
  | reserve len => exact reserve_sound hf h
  | remove i =>
    obtain ⟨rfl, e, rest, hfifo, rfl⟩ | ⟨k, rfl, hk, rfl⟩ := remove_cases h
    · exact tail_sound hf hfifo
    · exact absorb_sound hf hk
  | clear =>
    cases h
    exact ⟨hf.max_lt, rfl, Nat.zero_le _, fun _ he => (nomatch he)⟩

theorem reach_sound (hmax : capacity < 2 ^ 31) (hr : Reach step Short (construct capacity) f) :
    f.Sound :=
  hr.invariant (construct_sound hmax) step_sound

section Positions

def Gapless (f : PacketFifo) : Prop := ∃ a, Numbered PacketFifoEntry.number a f.fifo

theorem push_gapless (hf : f.Gapless) (hlast : ∀ e ∈ f.fifo.getLast?, e.number + 1 = f.counter) :
    (f.add p).Gapless := by
  obtain ⟨a, ha⟩ := hf
  cases hfifo : f.fifo.getLast? with
  | none =>
    have hnil : f.fifo = [] := List.getLast?_eq_none_iff.mp hfifo
    refine ⟨f.counter, ?_⟩
    show Numbered _ _ (f.fifo ++ [⟨p, f.counter, 0⟩])
    rw [hnil]
    exact Numbered.singleton_iff.mpr rfl
  | some e =>
    have hcounter := hlast e hfifo
    have hnumber : e.number = a + (f.fifo.length - 1) := by
      apply ha.getElem?
      rwa [← List.getLast?_eq_getElem?]
    have hpos : 0 < f.fifo.length := by
      apply length_pos_of_ne_nil
      rintro hnil
      rw [hnil] at hfifo
      nomatch hfifo
    refine ⟨a, Numbered.append_iff.mpr ⟨ha, Numbered.singleton_iff.mpr ?_⟩⟩
    show f.counter = a + f.fifo.length
    omega

theorem tail_gapless {rest : List PacketFifoEntry} (hf : f.Gapless) (hfifo : f.fifo = e :: rest) :
    ∃ a, Numbered PacketFifoEntry.number a rest := by
  obtain ⟨a, ha⟩ := hf
  rw [hfifo] at ha
  exact ⟨a + 1, (Numbered.cons_iff.mp ha).2⟩

theorem absorb_gapless (hf : f.Gapless) (hi : i + 1 + 1 = f.fifo.length) :
    ∃ a, Numbered PacketFifoEntry.number a (absorb f.fifo i) := by
  obtain ⟨a, ha⟩ := hf
  have hmap : (absorb f.fifo i).map PacketFifoEntry.number =
      (f.fifo.take (i + 1)).map PacketFifoEntry.number := by
    rw [map_absorb (fun _ _ => rfl) (by omega), eraseIdx_eq_take_drop_succ,
      drop_eq_nil_of_le (by rw [length_map]; omega), append_nil, map_take]
  exact ⟨a, (Numbered.congr_map hmap).mpr (ha.take (i + 1))⟩

theorem step_gapless {a : FifoAct} (hf : f.Gapless) (ha : f.AtEnds a) (h : f.step a = .ok g) :
    g.Gapless := by
  cases a with
  | push p =>
    cases hp : f.push p with
    | error e =>
      rw [step, hp] at h
      nomatch h
    | ok r =>
      rw [step, hp] at h
      cases h
      obtain ⟨_, hsame | ⟨hadd, _⟩⟩ := push_cases hp
      · rwa [hsame]
      · rw [hadd]
        exact push_gapless hf ha.2
  | pop =>
    obtain rfl | ⟨e, rest, hfifo, rfl⟩ := pop_cases h
    · exact hf
    · exact tail_gapless hf hfifo
  | reserve len =>
    obtain ⟨_, _, rfl⟩ := map_eq_ok.mp h
    exact hf
  | remove i =>
    obtain ⟨rfl, e, rest, hfifo, rfl⟩ | ⟨k, rfl, hk, rfl⟩ := remove_cases h
    · exact tail_gapless hf hfifo
    · rcases ha with hzero | hlast
      · nomatch hzero
      · exact absorb_gapless hf hlast
  | clear =>
    cases h
    exact ⟨0, Numbered.nil⟩

theorem short_of_atEnds {a : FifoAct} (ha : f.AtEnds a) : f.Short a := by
  cases a with
  | push p => exact ha.1
  | pop | reserve | remove | clear => trivial

theorem length_le_size (hf : f.Sound) : f.fifo.length ≤ f.size := by
  have hbytes : ∀ l : List PacketFifoEntry, (∀ e ∈ l, 0 < e.packet.length) →
      l.length ≤ total l := by
    intro l hl
    induction l with
    | nil => exact Nat.zero_le _
    | cons e rest ih =>
      have hpos := hl e mem_cons_self
      have hrest := ih fun d hd => hl d (mem_cons_of_mem e hd)
      rw [total] at hrest
      rw [total, length_cons, map_cons, sum_cons, PacketFifoEntry.bytes]
      omega
  rw [hf.size_eq]
  exact hbytes f.fifo hf.nonempty

theorem distance_eq {d : PacketFifoEntry} {k : Nat} (hk : k < 2 ^ 31)
    (h : e.number = d.number + k) :
    distance (some e) (some d) = k := by
  have hdiff : ((e.number : Int) - d.number) % 2 ^ 64 = k := by omega
  show int32 (((e.number : Int) - d.number) % 2 ^ 64) = k
  rw [hdiff, int32_of_lt hk]

theorem counts_eq (hf : f.Sound) (hg : f.Gapless) (hi : i < f.fifo.length) :
    f.countPacketsBefore i = i ∧ f.countPacketsAfter i = (f.fifo.length - 1 - i : Nat) := by
  obtain ⟨a, ha⟩ := hg
  have hlen := length_le_size hf
  have hmax := hf.max_lt
  have hfits := hf.fits
  have hget (k : Nat) (hk : k < f.fifo.length) : ∃ e, f.fifo[k]? = some e ∧ e.number = a + k :=
    ⟨f.fifo[k], List.getElem?_eq_getElem hk, ha.getElem? (List.getElem?_eq_getElem hk)⟩
  obtain ⟨e, he, hnumber⟩ := hget i hi
  obtain ⟨d, hd, hfirst⟩ := hget 0 (by omega)
  obtain ⟨l, hl, hlast⟩ := hget (f.fifo.length - 1) (by omega)
  rw [countPacketsBefore, countPacketsAfter, List.head?_eq_getElem?, List.getLast?_eq_getElem?,
    he, hd, hl]
  exact ⟨distance_eq (by omega) (by omega), distance_eq (by omega) (by omega)⟩

end Positions

/-- The accounting and the positions, in every run that removes entries at the ends only. -/
theorem accounting_and_positions (capacity : Nat) (hmax : capacity < 2 ^ 31)
    (hr : Reach step AtEnds (construct capacity) f) :
    f.size = (f.fifo.map fun e => e.packet.length + e.slack).sum ∧ f.size + f.reserved ≤ f.maxsize ∧
    ∀ i, i < f.fifo.length →
      f.countPacketsBefore i = i ∧ f.countPacketsAfter i = (f.fifo.length - 1 - i : Nat) := by
  have hsound : f.Sound := reach_sound hmax (hr.mono fun _ _ => short_of_atEnds)
  have hgapless : f.Gapless := hr.invariant ⟨0, Numbered.nil⟩ step_gapless
  exact ⟨hsound.size_eq, hsound.fits, fun i hi => counts_eq hsound hgapless hi⟩

theorem accounting_and_positions_last_removed :
    ∃ f, Reach step AtEnds (construct 10) f ∧ f.fifo.length = 2 ∧ f.countPacketsBefore 1 = 1 := by
  obtain ⟨f, hr, hf⟩ := Reach.exists_of_runFrom step AtEnds (construct 10)
    [.push ⟨[1]⟩, .push ⟨[2]⟩, .push ⟨[3]⟩, .remove 2] (fun f => f.fifo.length = 2)
    (by decide +kernel)
  have hlen : f.fifo.length = 2 := hf
  exact ⟨f, hr, hlen, ((accounting_and_positions 10 (by decide) hr).2.2 1 (by omega)).1⟩

/-- Three packets, of which the middle one is removed: the second entry counts two in front. -/
theorem middle_removed_miscounts :
    ∃ f, Reach step Short (construct 10) f ∧ f.fifo.length = 2 ∧ f.countPacketsBefore 1 = 2 :=
  Reach.exists_of_run [.push ⟨[1]⟩, .push ⟨[2]⟩, .push ⟨[3]⟩, .remove 1] (by decide +kernel)

end PacketFifo

end Gem5.Dev
