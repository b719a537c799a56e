import Gem5.Shared.Sim
import Gem5.Shared.Reachability
import Mathlib.Data.Nat.Log
import Mathlib.Data.Fintype.Pi

/-!
# Forwarding in the Ethernet switch

The switch learns from the source address of a frame at which port a station is, and forgets an
entry when it is looked up after its time to live. `SwitchRun` adds where each address was heard
last.
-/

namespace Gem5.Dev

open Function

abbrev EthAddr := Fin 6 → UInt8

namespace EthAddr

def unicast (a : EthAddr) : Bool := a 0 &&& 1 == 0

def broadcast (a : EthAddr) : Bool := decide (∀ i, a i = 255)

def multicast (a : EthAddr) : Bool := !unicast a && !broadcast a

end EthAddr

/-- A number of ticks as a `double`, rounded to 53 bits and on a tie to an even quotient. -/
def toDouble (n : Nat) : Nat :=
  if n < 2 ^ 53 then n
  else
    let unit := 2 ^ (n.log2 - 52)
    let rest := n % unit
    if unit < 2 * rest ∨ (2 * rest = unit ∧ n / unit % 2 = 1) then (n / unit + 1) * unit
    else n / unit * unit

structure Frame where
  dst : EthAddr
  src : EthAddr

structure SwitchTableEntry where
  interface : Nat
  lastUseTime : Nat

structure EtherSwitch where
  interfaces : Nat
  ttl : Nat
  forwardingTable : EthAddr → Option SwitchTableEntry

structure Arrival where
  port : Nat
  tick : Nat
  frame : Frame

namespace EtherSwitch

def erase (s : EtherSwitch) (a : EthAddr) : EtherSwitch :=
  { s with forwardingTable := Function.update s.forwardingTable a none }

def insert (s : EtherSwitch) (a : EthAddr) (e : SwitchTableEntry) : EtherSwitch :=
  { s with forwardingTable := Function.update s.forwardingTable a (some e) }

def lookupDestPort (s : EtherSwitch) (now : Nat) (a : EthAddr) : Option Nat × EtherSwitch :=
  match s.forwardingTable a with
  | none => (none, s)
  | some e =>
    if toDouble (now - e.lastUseTime) > toDouble s.ttl then (none, s.erase a)
    else (some e.interface, s)

def learnSenderAddr (s : EtherSwitch) (now : Nat) (a : EthAddr) (sender : Nat) : EtherSwitch :=
  match s.forwardingTable a with
  | none => s.insert a ⟨sender, now⟩
  | some e => s.insert a { e with lastUseTime := now }

def others (s : EtherSwitch) (port : Nat) : List Nat :=
  (List.range s.interfaces).filter (· ≠ port)

def recvPacket (s : EtherSwitch) (a : Arrival) : List Nat × EtherSwitch :=
  let s := s.learnSenderAddr a.tick a.frame.src a.port
  match s.lookupDestPort a.tick a.frame.dst with
  | (none, s) => (s.others a.port, s)
  | (some receiver, s) =>
    if EthAddr.multicast a.frame.dst || EthAddr.broadcast a.frame.dst then (s.others a.port, s)
    else ([receiver], s)

end EtherSwitch

/-- Where and when an address was the source of a frame last. -/
structure Heard where
  port : Nat
  tick : Nat

structure SwitchRun where
  switch : EtherSwitch
  clock : Nat
  heard : EthAddr → Option Heard

namespace SwitchRun

def init (interfaces ttl : Nat) : SwitchRun := ⟨⟨interfaces, ttl, fun _ => none⟩, 0, fun _ => none⟩

def hear (r : SwitchRun) (a : Arrival) : EthAddr → Option Heard :=
  Function.update r.heard a.frame.src (some ⟨a.port, a.tick⟩)

def step (r : SwitchRun) (a : Arrival) : Sim SwitchRun :=
  .ok ⟨(r.switch.recvPacket a).2, a.tick, r.hear a⟩

def Arrives (r : SwitchRun) (a : Arrival) : Prop :=
  r.clock ≤ a.tick ∧ a.port < r.switch.interfaces

def located (r : SwitchRun) (a : Arrival) : Option Nat :=
  (r.hear a a.frame.dst).bind fun h => if a.tick - h.tick ≤ r.switch.ttl then some h.port else none

def expected (r : SwitchRun) (a : Arrival) : List Nat :=
  match a.frame.dst.unicast, r.located a with
  | true, some port => [port]
  | _, _ => r.switch.others a.port

structure Settled (r : SwitchRun) (a : Arrival) : Prop where
  arrives : r.Arrives a
  sender : ∀ e, r.switch.forwardingTable a.frame.src = some e → e.interface = a.port
  receiver : a.frame.dst.unicast = true → r.located a ≠ some a.port

structure Inv (ttl : Nat) (r : SwitchRun) : Prop where
  life : r.switch.ttl = ttl
  known : ∀ a e, r.switch.forwardingTable a = some e → r.heard a = some ⟨e.interface, e.lastUseTime⟩
  forgotten : ∀ a h, r.switch.forwardingTable a = none → r.heard a = some h → ttl < r.clock - h.tick
  past : ∀ a h, r.heard a = some h → h.tick ≤ r.clock

variable {ttl : Nat} {r q : SwitchRun} {a : Arrival}

section Double

theorem le_toDouble {n : Nat} (h : 2 ^ 53 ≤ n) : 2 ^ 53 ≤ toDouble n := by
  have hn : n ≠ 0 := by omega
  have hlog : 53 ≤ n.log2 := (Nat.le_log2 hn).mpr h
  have hfloor : 2 ^ 53 ≤ n / 2 ^ (n.log2 - 52) * 2 ^ (n.log2 - 52) := by
    have hquot : 2 ^ 52 ≤ n / 2 ^ (n.log2 - 52) := by
      rw [Nat.le_div_iff_mul_le (Nat.two_pow_pos _), ← Nat.pow_add, Nat.add_sub_cancel' (by omega)]
      exact Nat.log2_self_le hn
    calc 2 ^ 53 = 2 ^ 52 * 2 ^ 1 := by decide
      _ ≤ n / 2 ^ (n.log2 - 52) * 2 ^ (n.log2 - 52) :=
        Nat.mul_le_mul hquot (Nat.pow_le_pow_right Nat.two_pos (by omega))
  rw [toDouble, if_neg (Nat.not_lt.mpr h)]
  dsimp only
  split
  · exact hfloor.trans (Nat.mul_le_mul_right _ (Nat.le_succ _))
  · exact hfloor

theorem toDouble_lt_iff {age : Nat} (h : ttl < 2 ^ 53) :
    toDouble ttl < toDouble age ↔ ttl < age := by
  rw [toDouble, if_pos h]
  rcases Nat.lt_or_ge age (2 ^ 53) with hage | hage
  · rw [toDouble, if_pos hage]
  · have hle := le_toDouble hage
    omega

end Double

section Step

theorem learn_table
    (hs : ∀ e, r.switch.forwardingTable a.frame.src = some e → e.interface = a.port) :
    r.switch.learnSenderAddr a.tick a.frame.src a.port =
      r.switch.insert a.frame.src ⟨a.port, a.tick⟩ := by
  unfold EtherSwitch.learnSenderAddr
  split
  · rfl
  · rename_i e he
    rw [hs e he]

theorem Inv.learn (h : Inv ttl r) (hs : r.Settled a) :
    Inv ttl ⟨r.switch.insert a.frame.src ⟨a.port, a.tick⟩, a.tick, r.hear a⟩ := by
  obtain ⟨hlife, hknown, hforgotten, hpast⟩ := h
  have htick := hs.arrives.1
  refine ⟨hlife, fun b e he => ?_, fun b x hnone hx => ?_, fun b x hx => ?_⟩
  · simp only [EtherSwitch.insert, hear, update_apply] at he ⊢
    grind
  · simp only [EtherSwitch.insert, hear, update_apply] at hnone hx
    grind
  · simp only [hear, update_apply] at hx
    grind

theorem Inv.lookup (hsmall : ttl < 2 ^ 53) (h : Inv ttl r) (b : EthAddr) :
    (r.switch.lookupDestPort r.clock b).1 =
      ((r.heard b).bind fun x => if r.clock - x.tick ≤ ttl then some x.port else none) ∧
    Inv ttl ⟨(r.switch.lookupDestPort r.clock b).2, r.clock, r.heard⟩ ∧
    (r.switch.lookupDestPort r.clock b).2.interfaces = r.switch.interfaces := by
  unfold EtherSwitch.lookupDestPort
  split
  · rename_i hnone
    refine ⟨?_, h, rfl⟩
    cases hx : r.heard b with
    | none => rfl
    | some x =>
      rw [Option.bind_some, if_neg (Nat.not_le.mpr (h.forgotten b x hnone hx))]
  · rename_i e he
    rw [h.life, h.known b e he, Option.bind_some]
    split
    · rename_i hold
      rw [gt_iff_lt, toDouble_lt_iff hsmall] at hold
      rw [if_neg (Nat.not_le.mpr hold)]
      refine ⟨rfl, ⟨h.life, fun c f hf => ?_, fun c x hnone hx => ?_, h.past⟩, rfl⟩
      · simp only [EtherSwitch.erase, update_apply] at hf
        exact h.known c f (by grind)
      · simp only [EtherSwitch.erase, update_apply] at hnone
        have hknown := h.known b e he
        have hforgotten := h.forgotten c x
        grind
    · rename_i hfresh
      rw [gt_iff_lt, toDouble_lt_iff hsmall] at hfresh
      rw [if_pos (Nat.not_lt.mp hfresh)]
      exact ⟨rfl, h, rfl⟩

theorem group_eq_not_unicast (b : EthAddr) :
    (EthAddr.multicast b || EthAddr.broadcast b) = !EthAddr.unicast b := by
  have hbroad : EthAddr.broadcast b = true → EthAddr.unicast b = false := by
    intro hb
    rw [EthAddr.unicast, of_decide_eq_true hb 0]
    decide
  unfold EthAddr.multicast
  cases hb : EthAddr.broadcast b with
  | false => simp
  | true => simp [hbroad hb]

theorem Inv.recvPacket (hsmall : ttl < 2 ^ 53) (h : Inv ttl r) (hs : r.Settled a) :
    (r.switch.recvPacket a).1 = r.expected a ∧
      Inv ttl ⟨(r.switch.recvPacket a).2, a.tick, r.hear a⟩ := by
  obtain ⟨hport, hinv, hcount⟩ := (h.learn hs).lookup hsmall a.frame.dst
  have hlocated : ((r.switch.insert a.frame.src ⟨a.port, a.tick⟩).lookupDestPort a.tick
      a.frame.dst).1 = r.located a := by
    rw [located, h.life]
    exact hport
  have hothers : ∀ s : EtherSwitch, s.interfaces = r.switch.interfaces →
      s.others a.port = r.switch.others a.port := by
    intro s hi
    rw [EtherSwitch.others, EtherSwitch.others, hi]
  unfold EtherSwitch.recvPacket expected
  rw [learn_table hs.sender, group_eq_not_unicast, ← hlocated]
  dsimp only at hinv hcount ⊢
  generalize (r.switch.insert a.frame.src ⟨a.port, a.tick⟩).lookupDestPort a.tick a.frame.dst = l
    at hinv hcount ⊢
  obtain ⟨_ | receiver, s⟩ := l
  · refine ⟨(hothers s hcount).trans ?_, hinv⟩
    cases EthAddr.unicast a.frame.dst <;> rfl
  · cases EthAddr.unicast a.frame.dst with
    | false => exact ⟨hothers s hcount, hinv⟩
    | true => exact ⟨rfl, hinv⟩

end Step

/-- In every run in which stations do not move while they are known and no frame arrives at the
port of its receiver, frames are queued where they have to be, and never where they came from. -/
theorem switch_forwards (interfaces ttl : Nat) (hsmall : ttl < 2 ^ 53) {r : SwitchRun}
    (hr : Reach step Settled (init interfaces ttl) r) (a : Arrival) (ha : r.Settled a) :
    (r.switch.recvPacket a).1 = r.expected a ∧ a.port ∉ (r.switch.recvPacket a).1 := by
  have hinv : Inv ttl r := by
    refine hr.invariant (P := Inv ttl) ⟨rfl, by simp [init], by simp [init], by simp [init]⟩
      fun h hs ht => ?_
    · cases ht
      exact (h.recvPacket hsmall hs).2
  have hqueued := (hinv.recvPacket hsmall ha).1
  refine ⟨hqueued, ?_⟩
  have hothers : a.port ∉ r.switch.others a.port := by
    intro hmem
    simpa using (List.mem_filter.mp hmem).2
  rw [hqueued]
  unfold expected
  split
  · rename_i port huni hloc
    intro hmem
    rw [← List.mem_singleton.mp hmem] at hloc
    exact ha.receiver huni hloc
  · exact hothers

def sent (port tick : Nat) (src dst : UInt8) : Arrival := ⟨port, tick, ⟨fun _ => dst, fun _ => src⟩⟩

theorem switch_forwards_answer :
    ∃ r : SwitchRun, (r.switch.recvPacket (sent 1 5 4 2)).1 = [0] := by
  have hfirst : (init 3 10).Settled (sent 0 0 2 4) := by
    refine ⟨⟨Nat.le_refl 0, by decide⟩, ?_, fun _ => by decide⟩
    intro e he
    cases he
  refine ⟨_, (switch_forwards 3 10 (by decide) (Reach.single hfirst rfl) (sent 1 5 4 2)
    ⟨⟨Nat.zero_le 5, by decide⟩, ?_, fun _ => by decide⟩).1.trans (by decide)⟩
  intro e he
  cases he

/-- A station that was heard at port 0 and then at port 1 still gets its frames at port 0. -/
theorem moved_station_missed : ∃ r : SwitchRun, Reach step Arrives (init 3 10) r ∧
    r.Arrives (sent 2 2 4 2) ∧ (r.switch.recvPacket (sent 2 2 4 2)).1 = [0] ∧
    r.expected (sent 2 2 4 2) = [1] := by
  have hfirst : (init 3 10).Arrives (sent 0 0 2 4) := ⟨Nat.le_refl 0, by decide⟩
  refine ⟨_, (Reach.single hfirst rfl).snoc (a := sent 1 1 2 4) ⟨Nat.zero_le 1, by decide⟩ rfl,
    ⟨by decide, by decide⟩, by decide, by decide⟩

end SwitchRun

end Gem5.Dev
