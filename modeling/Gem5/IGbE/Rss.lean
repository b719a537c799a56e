import Gem5.Base.Inet
import Gem5.IGbE.RssHash

/-!
# Receive side scaling

`doRSS` picks the receive queue of a packet. An IP packet is hashed, and the low byte of the hash
is its index in the redirection table, which has 128 entries; the guest writes the table four
bytes at a time. Any other packet goes to the next queue in turn. `rxFifotoRxDesc` moves the first
packet of the fifo to the slot of its queue.
-/

namespace Gem5.IGbE

open Gem5.Inet

namespace Mrqc

def en (mrqc : BitVec 32) : BitVec 3 := mrqc.extractLsb' 0 3

def tcpipv4 (mrqc : BitVec 32) : Bool := mrqc.getLsbD 16

def ipv4 (mrqc : BitVec 32) : Bool := mrqc.getLsbD 17

def tcpipv6 (mrqc : BitVec 32) : Bool := mrqc.getLsbD 18

def ipv6 (mrqc : BitVec 32) : Bool := mrqc.getLsbD 20

/-- The value of `en` with which the queue of a packet depends on its hash. -/
def enableRss4Q : BitVec 3 := 2

end Mrqc

structure RssPacket where
  data : Bytes
  rssHash : BitVec 32

/-- The part of a device with `n` queues that takes part in the choice. -/
structure RssDevice (n : Nat) where
  mrqc : BitVec 32
  reta : Fin 128 → BitVec 8
  prevRSSQueue : Fin n
  rxPacketArray : Fin n → Option RssPacket
  rxFifo : List RssPacket

def bytes16 (x : BitVec 16) : List (BitVec 8) := [x.extractLsb' 8 8, x.extractLsb' 0 8]

def bytes32 (x : BitVec 32) : List (BitVec 8) :=
  [x.extractLsb' 24 8, x.extractLsb' 16 8, x.extractLsb' 8 8, x.extractLsb' 0 8]

/-- The input of the hash, given the bits of `mrqc` for TCP packets and for all packets. -/
def selectInput (byPorts byAddresses : Bool) (addresses : List (BitVec 8)) :
    Option (BitVec 16 × BitVec 16) → List (BitVec 8)
  | some (sport, dport) =>
    if byPorts then addresses ++ bytes16 sport ++ bytes16 dport
    else if byAddresses then addresses
    else []
  | none => if byAddresses then addresses else []

def hashInput (mrqc : BitVec 32) : Header → List (BitVec 8)
  | .ip6 src dst tcp => selectInput (Mrqc.tcpipv6 mrqc) (Mrqc.ipv6 mrqc) (src ++ dst) tcp
  | .ip src dst tcp =>
    selectInput (Mrqc.tcpipv4 mrqc) (Mrqc.ipv4 mrqc) (bytes32 src ++ bytes32 dst) tcp
  | .other => []

def retaIdx (input : List (BitVec 8)) : Nat := (computeHash rssrk input &&& 0xFF).toNat

namespace RssDevice

variable {n : Nat}

/-- A write of the guest to one of the 32 registers of the redirection table. -/
def writeReta (s : RssDevice n) (w : Fin 32 × BitVec 32) : RssDevice n :=
  { s with
    reta := fun i => if i.val / 4 = w.1.val then w.2.extractLsb' (8 * (i.val % 4)) 8 else s.reta i }

def redirect (s : RssDevice n) (pkt : RssPacket) (input : List (BitVec 8)) :
    Sim (Nat × RssPacket) :=
  if input = [] then .ok (0, pkt)
  else if h : retaIdx input < 128 then
    .ok ((s.reta ⟨retaIdx input, h⟩).toNat, { pkt with rssHash := computeHash rssrk input })
  else .error .assertion

def nextQueue (s : RssDevice n) : Fin n :=
  if h : s.prevRSSQueue.val < n - 1 then ⟨s.prevRSSQueue.val + 1, by omega⟩
  else ⟨0, Nat.zero_lt_of_lt s.prevRSSQueue.isLt⟩

def roundRobin (s : RssDevice n) : Fin n :=
  if (s.rxPacketArray s.nextQueue).isSome then
    ((List.finRange n).find? fun i => (s.rxPacketArray i).isNone).getD s.nextQueue
  else s.nextQueue

def selectQueue (s : RssDevice n) (pkt : RssPacket) : Header → Sim (Nat × RssPacket × RssDevice n)
  | .other => .ok (s.roundRobin.val, pkt, { s with prevRSSQueue := s.roundRobin })
  | h => do
    let (q, p) ← s.redirect pkt (hashInput s.mrqc h)
    return (q, p, s)

def doRSS (fuel : Nat) (s : RssDevice n) (pkt : RssPacket) :
    Option (Sim (Nat × RssPacket × RssDevice n)) :=
  (decode fuel pkt.data).map fun h => h >>= s.selectQueue pkt

def place (s : RssDevice n) (rest : List RssPacket) (q : Nat) (pkt : RssPacket) :
    Sim (RssDevice n) :=
  if h : q < n then
    if (s.rxPacketArray ⟨q, h⟩).isNone then
      .ok { s with
        rxPacketArray := Function.update s.rxPacketArray ⟨q, h⟩ (some pkt)
        rxFifo := rest }
    else .ok { s with rxFifo := pkt :: rest }
  else .error .assertion

def rxFifotoRxDesc (fuel : Nat) (s : RssDevice n) : Option (Sim (RssDevice n)) :=
  match s.rxFifo with
  | [] => some (.ok s)
  | pkt :: rest =>
    if Mrqc.en s.mrqc = Mrqc.enableRss4Q then
      (doRSS fuel s pkt).map fun r => r >>= fun x => x.2.2.place rest x.1 x.2.1
    else some (s.place rest 0 pkt)

def Redirects (s : RssDevice n) (input : List (BitVec 8)) : Prop :=
  input = [] ∨ ∃ h : retaIdx input < 128, (s.reta ⟨retaIdx input, h⟩).toNat < n

def Usable (s : RssDevice n) (data : Bytes) : Prop :=
  ∃ h, Decodes data h ∧ (h = .other ∨ s.Redirects (hashInput s.mrqc h))

section Queue

variable {s t : RssDevice n} {pkt p : RssPacket} {input : List (BitVec 8)} {h : Header} {q : Nat}

theorem redirect_usable_iff (pkt : RssPacket) :
    (∃ q p, s.redirect pkt input = .ok (q, p) ∧ q < n) ↔ s.Redirects input := by
  have hpos : 0 < n := Nat.zero_lt_of_lt s.prevRSSQueue.isLt
  rw [redirect, Redirects]
  by_cases hnil : input = []
  · simp [hnil, hpos]
  · by_cases hidx : retaIdx input < 128 <;> simp [hnil, hidx]

theorem selectQueue_of_ne (hne : h ≠ .other) :
    s.selectQueue pkt h = (s.redirect pkt (hashInput s.mrqc h)).map fun x => (x.1, x.2, s) := by
  rw [selectQueue]
  · cases s.redirect pkt (hashInput s.mrqc h) <;> rfl
  · exact hne

theorem selectQueue_usable_iff (pkt : RssPacket) :
    (∃ q p t, s.selectQueue pkt h = .ok (q, p, t) ∧ q < n) ↔
      h = .other ∨ s.Redirects (hashInput s.mrqc h) := by
  by_cases hother : h = .other
  · subst hother
    exact ⟨fun _ => .inl rfl, fun _ => ⟨_, _, _, rfl, s.roundRobin.isLt⟩⟩
  · rw [selectQueue_of_ne hother, ← redirect_usable_iff pkt]
    constructor
    · rintro ⟨q, p, t, hq, hlt⟩
      cases hr : s.redirect pkt (hashInput s.mrqc h) with
      | error e =>
        rw [hr] at hq
        nomatch hq
      | ok x =>
        rw [hr] at hq
        cases hq
        exact .inr ⟨_, _, rfl, hlt⟩
    · rintro (hp | ⟨q, p, hq, hlt⟩)
      · exact absurd hp hother
      · exact ⟨q, p, s, by rw [hq]; rfl, hlt⟩

theorem doRSS_ok_iff {fuel : Nat} : doRSS fuel s pkt = some (.ok (q, p, t)) ↔
      ∃ h, decode fuel pkt.data = some (.ok h) ∧ s.selectQueue pkt h = .ok (q, p, t) := by
  rw [doRSS]
  constructor
  · intro hrss
    obtain ⟨x, hx, hsel⟩ := Option.map_eq_some_iff.mp hrss
    obtain ⟨h, rfl, hsel⟩ := bind_eq_ok.mp hsel
    exact ⟨h, hx, hsel⟩
  · rintro ⟨h, hd, hsel⟩
    rw [hd]
    exact congrArg some hsel

theorem doRSS_returns_iff :
    (∃ fuel q p t, doRSS fuel s pkt = some (.ok (q, p, t)) ∧ q < n) ↔ s.Usable pkt.data := by
  constructor
  · rintro ⟨fuel, q, p, t, hrss, hlt⟩
    obtain ⟨h, hd, hsel⟩ := doRSS_ok_iff.mp hrss
    exact ⟨h, decode_ok_iff.mp ⟨fuel, hd⟩, (selectQueue_usable_iff pkt).mp ⟨q, p, t, hsel, hlt⟩⟩
  · rintro ⟨h, hd, hred⟩
    obtain ⟨fuel, hd⟩ := decode_ok_iff.mpr hd
    obtain ⟨q, p, t, hsel, hlt⟩ := (selectQueue_usable_iff pkt).mpr hred
    exact ⟨fuel, q, p, t, doRSS_ok_iff.mpr ⟨h, hd, hsel⟩, hlt⟩

theorem place_ok_iff (rest : List RssPacket) : (∃ u, t.place rest q p = .ok u) ↔ q < n := by
  rw [place]
  by_cases hq : q < n
  · rw [dif_pos hq]
    split <;> simp [hq]
  · simp [hq]

theorem rxFifotoRxDesc_ok_iff {rest : List RssPacket} (hen : Mrqc.en s.mrqc = Mrqc.enableRss4Q)
    (hfifo : s.rxFifo = pkt :: rest) :
    (∃ fuel u, s.rxFifotoRxDesc fuel = some (.ok u)) ↔ s.Usable pkt.data := by
  rw [← doRSS_returns_iff]
  constructor
  · rintro ⟨fuel, u, hu⟩
    rw [rxFifotoRxDesc, hfifo] at hu
    dsimp only at hu
    rw [if_pos hen] at hu
    obtain ⟨x, hx, hu⟩ := Option.map_eq_some_iff.mp hu
    obtain ⟨⟨q, p, t⟩, rfl, hu⟩ := bind_eq_ok.mp hu
    exact ⟨fuel, q, p, t, hx, (place_ok_iff rest).mp ⟨u, hu⟩⟩
  · rintro ⟨fuel, q, p, t, hrss, hlt⟩
    obtain ⟨u, hu⟩ := (place_ok_iff rest (t := t) (p := p)).mpr hlt
    refine ⟨fuel, u, ?_⟩
    rw [rxFifotoRxDesc, hfifo]
    dsimp only
    rw [if_pos hen, hrss]
    exact congrArg some hu

end Queue

section Flows

structure Flow where
  v6 : Bool
  addresses : List (BitVec 8)
  hashedPorts : Option (BitVec 16 × BitVec 16)

def flow (mrqc : BitVec 32) : Header → Option Flow
  | .ip6 src dst tcp => some ⟨true, src ++ dst, if Mrqc.tcpipv6 mrqc then tcp else none⟩
  | .ip src dst tcp =>
    some ⟨false, bytes32 src ++ bytes32 dst, if Mrqc.tcpipv4 mrqc then tcp else none⟩
  | .other => none

def Flow.input (mrqc : BitVec 32) (f : Flow) : List (BitVec 8) :=
  match f.hashedPorts with
  | some (sport, dport) => f.addresses ++ bytes16 sport ++ bytes16 dport
  | none => if (if f.v6 then Mrqc.ipv6 mrqc else Mrqc.ipv4 mrqc) then f.addresses else []

variable {s t u v : RssDevice n} {pkt pkt' p p' : RssPacket} {h k : Header} {q q' : Nat} {f : Flow}
  {mrqc : BitVec 32}

theorem hashInput_eq (hf : flow mrqc h = some f) : hashInput mrqc h = f.input mrqc := by
  cases h with
  | other => nomatch hf
  | ip6 src dst tcp =>
    cases hf
    rw [hashInput, Flow.input]
    cases tcp <;> cases hports : Mrqc.tcpipv6 mrqc <;> simp [selectInput]
  | ip src dst tcp =>
    cases hf
    rw [hashInput, Flow.input]
    cases tcp <;> cases hports : Mrqc.tcpipv4 mrqc <;> simp [selectInput]

theorem ne_other_of_flow (hf : flow mrqc h = some f) : h ≠ .other := by
  rintro rfl
  nomatch hf

theorem redirect_queue {x y : Nat × RssPacket} {input : List (BitVec 8)} (hreta : t.reta = s.reta)
    (hx : s.redirect pkt input = .ok x) (hy : t.redirect pkt' input = .ok y) : x.1 = y.1 := by
  rw [redirect] at hx hy
  by_cases hnil : input = []
  · rw [if_pos hnil] at hx hy
    cases hx
    cases hy
    rfl
  · rw [if_neg hnil] at hx hy
    split at hx
    next hidx =>
      rw [dif_pos hidx] at hy
      cases hx
      cases hy
      rw [hreta]
    next => nomatch hx

theorem selectQueue_redirect (hne : h ≠ .other) (hsel : s.selectQueue pkt h = .ok (q, p, u)) :
    s.redirect pkt (hashInput s.mrqc h) = .ok (q, p) := by
  rw [selectQueue_of_ne hne] at hsel
  cases hr : s.redirect pkt (hashInput s.mrqc h) with
  | error e =>
    rw [hr] at hsel
    nomatch hsel
  | ok x =>
    rw [hr] at hsel
    cases hsel
    rfl

theorem flow_queue {fuel more : Nat} (hmrqc : t.mrqc = s.mrqc) (hreta : t.reta = s.reta)
    (hd : Decodes pkt.data h) (kd : Decodes pkt'.data k) (hf : flow s.mrqc h = some f)
    (kf : flow s.mrqc k = some f) (hs : doRSS fuel s pkt = some (.ok (q, p, u)))
    (ht : doRSS more t pkt' = some (.ok (q', p', v))) : q = q' := by
  obtain ⟨h', hd', hsel⟩ := doRSS_ok_iff.mp hs
  obtain ⟨k', kd', ksel⟩ := doRSS_ok_iff.mp ht
  obtain ⟨_, hd⟩ := decode_ok_iff.mpr hd
  obtain ⟨_, kd⟩ := decode_ok_iff.mpr kd
  cases decode_unique hd hd'
  cases decode_unique kd kd'
  have hx := selectQueue_redirect (ne_other_of_flow hf) hsel
  have hy := selectQueue_redirect (ne_other_of_flow kf) ksel
  rw [hashInput_eq hf] at hx
  rw [hmrqc, hashInput_eq kf] at hy
  exact redirect_queue hreta hx hy

end Flows

/-- `doRSS` returns a queue of the device exactly for the usable packets, and exactly for these
`rxFifotoRxDesc` comes through. Two packets of a flow get the same queue. -/
theorem doRSS_usable_iff (s : RssDevice n) (pkt : RssPacket) :
    ((∃ fuel q p t, doRSS fuel s pkt = some (.ok (q, p, t)) ∧ q < n) ↔ s.Usable pkt.data) ∧
    (∀ rest, Mrqc.en s.mrqc = Mrqc.enableRss4Q → s.rxFifo = pkt :: rest →
      ((∃ fuel u, s.rxFifotoRxDesc fuel = some (.ok u)) ↔ s.Usable pkt.data)) ∧
    ∀ (t : RssDevice n) (pkt' : RssPacket) (h k : Header) (f : Flow), t.mrqc = s.mrqc →
      t.reta = s.reta → Decodes pkt.data h → Decodes pkt'.data k → flow s.mrqc h = some f →
      flow s.mrqc k = some f → ∀ fuel more q q' p p' u v,
        doRSS fuel s pkt = some (.ok (q, p, u)) → doRSS more t pkt' = some (.ok (q', p', v)) →
        q = q' := by
  refine ⟨doRSS_returns_iff, fun rest hen hfifo => rxFifotoRxDesc_ok_iff hen hfifo, ?_⟩
  intro t pkt' h k f hmrqc hreta hd kd hf kf fuel more q q' p p' u v hs ht
  exact flow_queue hmrqc hreta hd kd hf kf hs ht

def twoQueues : RssDevice 2 := ⟨0x170002, fun _ => 0, 0, fun _ => none, []⟩

/-- An IPv4 packet that is not a TCP packet. -/
def ipFrame (src : BitVec 8) : Bytes := fun i =>
  if i = 12 then 0x08 else if i = 14 then 0x45 else if i = 23 then 17 else if i = 26 then src else 0

theorem doRSS_usable_iff_two_packets :
    (∃ fuel u, { twoQueues with rxFifo := [⟨ipFrame 1, 0⟩] }.rxFifotoRxDesc fuel = some (.ok u)) ∧
    ∀ fuel more q q' p p' u v,
      doRSS fuel twoQueues ⟨ipFrame 1, 0⟩ = some (.ok (q, p, u)) →
      doRSS more twoQueues ⟨fun i => if i = 0 then 5 else ipFrame 1 i, 0⟩ = some (.ok (q', p', v)) →
      q = q' := by
  have hred : twoQueues.Redirects (hashInput twoQueues.mrqc (ipHeader (ipFrame 1))) :=
    .inr ⟨by decide +kernel, by decide⟩
  constructor
  · exact ((doRSS_usable_iff { twoQueues with rxFifo := [⟨ipFrame 1, 0⟩] } ⟨ipFrame 1, 0⟩).2.1 []
      (by decide) rfl).mpr ⟨_, .ip (by decide) (by decide), .inr hred⟩
  · exact (doRSS_usable_iff twoQueues ⟨ipFrame 1, 0⟩).2.2 twoQueues _ _ _ _ rfl rfl
      (.ip (by decide) (by decide)) (.ip (by decide) (by decide)) rfl rfl

/-- An IPv6 packet with an extension of length 248 + 8 = 0 that names itself. -/
def loopFrame : Bytes := fun i =>
  if i = 12 then 0x86 else if i = 13 then 0xDD else if i = 55 then 248 else 0

/-- The hash of a packet from 4.0.0.0 has the index 151. With one register written, a packet from
1.0.0.0 gets queue 255 of two. On the third packet `doRSS` does not return. -/
theorem doRSS_unusable :
    doRSS 1 twoQueues ⟨ipFrame 4, 0⟩ = some (.error .assertion) ∧
    (doRSS 1 (twoQueues.writeReta (9, 0xFF00)) ⟨ipFrame 1, 0⟩).map (fun r => r.map Prod.fst) =
      some (.ok 255) ∧
    ∀ fuel, (doRSS fuel twoQueues ⟨loopFrame, 0⟩).isNone := by
  refine ⟨by rfl, by rfl, fun fuel => ?_⟩
  have hloop : ip6Scan fuel loopFrame = none :=
    scan_loops (by decide) (by decide) (by decide) (by decide)
  rw [doRSS, decode, hloop]
  rfl

end RssDevice

end Gem5.IGbE
