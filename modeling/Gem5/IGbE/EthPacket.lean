import Gem5.Shared.Sim
import Mathlib.Data.BitVec

/-!
# Packets and what the device reads of them

The decoder of the network headers is outside the model: an `Inet` holds what it
reports about one packet, for the receive offloads and the header split.
-/

namespace Gem5.IGbE

structure EthPacket where
  data : List UInt8
  deriving DecidableEq, Repr

def EthPacket.length (p : EthPacket) : Nat := p.data.length

/-- `ip` is the identification and the header checksum of an IPv4 packet; `tcp`
and `udp` are checksums. -/
structure Inet where
  ip : Option (BitVec 16 × BitVec 16)
  ip6 : Bool
  tcp : Option (BitVec 16)
  udp : Option (BitVec 16)
  splitPoint : Nat

/-- Write `v` into the bit field of `width` bits that starts at bit `start`. -/
def putBits {w : Nat} (start width : Nat) (v : Nat) (x : BitVec w) : BitVec w :=
  (x &&& ~~~ BitVec.ofNat w ((2 ^ width - 1) <<< start)) |||
    BitVec.ofNat w ((v % 2 ^ width) <<< start)

def getBits {w : Nat} (start width : Nat) (x : BitVec w) : Nat :=
  x.toNat >>> start % 2 ^ width

end Gem5.IGbE
