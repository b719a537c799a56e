import Gem5.Base.Bitfield
import Gem5.Shared.Sim
import Mathlib.Data.List.Sort

/-!
# Address ranges

A range `[start, end)`, perhaps one of several that share it: with interleaving masks an
address belongs to the range if the parities of its masked bits give `intlvMatch`.
-/

namespace Gem5.Base

structure AddrRange where
  start : BitVec 64
  endAddr : BitVec 64
  masks : List (BitVec 64)
  intlvMatch : BitVec 8
  fits : masks ≠ [] → intlvMatch.toNat < 2 ^ masks.length
  deriving DecidableEq

namespace AddrRange

def interleaved (r : AddrRange) : Bool := !r.masks.isEmpty

/-- The loop of `contains` over the masks from number `i` on. -/
def selFrom (a : BitVec 64) : Nat → List (BitVec 64) → Nat → Nat
  | _, [], sel => sel
  | i, m :: ms, sel => selFrom a (i + 1) ms (sel ||| ((popCount (a &&& m) % 2) <<< i))

def sel (r : AddrRange) (a : BitVec 64) : Nat := selFrom a 0 r.masks 0

def contains (r : AddrRange) (a : BitVec 64) : Bool :=
  decide (r.start ≤ a ∧ a < r.endAddr) && r.sel a == r.intlvMatch.toNat

def masksLsb (r : AddrRange) : List Nat := (r.masks.map ctz64).insertionSort (· ≤ ·)

def removeLoop : Nat → List Nat → BitVec 64 → BitVec 64
  | _, [], a => a
  | i, intlvBit :: rest, a =>
    removeLoop (i + 1) rest
      (if 0 < intlvBit then
        -- the difference is an `int` and is passed as an unsigned number
        insertBits (a >>> 1) ((((intlvBit : Int) - i - 1) % 2 ^ 32).toNat) 0 a
      else a >>> 1)

def removeIntlvBits (r : AddrRange) (a : BitVec 64) : BitVec 64 :=
  if r.interleaved then removeLoop 0 r.masksLsb a else a

def addLoop : List Nat → BitVec 64 → BitVec 64
  | [], a => a
  | intlvBit :: rest, a =>
    addLoop rest (if 0 < intlvBit then insertBits (a <<< 1) (intlvBit - 1) 0 a else a <<< 1)

/-- `~(1 << lsb)` on a 32-bit `int`, converted to an address. A shift by 32 or more is
undefined. -/
def notBit (lsb : Nat) : Option (BitVec 64) :=
  if lsb < 32 then some ((~~~(1#32 <<< lsb)).signExtend 64) else none

def intlvBit (intlvMatch : BitVec 8) (i : Nat) : BitVec 64 :=
  BitVec.ofNat 64 ((intlvMatch.toNat >>> i) % 2)

def selectLoop (intlvMatch : BitVec 8) : Nat → List (BitVec 64) → BitVec 64 → Option (BitVec 64)
  | _, [], a => some a
  | i, m :: ms, a => do
    let lsb := ctz64 m
    let rest ← notBit lsb
    let masked := a &&& m &&& rest
    selectLoop intlvMatch (i + 1) ms
      (insertBits a lsb lsb (intlvBit intlvMatch i ^^^ BitVec.ofNat 64 (popCount masked)))

/-- Without a value where the computation is undefined. -/
def addIntlvBits (r : AddrRange) (a : BitVec 64) : Option (BitVec 64) :=
  if r.interleaved then selectLoop r.intlvMatch 0 r.masks (addLoop r.masksLsb a) else some a

def size (r : AddrRange) : BitVec 64 := (r.endAddr - r.start) >>> r.masks.length

def maxAddr : BitVec 64 := BitVec.allOnes 64

def getOffset (r : AddrRange) (a : BitVec 64) : BitVec 64 :=
  if r.start ≤ a ∧ a < r.endAddr then
    if r.interleaved then r.removeIntlvBits a - r.removeIntlvBits r.start else a - r.start
  else maxAddr

/-- The masks are collected in an `int`. Without a value where the shift is undefined. -/
def granularity (r : AddrRange) : Option (BitVec 64) :=
  if r.interleaved then
    let combinedMask := r.masks.foldl (fun c m => (c.signExtend 64 ||| m).setWidth 32) 0#32
    let lowestBit := ctz64 (combinedMask.signExtend 64)
    if lowestBit < 64 then some (1#64 <<< lowestBit) else none
  else some r.size

def mergesWith (s r : AddrRange) : Bool :=
  r.start == s.start && r.endAddr == s.endAddr && r.masks == s.masks

def intersects (s r : AddrRange) : Sim Bool :=
  if r.endAddr ≤ s.start ∨ s.endAddr ≤ r.start then pure false
  else if s.interleaved = false ∧ r.interleaved = false then pure true
  else if r.size = 1 then pure (s.contains r.start)
  else if s.mergesWith r then pure (s.intlvMatch == r.intlvMatch)
  else .error (.panic "Cannot test intersection")

/-- `isSubset` of an interleaved range, one conjunct after the other. -/
def fitsStripe (s r : AddrRange) : Sim Bool :=
  if r.contains s.start && r.contains (s.endAddr - 1) then
    match r.granularity with
    | some g => pure (decide (s.size ≤ g))
    | none => .error .outOfBounds
  else pure false

def isSubset (s r : AddrRange) : Sim Bool :=
  if s.interleaved then .error (.panic "Cannot test subset of interleaved range")
  else if r.interleaved then s.fitsStripe r
  else pure (decide (r.start ≤ s.start ∧ s.endAddr ≤ r.endAddr))

def lt (s r : AddrRange) : Bool :=
  if s.start ≠ r.start then decide (s.start < r.start)
  else if s.interleaved && r.interleaved then decide (s.intlvMatch < r.intlvMatch)
  else s.interleaved

end AddrRange

def RangeEx (start endAddr : BitVec 64) : AddrRange :=
  ⟨start, endAddr, [], 0, fun h => absurd rfl h⟩

end Gem5.Base
