import Gem5.Shared.Sim
import Mathlib.Data.BitVec

/-!
# Network headers

The accessors for the headers of a packet read its bytes in place. Behind an IPv6 header stands
a chain of extension headers, which is walked until a header of another kind. The length of an
extension is a byte, so that it wraps around: an extension may have length zero, and a walk that
comes to one which names an extension again never ends.
-/

open Option

namespace Gem5.Inet

abbrev Bytes : Type := Nat → BitVec 8

def ntohs (data : Bytes) (i : Nat) : BitVec 16 := data i ++ data (i + 1)

def ntohl (data : Bytes) (i : Nat) : BitVec 32 := ntohs data i ++ ntohs data (i + 2)

def isVlan (data : Bytes) : Bool := ntohs data 12 == 0x8100

def ethType (data : Bytes) : BitVec 16 := if isVlan data then ntohs data 16 else ntohs data 12

def isIp (data : Bytes) : Bool := ethType data == 0x0800

def isIp6 (data : Bytes) : Bool := ethType data == 0x86DD

def off (data : Bytes) : Nat := if isVlan data then 18 else 14

def protoTcp : BitVec 8 := 6

def ip6Extension (nxt : BitVec 8) : Bool :=
  nxt == 0 || nxt == 43 || nxt == 44 || nxt == 51 || nxt == 50 || nxt == 60

/-- The length of the extension at `pos`, as a byte. -/
def extLen (data : Bytes) (pos : Nat) : Nat := (data (pos + 1) + 8).toNat

/-- The loop of `proto` and `extensionLength`: the kind of the header behind the extensions, and
their length. `none` is a walk that has not ended. -/
def scan (data : Bytes) : Nat → BitVec 8 → Nat → Int → Nat → Option (Sim (BitVec 8 × Nat))
  | 0, _, _, _, _ => none
  | fuel + 1, nxt, pos, all, len =>
    if ip6Extension nxt then
      if 0 ≤ all - extLen data pos then
        scan data fuel (data pos) (pos + extLen data pos) (all - extLen data pos)
          (len + extLen data pos)
      else some (.error .assertion)
    else some (.ok (nxt, len))

def ip6Scan (fuel : Nat) (data : Bytes) : Option (Sim (BitVec 8 × Nat)) :=
  scan data fuel (data (off data + 6)) (off data + 40) (ntohs data (off data + 4)).toNat 0

def ports (data : Bytes) (pstart : Nat) : BitVec 16 × BitVec 16 :=
  (ntohs data pstart, ntohs data (pstart + 2))

inductive Header where
  | ip6 (src dst : List (BitVec 8)) (tcp : Option (BitVec 16 × BitVec 16))
  | ip (src dst : BitVec 32) (tcp : Option (BitVec 16 × BitVec 16))
  | other
  deriving DecidableEq

def ip6Address (data : Bytes) (i : Nat) : List (BitVec 8) :=
  (List.range 16).map fun k => data (i + k)

/-- The header of an IPv6 packet whose extensions end with the given kind and length. -/
def ip6Header (data : Bytes) (r : BitVec 8 × Nat) : Header :=
  .ip6 (ip6Address data (off data + 8)) (ip6Address data (off data + 24))
    (if r.1 = protoTcp then some (ports data (off data + (40 + r.2))) else none)

def ipHlen (data : Bytes) : Nat := (data (off data) &&& 0xF).toNat * 4

def ipHeader (data : Bytes) : Header :=
  .ip (ntohl data (off data + 12)) (ntohl data (off data + 16))
    (if data (off data + 9) = protoTcp then some (ports data (off data + ipHlen data)) else none)

/-- The pointers `Ip6Ptr`, `IpPtr` and `TcpPtr` of a packet. -/
def decode (fuel : Nat) (data : Bytes) : Option (Sim Header) :=
  if isIp6 data then (ip6Scan fuel data).map fun r => do return ip6Header data (← r)
  else if isIp data then some (.ok (ipHeader data))
  else some (.ok .other)

section Scan

variable {data : Bytes} {fuel more pos len : Nat} {nxt : BitVec 8} {all : Int}
  {r : BitVec 8 × Nat}

inductive Scans (data : Bytes) : BitVec 8 → Nat → Int → Nat → BitVec 8 × Nat → Prop where
  | done {nxt : BitVec 8} {pos : Nat} {all : Int} {len : Nat} :
      ip6Extension nxt = false → Scans data nxt pos all len (nxt, len)
  | next {nxt : BitVec 8} {pos : Nat} {all : Int} {len : Nat} {r : BitVec 8 × Nat} :
      ip6Extension nxt = true → 0 ≤ all - extLen data pos →
      Scans data (data pos) (pos + extLen data pos) (all - extLen data pos)
        (len + extLen data pos) r →
      Scans data nxt pos all len r

theorem scan_sound (h : scan data fuel nxt pos all len = some (.ok r)) :
    Scans data nxt pos all len r := by
  induction fuel generalizing nxt pos all len with
  | zero => nomatch h
  | succ fuel ih =>
    rw [scan] at h
    by_cases hext : ip6Extension nxt = true
    · rw [if_pos hext] at h
      by_cases hfit : 0 ≤ all - extLen data pos
      · rw [if_pos hfit] at h
        exact .next hext hfit (ih h)
      · rw [if_neg hfit] at h
        nomatch h
    · rw [if_neg hext] at h
      cases h
      exact .done (by simpa using hext)

theorem scan_complete (h : Scans data nxt pos all len r) :
    ∃ fuel, scan data fuel nxt pos all len = some (.ok r) := by
  induction h with
  | done hext => exact ⟨1, by rw [scan, hext, if_neg (by decide)]⟩
  | next hext hfit _ ih =>
    obtain ⟨fuel, ih⟩ := ih
    exact ⟨fuel + 1, by rw [scan, if_pos hext, if_pos hfit, ih]⟩

theorem scan_unique {x y : Sim (BitVec 8 × Nat)} (h : scan data fuel nxt pos all len = some x)
    (k : scan data more nxt pos all len = some y) : x = y := by
  induction fuel generalizing more nxt pos all len with
  | zero => nomatch h
  | succ fuel ih =>
    cases more with
    | zero => nomatch k
    | succ more =>
      rw [scan] at h k
      by_cases hext : ip6Extension nxt = true
      · rw [if_pos hext] at h k
        by_cases hfit : 0 ≤ all - extLen data pos
        · rw [if_pos hfit] at h k
          exact ih h k
        · rw [if_neg hfit] at h k
          exact mem_unique h k
      · rw [if_neg hext] at h k
        exact mem_unique h k

theorem scan_loops (hext : ip6Extension nxt = true) (hsame : data pos = nxt)
    (hzero : extLen data pos = 0) (hall : 0 ≤ all) : scan data fuel nxt pos all len = none := by
  induction fuel with
  | zero => rfl
  | succ fuel ih =>
    rw [scan, if_pos hext, hzero, hsame]
    simpa [hall] using ih

end Scan

inductive Decodes (data : Bytes) : Header → Prop where
  | ip6 {r : BitVec 8 × Nat} : isIp6 data = true →
      Scans data (data (off data + 6)) (off data + 40) (ntohs data (off data + 4)).toNat 0 r →
      Decodes data (ip6Header data r)
  | ip : isIp6 data = false → isIp data = true → Decodes data (ipHeader data)
  | other : isIp6 data = false → isIp data = false → Decodes data .other

section Decode

variable {data : Bytes} {fuel more : Nat} {h k : Header}

theorem decode_ok_iff : (∃ fuel, decode fuel data = some (.ok h)) ↔ Decodes data h := by
  constructor
  · rintro ⟨fuel, hd⟩
    rw [decode] at hd
    split at hd
    next h6 =>
      obtain ⟨x, hx, hd⟩ := map_eq_some_iff.mp hd
      cases x with
      | error e => nomatch hd
      | ok r =>
        cases hd
        exact .ip6 h6 (scan_sound hx)
    next h6 =>
      have h6 : isIp6 data = false := by simpa using h6
      split at hd
      next h4 =>
        cases hd
        exact .ip h6 h4
      next h4 =>
        cases hd
        exact .other h6 (by simpa using h4)
  · intro hd
    cases hd with
    | ip6 h6 hs =>
      obtain ⟨fuel, hs⟩ := scan_complete hs
      exact ⟨fuel, by rw [decode, if_pos h6, ip6Scan, hs]; rfl⟩
    | ip h6 h4 | other h6 h4 => exact ⟨0, by rw [decode, h6, h4]; rfl⟩

theorem decode_unique {x y : Sim Header} (hx : decode fuel data = some x)
    (hy : decode more data = some y) : x = y := by
  rw [decode] at hx hy
  split at hx
  next h6 =>
    rw [if_pos h6] at hy
    obtain ⟨x', hx', rfl⟩ := map_eq_some_iff.mp hx
    obtain ⟨y', hy', rfl⟩ := map_eq_some_iff.mp hy
    rw [scan_unique hx' hy']
  next h6 =>
    rw [if_neg h6] at hy
    exact mem_unique hx hy

end Decode

end Gem5.Inet
