import Gem5.Shared.BitStream

/-!
# The hash of receive side scaling

`computeHash` keeps a window of 64 bits of the key. It takes the bits of each byte of the input
from the right, and loads the first window as a number of the host, which is little endian. So
it is the hash of the data sheet for bytes that are read backwards, with the first eight bytes
of the key in reverse order.
-/

namespace Gem5.IGbE

open BitVec List BitStream

/-- The key of 40 bytes, and the bytes at positions modulo 40. -/
abbrev RssKey : Type := Fin 40 → BitVec 8

def RssKey.byte (rssrk : RssKey) (k : Nat) : BitVec 8 := rssrk ⟨k % 40, Nat.mod_lt k (by omega)⟩

def rssrk : RssKey := fun i =>
  [0x6D, 0x5A, 0x56, 0xDA, 0x25, 0x5B, 0x0E, 0xC2, 0x41, 0x67, 0x25, 0x3D, 0x43, 0xA3, 0x8F, 0xB0,
    0xD0, 0xCA, 0x2B, 0xCB, 0xAE, 0x7B, 0x30, 0xB4, 0x77, 0xCB, 0x2D, 0xA3, 0x80, 0x30, 0xF2, 0x0C,
    0x6A, 0x42, 0xB7, 0x3B, 0xBE, 0xAC, 0x01, 0xFA].getD i 0

structure HashState where
  result : BitVec 32
  keyStream : BitVec 64
  bitPos : Nat

/-- The first 64 bits of the key stream, through a union of eight bytes and a word. -/
def loadKeyStream (rssrk : RssKey) : BitVec 64 := ofBytes (fun i => rssrk.byte (7 - i)) 8

def nextKeyStream (rssrk : RssKey) (bitPos : Nat) (keyStream : BitVec 64) : BitVec 64 :=
  let keyStream := keyStream <<< 1
  if bitPos < 320 then
    let keyIndex := (bitPos + 64) / 8
    let bitIndex := 7 - (bitPos + 64) % 8
    keyStream ||| (rssrk.byte keyIndex >>> bitIndex &&& 1).setWidth 64
  else keyStream

def hashBit (rssrk : RssKey) (s : HashState) (b : Bool) : HashState :=
  ⟨if b then s.result ^^^ (s.keyStream >>> 32).setWidth 32 else s.result,
    nextKeyStream rssrk s.bitPos s.keyStream, s.bitPos + 1⟩

def lowBitsFirst (byte : BitVec 8) : List Bool := (List.range 8).map byte.getLsbD

def hashByte (rssrk : RssKey) (s : HashState) (byte : BitVec 8) : HashState :=
  (lowBitsFirst byte).foldl (hashBit rssrk) s

def computeHash (rssrk : RssKey) (input : List (BitVec 8)) : BitVec 32 :=
  (input.foldl (hashByte rssrk) ⟨0, loadKeyStream rssrk, 0⟩).result

def highBitsFirst (byte : BitVec 8) : List Bool := (List.range 8).map fun i => byte.getLsbD (7 - i)

/-- The loop of the data sheet: each bit adds the leftmost 32 bits of the key, which is then
shifted left. -/
def hashLoop : List Bool → BitVec 320 → BitVec 32 → BitVec 32
  | [], _, result => result
  | b :: bits, k, result =>
    hashLoop bits (k <<< 1) (if b then result ^^^ (k >>> 288).setWidth 32 else result)

def intelHash (rssrk : RssKey) (input : List (BitVec 8)) : BitVec 32 :=
  hashLoop (input.flatMap highBitsFirst) (ofBytes rssrk.byte 40) 0

def RssKey.swapped (rssrk : RssKey) : RssKey := fun i =>
  rssrk.byte (if i.val < 8 then 7 - i.val else i.val)

section Windows

variable {rssrk : RssKey} {p q j : Nat}

/-- The leftmost 32 bits of the key after `p` shifts. -/
def keyWindow (rssrk : RssKey) (p : Nat) : BitVec 32 :=
  ((ofBytes rssrk.byte 40 <<< p) >>> 288).setWidth 32

theorem hashLoop_eq {bits : List Bool} {r : BitVec 32} :
    hashLoop bits (ofBytes rssrk.byte 40 <<< p) r = xorWindows (keyWindow rssrk) p bits r := by
  induction bits generalizing p r with
  | nil => rfl
  | cons b bits ih =>
    rw [hashLoop, ← shiftLeft_add, ih]
    rfl

/-- The window of the code after `p` bits. -/
def codeStream (rssrk : RssKey) : Nat → BitVec 64
  | 0 => loadKeyStream rssrk
  | p + 1 => nextKeyStream rssrk p (codeStream rssrk p)

def codeWindow (rssrk : RssKey) (p : Nat) : BitVec 32 := (codeStream rssrk p >>> 32).setWidth 32

theorem foldl_hashBit {bits : List Bool} {r : BitVec 32} :
    (bits.foldl (hashBit rssrk) ⟨r, codeStream rssrk p, p⟩).result =
      xorWindows (codeWindow rssrk) p bits r := by
  induction bits generalizing p r with
  | nil => rfl
  | cons b bits ih =>
    exact ih (p := p + 1)

theorem byte_swapped {k : Nat} (hk : k < 40) :
    rssrk.swapped.byte k = rssrk.byte (if k < 8 then 7 - k else k) := by
  rw [RssKey.byte, RssKey.swapped]
  simp only [Nat.mod_eq_of_lt hk]

theorem getLsbD_codeStream (rssrk : RssKey) (hj : j < 64) (hpj : p + j < 320) :
    (codeStream rssrk p).getLsbD (63 - j) =
      (rssrk.swapped.byte ((p + j) / 8)).getLsbD (7 - (p + j) % 8) := by
  induction p generalizing j with
  | zero =>
    have hload := getLsbD_ofBytes (f := fun i => rssrk.byte (7 - i)) (n := 8) (s := j) hj
    rw [byte_swapped (by omega), if_pos (by omega), zero_add]
    exact hload
  | succ p ih =>
    rw [codeStream, nextKeyStream]
    rw [if_pos (by omega), getLsbD_or, getLsbD_shiftLeft]
    by_cases hlast : j = 63
    · -- the bit that has just been loaded
      subst hlast
      have hbit : (p + 1 + 63) % 8 = (p + 64) % 8 := by omega
      rw [byte_swapped (by omega), if_neg (by omega), hbit]
      simp
      omega
    · have hshift : 63 - j - 1 = 63 - (j + 1) := by omega
      have hpos : p + (j + 1) = p + 1 + j := by omega
      have hold := ih (j := j + 1) (by omega) (by omega)
      have hnew : ((rssrk.byte ((p + 64) / 8) >>> (7 - (p + 64) % 8) &&& 1).setWidth 64).getLsbD
          (63 - j) = false := by
        have hne : ¬ 63 - j = 0 := by omega
        simp [getLsbD_setWidth, getLsbD_one, hne]
      rw [hnew, hshift, hold, hpos]
      simp
      omega

theorem codeWindow_eq (hq : q < 288) : codeWindow rssrk q = keyWindow rssrk.swapped q := by
  apply eq_of_getLsbD_eq
  intro i hi
  have hcode := getLsbD_codeStream rssrk (p := q) (j := 31 - i) (by omega) (by omega)
  have hkey := getLsbD_ofBytes (f := rssrk.swapped.byte) (n := 40) (s := q + (31 - i)) (by omega)
  have hpos : 63 - (31 - i) = 32 + i := by omega
  have hpos' : 8 * 40 - 1 - (q + (31 - i)) = 288 + i - q := by omega
  rw [hpos] at hcode
  rw [hpos'] at hkey
  have h1 : 288 + i < 320 := by omega
  have h2 : ¬ 288 + i < q := by omega
  rw [codeWindow, keyWindow]
  simp only [getLsbD_setWidth, getLsbD_ushiftRight, getLsbD_shiftLeft, hi, h1,
    h2, decide_true, decide_false, Bool.true_and, Bool.not_false]
  exact hcode.trans hkey.symm

end Windows

theorem length_flatMap_lowBitsFirst (input : List (BitVec 8)) :
    (input.flatMap lowBitsFirst).length = 8 * input.length := by
  induction input with
  | nil => rfl
  | cons byte rest ih =>
    rw [flatMap_cons, length_append, lowBitsFirst, length_map, length_range, length_cons]
    omega

theorem computeHash_windows {rssrk : RssKey} {input : List (BitVec 8)} (hlen : input.length ≤ 36) :
    computeHash rssrk input =
      xorWindows (keyWindow rssrk.swapped) 0 (input.flatMap lowBitsFirst) 0 := by
  calc computeHash rssrk input
      = ((input.flatMap lowBitsFirst).foldl (hashBit rssrk) ⟨0, codeStream rssrk 0, 0⟩).result := by
        rw [foldl_flatMap]
        rfl
    _ = xorWindows (codeWindow rssrk) 0 (input.flatMap lowBitsFirst) 0 := foldl_hashBit
    _ = xorWindows (keyWindow rssrk.swapped) 0 (input.flatMap lowBitsFirst) 0 := by
        apply xorWindows_congr
        intro q _ hq
        rw [length_flatMap_lowBitsFirst] at hq
        exact codeWindow_eq (by omega)

theorem intelHash_windows {rssrk : RssKey} {input : List (BitVec 8)} :
    intelHash rssrk input = xorWindows (keyWindow rssrk) 0 (input.flatMap highBitsFirst) 0 := by
  have hkey : ofBytes rssrk.byte 40 = ofBytes rssrk.byte 40 <<< 0 := by rw [shiftLeft_zero]
  rw [intelHash, hkey, hashLoop_eq]

-- the addresses of a known packet, and their hash under the device's key
example : intelHash rssrk [66, 9, 149, 187, 161, 142, 100, 80] = 0x323E8FC2 := by decide +kernel

/-- The bit at position `i`, with the bits of its byte in the opposite order. -/
def mirrored (i : Nat) : Nat := 8 * (i / 8) + (7 - i % 8)

/-- What a set bit at position `i` of the input adds to the difference of the two hashes: the
window that the code takes for it, and the one of the data sheet. -/
def windowError (rssrk : RssKey) (i : Nat) : BitVec 32 :=
  keyWindow rssrk.swapped (mirrored i) ^^^ keyWindow rssrk i

theorem xorWindows_lowBitsFirst {u : Nat → BitVec 32} {k : Nat} {r : BitVec 32}
    (input : List (BitVec 8)) : xorWindows u (8 * k) (input.flatMap lowBitsFirst) r =
      xorWindows (fun i => u (mirrored i)) (8 * k) (input.flatMap highBitsFirst) r := by
  induction input generalizing k r with
  | nil => rfl
  | cons byte rest ih =>
    have hrev : lowBitsFirst byte = (highBitsFirst byte).reverse := by
      simp [lowBitsFirst, highBitsFirst, range_succ]
    have hbyte : xorWindows u (8 * k) (lowBitsFirst byte) r =
        xorWindows (fun i => u (mirrored i)) (8 * k) (highBitsFirst byte) r := by
      rw [hrev]
      apply xorWindows_reverse
      intro i hi
      have hlen : (highBitsFirst byte).length = 8 := by simp [highBitsFirst]
      have hpos : mirrored (8 * k + (8 - 1 - i)) = 8 * k + i := by
        rw [mirrored]
        omega
      rw [hlen, hpos]
    have hlow : (lowBitsFirst byte).length = 8 := by simp [lowBitsFirst]
    have hnext : 8 * k + 8 = 8 * (k + 1) := by omega
    rw [flatMap_cons, xorWindows_append, hbyte, hlow, hnext]
    exact ih

theorem computeHash_xor_intelHash {rssrk : RssKey} {input : List (BitVec 8)}
    (hlen : input.length ≤ 36) : computeHash rssrk input ^^^ intelHash rssrk input =
      xorWindows (windowError rssrk) 0 (input.flatMap highBitsFirst) 0 := by
  have hmirror := xorWindows_lowBitsFirst (u := keyWindow rssrk.swapped) (k := 0) (r := 0) input
  rw [computeHash_windows hlen, intelHash_windows, hmirror, xorWindows_xor_xorWindows]
  rfl

/-- The code agrees with the data sheet on an input exactly if the errors of its set bits cancel. -/
theorem computeHash_conforms_iff (rssrk : RssKey) (input : List (BitVec 8))
    (hlen : input.length ≤ 36) :
    computeHash rssrk input = intelHash rssrk input ↔
      xorWindows (windowError rssrk) 0 (input.flatMap highBitsFirst) 0 = 0 := by
  rw [← computeHash_xor_intelHash hlen]
  exact BitVec.xor_eq_zero_iff.symm

/-- Twenty set bits whose errors cancel. -/
theorem computeHash_conforms_iff_cancelling :
    computeHash rssrk [0x78, 0xC3, 0x1D, 0xAB, 1] = intelHash rssrk [0x78, 0xC3, 0x1D, 0xAB, 1] :=
  (computeHash_conforms_iff rssrk _ (by decide)).mpr (by decide +kernel)

/-- One byte with its lowest bit set. -/
theorem computeHash_one_byte :
    computeHash rssrk [1] = 0xC20E5B25 ∧ intelHash rssrk [1] ≠ 0xC20E5B25 := by
  decide +kernel

end Gem5.IGbE
