import Mathlib.Data.Nat.ModEq

/-!
# Positions on a ring

A free-running counter `a` sits at slot `a % len`. Moving by a block that does
not run past the end of the ring is one addition and at most one subtraction.
-/

open Nat

namespace Gem5.RingIndex

variable {len a n k : Nat}

def advance (len pos n : Nat) : Nat := if len ≤ pos + n then pos + n - len else pos + n

theorem slot_lt (h : 0 < len) (a : Nat) : a % len < len := mod_lt a h

theorem slot_add_left (len a n : Nat) : (a % len + n) % len = (a + n) % len := by
  rw [add_mod (a % len) n, mod_mod, ← add_mod]

theorem advance_slot (hlen : 0 < len) (hn : n ≤ len) : advance len (a % len) n = (a + n) % len := by
  have hlt := slot_lt hlen a
  rw [← slot_add_left]
  generalize a % len = p at hlt ⊢
  unfold advance
  split
  · rename_i h
    rw [mod_eq_sub_mod h, mod_eq_of_lt (by omega)]
  · rw [mod_eq_of_lt (by omega)]

theorem slot_add (hk : a % len + k < len) : (a + k) % len = a % len + k := by
  rw [← slot_add_left, mod_eq_of_lt hk]

def ahead (len pos slot : Nat) : Nat := (slot + len - pos) % len

theorem slot_ahead {slot : Nat} (hslot : slot < len) :
    (a + ahead len (a % len) slot) % len = slot := by
  have hlt := slot_lt (lt_of_le_of_lt (zero_le _) hslot) a
  rw [← slot_add_left]
  generalize a % len = p at hlt ⊢
  unfold ahead
  rw [add_comm p, slot_add_left]
  have hsum : slot + len - p + p = slot + len := by omega
  rw [hsum, add_mod_right, mod_eq_of_lt hslot]

end Gem5.RingIndex
