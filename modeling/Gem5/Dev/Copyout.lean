import Gem5.Dev.PacketFifo

/-!
# Copying bytes out of the packet fifo

`copyout` is to copy `len` bytes from `offset` on. It skips packets with the length of the first
one, since the reference to the packet stays behind while the iterator moves, and it copies the
packet from its start rather than from the offset. A request for the last byte is refused.
-/

open Option

namespace Gem5.Dev

open List IGbE Nat

/-- The inner loop: the length `l` is that of the packet where the loop began. `none` is a loop that
has not ended. -/
def skip (l : Nat) : Nat → Nat → Nat → Option (Nat × Nat)
  | 0, _, _ => none
  | fuel + 1, offset, i => if l ≤ offset then skip l fuel (offset - l) (i + 1) else some (offset, i)

namespace PacketFifo

def copyLoop (fifo : List PacketFifoEntry) :
    Nat → Nat → Nat → Nat → List UInt8 → Option (Sim (List UInt8))
  | 0, _, _, _, _ => none
  | fuel + 1, i, offset, len, dest =>
    if len = 0 then some (.ok dest)
    else match fifo[i]? with
      | none => some (.error .outOfBounds)
      | some e =>
        match skip e.packet.length fuel offset i with
        | none => none
        | some (offset, i) =>
          if i = fifo.length then some (.error (.panic "invalid fifo"))
          else if fifo.length < i then some (.error .outOfBounds)
          else
            let size := min (e.packet.length - offset) len
            copyLoop fifo fuel (i + 1) 0 (len - size) (dest ++ e.packet.data.take size)

/-- The result, and the bytes written to `dest`. -/
def copyout (fuel : Nat) (f : PacketFifo) (offset len : Nat) : Option (Sim (Bool × List UInt8)) :=
  if f.size ≤ (offset + len) % 2 ^ 32 then some (.ok (false, []))
  else (copyLoop f.fifo fuel 0 offset len []).map fun r => r.map fun dest => (true, dest)

def contents (l : List PacketFifoEntry) : List UInt8 := l.flatMap fun e => e.packet.data

def slice (f : PacketFifo) (offset len : Nat) : List UInt8 :=
  ((contents f.fifo).drop offset).take len

def firstLength (f : PacketFifo) : Nat := (f.fifo.map fun e => e.packet.length).headD 0

def skipped (f : PacketFifo) (offset : Nat) : Nat := offset / f.firstLength

def firstPart (f : PacketFifo) (offset len : Nat) : Nat :=
  min (f.firstLength - offset % f.firstLength) len

def Coincides (f : PacketFifo) (offset len : Nat) : Prop :=
  f.skipped offset < f.fifo.length ∧
  f.slice offset len = (contents f.fifo).take (f.firstPart offset len) ++
    (contents (f.fifo.drop (f.skipped offset + 1))).take (len - f.firstPart offset len)

end PacketFifo

section Skip

variable {l fuel offset i : Nat}

theorem skip_eq (hl : 0 < l) (hfuel : offset < fuel) :
    skip l fuel offset i = some (offset % l, i + offset / l) := by
  induction fuel generalizing offset i with
  | zero => omega
  | succ fuel ih =>
    rw [skip]
    by_cases hle : l ≤ offset
    · rw [if_pos hle, ih (by omega), mod_eq_sub_mod hle, div_eq_sub_div hl hle]
      congr 2
      omega
    · rw [if_neg hle, mod_eq_of_lt (by omega), div_eq_of_lt (by omega), add_zero]

theorem skip_unique {x : Nat × Nat} (hl : 0 < l) (h : skip l fuel offset i = some x) :
    x = (offset % l, i + offset / l) := by
  induction fuel generalizing offset i with
  | zero => nomatch h
  | succ fuel ih =>
    rw [skip] at h
    by_cases hle : l ≤ offset
    · rw [if_pos hle] at h
      rw [ih h, mod_eq_sub_mod hle, div_eq_sub_div hl hle]
      congr 1
      omega
    · rw [if_neg hle] at h
      cases h
      rw [mod_eq_of_lt (by omega), div_eq_of_lt (by omega), add_zero]

end Skip

namespace PacketFifo

variable {fifo rest : List PacketFifoEntry} {e : PacketFifoEntry} {fuel i len offset : Nat}
  {dest : List UInt8}

theorem contents_cons : contents (e :: rest) = e.packet.data ++ contents rest := rfl

theorem take_append_take (more : List UInt8) :
    e.packet.data.take (min e.packet.length len) ++ more.take (len - min e.packet.length len) =
      (e.packet.data ++ more).take len := by
  have hbytes : e.packet.data.length = e.packet.length := rfl
  rw [take_append, hbytes]
  by_cases hshort : len ≤ e.packet.length
  · rw [Nat.min_eq_right hshort, Nat.sub_self, Nat.sub_eq_zero_of_le hshort]
  · rw [Nat.min_eq_left (by omega), take_of_length_le (i := e.packet.length) (by omega),
      take_of_length_le (i := len) (by omega)]

theorem copyLoop_rest (hdrop : fifo.drop i = rest) (hpos : ∀ e ∈ rest, 0 < e.packet.length)
    (hfuel : rest.length < fuel) : copyLoop fifo fuel i 0 len dest =
      some (if len ≤ (contents rest).length then .ok (dest ++ (contents rest).take len)
        else .error .outOfBounds) := by
  induction rest generalizing i len dest fuel with
  | nil =>
    obtain ⟨fuel, rfl⟩ : ∃ k, fuel = k + 1 := ⟨fuel - 1, by omega⟩
    have hend : fifo[i]? = none := List.getElem?_eq_none (drop_eq_nil_iff.mp hdrop)
    rw [copyLoop]
    by_cases hlen : len = 0
    · subst hlen
      simp [contents]
    · rw [if_neg hlen, hend, if_neg (by simpa [contents] using hlen)]
  | cons e rest ih =>
    obtain ⟨fuel, rfl⟩ : ∃ k, fuel = k + 1 := ⟨fuel - 1, by omega⟩
    have he : fifo[i]? = some e := by
      rw [← List.head?_drop, hdrop]
      rfl
    have hi : i < fifo.length := (List.getElem?_eq_some_iff.mp he).1
    have hnext : fifo.drop (i + 1) = rest := by
      rw [← tail_drop, hdrop]
      rfl
    have hlenpos := hpos e mem_cons_self
    have hbytes : e.packet.data.length = e.packet.length := rfl
    rw [length_cons] at hfuel
    rw [copyLoop]
    by_cases hlen : len = 0
    · subst hlen
      simp
    · rw [if_neg hlen, he]
      dsimp only
      rw [skip_eq hlenpos (by omega), zero_mod, Nat.zero_div]
      dsimp only
      rw [if_neg (by omega), if_neg (by omega), Nat.sub_zero,
        ih hnext (fun d hd => hpos d (mem_cons_of_mem e hd)) (by omega), contents_cons,
        length_append]
      congr 1
      by_cases hfit : len - min e.packet.length len ≤ (contents rest).length
      · rw [if_pos hfit, if_pos (by omega), append_assoc, take_append_take]
      · rw [if_neg hfit, if_neg (by omega)]

theorem copyLoop_unique {more : Nat} {x y : Sim (List UInt8)}
    (hpos : ∀ e ∈ fifo, 0 < e.packet.length)
    (hx : copyLoop fifo fuel i offset len dest = some x)
    (hy : copyLoop fifo more i offset len dest = some y) : x = y := by
  induction fuel generalizing more i offset len dest with
  | zero => nomatch hx
  | succ fuel ih =>
    cases more with
    | zero => nomatch hy
    | succ more =>
      rw [copyLoop] at hx hy
      by_cases hlen : len = 0
      · rw [if_pos hlen] at hx hy
        exact mem_unique hx hy
      · rw [if_neg hlen] at hx hy
        cases he : fifo[i]? with
        | none =>
          rw [he] at hx hy
          exact mem_unique hx hy
        | some e =>
          have hl := hpos e (mem_of_getElem? he)
          rw [he] at hx hy
          dsimp only at hx hy
          cases hs : skip e.packet.length fuel offset i with
          | none =>
            rw [hs] at hx
            nomatch hx
          | some r =>
            cases ht : skip e.packet.length more offset i with
            | none =>
              rw [ht] at hy
              nomatch hy
            | some t =>
              rw [hs, skip_unique hl hs] at hx
              rw [ht, skip_unique hl ht] at hy
              dsimp only at hx hy
              split at hx
              next hend =>
                rw [if_pos hend] at hy
                exact mem_unique hx hy
              next hend =>
                rw [if_neg hend] at hy
                split at hx
                next hpast =>
                  rw [if_pos hpast] at hy
                  exact mem_unique hx hy
                next hpast =>
                  rw [if_neg hpast] at hy
                  exact ih hx hy

theorem copyLoop_first (hfifo : fifo = e :: rest) (hpos : ∀ e ∈ fifo, 0 < e.packet.length)
    (hlen : len ≠ 0) (hfuel : offset + fifo.length < fuel) :
    copyLoop fifo (fuel + 1) 0 offset len [] =
      some (if offset / e.packet.length = fifo.length then .error (.panic "invalid fifo")
        else if fifo.length < offset / e.packet.length then .error .outOfBounds
        else
          let size := min (e.packet.length - offset % e.packet.length) len
          let behind := contents (fifo.drop (offset / e.packet.length + 1))
          if len - size ≤ behind.length then
            .ok (e.packet.data.take size ++ behind.take (len - size))
          else .error .outOfBounds) := by
  have hl : 0 < e.packet.length := hpos e (by rw [hfifo]; exact mem_cons_self)
  have he : fifo[0]? = some e := by rw [hfifo]; rfl
  rw [copyLoop, if_neg hlen, he]
  dsimp only
  rw [skip_eq hl (by omega), zero_add]
  dsimp only
  split
  next => rfl
  next =>
    split
    next => rfl
    next =>
      apply copyLoop_rest rfl
      · exact fun d hd => hpos d (mem_of_mem_drop hd)
      · rw [length_drop]
        exact lt_of_le_of_lt (sub_le _ _) (by omega)

section Conforms

variable {f : PacketFifo}

/-- What `copyout` is to do: give the bytes if they are there, and refuse otherwise. -/
def CopiesOut (f : PacketFifo) (offset len : Nat) : Prop :=
  (offset + len ≤ f.size → ∃ fuel,
  copyout fuel f offset len = some (.ok (true, f.slice offset len))) ∧
  (f.size < offset + len → ∃ fuel, copyout fuel f offset len = some (.ok (false, [])))

structure NoSlack (f : PacketFifo) : Prop extends f.Sound where
  slack_zero : ∀ e ∈ f.fifo, e.slack = 0

theorem length_contents (hf : f.NoSlack) : (contents f.fifo).length = f.size := by
  have hlen : ∀ l : List PacketFifoEntry, (∀ e ∈ l, e.slack = 0) →
      (contents l).length = total l := by
    intro l hl
    induction l with
    | nil => rfl
    | cons e rest ih =>
      have hslack := hl e mem_cons_self
      have hrest := ih fun d hd => hl d (mem_cons_of_mem e hd)
      rw [total] at hrest
      rw [contents_cons, length_append, hrest, total, map_cons,
        PacketFifoEntry.bytes, hslack]
      rfl
  rw [hf.size_eq]
  exact hlen f.fifo hf.slack_zero

theorem length_slice (hf : f.NoSlack) (hle : offset + len ≤ f.size) :
    (f.slice offset len).length = len := by
  rw [slice, length_take, length_drop, length_contents hf]
  omega

theorem exists_first (hf : f.NoSlack) (hpos : 0 < f.size) :
    ∃ e rest, f.fifo = e :: rest ∧ f.firstLength = e.packet.length := by
  cases hfifo : f.fifo with
  | nil =>
    have hsize := hf.size_eq
    rw [hfifo] at hsize
    have hzero : f.size = 0 := hsize
    omega
  | cons e rest => exact ⟨e, rest, rfl, by rw [firstLength, hfifo]; rfl⟩

theorem copyLoop_slice_iff (hf : f.NoSlack) (hlt : offset + len < f.size) (hlen : len ≠ 0) :
    (∃ fuel, copyLoop f.fifo fuel 0 offset len [] = some (.ok (f.slice offset len))) ↔
      f.Coincides offset len := by
  obtain ⟨e, rest, hfifo, hlength⟩ := exists_first hf (by omega)
  have hbytes : e.packet.data.length = e.packet.length := rfl
  have hslice := length_slice hf (le_of_lt hlt)
  have hpart : f.firstPart offset len ≤ e.packet.data.length := by
    rw [firstPart]
    omega
  have htake : (contents f.fifo).take (f.firstPart offset len) =
      e.packet.data.take (f.firstPart offset len) := by
    rw [hfifo, contents_cons, take_append_of_le_length hpart]
  have hloop := copyLoop_first hfifo hf.nonempty hlen (lt_succ_self (offset + f.fifo.length))
  rw [Coincides, htake]
  have hskipped : offset / e.packet.length = f.skipped offset := by rw [skipped, hlength]
  have hsize : min (e.packet.length - offset % e.packet.length) len = f.firstPart offset len := by
    rw [firstPart, hlength]
  simp only [hskipped, hsize] at hloop
  generalize f.firstPart offset len = n at *
  generalize contents (f.fifo.drop (f.skipped offset + 1)) = behind at *
  constructor
  · rintro ⟨fuel, h⟩
    have hsame := copyLoop_unique hf.nonempty hloop h
    split at hsame
    next => nomatch hsame
    next hend =>
      split at hsame
      next => nomatch hsame
      next hpast =>
        split at hsame
        next => exact ⟨by omega, eq_of_ok hsame rfl⟩
        next => nomatch hsame
  · rintro ⟨hskip, heq⟩
    have htotal : n + min (len - n) behind.length = len := by
      have hlens := congrArg List.length heq
      rw [hslice, length_append, length_take, length_take, Nat.min_eq_left hpart] at hlens
      exact hlens.symm
    refine ⟨_, hloop.trans ?_⟩
    rw [if_neg (by omega), if_neg (by omega), if_pos (by omega), heq]

theorem coincides_zero (hf : f.NoSlack) (hpos : 0 < f.size) : f.Coincides 0 len := by
  obtain ⟨e, rest, hfifo, hlength⟩ := exists_first hf hpos
  have hskip : f.skipped 0 = 0 := Nat.zero_div _
  have hpart : f.firstPart 0 len = min e.packet.length len := by
    rw [firstPart, hlength, zero_mod, Nat.sub_zero]
  have hle : min e.packet.length len ≤ e.packet.data.length := Nat.min_le_left _ _
  rw [Coincides, hskip, hpart, slice, hfifo, contents_cons,
    take_append_of_le_length hle]
  refine ⟨succ_pos _, ?_⟩
  exact (take_append_take (contents rest)).symm

end Conforms

/-- `copyout` does what it is to do exactly if the sum of a request that is too long does not wrap
around to a short one, and a request that fits ends before the last byte and asks for bytes that
coincide with those it takes. -/
theorem copyout_conforms_iff (f : PacketFifo) (hf : f.NoSlack) (offset len : Nat) :
    f.CopiesOut offset len ↔
      if f.size < offset + len then f.size ≤ (offset + len) % 2 ^ 32
      else offset + len < f.size ∧ (len = 0 ∨ f.Coincides offset len) := by
  have hmax := hf.max_lt
  have hfits := hf.fits
  by_cases hlong : f.size < offset + len
  · rw [if_pos hlong]
    constructor
    · rintro ⟨-, hrefuse⟩
      obtain ⟨fuel, h⟩ := hrefuse hlong
      apply not_lt.mp
      intro hwrap
      rw [copyout, if_neg (by omega)] at h
      obtain ⟨x, -, hx⟩ := map_eq_some_iff.mp h
      cases x with
      | error e | ok dest => nomatch hx
    · intro hwrap
      exact ⟨fun h => absurd h (by omega), fun _ => ⟨0, by rw [copyout, if_pos hwrap]⟩⟩
  · have hmod : (offset + len) % 2 ^ 32 = offset + len := mod_eq_of_lt (by omega)
    rw [if_neg hlong]
    constructor
    · rintro ⟨hcopy, -⟩
      obtain ⟨fuel, h⟩ := hcopy (not_lt.mp hlong)
      rw [copyout, hmod] at h
      by_cases hlast : f.size ≤ offset + len
      · rw [if_pos hlast] at h
        nomatch h
      · rw [if_neg hlast] at h
        have hlt : offset + len < f.size := by omega
        obtain ⟨x, hx, hdest⟩ := map_eq_some_iff.mp h
        refine ⟨hlt, ?_⟩
        cases x with
        | error e => nomatch hdest
        | ok dest =>
          have hdest : dest = f.slice offset len := by
            cases hdest
            rfl
          by_cases hlen : len = 0
          · exact .inl hlen
          · exact .inr ((copyLoop_slice_iff hf hlt hlen).mp ⟨fuel, by rw [hx, hdest]⟩)
    · rintro ⟨hlt, hbytes⟩
      refine ⟨fun _ => ?_, fun h => absurd h hlong⟩
      have hloop : ∃ fuel,
          copyLoop f.fifo fuel 0 offset len [] = some (.ok (f.slice offset len)) := by
        by_cases hlen : len = 0
        · subst hlen
          exact ⟨1, by rw [copyLoop, if_pos rfl, slice, take_zero]⟩
        · exact (copyLoop_slice_iff hf hlt hlen).mpr (hbytes.resolve_left hlen)
      obtain ⟨fuel, hloop⟩ := hloop
      exact ⟨fuel, by rw [copyout, hmod, if_neg (by omega), hloop]; rfl⟩

def twoPackets : PacketFifo := ⟨[⟨⟨[1, 2]⟩, 0, 0⟩, ⟨⟨[3]⟩, 1, 0⟩], 2, 10, 3, 0⟩

theorem twoPackets_noSlack : twoPackets.NoSlack := by
  refine ⟨⟨by decide, rfl, by decide, ?_⟩, ?_⟩
  · simp [twoPackets, EthPacket.length]
  · simp [twoPackets]

theorem copyout_conforms_iff_first_bytes : twoPackets.CopiesOut 0 2 :=
  (copyout_conforms_iff twoPackets twoPackets_noSlack 0 2).mpr
    (by
      rw [if_neg (by decide)]
      exact ⟨by decide, .inr (coincides_zero twoPackets_noSlack (by decide))⟩)

/-- The byte at offset one is not copied, but that at offset zero; all three bytes are refused. -/
theorem copyout_from_start :
    twoPackets.slice 1 1 = [2] ∧ copyout 5 twoPackets 1 1 = some (.ok (true, [1])) ∧
    twoPackets.size = 0 + 3 ∧ copyout 5 twoPackets 0 3 = some (.ok (false, [])) :=
  ⟨rfl, rfl, rfl, rfl⟩

end PacketFifo

end Gem5.Dev
