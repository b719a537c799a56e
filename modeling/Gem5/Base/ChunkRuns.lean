import Gem5.Base.ChunkGenerator
import Gem5.Shared.Reachability

/-!
# Chunks of a region

A run takes chunks with `next` and may grow the current one with `setNext`. The chunks tile
the region as long as the chunk that follows a grown one does not reach over the end.
-/

namespace Gem5.Base

open List BitVec Nat

open ChunkGenerator (lineEnd firstSize lt_lineEnd firstSize_inLine minAddr_toNat)

structure Chunk where
  addr : Nat
  size : Nat
  grown : Bool

def Chunk.piece (c : Chunk) : Nat × Nat := (c.addr, c.size)

/-- A generator with the chunks that `next` has gone past. -/
structure ChunkRun where
  gen : ChunkGenerator
  chunks : List Chunk
  grown : Bool
  finished : Bool

inductive ChunkAct
  | next
  | setNext (a : BitVec 64)

namespace ChunkRun

def start (startAddr totalSize chunkSize : BitVec 64) : ChunkRun :=
  ⟨.new startAddr totalSize chunkSize, [], false, false⟩

def current (s : ChunkRun) : Chunk := ⟨s.gen.addr.toNat, s.gen.size.toNat, s.grown⟩

def produced (s : ChunkRun) : List Chunk :=
  if s.finished then s.chunks else s.chunks ++ [s.current]

def step (s : ChunkRun) : ChunkAct → Sim ChunkRun
  | .next => .ok ⟨s.gen.next, s.chunks ++ [s.current], false, s.gen.last⟩
  | .setNext a => do
    let g ← s.gen.setNext a
    pure { s with gen := g, grown := s.grown || a != s.gen.nextAddr }

/-- The calls that are made until `next` returns false. -/
def InRegion (regionEnd : Nat) (s : ChunkRun) : ChunkAct → Prop
  | .next => s.finished = false
  | .setNext a => s.finished = false ∧ s.gen.nextAddr ≤ a ∧ a.toNat ≤ regionEnd

def NextFits (line regionEnd : Nat) (s : ChunkRun) : ChunkAct → Prop
  | .next => s.gen.nextAddr.toNat = regionEnd ∨ line ∣ s.gen.nextAddr.toNat ∨
      lineEnd line s.gen.nextAddr.toNat ≤ regionEnd
  | .setNext _ => True

structure Partition (line start total : Nat) (s : ChunkRun) : Prop where
  consecutive : ∃ b ≤ start + total, Consecutive start b (s.produced.map Chunk.piece) ∧
    (s.finished = true → b = start + total)
  inLine : ∀ c ∈ s.produced, c.grown = false → 0 < c.size → InLine line c.addr c.size
  nonempty : 0 < total → ∀ c ∈ s.produced, 0 < c.size
  counts : s.finished = false →
    s.gen.complete.toNat + s.gen.size.toNat + s.gen.sizeLeft.toNat = total

structure Under (bits start total : Nat) (s : ChunkRun) : Prop where
  unfinished : s.finished = false
  chunkSize : s.gen.chunkSize = BitVec.twoPow 64 bits
  startAddr : s.gen.startAddr.toNat = start
  start_le : start ≤ s.gen.curAddr.toNat
  region : s.gen.curAddr.toNat + s.gen.curSize.toNat + s.gen.sizeLeft.toNat = start + total
  nextAddr : s.gen.nextAddr.toNat = s.gen.curAddr.toNat + s.gen.curSize.toNat
  nextSize : 0 < s.gen.sizeLeft.toNat → s.gen.nextSize.toNat =
    if 2 ^ bits ∣ s.gen.nextAddr.toNat then min s.gen.sizeLeft.toNat (2 ^ bits)
    else lineEnd (2 ^ bits) s.gen.nextAddr.toNat - s.gen.nextAddr.toNat
  before : Consecutive start s.gen.curAddr.toNat (s.chunks.map Chunk.piece)
  inLine : ∀ c ∈ s.chunks ++ [s.current], c.grown = false → 0 < c.size →
    InLine (2 ^ bits) c.addr c.size
  nonempty : 0 < total → ∀ c ∈ s.chunks ++ [s.current], 0 < c.size
  few : total = 0 → s.chunks = []

variable {s t : ChunkRun} {bits start total : Nat} {a : ChunkAct}

instance (regionEnd : Nat) (s : ChunkRun) : DecidablePred (s.InRegion regionEnd)
  | .next => inferInstanceAs (Decidable (_ = _))
  | .setNext _ => inferInstanceAs (Decidable (_ ∧ _ ∧ _))

instance (line regionEnd : Nat) (s : ChunkRun) : DecidablePred (s.NextFits line regionEnd)
  | .next => inferInstanceAs (Decidable (_ ∨ _ ∨ _))
  | .setNext _ => inferInstanceAs (Decidable True)

theorem InRegion.unfinished {regionEnd : Nat} (h : s.InRegion regionEnd a) :
    s.finished = false := by
  cases a with
  | next => exact h
  | setNext next => exact h.1

theorem Partition.current_le {line : Nat} (h : s.Partition line start total)
    (hopen : s.finished = false) : s.gen.curAddr.toNat + s.gen.curSize.toNat ≤ start + total := by
  obtain ⟨⟨b, hb, hcut, _⟩, _⟩ := h
  rw [produced, hopen, if_neg Bool.false_ne_true, map_append] at hcut
  have hend : b = s.gen.curAddr.toNat + s.gen.curSize.toNat := hcut.last_eq
  omega

namespace Under

section

variable (h : s.Under bits start total)
include h

theorem left_eq : s.gen.nextAddr.toNat + s.gen.sizeLeft.toNat = start + total := by
  rw [h.nextAddr]
  exact h.region

theorem last_iff : s.gen.last = true ↔ s.gen.nextAddr.toNat = start + total := by
  have hleft := h.left_eq
  rw [ChunkGenerator.last, beq_iff_eq]
  constructor
  · intro hzero
    rw [hzero] at hleft
    exact hleft
  · intro heq
    apply eq_of_toNat_eq
    change s.gen.sizeLeft.toNat = 0
    omega

theorem complete_eq : s.gen.complete.toNat = s.gen.curAddr.toNat - start := by
  have hstart := h.startAddr
  have hle := h.start_le
  rw [ChunkGenerator.complete, toNat_sub_of_le (by rw [le_def]; omega), hstart]

theorem through :
    Consecutive start s.gen.nextAddr.toNat ((s.chunks ++ [s.current]).map Chunk.piece) := by
  rw [map_append, h.nextAddr]
  exact h.before.snoc

theorem partition : s.Partition (2 ^ bits) start total := by
  have hproduced : s.produced = s.chunks ++ [s.current] := by
    rw [produced, h.unfinished, if_neg Bool.false_ne_true]
  have hleft := h.left_eq
  refine ⟨⟨s.gen.nextAddr.toNat, by omega, ?_, ?_⟩, ?_, ?_, fun _ => ?_⟩
  · rw [hproduced]
    exact h.through
  · intro hfin
    exact Bool.noConfusion (h.unfinished.symm.trans hfin)
  · rw [hproduced]
    exact h.inLine
  · rw [hproduced]
    exact h.nonempty
  · have hregion := h.region
    have hle := h.start_le
    have hcomplete := h.complete_eq
    change _ + s.gen.curSize.toNat + _ = _
    omega

theorem length_le : s.chunks.length ≤ total := by
  rcases Nat.eq_zero_or_pos total with hzero | hpos
  · rw [h.few hzero]
    exact zero_le _
  · have hall := h.through.length_le (by
      intro x hx
      obtain ⟨c, hc, rfl⟩ := mem_map.mp hx
      exact h.nonempty hpos c hc)
    have hleft := h.left_eq
    rw [length_map, length_append] at hall
    omega

theorem setNext (hbits : bits < 64) (hspace : start + total < 2 ^ 64)
    {next : BitVec 64} (hle : s.gen.nextAddr ≤ next) (hend : next.toNat ≤ start + total) :
    ∃ t, s.step (.setNext next) = .ok t ∧ t.Under bits start total := by
  have hleft := h.left_eq
  have hnext := h.nextAddr
  have hle' := hle
  rw [le_def] at hle'
  obtain ⟨hcall, hsize, hrest, hnextSize⟩ := ChunkGenerator.setNext_fields hbits h.chunkSize hle
    (by omega) (by omega)
  refine ⟨{ s with gen := s.gen.grownTo next, grown := s.grown || next != s.gen.nextAddr }, ?_,
    ⟨h.unfinished, h.chunkSize, h.startAddr, h.start_le, ?_, ?_, fun _ => hnextSize, h.before,
      ?_, ?_, h.few⟩⟩
  · rw [step, hcall]
    rfl
  · change s.gen.curAddr.toNat + (s.gen.grownTo next).curSize.toNat +
      (s.gen.grownTo next).sizeLeft.toNat = _
    omega
  · change next.toNat = s.gen.curAddr.toNat + (s.gen.grownTo next).curSize.toNat
    omega
  · intro c hc hgrown hpos
    rcases mem_append.mp hc with hc | hc
    · exact h.inLine c (mem_append_left _ hc) hgrown hpos
    · -- the current chunk keeps its size unless it has grown
      obtain rfl := mem_singleton.mp hc
      obtain ⟨hbefore, hsame⟩ := Bool.or_eq_false_iff.mp hgrown
      have heq : next = s.gen.nextAddr := by simpa using hsame
      have hkept : (s.gen.grownTo next).curSize.toNat = s.gen.curSize.toNat := by
        rw [hsize, heq, Nat.sub_self, add_zero]
      change InLine _ s.gen.curAddr.toNat (s.gen.grownTo next).curSize.toNat
      change 0 < (s.gen.grownTo next).curSize.toNat at hpos
      rw [hkept] at hpos ⊢
      exact h.inLine s.current (mem_append_right _ (mem_singleton_self _)) hbefore hpos
  · intro htotal c hc
    rcases mem_append.mp hc with hc | hc
    · exact h.nonempty htotal c (mem_append_left _ hc)
    · obtain rfl := mem_singleton.mp hc
      have hpos : 0 < s.gen.curSize.toNat :=
        h.nonempty htotal s.current (mem_append_right _ (mem_singleton_self _))
      change 0 < (s.gen.grownTo next).curSize.toNat
      omega

theorem next_last (hlast : s.gen.last = true) :
    Partition (2 ^ bits) start total ⟨s.gen.next, s.chunks ++ [s.current], false, true⟩ where
  consecutive := by
    refine ⟨start + total, le_rfl, ?_, fun _ => rfl⟩
    have hthrough := h.through
    rw [h.last_iff.mp hlast] at hthrough
    exact hthrough
  inLine := h.inLine
  nonempty := h.nonempty
  counts := fun hfin => by cases hfin

end

theorem next_gen (hlast : s.gen.last = false) : s.gen.next.curAddr = s.gen.nextAddr ∧
    s.gen.next.curSize = s.gen.nextSize ∧ s.gen.next.sizeLeft = s.gen.sizeLeft - s.gen.nextSize ∧
    s.gen.next.nextAddr = s.gen.nextAddr + s.gen.nextSize ∧ s.gen.next.nextSize =
      ChunkGenerator.minAddr (s.gen.sizeLeft - s.gen.nextSize) s.gen.chunkSize ∧
    s.gen.next.chunkSize = s.gen.chunkSize ∧ s.gen.next.startAddr = s.gen.startAddr := by
  rw [ChunkGenerator.next, hlast]
  exact ⟨rfl, rfl, rfl, rfl, rfl, rfl, rfl⟩

theorem nextSize_le_iff (h : s.Under bits start total) (hlast : s.gen.last = false) :
    s.gen.nextSize.toNat ≤ s.gen.sizeLeft.toNat ↔ s.NextFits (2 ^ bits) (start + total) .next := by
  have hleft := h.left_eq
  have hmore : s.gen.nextAddr.toNat ≠ start + total := fun heq =>
    Bool.noConfusion (hlast.symm.trans (h.last_iff.mpr heq))
  rw [h.nextSize (by omega)]
  split
  · rename_i hdvd
    exact iff_of_true (Nat.min_le_left _ _) (Or.inr (Or.inl hdvd))
  · rename_i hdvd
    constructor
    · intro hle
      exact .inr (Or.inr (by omega))
    · rintro (heq | hd | hle)
      · exact absurd heq hmore
      · exact absurd hd hdvd
      · omega

theorem nextSize_cut (h : s.Under bits start total) (hlast : s.gen.last = false) :
    0 < s.gen.nextSize.toNat ∧ InLine (2 ^ bits) s.gen.nextAddr.toNat s.gen.nextSize.toNat ∧
      (s.gen.nextSize.toNat < s.gen.sizeLeft.toNat →
        2 ^ bits ∣ s.gen.nextAddr.toNat + s.gen.nextSize.toNat) := by
  have hpos : 0 < 2 ^ bits := Nat.two_pow_pos bits
  have hleft := h.left_eq
  have hmore : s.gen.nextAddr.toNat ≠ start + total := fun heq =>
    Bool.noConfusion (hlast.symm.trans (h.last_iff.mpr heq))
  rw [h.nextSize (by omega)]
  split
  · rename_i hdvd
    refine ⟨by omega, ChunkGenerator.inLine_of_dvd hdvd (Nat.min_le_right _ _) (by omega), ?_⟩
    intro hless
    rw [Nat.min_eq_right (by omega)]
    exact Nat.dvd_add hdvd (Nat.dvd_refl _)
  · have hgt : s.gen.nextAddr.toNat < lineEnd (2 ^ bits) s.gen.nextAddr.toNat :=
      lt_lineEnd hpos
    have hfirst : firstSize (2 ^ bits) s.gen.nextAddr.toNat
        (lineEnd (2 ^ bits) s.gen.nextAddr.toNat - s.gen.nextAddr.toNat) =
          lineEnd (2 ^ bits) s.gen.nextAddr.toNat - s.gen.nextAddr.toNat := by
      unfold firstSize
      omega
    refine ⟨by omega, ?_, fun _ => ?_⟩
    · rw [← hfirst]
      exact firstSize_inLine hpos (by omega)
    · rw [add_sub_of_le hgt.le]
      exact Nat.dvd_mul_left _ _

theorem next_fits (h : s.Under bits start total) (hbits : bits < 64)
    (hspace : start + total < 2 ^ 64)
    (hlast : s.gen.last = false) (hfits : s.NextFits (2 ^ bits) (start + total) .next) :
    Under bits start total ⟨s.gen.next, s.chunks ++ [s.current], false, false⟩ := by
  have hleft := h.left_eq
  have hstart := h.start_le
  have hnext := h.nextAddr
  have hle := (h.nextSize_le_iff hlast).mpr hfits
  obtain ⟨hpos, hin, hdvd⟩ := h.nextSize_cut hlast
  obtain ⟨haddr, hsize, hrest, hafter, hthen, hchunk, hfrom⟩ := next_gen hlast
  have hrest' : s.gen.next.sizeLeft.toNat = s.gen.sizeLeft.toNat - s.gen.nextSize.toNat := by
    rw [hrest, toNat_sub_of_le hle]
  have hafter' : s.gen.next.nextAddr.toNat = s.gen.nextAddr.toNat + s.gen.nextSize.toNat := by
    rw [hafter, toNat_add, mod_eq_of_lt (by omega)]
  refine ⟨rfl, hchunk.trans h.chunkSize, ?_, ?_, ?_, ?_, ?_, ?_, ?_, ?_, fun hzero => ?_⟩
  · rw [hfrom, h.startAddr]
  · rw [haddr]
    omega
  · change s.gen.next.curAddr.toNat + s.gen.next.curSize.toNat + s.gen.next.sizeLeft.toNat = _
    rw [haddr, hsize]
    omega
  · rw [hafter', haddr, hsize]
  · intro hmore
    change 0 < s.gen.next.sizeLeft.toNat at hmore
    rw [hafter', if_pos (hdvd (by omega)), hthen, minAddr_toNat, ← hrest, h.chunkSize,
      ChunkGenerator.chunk_toNat hbits]
  · rw [haddr]
    exact h.through
  · intro c hc hgrown hcpos
    rcases mem_append.mp hc with hc | hc
    · exact h.inLine c hc hgrown hcpos
    · obtain rfl := mem_singleton.mp hc
      change InLine _ s.gen.next.curAddr.toNat s.gen.next.curSize.toNat
      rw [haddr, hsize]
      exact hin
  · intro htotal c hc
    rcases mem_append.mp hc with hc | hc
    · exact h.nonempty htotal c hc
    · obtain rfl := mem_singleton.mp hc
      change 0 < s.gen.next.curSize.toNat
      rw [hsize]
      exact hpos
  · omega

theorem next_over (h : s.Under bits start total) (hlast : s.gen.last = false)
    (hfits : ¬s.NextFits (2 ^ bits) (start + total) .next) {line : Nat} :
    ¬Partition line start total ⟨s.gen.next, s.chunks ++ [s.current], false, false⟩ := by
  intro hpart
  have hend : s.gen.next.curAddr.toNat + s.gen.next.curSize.toNat ≤ _ := hpart.current_le rfl
  have hleft := h.left_eq
  have hover := (h.nextSize_le_iff hlast).not.mpr hfits
  obtain ⟨haddr, hsize, _⟩ := next_gen hlast
  rw [haddr, hsize] at hend
  omega

end Under

theorem start_under {first size : BitVec 64} (hbits : bits < 64)
    (hspace : first.toNat + size.toNat < 2 ^ 64) (hline : lineEnd (2 ^ bits) first.toNat < 2 ^ 64) :
    Under bits first.toNat size.toNat (ChunkRun.start first size (BitVec.twoPow 64 bits)) := by
  have hpos : 0 < 2 ^ bits := Nat.two_pow_pos bits
  have hle := ChunkGenerator.firstSize_le (2 ^ bits) first.toNat size.toNat
  obtain ⟨_, hsize, hleft, hnext, hnextSize⟩ := ChunkGenerator.new_fields hbits hspace.le
    (iff_of_false (Nat.not_le_of_lt hline) hspace.ne)
  rw [mod_eq_of_lt (by omega)] at hnext
  refine ⟨rfl, rfl, rfl, le_rfl, ?_, ?_, ?_, .nil _, ?_, ?_, fun _ => rfl⟩
  · change first.toNat + (ChunkGenerator.new _ _ _).curSize.toNat +
      (ChunkGenerator.new _ _ _).sizeLeft.toNat = _
    omega
  · change (ChunkGenerator.new _ _ _).nextAddr.toNat =
      first.toNat + (ChunkGenerator.new _ _ _).curSize.toNat
    omega
  · intro hmore
    change 0 < (ChunkGenerator.new _ _ _).sizeLeft.toNat at hmore
    change (ChunkGenerator.new _ _ _).nextSize.toNat =
      if _ ∣ (ChunkGenerator.new _ _ _).nextAddr.toNat
      then min (ChunkGenerator.new _ _ _).sizeLeft.toNat _ else _
    rw [hnext, if_pos (ChunkGenerator.dvd_firstSize hpos (by omega)), hleft, hnextSize]
  · intro c hc _ hcpos
    obtain rfl := mem_singleton.mp hc
    change InLine _ first.toNat (ChunkGenerator.new _ _ _).curSize.toNat
    change 0 < (ChunkGenerator.new _ _ _).curSize.toNat at hcpos
    rw [hsize] at hcpos ⊢
    exact firstSize_inLine hpos (by omega)
  · intro htotal c hc
    obtain rfl := mem_singleton.mp hc
    change 0 < (ChunkGenerator.new _ _ _).curSize.toNat
    rw [hsize]
    exact ChunkGenerator.firstSize_pos hpos htotal

theorem start_over {first size : BitVec 64} (hbits : bits < 64)
    (hspace : first.toNat + size.toNat < 2 ^ 64)
    (hline : 2 ^ 64 ≤ lineEnd (2 ^ bits) first.toNat) {line : Nat} :
    ¬Partition line first.toNat size.toNat (ChunkRun.start first size (BitVec.twoPow 64 bits)) := by
  intro hpart
  have htop : lineEnd (2 ^ bits) first.toNat = 2 ^ 64 :=
    le_antisymm (ChunkGenerator.lineEnd_le first hbits) hline
  have hne : first.toNat ≠ 0 := by
    intro hzero
    have hpow : 2 ^ bits < 2 ^ 64 := Nat.pow_lt_pow_right (by decide) hbits
    rw [hzero, lineEnd, Nat.zero_div] at htop
    omega
  have hfirst : (ChunkGenerator.firstEnd first size (BitVec.twoPow 64 bits)).toNat = 0 := by
    rw [ChunkGenerator.firstEnd, if_neg (ChunkGenerator.chunk_ne_zero hbits)]
    rw [minAddr_toNat, ChunkGenerator.nextLine_toNat hbits, htop]
    exact Nat.zero_min _
  have hsize : (ChunkGenerator.firstEnd first size (BitVec.twoPow 64 bits) - first).toNat =
      2 ^ 64 - first.toNat := by
    rw [toNat_sub]
    omega
  have hend : first.toNat + (ChunkGenerator.firstEnd first size (BitVec.twoPow 64 bits) -
      first).toNat ≤ _ := hpart.current_le rfl
  omega

theorem Under.step_iff (h : s.Under bits start total) (hbits : bits < 64)
    (hspace : start + total < 2 ^ 64) (ha : s.InRegion (start + total) a) : ∃ t, s.step a = .ok t ∧
      (t.Partition (2 ^ bits) start total ↔ s.NextFits (2 ^ bits) (start + total) a) ∧
      (s.NextFits (2 ^ bits) (start + total) a → t.finished = false →
        t.Under bits start total) := by
  cases a with
  | setNext next =>
    obtain ⟨t, ht, hunder⟩ := h.setNext hbits hspace ha.2.1 ha.2.2
    exact ⟨t, ht, iff_of_true hunder.partition trivial, fun _ _ => hunder⟩
  | next =>
    refine ⟨_, rfl, ?_⟩
    cases hlast : s.gen.last with
    | true =>
      exact ⟨iff_of_true (h.next_last hlast) (Or.inl (h.last_iff.mp hlast)),
        fun _ hfin => by cases hfin⟩
    | false =>
      refine ⟨⟨fun hpart => ?_, fun hfits => ?_⟩,
        fun hfits _ => h.next_fits hbits hspace hlast hfits⟩
      · by_contra hfits
        exact h.next_over hlast hfits hpart
      · exact (h.next_fits hbits hspace hlast hfits).partition

theorem chunks_length_step (hs : s.step a = .ok t) : t.chunks.length ≤ s.chunks.length + 1 := by
  cases a with
  | next =>
    cases hs
    rw [length_append, length_singleton]
  | setNext next =>
    obtain ⟨g, _, rfl⟩ := map_eq_ok.mp hs
    exact le_succ _

theorem partition_of_reach {first size : BitVec 64} (hbits : bits < 64)
    (hspace : first.toNat + size.toNat < 2 ^ 64) (hline : lineEnd (2 ^ bits) first.toNat < 2 ^ 64)
    (hr : Reach step (fun s a => s.InRegion (first.toNat + size.toNat) a ∧
      s.NextFits (2 ^ bits) (first.toNat + size.toNat) a)
      (ChunkRun.start first size (BitVec.twoPow 64 bits)) s) :
    s.Partition (2 ^ bits) first.toNat size.toNat ∧ s.chunks.length ≤ size.toNat + 1 ∧
      (s.finished = false → s.Under bits first.toNat size.toNat) := by
  have hstart := start_under hbits hspace hline
  apply hr.invariant (P := fun s => s.Partition (2 ^ bits) first.toNat size.toNat ∧
    s.chunks.length ≤ size.toNat + 1 ∧ (s.finished = false → s.Under bits first.toNat size.toNat))
    ⟨hstart.partition, zero_le _, fun _ => hstart⟩
  rintro u v a ⟨_, _, hunder⟩ ⟨hin, hfits⟩ hv
  have hu := hunder hin.unfinished
  obtain ⟨w, hw, hiff, hagain⟩ := hu.step_iff hbits hspace hin
  obtain rfl := eq_of_ok hw hv
  refine ⟨hiff.mpr hfits, ?_, hagain hfits⟩
  exact le_trans (chunks_length_step hv) (succ_le_succ hu.length_le)

/-- The chunks of a region tile it exactly when the region does not start in the last line of
the address space and every chunk taken fits: at each `next` the next chunk starts at the end
of the region, on a line, or in a line that ends with the region at the latest. -/
theorem chunks_tile_region (bits : Nat) (hbits : bits < 64) (first size : BitVec 64)
    (hspace : first.toNat + size.toNat < 2 ^ 64) :
    ((ChunkRun.start first size (BitVec.twoPow 64 bits)).Partition (2 ^ bits) first.toNat
      size.toNat ↔ lineEnd (2 ^ bits) first.toNat < 2 ^ 64) ∧
    (lineEnd (2 ^ bits) first.toNat < 2 ^ 64 → ∀ s,
      Reach step (fun s a => s.InRegion (first.toNat + size.toNat) a ∧
        s.NextFits (2 ^ bits) (first.toNat + size.toNat) a)
        (ChunkRun.start first size (BitVec.twoPow 64 bits)) s →
      s.Partition (2 ^ bits) first.toNat size.toNat ∧ s.chunks.length ≤ size.toNat + 1 ∧
      ∀ a, s.InRegion (first.toNat + size.toNat) a →
        ∃ t, s.step a = .ok t ∧ (t.Partition (2 ^ bits) first.toNat size.toNat ↔
          s.NextFits (2 ^ bits) (first.toNat + size.toNat) a)) := by
  refine ⟨⟨fun hpart => ?_, fun hline => (start_under hbits hspace hline).partition⟩, ?_⟩
  · by_contra hline
    exact start_over hbits hspace (not_lt.mp hline) hpart
  · intro hline s hr
    obtain ⟨hpart, hlen, hunder⟩ := partition_of_reach hbits hspace hline hr
    refine ⟨hpart, hlen, fun a ha => ?_⟩
    obtain ⟨t, ht, hiff, _⟩ := (hunder ha.unfinished).step_iff hbits hspace ha
    exact ⟨t, ht, hiff⟩

theorem chunks_tile_region_skip : ∃ s : ChunkRun, s.finished = true ∧ s.Partition (2 ^ 3) 0 40 ∧
    s.chunks.map Chunk.piece = [(0, 8), (8, 15), (23, 1), (24, 16)] := by
  obtain ⟨s, hs, hfin, hchunks⟩ :
      ∃ s, Reach step (fun s a => s.InRegion (0 + 40) a ∧ s.NextFits (2 ^ 3) (0 + 40) a)
        (ChunkRun.start 0 40 (BitVec.twoPow 64 3)) s ∧ s.finished = true ∧
      s.chunks.map Chunk.piece = [(0, 8), (8, 15), (23, 1), (24, 16)] :=
    Reach.exists_of_run [.next, .setNext 23, .next, .next, .setNext 40, .next] (by decide +kernel)
  have hall := (chunks_tile_region 3 (by decide) 0 40 (by decide)).2 (by decide) s hs
  exact ⟨s, hfin, hall.1, hchunks⟩

/-- A region of 20 bytes in lines of 8. A jump to byte 17 leaves three bytes, but the next chunk
has seven, and the number of bytes left wraps. In the last line of the address space the first
chunk is too long already. -/
theorem chunk_reaches_over_end :
    (∃ s, Reach step (fun s a => s.InRegion 20 a) (ChunkRun.start 0 20 (BitVec.twoPow 64 3)) s ∧
      s.produced.map Chunk.piece = [(0, 17), (17, 7)] ∧ s.gen.sizeLeft = 0xfffffffffffffffc ∧
      ¬s.Partition (2 ^ 3) 0 20) ∧
    ¬(ChunkRun.start 0xfffffffffffffff8 4 (BitVec.twoPow 64 3)).Partition (2 ^ 3)
      0xfffffffffffffff8 4 := by
  constructor
  · obtain ⟨s, hs, hopen, hend, hproduced, hleft⟩ :
        ∃ s, Reach step (fun s a => s.InRegion 20 a) (ChunkRun.start 0 20 (BitVec.twoPow 64 3)) s ∧
        s.finished = false ∧ s.gen.curAddr.toNat + s.gen.curSize.toNat = 24 ∧
        s.produced.map Chunk.piece = [(0, 17), (17, 7)] ∧ s.gen.sizeLeft = 0xfffffffffffffffc :=
      Reach.exists_of_run [.setNext 17, .next] (by decide +kernel)
    refine ⟨s, hs, hproduced, hleft, fun hpart => ?_⟩
    have hle := hpart.current_le hopen
    omega
  · intro hpart
    exact absurd (hpart.current_le rfl) (by decide)

end ChunkRun

end Gem5.Base
