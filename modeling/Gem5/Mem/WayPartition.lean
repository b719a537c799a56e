import Gem5.Shared.Sim
import Gem5.Shared.Reachability
import Mathlib.Data.BitVec

/-!
# Ways for direct cache access

One set of a cache under LRU replacement. Blocks that a device writes are allocated in the ways
of a mask. A block that such a write invalidated carries a flag, and the next allocation for a
device takes its way first. Filling the way again for a processor does not clear the flag.
-/

namespace Gem5.Cache

open List BitVec Option

structure Blk where
  valid : Bool
  lastTouchTick : Nat
  ioInvalidated : Bool
  deriving DecidableEq

namespace LRU

def invalidate (b : Blk) : Blk := { b with lastTouchTick := 0, ioInvalidated := false }

def invalidateDDIO (b : Blk) : Blk := { b with lastTouchTick := 0, ioInvalidated := true }

def touch (b : Blk) (curTick : Nat) : Blk := { b with lastTouchTick := curTick }

def reset (b : Blk) (curTick : Nat) : Blk := { b with lastTouchTick := curTick }

def older (victim candidate : Nat × Blk) : Nat × Blk :=
  if candidate.2.lastTouchTick < victim.2.lastTouchTick then candidate else victim

def getVictim (candidates : List Blk) : Sim Nat :=
  match candidates with
  | [] => .error .assertion
  | first :: _ => .ok ((candidates.zipIdx.map Prod.swap).foldl older (0, first)).1

/-- The loop of `getVictimWayPart`; says also whether it ended at a flagged block. -/
def visit (wayPart : BitVec 32) :
    List Blk → Nat → BitVec 32 → Bool → Nat × Blk → Sim (Nat × Bool)
  | [], _, _, _, victim => .ok (victim.1, false)
  | candidate :: rest, way, mask, isInPart, victim =>
    if candidate.ioInvalidated then .ok (way, true)
    else do
      let next := if mask &&& wayPart = 0 then (isInPart, victim)
        else (true, older (if isInPart then victim else (way, candidate)) (way, candidate))
      simAssert (way + 1 < 32)
      visit wayPart rest (way + 1) (mask <<< 1) next.1 next.2

def getVictimWayPart (candidates : List Blk) (wayPart : BitVec 32) : Sim (Nat × List Blk) :=
  match candidates with
  | [] => .error .assertion
  | first :: _ => do
    let (victim, isIoInvalidated) ← visit wayPart candidates 0 1 false (0, first)
    return (victim, if isIoInvalidated then
      candidates.modify victim ({ · with ioInvalidated := false }) else candidates)

end LRU

structure CacheSet where
  ways : List Blk
  touched : Nat → Nat

namespace CacheSet

def init (assoc : Nat) : CacheSet := ⟨List.replicate assoc ⟨false, 0, false⟩, fun _ => 0⟩

def insertBlock (curTick : Nat) (b : Blk) : Blk :=
  LRU.reset { (if b.valid then LRU.invalidate b else b) with valid := true } curTick

/-- `refused` says that a miss on the victim's own address is outstanding, so that it stays. The
answer is the evicted way. -/
def fill (s : CacheSet) (victim curTick : Nat) (refused : Bool) : CacheSet × Option Nat :=
  let wasValid := s.ways[victim]?.any (·.valid)
  if wasValid && refused then (s, none)
  else
    (⟨s.ways.modify victim (insertBlock curTick), Function.update s.touched victim curTick⟩,
      if wasValid then some victim else none)

def allocateBlock (wayPart : BitVec 32) (s : CacheSet) (isDdio : Bool) (curTick : Nat)
    (refused : Bool) : Sim (CacheSet × Option Nat) :=
  if isDdio then do
    let (victim, ways) ← LRU.getVictimWayPart s.ways wayPart
    return fill { s with ways } victim curTick refused
  else do
    let victim ← LRU.getVictim s.ways
    return fill s victim curTick refused

def accessBlock (s : CacheSet) (way curTick : Nat) : CacheSet :=
  if s.ways[way]?.any (·.valid) then
    ⟨s.ways.modify way (LRU.touch · curTick), Function.update s.touched way curTick⟩
  else s

def invalidateBlock (s : CacheSet) (way : Nat) (isLlcInv : Bool) : Sim CacheSet := do
  simAssert (s.ways[way]?.any (·.valid))
  let policy := if isLlcInv then LRU.invalidateDDIO else LRU.invalidate
  return { s with ways := s.ways.modify way fun b => policy { b with valid := false } }

end CacheSet

inductive Action where
  | allocateBlock (isDdio : Bool) (curTick : Nat) (refused : Bool)
  | accessBlock (way curTick : Nat)
  | invalidateBlock (way : Nat) (isLlcInv : Bool)

def step (wayPart : BitVec 32) (s : CacheSet) : Action → Sim CacheSet
  | .allocateBlock isDdio curTick refused => do
    let (t, _) ← s.allocateBlock wayPart isDdio curTick refused
    return t
  | .accessBlock way curTick => .ok (s.accessBlock way curTick)
  | .invalidateBlock way isLlcInv => s.invalidateBlock way isLlcInv

/-! ### The victim -/

variable {wayPart : BitVec 32} {ways : List Blk} {s t : CacheSet}

theorem mask_bit {way : Nat} (hway : way < 32) :
    (1#32 <<< way) &&& wayPart = 0 ↔ wayPart.getLsbD way = false := by
  have hne : BitVec.twoPow 32 way ≠ 0#32 := by
    intro h
    have hbit := congrArg (BitVec.getLsbD · way) h
    simp [hway] at hbit
  rw [BitVec.and_comm, ← twoPow_eq, and_twoPow]
  cases wayPart.getLsbD way <;> simp [hne]

/-- The victim so far, after the first `n` ways. -/
structure Visited (wayPart : BitVec 32) (ways : List Blk) (n : Nat) (isInPart : Bool)
    (victim : Nat × Blk) : Prop where
  unflagged : ∀ {w : Nat} {b : Blk}, w < n → ways[w]? = some b → b.ioInvalidated = false
  outside : isInPart = false → ∀ w < n, wayPart.getLsbD w = false
  found : isInPart = true → wayPart.getLsbD victim.1 = true ∧ ways[victim.1]? = some victim.2
  oldest : isInPart = true → ∀ {w : Nat} {b : Blk}, w < n → wayPart.getLsbD w = true →
    ways[w]? = some b → victim.2.lastTouchTick ≤ b.lastTouchTick

variable {assoc n : Nat} {isInPart : Bool} {victim : Nat × Blk}

theorem Visited.inPart {b : Blk}
    (h : Visited wayPart ways n isInPart victim) (hb : ways[n]? = some b)
    (hclear : b.ioInvalidated = false) (hbit : wayPart.getLsbD n = true) :
    Visited wayPart ways (n + 1) true
      (LRU.older (if isInPart then victim else (n, b)) (n, b)) := by
  have hunflagged : ∀ {w : Nat} {c : Blk}, w < n + 1 → ways[w]? = some c →
      c.ioInvalidated = false := by
    intro w c hw hc
    rcases Nat.lt_succ_iff_lt_or_eq.mp hw with hlt | rfl
    · exact h.unflagged hlt hc
    · cases hb.symm.trans hc
      exact hclear
  cases isInPart with
  | false =>
    have hself : LRU.older (n, b) (n, b) = (n, b) := if_neg (lt_irrefl _)
    rw [if_neg Bool.false_ne_true, hself]
    refine ⟨hunflagged, nofun, fun _ => ⟨hbit, hb⟩, ?_⟩
    intro _ w c hw hin hc
    rcases Nat.lt_succ_iff_lt_or_eq.mp hw with hlt | rfl
    · rw [h.outside rfl w hlt] at hin
      cases hin
    · cases hb.symm.trans hc
      exact le_rfl
  | true =>
    rw [if_pos rfl, LRU.older]
    split
    · rename_i hlt
      refine ⟨hunflagged, nofun, fun _ => ⟨hbit, hb⟩, ?_⟩
      intro _ w c hw hin hc
      rcases Nat.lt_succ_iff_lt_or_eq.mp hw with hw | rfl
      · exact (le_of_lt hlt).trans (h.oldest rfl hw hin hc)
      · cases hb.symm.trans hc
        exact le_rfl
    · rename_i hge
      refine ⟨hunflagged, nofun, h.found, ?_⟩
      intro _ w c hw hin hc
      rcases Nat.lt_succ_iff_lt_or_eq.mp hw with hw | rfl
      · exact h.oldest rfl hw hin hc
      · cases hb.symm.trans hc
        exact not_lt.mp hge

theorem Visited.skip {b : Blk} (h : Visited wayPart ways n isInPart victim) (hb : ways[n]? = some b)
    (hclear : b.ioInvalidated = false) (hbit : wayPart.getLsbD n = false) :
    Visited wayPart ways (n + 1) isInPart victim := by
  refine ⟨?_, ?_, h.found, ?_⟩
  · intro w c hw hc
    rcases Nat.lt_succ_iff_lt_or_eq.mp hw with hlt | rfl
    · exact h.unflagged hlt hc
    · cases hb.symm.trans hc
      exact hclear
  · intro hpart w hw
    rcases Nat.lt_succ_iff_lt_or_eq.mp hw with hlt | rfl
    · exact h.outside hpart w hlt
    · exact hbit
  · intro hpart w c hw hin hc
    rcases Nat.lt_succ_iff_lt_or_eq.mp hw with hlt | rfl
    · exact h.oldest hpart hlt hin hc
    · rw [hbit] at hin
      cases hin

theorem Visited.visit {rest : List Blk}
    {result : Nat × Bool} (h : Visited wayPart ways n isInPart victim)
    (hrest : ways.drop n = rest) (hn : n < 32)
    (hvisit : LRU.visit wayPart rest n (1#32 <<< n) isInPart victim = .ok result) :
    (result.2 = true ∧ ∃ b, ways[result.1]? = some b ∧ b.ioInvalidated = true) ∨
      (result.2 = false ∧ ∃ isInPart b,
        Visited wayPart ways ways.length isInPart (result.1, b)) := by
  induction rest generalizing n isInPart victim with
  | nil =>
    cases hvisit
    have hlen : ways.length ≤ n := drop_eq_nil_iff.mp hrest
    refine .inr ⟨rfl, isInPart, victim.2, ?_⟩
    refine ⟨fun hw => h.unflagged (lt_of_lt_of_le hw hlen), fun hpart w hw => ?_, h.found,
      fun hpart w b hw => h.oldest hpart (lt_of_lt_of_le hw hlen)⟩
    exact h.outside hpart w (lt_of_lt_of_le hw hlen)
  | cons b rest ih =>
    have hb : ways[n]? = some b := by
      have hhead := congrArg List.head? hrest
      rwa [List.head?_drop] at hhead
    have htail : ways.drop (n + 1) = rest := by
      rw [← tail_drop, hrest]
      rfl
    rw [LRU.visit] at hvisit
    split at hvisit
    · rename_i hflag
      cases hvisit
      exact .inl ⟨rfl, b, hb, hflag⟩
    · rename_i hflag
      have hclear : b.ioInvalidated = false := by simpa using hflag
      obtain ⟨_, hway, hvisit⟩ := bind_eq_ok.mp hvisit
      have hway : n + 1 < 32 := of_decide_eq_true (simAssert_eq_ok.mp hway)
      rw [← shiftLeft_add] at hvisit
      by_cases hbit : wayPart.getLsbD n = true
      · have hmask : ¬ (1#32 <<< n) &&& wayPart = 0 := by
          rw [mask_bit hn, hbit]
          decide
        rw [if_neg hmask] at hvisit
        exact ih (h.inPart hb hclear hbit) htail hway hvisit
      · have hmask : (1#32 <<< n) &&& wayPart = 0 := by
          rw [mask_bit hn]
          simpa using hbit
        rw [if_pos hmask] at hvisit
        exact ih (h.skip hb hclear (by simpa using hbit)) htail hway hvisit

theorem getVictimWayPart_spec {victim : Nat} {ways' : List Blk}
    (hmask : ∃ w < ways.length, wayPart.getLsbD w = true)
    (h : LRU.getVictimWayPart ways wayPart = .ok (victim, ways')) :
    (∃ b, ways[victim]? = some b ∧ b.ioInvalidated = true ∧
        ways' = ways.modify victim ({ · with ioInvalidated := false })) ∨
      (ways' = ways ∧ wayPart.getLsbD victim = true ∧ ∃ b, ways[victim]? = some b ∧
        b.ioInvalidated = false ∧ ∀ {w : Nat} {c : Blk}, wayPart.getLsbD w = true →
        ways[w]? = some c →
          b.lastTouchTick ≤ c.lastTouchTick) := by
  cases hways : ways with
  | nil =>
    rw [hways] at h
    cases h
  | cons first rest =>
    rw [← hways]
    have hcall : LRU.getVictimWayPart ways wayPart = (do
        let (victim, isIoInvalidated) ← LRU.visit wayPart ways 0 1 false (0, first)
        return (victim, if isIoInvalidated then
          ways.modify victim ({ · with ioInvalidated := false }) else ways)) := by
      rw [hways]
      rfl
    rw [hcall] at h
    obtain ⟨⟨way, flagged⟩, hvisit, h⟩ := bind_eq_ok.mp h
    cases h
    have hstart : Visited wayPart ways 0 false (0, first) :=
      ⟨fun hw => absurd hw (Nat.not_lt_zero _), fun _ w hw => absurd hw (Nat.not_lt_zero _),
        nofun, nofun⟩
    rcases hstart.visit rfl (by decide) hvisit with ⟨hflag, b, hb, hio⟩ | ⟨hflag, inPart, b, hall⟩
    · subst hflag
      exact .inl ⟨b, hb, hio, rfl⟩
    · subst hflag
      obtain ⟨w, hw, hbit⟩ := hmask
      have hpart : inPart = true := by
        cases inPart with
        | true => rfl
        | false =>
          rw [hall.outside rfl w hw] at hbit
          cases hbit
      have hb := (hall.found hpart).2
      have hclear := hall.unflagged (List.getElem?_eq_some_iff.mp hb).1 hb
      refine .inr ⟨rfl, (hall.found hpart).1, b, hb, hclear, ?_⟩
      intro v c hv hc
      exact hall.oldest hpart (List.getElem?_eq_some_iff.mp hc).1 hv hc

/-! ### Runs -/

def Action.Unflagged (s : CacheSet) : Action → Prop
  | .allocateBlock isDdio _ _ =>
    isDdio = false → ∀ victim ∈ (LRU.getVictim s.ways).toOption,
      ∀ b ∈ s.ways[victim]?, b.ioInvalidated = false
  | .accessBlock _ _ => True
  | .invalidateBlock _ _ => True

instance (s : CacheSet) (a : Action) : Decidable (a.Unflagged s) :=
  match a with
  | .allocateBlock isDdio _ _ => inferInstanceAs (Decidable (isDdio = false →
      ∀ victim ∈ (LRU.getVictim s.ways).toOption,
        ∀ b ∈ s.ways[victim]?, b.ioInvalidated = false))
  | .accessBlock _ _ => inferInstanceAs (Decidable True)
  | .invalidateBlock _ _ => inferInstanceAs (Decidable True)

structure Inv (assoc : Nat) (s : CacheSet) : Prop where
  length : s.ways.length = assoc
  flagged : ∀ {w : Nat} {b : Blk}, s.ways[w]? = some b → b.ioInvalidated = true → b.valid = false
  tick : ∀ {w : Nat} {b : Blk}, s.ways[w]? = some b → b.valid = true →
    b.lastTouchTick = s.touched w

theorem inv_init (assoc : Nat) : Inv assoc (CacheSet.init assoc) := by
  refine ⟨length_replicate, ?_, ?_⟩
  · intro w b hb _
    rw [eq_of_mem_replicate (mem_of_getElem? hb)]
  · intro w b hb hvalid
    rw [eq_of_mem_replicate (mem_of_getElem? hb)] at hvalid
    cases hvalid

theorem Inv.modify (h : Inv assoc s) (way : Nat) (f : Blk → Blk) (tick : Nat)
    (hflag : ∀ b, s.ways[way]? = some b → (f b).ioInvalidated = true → (f b).valid = false)
    (htick : ∀ b, s.ways[way]? = some b → (f b).valid = true → (f b).lastTouchTick = tick) :
    Inv assoc ⟨s.ways.modify way f, Function.update s.touched way tick⟩ := by
  refine ⟨by rw [length_modify, h.length], ?_, ?_⟩
  · intro w b hb hio
    by_cases hw : way = w
    · subst hw
      rw [List.getElem?_modify_eq] at hb
      obtain ⟨c, hc, rfl⟩ := map_eq_some_iff.mp hb
      exact hflag c hc hio
    · rw [List.getElem?_modify_ne _ _ hw] at hb
      exact h.flagged hb hio
  · intro w b hb hvalid
    by_cases hw : way = w
    · subst hw
      rw [List.getElem?_modify_eq] at hb
      obtain ⟨c, hc, rfl⟩ := map_eq_some_iff.mp hb
      exact (htick c hc hvalid).trans (Function.update_self way tick s.touched).symm
    · rw [List.getElem?_modify_ne _ _ hw] at hb
      exact (h.tick hb hvalid).trans (Function.update_of_ne (Ne.symm hw) ..).symm

theorem Inv.fill (h : Inv assoc s) {victim curTick : Nat} {refused : Bool}
    (hclear : ∀ b, s.ways[victim]? = some b → b.ioInvalidated = false) :
    Inv assoc (s.fill victim curTick refused).1 := by
  unfold CacheSet.fill
  dsimp only
  split
  · exact h
  · apply h.modify
    · intro b hb hio
      have hnone := hclear b hb
      unfold CacheSet.insertBlock LRU.reset at hio
      split at hio
      · cases hio
      · rw [hnone] at hio
        cases hio
    · exact fun _ _ _ => rfl

theorem Inv.modify_same (h : Inv assoc s) (way : Nat) (f : Blk → Blk)
    (hflag : ∀ b, s.ways[way]? = some b → (f b).ioInvalidated = true → (f b).valid = false)
    (htick : ∀ b, s.ways[way]? = some b → (f b).valid = true →
      (f b).lastTouchTick = s.touched way) : Inv assoc { s with ways := s.ways.modify way f } := by
  have hmod := h.modify way f (s.touched way) hflag htick
  rwa [Function.update_eq_self] at hmod

theorem Inv.allocateBlock (h : Inv assoc s)
    (hmask : ∃ w < assoc, wayPart.getLsbD w = true) {isDdio refused : Bool} {curTick : Nat}
    (ha : (Action.allocateBlock isDdio curTick refused).Unflagged s) {evicted : Option Nat}
    (ht : s.allocateBlock wayPart isDdio curTick refused = .ok (t, evicted)) : Inv assoc t := by
  unfold CacheSet.allocateBlock at ht
  split at ht
  · obtain ⟨⟨victim, ways⟩, hvictim, ht⟩ := bind_eq_ok.mp ht
    rw [← show (CacheSet.fill { s with ways } victim curTick refused).1 = t from
      congrArg Prod.fst (Except.ok.inj ht)]
    rcases getVictimWayPart_spec (h.length.symm ▸ hmask) hvictim with
      ⟨b, -, -, rfl⟩ | ⟨rfl, -, b, hb, hclear, -⟩
    -- the flag was cleared with the choice of the victim
    · have hcleared := h.modify_same victim ({ · with ioInvalidated := false })
        (fun _ _ hio => nomatch hio) (fun b hb hvalid => h.tick (b := b) hb hvalid)
      apply hcleared.fill
      intro c hc
      rw [List.getElem?_modify_eq] at hc
      obtain ⟨_, _, rfl⟩ := map_eq_some_iff.mp hc
      rfl
    · apply h.fill
      intro c hc
      cases hb.symm.trans hc
      exact hclear
  · rename_i hddio
    obtain ⟨victim, hvictim, ht⟩ := bind_eq_ok.mp ht
    rw [← show (s.fill victim curTick refused).1 = t from congrArg Prod.fst (Except.ok.inj ht)]
    apply h.fill
    intro b hb
    exact ha (by simpa using hddio) victim (by rw [hvictim]; rfl) b hb

theorem Inv.kept (h : Inv assoc s) (hmask : ∃ w < assoc, wayPart.getLsbD w = true)
    {a : Action} (ha : a.Unflagged s) (ht : step wayPart s a = .ok t) : Inv assoc t := by
  cases a with
  | allocateBlock isDdio curTick refused =>
    obtain ⟨⟨u, evicted⟩, hu, ht⟩ := bind_eq_ok.mp ht
    cases ht
    exact h.allocateBlock hmask ha hu
  | accessBlock way curTick =>
    cases ht
    unfold CacheSet.accessBlock
    split
    · apply h.modify
      · exact fun b hb hio => h.flagged (b := b) hb hio
      · exact fun _ _ _ => rfl
    · exact h
  | invalidateBlock way isLlcInv =>
    obtain ⟨_, -, ht⟩ := bind_eq_ok.mp ht
    cases ht
    apply h.modify_same
    · intro b _ _
      split <;> rfl
    · intro b _ hvalid
      split at hvalid <;> cases hvalid

/-- A block that is evicted for a device lies in the mask, and no valid block there was touched
longer ago. -/
theorem ddio_victim_in_mask {assoc : Nat} (hmask : ∃ w < assoc, wayPart.getLsbD w = true)
    (hr : Reach (step wayPart) (fun s a => a.Unflagged s) (CacheSet.init assoc) s) {curTick : Nat}
    {refused : Bool} {victim : Nat}
    (hevict : s.allocateBlock wayPart true curTick refused = .ok (t, some victim)) :
    wayPart.getLsbD victim = true ∧
      ∀ {w : Nat} {b : Blk}, wayPart.getLsbD w = true → s.ways[w]? = some b → b.valid = true →
        s.touched victim ≤ s.touched w := by
  have hinv : Inv assoc s := hr.invariant (inv_init assoc) fun h ha ht => h.kept hmask ha ht
  obtain ⟨⟨chosen, ways⟩, hvictim, hevict⟩ := bind_eq_ok.mp hevict
  have hsome : (CacheSet.fill { s with ways } chosen curTick refused).2 = some victim :=
    congrArg Prod.snd (Except.ok.inj hevict)
  have hvalid : ways[chosen]?.any (·.valid) = true ∧ chosen = victim := by
    unfold CacheSet.fill at hsome
    dsimp only at hsome
    split at hsome
    · cases hsome
    · split at hsome
      · rename_i hvalid
        exact ⟨hvalid, Option.some.inj hsome⟩
      · cases hsome
  obtain ⟨hvalid, rfl⟩ := hvalid
  rcases getVictimWayPart_spec (hinv.length.symm ▸ hmask) hvictim with
    ⟨b, hb, hio, rfl⟩ | ⟨rfl, hbit, b, hb, -, hold⟩
  -- a flagged block is not valid, so nothing was evicted
  · rw [List.getElem?_modify_eq, hb] at hvalid
    have hinvalid := hinv.flagged hb hio
    simp [hinvalid] at hvalid
  · rw [hb] at hvalid
    refine ⟨hbit, fun hw hc hcvalid => ?_⟩
    rw [← hinv.tick hb hvalid, ← hinv.tick hc hcvalid]
    exact hold hw hc

theorem ddio_victim_in_mask_two_ways :
    ∃ s t, Reach (step 3) (fun s a => a.Unflagged s) (CacheSet.init 3) s ∧
      s.allocateBlock 3 true 5 false = .ok (t, some 1) ∧ (3#32).getLsbD 1 = true := by
  obtain ⟨s, hreach, hs⟩ := Reach.exists_of_runFrom (step 3) (fun s a => a.Unflagged s)
    (CacheSet.init 3)
    [.allocateBlock true 1 false, .allocateBlock true 2 false, .allocateBlock false 3 false,
      .accessBlock 0 4]
    (fun s => okAnd (s.allocateBlock 3 true 5 false) fun r => r.2 = some 1) (by decide +kernel)
  obtain ⟨⟨t, evicted⟩, ht, hsome⟩ := okAnd_iff.mp hs
  obtain rfl : evicted = some 1 := of_decide_eq_true hsome
  exact ⟨s, t, hreach, ht, (ddio_victim_in_mask ⟨0, by decide, by decide⟩ hreach ht).1⟩

/-- A way outside the mask is invalidated by a device, filled again by a processor, and then
taken from it by the next allocation for a device. -/
theorem ddio_evicts_outside_mask :
    ∃ s t, Reach (step 1) (fun _ _ => True) (CacheSet.init 2) s ∧
      s.allocateBlock 1 true 4 false = .ok (t, some 1) ∧ (1#32).getLsbD 1 = false := by
  obtain ⟨s, hreach, hs⟩ := Reach.exists_of_runFrom (step 1) (fun _ _ => True) (CacheSet.init 2)
    [.allocateBlock false 1 false, .allocateBlock false 2 false, .invalidateBlock 1 true,
      .allocateBlock false 3 false]
    (fun s => okAnd (s.allocateBlock 1 true 4 false) fun r => r.2 = some 1) (by decide +kernel)
  obtain ⟨⟨t, evicted⟩, ht, hsome⟩ := okAnd_iff.mp hs
  obtain rfl : evicted = some 1 := of_decide_eq_true hsome
  exact ⟨s, t, hreach, ht, by decide⟩

end Gem5.Cache
