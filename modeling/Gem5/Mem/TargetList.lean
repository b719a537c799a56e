import Gem5.Mem.MemCmd
import Gem5.Shared.Reachability
import Gem5.Shared.Sim

/-!
# The target lists of an MSHR

A target list keeps flags that summarise its targets. `add` updates them, `populateFlags` computes
them again from the list, and a promotion splices targets without touching the flags of the list
they go to.
-/

namespace Gem5.Mem

open List

inductive TargetSource where
  | fromCPU | fromSnoop | fromPrefetcher
  deriving DecidableEq

/-- `noMerge` says that the request has one of the flags that forbid merging. -/
structure Target where
  order : Nat
  pkt : MemPacket
  offset : Nat
  size : Nat
  noMerge : Bool
  source : TargetSource
  allocOnFill : Bool
  deriving DecidableEq

structure TargetFlags where
  needsWritable : Bool
  hasUpgrade : Bool
  allocOnFill : Bool
  hasFromCache : Bool
  canMergeWrites : Bool
  writesBitmap : List Bool
  deriving DecidableEq

namespace TargetFlags

def reset (blkSize : Nat) : TargetFlags :=
  ⟨false, false, false, false, true, List.replicate blkSize false⟩

def isWholeLineWrite (f : TargetFlags) : Bool := f.writesBitmap.all id

/-- `first` says that the list is still empty. -/
def updateWriteFlags (first : Bool) (f : TargetFlags) (t : Target) : TargetFlags :=
  if f.isWholeLineWrite then f
  else if f.canMergeWrites then
    if !t.pkt.cmd.testCmdAttrib .isWrite then { f with canMergeWrites := false }
    else
      { f with
        writesBitmap :=
          if first || !t.noMerge then
            f.writesBitmap.mapIdx fun i v => v || decide (t.offset ≤ i ∧ i < t.offset + t.size)
          else f.writesBitmap
        canMergeWrites := !t.noMerge }
  else f

def updateFlags (first : Bool) (f : TargetFlags) (t : Target) : TargetFlags :=
  if t.source = .fromSnoop then f
  else
    let f := { f with
      needsWritable := f.needsWritable || t.pkt.needsWritable
      hasUpgrade := f.hasUpgrade ||
        (t.pkt.cmd.testCmdAttrib .isUpgrade || t.pkt.cmd == .storeCondReq)
      allocOnFill := f.allocOnFill || t.allocOnFill }
    if t.source = .fromPrefetcher then f
    else updateWriteFlags first { f with hasFromCache := f.hasFromCache || t.pkt.fromCache } t

end TargetFlags

def replaceUpgradeCmd : MemCmd → MemCmd
  | .upgradeReq => .readExReq
  | .scUpgradeReq => .scUpgradeFailReq
  | .storeCondReq => .storeCondFailReq
  | cmd => cmd

def Target.replaceUpgrade (t : Target) : Target :=
  { t with pkt := { t.pkt with cmd := replaceUpgradeCmd t.pkt.cmd } }

structure TargetList where
  ts : List Target
  flags : TargetFlags
  deriving DecidableEq

namespace TargetList

def init (blkSize : Nat) : TargetList := ⟨[], .reset blkSize⟩

def add (l : TargetList) (t : Target) : TargetList :=
  ⟨l.ts ++ [t], l.flags.updateFlags l.ts.isEmpty t⟩

def populateFlags (blkSize : Nat) (ts : List Target) : TargetList :=
  ⟨ts, ts.foldl (TargetFlags.updateFlags ts.isEmpty) (.reset blkSize)⟩

def replaceUpgrades (l : TargetList) : TargetList :=
  if l.flags.hasUpgrade then ⟨l.ts.map Target.replaceUpgrade, { l.flags with hasUpgrade := false }⟩
  else l

end TargetList

structure MSHR where
  targets : TargetList
  deferredTargets : TargetList
  inService : Bool
  pendingModified : Bool
  postInvalidate : Bool
  postDowngrade : Bool
  downstreamPending : Bool
  isForward : Bool
  deriving DecidableEq

namespace MSHR

variable (blkSize : Nat)

def allocate (t : Target) : MSHR where
  targets := (TargetList.init blkSize).add
    { t with source := if t.pkt.cmd = .hardPFReq then .fromPrefetcher else .fromCPU }
  deferredTargets := .init blkSize
  inService := false
  pendingModified := false
  postInvalidate := false
  postDowngrade := false
  downstreamPending := false
  isForward := false

def front (l : TargetList) : Sim Target :=
  match l.ts with
  | t :: _ => .ok t
  | [] => .error .outOfBounds

def allocateTarget (s : MSHR) (t : Target) : Sim MSHR := do
  simAssert (t.pkt.cmd != .hardPFReq)
  let t := { t with source := TargetSource.fromCPU }
  let first ← front s.targets
  if t.pkt.isCacheMaintenance || first.pkt.isCacheMaintenance || !s.deferredTargets.ts.isEmpty ||
      (s.inService && (s.postInvalidate || (t.pkt.needsWritable &&
        (!s.pendingModified || s.postDowngrade || s.isForward)))) then
    let t := if s.inService && s.postInvalidate then t.replaceUpgrade else t
    pure { s with deferredTargets := s.deferredTargets.add t }
  else pure { s with targets := s.targets.add t }

def saveSnoop (s : MSHR) (t : Target) : MSHR :=
  if s.pendingModified || t.pkt.isInvalidate then
    { s with
      targets := s.targets.add { t with source := .fromSnoop, allocOnFill := false }
      postInvalidate := s.postInvalidate || t.pkt.needsWritable || t.pkt.isInvalidate }
  else s

def replaceDeferred (s : MSHR) (gone : Bool) : MSHR :=
  if gone then { s with deferredTargets := s.deferredTargets.replaceUpgrades } else s

def handleSnoop (s : MSHR) (t : Target) : Sim MSHR :=
  if t.pkt.needsWritable != t.pkt.isInvalidate && !t.pkt.isCacheMaintenance then
    .error (.panic "got snoop where needsWritable, does not match isInvalidate")
  else
    let gone := t.pkt.needsWritable || t.pkt.isCacheInvalidate
    if !s.inService || (t.pkt.isExpressSnoop && s.downstreamPending) then
      let s := s.replaceDeferred gone
      pure { s with targets := if gone then s.targets.replaceUpgrades else s.targets }
    else do
      let s := s.replaceDeferred gone
      let first ← front s.targets
      if s.postInvalidate || first.pkt.isCacheInvalidate then pure s
      else
        let s := s.saveSnoop t
        pure { s with
          postDowngrade := s.postDowngrade || (!t.pkt.needsWritable && !t.pkt.isUncacheable) }

def markInService (s : MSHR) (pendingModifiedResp : Bool) : Sim MSHR := do
  simAssert (!s.inService)
  pure { s with
    inService := true
    pendingModified := s.targets.flags.needsWritable || pendingModifiedResp
    postInvalidate := false
    postDowngrade := false }

/-- What `MSHRQueue::markPending` does to the MSHR. -/
def markPending (s : MSHR) : Sim MSHR := do
  simAssert s.inService
  pure { s with inService := false }

def remaining (withInvalidate : Bool) (ts : List Target) : List Target :=
  if withInvalidate then ts.tail.filter fun t => t.source == .fromCPU else []

/-- The source of the first target, which is looked at only with an invalidation. -/
def firstSource (s : MSHR) (withInvalidate : Bool) : Sim TargetSource :=
  if withInvalidate then (front s.targets).map (·.source) else pure .fromCPU

def extractServiceableTargets (s : MSHR) (withInvalidate : Bool) : Sim MSHR := do
  let first ← s.firstSource withInvalidate
  simAssert (first != .fromSnoop)
  pure { s with targets := .populateFlags blkSize (remaining withInvalidate s.targets.ts) }

def promotable (s : MSHR) : Nat :=
  let before := (s.deferredTargets.ts.takeWhile fun t => !t.pkt.isCacheMaintenance).length
  if before = 0 then if s.targets.ts.isEmpty then 1 else 0 else before

def promoteDeferredTargets (s : MSHR) : MSHR :=
  if s.targets.ts.isEmpty && s.deferredTargets.ts.isEmpty then s
  else { s with
    targets := .populateFlags blkSize (s.targets.ts ++ s.deferredTargets.ts.take s.promotable)
    deferredTargets := .populateFlags blkSize (s.deferredTargets.ts.drop s.promotable) }

def promoteIf (s : MSHR) (pred : Target → Bool) : Sim MSHR := do
  simAssert (!s.downstreamPending)
  pure { s with
    targets := ⟨s.targets.ts ++ s.deferredTargets.ts.takeWhile pred, s.targets.flags⟩
    deferredTargets := .populateFlags blkSize (s.deferredTargets.ts.dropWhile pred) }

def readable (t : Target) : Bool := !t.pkt.isCacheInvalidate && !t.pkt.needsWritable

def promoteReadable (s : MSHR) : Sim MSHR :=
  if !s.deferredTargets.ts.isEmpty && !s.postInvalidate then
  s.promoteIf blkSize readable else pure s

def kept (t : Target) : Bool := !t.pkt.isCacheInvalidate

def setNeedsWritable (s : MSHR) : MSHR :=
  { s with targets := ⟨s.targets.ts, { s.targets.flags with needsWritable := true }⟩ }

/-- The condition under which `promoteWritable` does anything. -/
def promotesWritable (s : MSHR) : Bool :=
  s.deferredTargets.flags.needsWritable && !(s.postInvalidate || s.postDowngrade) &&
    s.deferredTargets.ts.head?.all kept

def promoteWritable (s : MSHR) : Sim MSHR :=
  if s.promotesWritable then do
    simAssert (!s.targets.flags.needsWritable)
    s.setNeedsWritable.promoteIf blkSize kept
  else pure s

inductive Act where
  | allocateTarget (t : Target)
  | handleSnoop (t : Target)
  | markInService (pendingModifiedResp : Bool)
  /-- The MSHR of a cache below is or is no longer pending. -/
  | downstream (pending : Bool)
  | forward (isForward : Bool)
  | extract (withInvalidate : Bool)
  | promoteReadable
  | promoteWritable
  | promoteDeferred
  | markPending

def step (s : MSHR) : Act → Sim MSHR
  | .allocateTarget t => s.allocateTarget t
  | .handleSnoop t => s.handleSnoop t
  | .markInService p => s.markInService p
  | .downstream p => pure { s with downstreamPending := p }
  | .forward f => pure { s with isForward := f }
  | .extract i => s.extractServiceableTargets blkSize i
  | .promoteReadable => s.promoteReadable blkSize
  | .promoteWritable => s.promoteWritable blkSize
  | .promoteDeferred => pure (s.promoteDeferredTargets blkSize)
  | .markPending => s.markPending

end MSHR

def Merges (ts : List Target) : Prop :=
  ∀ t ∈ ts.head?, t.source = .fromCPU → t.pkt.cmd.testCmdAttrib .isWrite = true → t.noMerge = false

structure Covered (f : TargetFlags) (t : Target) : Prop where
  upgrade : t.pkt.cmd.testCmdAttrib .isUpgrade = true ∨ t.pkt.cmd = .storeCondReq →
    f.hasUpgrade = true
  alloc : t.allocOnFill = true → f.allocOnFill = true
  cache : t.pkt.fromCache = true → f.hasFromCache = true
  writes : f.canMergeWrites = false ∨ f.isWholeLineWrite = true

namespace MSHR

/-- No list begins with a special write when its flags are computed again, and what is promoted
adds nothing but, for `promoteWritable`, the need of a writable copy. -/
def Act.Regular (s : MSHR) : Act → Prop
  | .extract i => Merges (remaining i s.targets.ts)
  | .promoteDeferred =>
    Merges (s.targets.ts ++ s.deferredTargets.ts.take s.promotable) ∧
      Merges (s.deferredTargets.ts.drop s.promotable)
  | .promoteReadable => Merges (s.deferredTargets.ts.dropWhile readable) ∧
    ∀ t ∈ s.deferredTargets.ts.takeWhile readable, Covered s.targets.flags t
  | .promoteWritable => s.promotesWritable = true → Merges (s.deferredTargets.ts.dropWhile kept) ∧
    (∀ t ∈ s.deferredTargets.ts.takeWhile kept, Covered s.targets.flags t) ∧
      ∃ t ∈ s.deferredTargets.ts.takeWhile kept, t.source ≠ .fromSnoop ∧ t.pkt.needsWritable = true
  | _ => True

end MSHR

/-- What `add` computes for the targets, one after the other. -/
def TargetList.computed (blkSize : Nat) (ts : List Target) : TargetFlags :=
  (ts.foldl TargetList.add (.init blkSize)).flags

section Flags

variable {blkSize : Nat} {ts pre : List Target} {t : Target} {f : TargetFlags}

open TargetList TargetFlags

theorem foldl_add_ts (l : TargetList) : (ts.foldl add l).ts = l.ts ++ ts := by
  induction ts generalizing l with
  | nil => simp
  | cons t ts ih => rw [foldl_cons, ih, add, append_assoc, singleton_append]

theorem computed_append : computed blkSize (ts ++ [t]) =
    (computed blkSize ts).updateFlags ts.isEmpty t := by
  rw [computed, foldl_append, foldl_cons, add, foldl_add_ts]
  rfl

theorem updateFlags_first {first : Bool} (h : t.source = .fromCPU →
    t.pkt.cmd.testCmdAttrib .isWrite = true → t.noMerge = false) :
    f.updateFlags first t = f.updateFlags false t := by
  unfold updateFlags
  cases hsrc : t.source with
  | fromSnoop | fromPrefetcher => rfl
  | fromCPU =>
    unfold updateWriteFlags
    cases hw : t.pkt.cmd.testCmdAttrib .isWrite with
    | false => rfl
    | true =>
      rw [h hsrc hw]
      simp

theorem populateFlags_flags (h : Merges ts) :
    (populateFlags blkSize ts).flags = computed blkSize ts := by
  have hfold : ∀ ts : List Target, Merges ts →
      ts.foldl (TargetFlags.updateFlags false) (.reset blkSize) = computed blkSize ts := by
    intro ts
    induction ts using List.reverseRecOn with
    | nil =>
      intro _
      rfl
    | append_singleton ts t ih =>
      intro h
      rw [foldl_append, foldl_cons, foldl_nil, computed_append]
      cases ts with
      | nil => exact (updateFlags_first (h t rfl)).symm
      | cons u us => rw [ih h, isEmpty_cons]
  cases ts with
  | nil => rfl
  | cons t ts => exact hfold (t :: ts) h

theorem replaceUpgradeCmd_attributes (cmd : MemCmd) (h : cmd.testCmdAttrib .isRequest = true) :
    (∀ a ∈ [Attribute.isWrite, .needsWritable, .fromCache, .isRequest],
      (replaceUpgradeCmd cmd).testCmdAttrib a = cmd.testCmdAttrib a) ∧
      (replaceUpgradeCmd cmd).testCmdAttrib .isUpgrade = false ∧
      replaceUpgradeCmd cmd ≠ .storeCondReq := by
  revert h
  cases cmd <;> decide

theorem updateFlags_replaceUpgrade {first : Bool} (h : t.pkt.isRequest = true) :
    ({ f with hasUpgrade := false } : TargetFlags).updateFlags first t.replaceUpgrade =
      { f.updateFlags first t with hasUpgrade := false } := by
  obtain ⟨hsame, hupgrade, hstore⟩ := replaceUpgradeCmd_attributes t.pkt.cmd h
  simp only [forall_mem_cons, not_mem_nil, false_implies, implies_true, and_true] at hsame
  obtain ⟨hwrite, hwritable, hcache, -⟩ := hsame
  unfold TargetFlags.updateFlags updateWriteFlags
  simp only [Target.replaceUpgrade, MemPacket.needsWritable, MemPacket.fromCache, hwrite, hwritable,
    hcache, hupgrade, beq_eq_false_iff_ne.mpr hstore, Bool.or_false, isWholeLineWrite]
  cases t.source <;> simp only [reduceCtorEq, if_false, if_true]
  split
  · rfl
  · split
    · split <;> rfl
    · rfl

theorem computed_replaceUpgrade (h : ∀ t ∈ ts, t.pkt.isRequest = true) :
    computed blkSize (ts.map Target.replaceUpgrade) =
      { computed blkSize ts with hasUpgrade := false } := by
  induction ts using List.reverseRecOn with
  | nil => rfl
  | append_singleton ts t ih =>
    rw [map_append, map_singleton, computed_append, computed_append, isEmpty_map,
      ih fun u hu => h u (mem_append_left _ hu),
      updateFlags_replaceUpgrade (h t (mem_append_right _ mem_cons_self))]

theorem Covered.updateFlags {first : Bool} (h : Covered f t) : f.updateFlags first t =
    { f with needsWritable :=
      f.needsWritable || (t.source != .fromSnoop && t.pkt.needsWritable) } := by
  have hupgrade :
      (f.hasUpgrade || (t.pkt.cmd.testCmdAttrib .isUpgrade || t.pkt.cmd == .storeCondReq)) =
      f.hasUpgrade := by
    refine Bool.or_eq_left_iff_imp.mpr fun hset => h.upgrade ?_
    rwa [Bool.or_eq_true, beq_iff_eq] at hset
  have halloc : (f.allocOnFill || t.allocOnFill) = f.allocOnFill :=
    Bool.or_eq_left_iff_imp.mpr h.alloc
  have hcache : (f.hasFromCache || t.pkt.fromCache) = f.hasFromCache :=
    Bool.or_eq_left_iff_imp.mpr h.cache
  unfold TargetFlags.updateFlags updateWriteFlags
  rw [hupgrade, halloc]
  cases hsrc : t.source with
  | fromSnoop => simp
  | fromPrefetcher => rfl
  | fromCPU =>
    simp only [reduceCtorEq, if_false, hcache, isWholeLineWrite]
    rcases h.writes with hmerge | hfull
    · rw [hmerge, if_neg Bool.false_ne_true, ite_self]
      rfl
    · rw [isWholeLineWrite] at hfull
      rw [if_pos hfull]
      rfl

theorem computed_covered (h : ∀ t ∈ pre, Covered (computed blkSize ts) t) :
    computed blkSize (ts ++ pre) = { computed blkSize ts with
      needsWritable := (computed blkSize ts).needsWritable ||
        pre.any fun t => t.source != .fromSnoop && t.pkt.needsWritable } := by
  induction pre using List.reverseRecOn with
  | nil => simp
  | append_singleton pre t ih =>
    have hpre := ih fun u hu => h u (mem_append_left _ hu)
    have ht := h t (mem_append_right _ mem_cons_self)
    have hcov : Covered (computed blkSize (ts ++ pre)) t := by
      rw [hpre]
      exact ⟨ht.upgrade, ht.alloc, ht.cache, ht.writes⟩
    rw [← append_assoc, computed_append, hcov.updateFlags, hpre, any_append, any_cons,
      any_nil, Bool.or_false, Bool.or_assoc]

end Flags

namespace MSHR

variable {blkSize : Nat} {s t : MSHR}

open TargetList

structure Sound (blkSize : Nat) (l : TargetList) : Prop where
  flags : l.flags = computed blkSize l.ts
  requests : ∀ t ∈ l.ts, t.pkt.isRequest = true

theorem Sound.add {l : TargetList} {t : Target} (h : Sound blkSize l)
    (ht : t.pkt.isRequest = true) :
    Sound blkSize (l.add t) := by
  refine ⟨?_, fun u hu => ?_⟩
  · change l.flags.updateFlags l.ts.isEmpty t = computed blkSize (l.ts ++ [t])
    rw [computed_append, h.flags]
  · rcases mem_append.mp hu with hu | hu
    · exact h.requests u hu
    · rw [mem_singleton.mp hu]
      exact ht

theorem sound_populate {ts : List Target} (h : Merges ts)
    (hreq : ∀ t ∈ ts, t.pkt.isRequest = true) :
    Sound blkSize (populateFlags blkSize ts) := ⟨populateFlags_flags h, hreq⟩

theorem isRequest_replaceUpgrade {t : Target} (h : t.pkt.isRequest = true) :
    t.replaceUpgrade.pkt.isRequest = true := by
  have hsame := (replaceUpgradeCmd_attributes t.pkt.cmd h).1 .isRequest (by decide)
  exact hsame.trans h

theorem Sound.replaceUpgrades {l : TargetList} (h : Sound blkSize l) :
    Sound blkSize l.replaceUpgrades := by
  unfold TargetList.replaceUpgrades
  split
  · refine ⟨?_, fun t ht => ?_⟩
    · rw [computed_replaceUpgrade h.requests, h.flags]
    · obtain ⟨u, hu, rfl⟩ := mem_map.mp ht
      exact isRequest_replaceUpgrade (h.requests u hu)
  · exact h

def Act.Meant : Act → Prop
  | .allocateTarget t | .handleSnoop t => t.pkt.isRequest = true
  | _ => True

structure Inv (blkSize : Nat) (s : MSHR) : Prop where
  targets : Sound blkSize s.targets
  deferred : Sound blkSize s.deferredTargets

section

variable (h : s.Inv blkSize)
include h

theorem Inv.allocateTarget {u : Target} (hu : u.pkt.isRequest = true)
    (hs : s.allocateTarget u = .ok t) : t.Inv blkSize := by
  obtain ⟨_, _, hs⟩ := bind_eq_ok.mp hs
  obtain ⟨first, _, hs⟩ := bind_eq_ok.mp hs
  split at hs
  · cases hs
    refine ⟨h.targets, h.deferred.add ?_⟩
    split
    · exact isRequest_replaceUpgrade hu
    · exact hu
  · cases hs
    exact ⟨h.targets.add hu, h.deferred⟩

theorem Inv.saveSnoop {u : Target} (hu : u.pkt.isRequest = true) : (s.saveSnoop u).Inv blkSize := by
  unfold MSHR.saveSnoop
  split
  · exact ⟨h.targets.add hu, h.deferred⟩
  · exact h

theorem Inv.replaceDeferred (gone : Bool) : (s.replaceDeferred gone).Inv blkSize := by
  unfold MSHR.replaceDeferred
  split
  · exact ⟨h.targets, h.deferred.replaceUpgrades⟩
  · exact h

theorem Inv.handleSnoop {u : Target} (hu : u.pkt.isRequest = true)
    (hs : s.handleSnoop u = .ok t) : t.Inv blkSize := by
  have hdeferred := h.replaceDeferred (u.pkt.needsWritable || u.pkt.isCacheInvalidate)
  unfold MSHR.handleSnoop at hs
  split at hs
  · cases hs
  split at hs
  · cases hs
    refine ⟨?_, hdeferred.deferred⟩
    split
    · exact hdeferred.targets.replaceUpgrades
    · exact hdeferred.targets
  · obtain ⟨first, _, hs⟩ := bind_eq_ok.mp hs
    split at hs
    · cases hs
      exact hdeferred
    · cases hs
      have hsaved := hdeferred.saveSnoop hu
      exact ⟨hsaved.targets, hsaved.deferred⟩

theorem Inv.promoteIf {pred : Target → Bool} {f : TargetFlags}
    (hrest : Merges (s.deferredTargets.ts.dropWhile pred))
    (hcov : ∀ u ∈ s.deferredTargets.ts.takeWhile pred, Covered s.targets.flags u)
    (hf : f = { s.targets.flags with needsWritable := s.targets.flags.needsWritable ||
      (s.deferredTargets.ts.takeWhile pred).any fun u =>
        u.source != .fromSnoop && u.pkt.needsWritable })
    (hs : ({ s with targets := ⟨s.targets.ts, f⟩ } : MSHR).promoteIf blkSize pred = .ok t) :
    t.Inv blkSize := by
  obtain ⟨_, _, rfl⟩ := map_eq_ok.mp hs
  refine ⟨⟨?_, fun u hu => ?_⟩, sound_populate hrest fun u hu => h.deferred.requests u
    ((dropWhile_suffix pred).subset hu)⟩
  · rw [h.targets.flags] at hcov hf
    exact hf.trans (computed_covered hcov).symm
  · rcases mem_append.mp hu with hu | hu
    · exact h.targets.requests u hu
    · exact h.deferred.requests u (( takeWhile_prefix pred).subset hu)

theorem Inv.promoteDeferred (hreg : Act.Regular s .promoteDeferred) :
    (s.promoteDeferredTargets blkSize).Inv blkSize := by
  unfold promoteDeferredTargets
  split
  · exact h
  · refine ⟨sound_populate hreg.1 fun u hu => ?_, sound_populate hreg.2 fun u hu =>
      h.deferred.requests u (mem_of_mem_drop hu)⟩
    rcases mem_append.mp hu with hu | hu
    · exact h.targets.requests u hu
    · exact h.deferred.requests u (mem_of_mem_take hu)

theorem Inv.step {a : Act} (hmeant : a.Meant) (hreg : a.Regular s)
    (hs : s.step blkSize a = .ok t) : t.Inv blkSize := by
  cases a with
  | allocateTarget u => exact h.allocateTarget hmeant hs
  | handleSnoop u => exact h.handleSnoop hmeant hs
  | markInService p | markPending =>
    obtain ⟨_, _, rfl⟩ := map_eq_ok.mp hs
    exact ⟨h.targets, h.deferred⟩
  | downstream p | forward f =>
    cases hs
    exact ⟨h.targets, h.deferred⟩
  | extract i =>
    obtain ⟨_, _, hs⟩ := bind_eq_ok.mp hs
    obtain ⟨_, _, rfl⟩ := map_eq_ok.mp hs
    refine ⟨sound_populate hreg fun u hu => ?_, h.deferred⟩
    unfold remaining at hu
    split at hu
    · exact h.targets.requests u (mem_of_mem_tail (mem_filter.mp hu).1)
    · cases hu
  | promoteReadable =>
    change s.promoteReadable blkSize = .ok t at hs
    unfold MSHR.promoteReadable at hs
    split at hs
    · have hnone : ((s.deferredTargets.ts.takeWhile readable).any fun u =>
          u.source != .fromSnoop && u.pkt.needsWritable) = false := by
        rw [any_eq_false]
        intro u hu
        have hread := all_eq_true.mp all_takeWhile u hu
        unfold readable at hread
        simp only [Bool.and_eq_true, Bool.not_eq_true'] at hread
        simp [hread.2]
      exact h.promoteIf hreg.1 hreg.2 (by rw [hnone, Bool.or_false]) hs
    · cases hs
      exact h
  | promoteWritable =>
    change s.promoteWritable blkSize = .ok t at hs
    unfold MSHR.promoteWritable at hs
    split at hs
    · rename_i hprom
      obtain ⟨_, _, hs⟩ := bind_eq_ok.mp hs
      obtain ⟨hrest, hcov, u, hu, hsrc, hw⟩ := hreg hprom
      have hsome : ((s.deferredTargets.ts.takeWhile kept).any fun u =>
          u.source != .fromSnoop && u.pkt.needsWritable) = true := by
        refine any_eq_true.mpr ⟨u, hu, ?_⟩
        rw [hw, Bool.and_true, bne_iff_ne]
        exact hsrc
      exact h.promoteIf hrest hcov (by rw [hsome, Bool.or_true]) hs
    · cases hs
      exact h
  | promoteDeferred =>
    cases hs
    exact h.promoteDeferred hreg

end

def packet (cmd : MemCmd) (isCacheClean : Bool) : MemPacket :=
  ⟨0, cmd, false, false, false, false, false, false, false, -1, false, isCacheClean, false⟩

def request (order : Nat) (cmd : MemCmd) (isCacheClean allocOnFill : Bool) : Target :=
  ⟨order, packet cmd isCacheClean, 0, 4, false, .fromCPU, allocOnFill⟩

end MSHR

end Gem5.Mem
