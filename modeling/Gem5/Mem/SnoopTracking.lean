import Gem5.Mem.SnoopFilter

/-!
# What the snoop filter keeps track of

Every snooping port has a bit of its own, and the filter is seen as an item for every line,
with the null item where nothing is stored. Each operation changes the item of one line.
-/

namespace Gem5.Mem

open BitVec List Bool

namespace SnoopPorts

variable {s : SnoopPorts} {ports : List ResponsePort} {p q : ResponsePort} {mask : BitVec 256}

structure Tracked (s : SnoopPorts) (ports : List ResponsePort) : Prop where
  mem : ∀ p ∈ ports, p.isSnooping = true → p ∈ s.cpuSidePorts
  snooping : ∀ p ∈ s.cpuSidePorts, p.isSnooping = true
  lt : ∀ p ∈ s.cpuSidePorts, s.localId p < 256
  inj : ∀ p ∈ s.cpuSidePorts, ∀ q ∈ s.cpuSidePorts, s.localId p = s.localId q → p = q

/-- The ports that have been given the numbers below `n`. -/
structure Given (s : SnoopPorts) (n : Nat) : Prop where
  snooping : ∀ p ∈ s.cpuSidePorts, p.isSnooping = true
  num : ∀ p ∈ s.cpuSidePorts, ∃ i < n, s.localResponsePortIds[p.id]? = some (some i)
  inj : ∀ p ∈ s.cpuSidePorts, ∀ q ∈ s.cpuSidePorts,
    s.localResponsePortIds[p.id]? = s.localResponsePortIds[q.id]? → p = q

theorem Given.add {n : Nat} (h : Given s n) (hp : p.isSnooping = true)
    (hid : p.id < s.localResponsePortIds.length) (hnew : ∀ q ∈ s.cpuSidePorts, q.id ≠ p.id) :
    Given ⟨s.cpuSidePorts ++ [p], s.localResponsePortIds.set p.id (some n)⟩ (n + 1) := by
  have hself : (s.localResponsePortIds.set p.id (some n))[p.id]? = some (some n) :=
    List.getElem?_set_self hid
  have hother : ∀ q ∈ s.cpuSidePorts, (s.localResponsePortIds.set p.id (some n))[q.id]? =
      s.localResponsePortIds[q.id]? := fun q hq => List.getElem?_set_ne (hnew q hq).symm
  have hfresh : ∀ q ∈ s.cpuSidePorts, s.localResponsePortIds[q.id]? ≠ some (some n) := by
    intro q hq heq
    obtain ⟨i, hi, hnum⟩ := h.num q hq
    rw [hnum] at heq
    cases heq
    exact lt_irrefl n hi
  refine ⟨fun q hq => ?_, fun q hq => ?_, fun q hq r hr heq => ?_⟩
  · rcases mem_append.mp hq with hq | hq
    · exact h.snooping q hq
    · rw [mem_singleton.mp hq]
      exact hp
  · rcases mem_append.mp hq with hq | hq
    · obtain ⟨i, hi, hnum⟩ := h.num q hq
      exact ⟨i, Nat.lt_succ_of_lt hi, (hother q hq).trans hnum⟩
    · rw [mem_singleton.mp hq]
      exact ⟨n, Nat.lt_succ_self n, hself⟩
  · rcases mem_append.mp hq with hq | hq <;> rcases mem_append.mp hr with hr | hr
    · rw [hother q hq, hother r hr] at heq
      exact h.inj q hq r hr heq
    · rw [mem_singleton.mp hr, hself, hother q hq] at heq
      exact absurd heq (hfresh q hq)
    · rw [mem_singleton.mp hq, hself, hother r hr] at heq
      exact absurd heq.symm (hfresh r hr)
    · rw [mem_singleton.mp hq, mem_singleton.mp hr]

theorem track_given {n n' : Nat} {s' : SnoopPorts} (h : Given s n)
    (hids : ∀ p ∈ ports, p.id < s.localResponsePortIds.length)
    (hnodup : ((s.cpuSidePorts ++ ports).map ResponsePort.id).Nodup)
    (ht : track ports n s = (n', s')) : Given s' n' ∧
      ∀ p, p ∈ s.cpuSidePorts ∨ p ∈ ports ∧ p.isSnooping = true → p ∈ s'.cpuSidePorts := by
  induction ports generalizing s n with
  | nil =>
    cases ht
    exact ⟨h, fun p hp => hp.resolve_right fun hp => nomatch hp.1⟩
  | cons p rest ih =>
    have hrest : ∀ q ∈ rest, q.id < s.localResponsePortIds.length := fun q hq =>
      hids q (mem_cons_of_mem p hq)
    rw [track] at ht
    split at ht
    · rename_i hp
      have hnew : ∀ q ∈ s.cpuSidePorts, q.id ≠ p.id := by
        rw [map_append] at hnodup
        intro q hq heq
        exact (nodup_append'.mp hnodup).2.2 (mem_map_of_mem hq)
          (heq ▸ mem_map_of_mem mem_cons_self)
      obtain ⟨hgiven, hall⟩ := ih (h.add hp (hids p mem_cons_self) hnew)
        (by simpa using hrest) (by simpa using hnodup) ht
      refine ⟨hgiven, fun q hq => hall q ?_⟩
      rcases hq with hq | ⟨hq, hsnoop⟩
      · exact .inl (mem_append_left [p] hq)
      · rcases mem_cons.mp hq with rfl | hq
        · exact .inl (mem_append_right _ (mem_singleton_self q))
        · exact .inr ⟨hq, hsnoop⟩
    · rename_i hp
      have hnodup' : ((s.cpuSidePorts ++ rest).map ResponsePort.id).Nodup :=
        hnodup.sublist ((List.Sublist.refl _).append (sublist_cons_self p rest) |>.map _)
      obtain ⟨hgiven, hall⟩ := ih h hrest hnodup' ht
      refine ⟨hgiven, fun q hq => hall q (hq.imp_right fun ⟨hq, hsnoop⟩ => ⟨?_, hsnoop⟩)⟩
      rcases mem_cons.mp hq with rfl | hq
      · exact absurd hsnoop hp
      · exact hq

theorem setCPUSidePorts_tracked (hids : ∀ p ∈ ports, p.id < ports.length)
    (hnodup : (ports.map ResponsePort.id).Nodup) (h : setCPUSidePorts ports = .ok s) :
    Tracked s ports := by
  unfold setCPUSidePorts at h
  cases ht : track ports 0 ⟨[], List.replicate ports.length none⟩ with
  | mk n s' =>
    rw [ht] at h
    dsimp only at h
    by_cases hn : 256 < n
    · rw [if_pos hn] at h
      cases h
    · rw [if_neg hn] at h
      cases h
      obtain ⟨hgiven, hall⟩ := track_given
        (s := ⟨[], List.replicate ports.length none⟩) (n := 0)
        ⟨forall_mem_nil _, forall_mem_nil _, forall_mem_nil _⟩
        (by simpa using hids) hnodup ht
      have hlocal : ∀ p ∈ s.cpuSidePorts, s.localId p < n ∧
          s.localResponsePortIds[p.id]? = some (some (s.localId p)) := by
        intro p hp
        obtain ⟨i, hi, hnum⟩ := hgiven.num p hp
        rw [localId, hnum]
        exact ⟨hi, rfl⟩
      refine ⟨fun p hp hs => hall p (.inr ⟨hp, hs⟩), hgiven.snooping, fun p hp => ?_,
        fun p hp q hq heq => hgiven.inj p hp q hq ?_⟩
      · exact (hlocal p hp).1.trans_le (not_lt.mp hn)
      · rw [(hlocal p hp).2, (hlocal q hq).2, heq]

theorem getLsbD_one_shiftLeft {n i : Nat} (hi : i < 256) :
    (1#256 <<< n).getLsbD i = decide (i = n) := by
  rw [← twoPow_eq, getLsbD_twoPow]
  grind

theorem Tracked.getLsbD_portToMask (h : Tracked s ports) (hp : p ∈ s.cpuSidePorts)
    (hq : q ∈ ports) :
    (s.portToMask q).getLsbD (s.localId p) = decide (p = q) := by
  rw [portToMask]
  by_cases hsnoop : q.isSnooping = true
  · rw [hsnoop, Bool.not_true, if_neg Bool.false_ne_true, getLsbD_one_shiftLeft (h.lt p hp)]
    exact decide_eq_decide.mpr ⟨h.inj p hp q (h.mem q hq hsnoop), fun heq => by rw [heq]⟩
  · have hne : p ≠ q := fun heq => hsnoop (heq ▸ h.snooping p hp)
    rw [eq_false_iff.mpr hsnoop, decide_eq_false hne]
    exact getLsbD_zero

theorem Tracked.and_portToMask (h : Tracked s ports) (hp : p ∈ s.cpuSidePorts) :
    mask &&& s.portToMask p = 0 ↔ mask.getLsbD (s.localId p) = false := by
  have hmask : s.portToMask p = 1#256 <<< s.localId p := by
    rw [portToMask, h.snooping p hp]
    rfl
  rw [hmask]
  constructor
  · intro hzero
    have hbit := congrArg (fun m : BitVec 256 => m.getLsbD (s.localId p)) hzero
    simpa [getLsbD_one_shiftLeft (h.lt p hp)] using hbit
  · intro hbit
    apply eq_of_getLsbD_eq
    intro i hi
    rw [getLsbD_and, getLsbD_one_shiftLeft hi]
    by_cases heq : i = s.localId p
    · rw [heq, hbit]
      simp
    · simp [heq]

theorem Tracked.mem_maskToPortList (h : Tracked s ports) : p ∈ s.maskToPortList mask ↔
    p ∈ s.cpuSidePorts ∧ mask.getLsbD (s.localId p) = true := by
  rw [maskToPortList, mem_filter]
  refine and_congr_right fun hp => ?_
  rw [decide_eq_true_eq, ne_eq, h.and_portToMask hp, not_eq_false]

end SnoopPorts

namespace SnoopFilterCache

open SnoopFilter

variable {m : SnoopFilterCache} {line l : BitVec 64} {item : SnoopItem}

def itemAt (line : BitVec 64) (m : SnoopFilterCache) : SnoopItem := (m.lookup line).getD .null

def Clean (m : SnoopFilterCache) : Prop :=
  ∀ line item, m.lookup line = some item → item.isNull = false

def store (line : BitVec 64) (item : SnoopItem) (m : SnoopFilterCache) : SnoopFilterCache :=
  if item.isNull then m.erase line else m.insert line item

theorem lookup_store : (store line item m).lookup l =
    if l = line then (if item.isNull then none else some item) else m.lookup l := by
  unfold store
  by_cases hl : l = line
  · subst hl
    rw [if_pos rfl]
    split
    · exact Finmap.lookup_erase l m
    · exact Finmap.lookup_insert m
  · split
    · exact Finmap.lookup_erase_ne hl
    · exact Finmap.lookup_insert_of_ne m hl

theorem eq_null_of_isNull (h : item.isNull = true) : item = .null := by
  have hor : item.requested ||| item.holder = 0 := beq_iff_eq.mp h
  have hbit : ∀ i, item.requested.getLsbD i = false ∧ item.holder.getLsbD i = false := by
    intro i
    have hbit := congrArg (fun b : BitVec 256 => b.getLsbD i) hor
    simpa using hbit
  cases item with
  | mk requested holder =>
    have h1 : requested = 0 := eq_of_getLsbD_eq fun i _ => by simpa using (hbit i).1
    have h2 : holder = 0 := eq_of_getLsbD_eq fun i _ => by simpa using (hbit i).2
    rw [h1, h2]
    rfl

theorem itemAt_store : (store line item m).itemAt l = if l = line then item else m.itemAt l := by
  rw [itemAt, lookup_store]
  by_cases hl : l = line
  · rw [if_pos hl]
    split
    · rename_i hnull
      rw [eq_null_of_isNull hnull]
      rfl
    · rfl
  · rw [if_neg hl, if_neg hl]
    rfl

theorem Clean.store (h : m.Clean) : (store line item m).Clean := by
  intro l it hl
  rw [lookup_store] at hl
  by_cases heq : l = line
  · rw [if_pos heq] at hl
    split at hl
    · cases hl
    · rename_i hnull
      cases hl
      exact eq_false_iff.mpr hnull
  · rw [if_neg heq] at hl
    exact h l it hl

theorem Clean.store_itemAt (h : m.Clean) : m.store line (m.itemAt line) = m := by
  apply Finmap.ext_lookup
  intro l
  rw [lookup_store]
  by_cases hl : l = line
  · subst hl
    rw [if_pos rfl, itemAt]
    cases hlookup : m.lookup l with
    | none => rfl
    | some it => exact if_neg (eq_false_iff.mp (h l it hlookup))
  · exact if_neg hl

theorem eraseIfNullEntry_insert :
    eraseIfNullEntry line (m.insert line item) = m.store line item := by
  rw [eraseIfNullEntry, Finmap.lookup_insert, store]
  dsimp only
  split
  · apply Finmap.ext_lookup
    intro l
    by_cases hl : l = line
    · rw [hl, Finmap.lookup_erase, Finmap.lookup_erase]
    · rw [Finmap.lookup_erase_ne hl, Finmap.lookup_erase_ne hl, Finmap.lookup_insert_of_ne m hl]
  · rfl

theorem insert_eq_store (h : item.isNull = false) : m.insert line item = m.store line item :=
  (if_neg (eq_false_iff.mp h)).symm

end SnoopFilterCache

open SnoopFilterCache

namespace SnoopFilter

variable {f f₁ f₂ : SnoopFilter} {pkt : MemPacket} {port rspPort reqPort p : ResponsePort}
  {snooped ports : List ResponsePort} {willRetry : Bool}

def itemOf (pkt : MemPacket) (f : SnoopFilter) : SnoopItem :=
  f.cachedLocations.itemAt (f.lineOf pkt)

def withItem (pkt : MemPacket) (item : SnoopItem) (f : SnoopFilter) : SnoopFilter :=
  { f with cachedLocations := f.cachedLocations.store (f.lineOf pkt) item }

theorem itemOf_of_none (h : f.cachedLocations.lookup (f.lineOf pkt) = none) :
    f.itemOf pkt = .null := by
  rw [itemOf, itemAt, h]
  rfl

theorem itemOf_of_some {item : SnoopItem}
    (h : f.cachedLocations.lookup (f.lineOf pkt) = some item) :
    f.itemOf pkt = item := by
  rw [itemOf, itemAt, h]
  rfl

theorem withItem_self (h : f.cachedLocations.Clean) : f.withItem pkt (f.itemOf pkt) = f := by
  rw [withItem, itemOf, h.store_itemAt]

def marked (pkt : MemPacket) (port : ResponsePort) (f : SnoopFilter) : Sim SnoopItem :=
  newItem (allocates pkt port) pkt (f.ports.portToMask port) (f.itemOf pkt)

theorem request_spec (h : f.cachedLocations.Clean)
    (hl : f.lookupRequest pkt port = .ok (snooped, f₁))
    (hf : f₁.finishRequest willRetry pkt.addr pkt.isSecure = .ok f₂) :
    ∃ item, f.marked pkt port = .ok item ∧
      f₂ = { f.withItem pkt (if willRetry then f.itemOf pkt else item) with
        it := f₂.it, retryItem := f₂.retryItem } := by
  unfold lookupRequest at hl
  dsimp only at hl
  split at hl
  · -- nothing is stored and nothing is allocated
    rename_i hmiss
    obtain ⟨hnone, hno⟩ := hmiss
    cases hl
    cases hf
    refine ⟨f.itemOf pkt, ?_, ?_⟩
    · rw [marked, hno]
      rfl
    · rw [ite_self, withItem_self h]
  · obtain ⟨item, hmark, hl⟩ := bind_eq_ok.mp hl
    cases hl
    refine ⟨item, hmark, ?_⟩
    obtain ⟨_, _, hf⟩ := bind_eq_ok.mp hf
    cases hf
    cases willRetry with
    | true =>
      rw [if_pos rfl, Finmap.insert_insert, eraseIfNullEntry_insert]
      rfl
    | false =>
      rw [if_neg Bool.false_ne_true, eraseIfNullEntry_insert]
      rfl

theorem mark_spec {mask : BitVec 256} {item item' : SnoopItem}
    (h : mark pkt mask item = .ok item') :
    (pkt.needsResponse && !pkt.cacheResponding) = true ∧ item.requested &&& mask = 0 ∧
        item' = { item with requested := item.requested ||| mask } ∨
      (pkt.needsResponse && !pkt.cacheResponding) = false ∧ (item' = item ∨
        pkt.isEviction = true ∧ pkt.isBlockCached = false ∧
          item' = { item with holder := item.holder &&& ~~~mask }) := by
  unfold mark at h
  cases hneeds : pkt.needsResponse with
  | true =>
    rw [hneeds, if_pos rfl] at h
    cases hresp : pkt.cacheResponding with
    | true =>
      rw [hresp, Bool.not_true, if_neg Bool.false_ne_true] at h
      split at h
      · cases h
      · cases h
        exact .inr ⟨rfl, .inl rfl⟩
    | false =>
      rw [hresp, Bool.not_false, if_pos rfl] at h
      split at h
      · cases h
      · rename_i hfree
        cases h
        exact .inl ⟨rfl, not_not.mp hfree, rfl⟩
  | false =>
    rw [hneeds] at h
    obtain ⟨_, hevict, h⟩ := bind_eq_ok.mp h
    split at h
    · cases h
    · split at h
      · rename_i hcached
        cases h
        exact .inr ⟨rfl, .inr ⟨simAssert_eq_ok.mp hevict, by simpa using hcached, rfl⟩⟩
      · cases h
        exact .inr ⟨rfl, .inl rfl⟩

theorem lookupRequest_snooped (h : f.ports.Tracked ports) (hport : port ∈ ports)
    (hl : f.lookupRequest pkt port = .ok (snooped, f₁)) : (∀ p ∈ f.ports.cpuSidePorts, p ≠ port →
      ((f.itemOf pkt).holder ||| (f.itemOf pkt).requested).getLsbD (f.ports.localId p) = true →
      p ∈ snooped) ∧ ∀ p ∈ snooped, p ∈ f.ports.cpuSidePorts ∧ (p ≠ port ∧
      ((f.itemOf pkt).holder ||| (f.itemOf pkt).requested).getLsbD (f.ports.localId p) = true ∨
      (f.destMask pkt).getLsbD (f.ports.localId p) = true) := by
  unfold lookupRequest at hl
  dsimp only at hl
  split at hl
  · rename_i hmiss
    cases hl
    have hnull := itemOf_of_none hmiss.1
    refine ⟨fun p _ _ hbit => ?_, forall_mem_nil _⟩
    rw [hnull] at hbit
    simp [SnoopItem.null] at hbit
  · obtain ⟨item, _, hl⟩ := bind_eq_ok.mp hl
    cases hl
    have hbit : ∀ p ∈ f.ports.cpuSidePorts,
        (((f.itemOf pkt).holder ||| (f.itemOf pkt).requested ||| f.destMask pkt) &&&
          ~~~f.ports.portToMask port ||| f.destMask pkt).getLsbD (f.ports.localId p) = true ↔
        p ≠ port ∧ ((f.itemOf pkt).holder ||| (f.itemOf pkt).requested).getLsbD
          (f.ports.localId p) = true ∨ (f.destMask pkt).getLsbD (f.ports.localId p) = true := by
      intro p hp
      have hmask := h.getLsbD_portToMask hp hport
      simp only [getLsbD_or, getLsbD_and, getLsbD_not, h.lt p hp, hmask,
        or_eq_true, and_eq_true, not_eq_true', decide_eq_false_iff_not, decide_true]
      tauto
    refine ⟨fun p hp hne hin => ?_, fun p hp => ?_⟩
    · exact h.mem_maskToPortList.mpr ⟨hp, (hbit p hp).mpr (.inl ⟨hne, hin⟩)⟩
    · obtain ⟨hp, hin⟩ := h.mem_maskToPortList.mp hp
      exact ⟨hp, (hbit p hp).mp hin⟩

theorem lookupSnoop_spec (h : f.cachedLocations.Clean)
    (hl : f.lookupSnoop pkt = .ok (snooped, f₁)) :
    snooped = f.ports.maskToPortList ((f.itemOf pkt).holder ||| (f.itemOf pkt).requested) ∧
      f₁ = f.withItem pkt (if pkt.isInvalidate && (f.itemOf pkt).requested == 0 then
        { f.itemOf pkt with holder := 0 } else f.itemOf pkt) := by
  obtain ⟨_, _, hl⟩ := bind_eq_ok.mp hl
  dsimp only at hl
  cases hlookup : f.cachedLocations.lookup (f.lineOf pkt) with
  | none =>
    have hnull := itemOf_of_none hlookup
    rw [hlookup] at hl
    dsimp only at hl
    split at hl
    · cases hl
    · cases hl
      refine ⟨?_, ?_⟩
      · rw [hnull]
        simp [SnoopPorts.maskToPortList, SnoopItem.null]
      · have hsame : (if pkt.isInvalidate && (f.itemOf pkt).requested == 0 then
            { f.itemOf pkt with holder := 0 } else f.itemOf pkt) = f.itemOf pkt := by
          rw [hnull]
          exact ite_self _
        rw [hsame, withItem_self h]
  | some item =>
    have hitem := itemOf_of_some hlookup
    rw [hlookup] at hl
    obtain ⟨_, _, hl⟩ := bind_eq_ok.mp hl
    cases hl
    refine ⟨by rw [hitem], ?_⟩
    rw [hitem]
    split
    · rw [eraseIfNullEntry_insert]
      rfl
    · rw [← hitem, withItem_self h]

theorem updateSnoopResponse_spec (hl : f.updateSnoopResponse pkt rspPort reqPort = .ok f₁) :
    (pkt.isUncacheable || !reqPort.isSnooping) = true ∧ f₁ = f ∨
      (pkt.isUncacheable || !reqPort.isSnooping) = false ∧
      f₁ = f.withItem pkt ⟨(f.itemOf pkt).requested &&& ~~~f.ports.portToMask reqPort,
        (if pkt.hasSharers then (f.itemOf pkt).holder else 0) ||| f.ports.portToMask reqPort⟩ := by
  obtain ⟨_, _, hl⟩ := bind_eq_ok.mp hl
  obtain ⟨_, _, hl⟩ := bind_eq_ok.mp hl
  dsimp only at hl
  split at hl
  · rename_i hskip
    cases hl
    exact .inl ⟨hskip, rfl⟩
  · rename_i hskip
    refine .inr ⟨eq_false_iff.mpr hskip, ?_⟩
    split at hl
    · cases hl
    · split at hl
      · cases hl
      · obtain ⟨_, _, hl⟩ := bind_eq_ok.mp hl
        obtain ⟨_, hnull, hl⟩ := bind_eq_ok.mp hl
        cases hl
        rw [insert_eq_store (by simpa using simAssert_eq_ok.mp hnull)]
        cases pkt.hasSharers <;> rfl

theorem updateSnoopForward_spec (h : f.cachedLocations.Clean)
    (hl : f.updateSnoopForward pkt = .ok f₁) :
    f₁ = f.withItem pkt
      (if pkt.hasSharers then f.itemOf pkt else { f.itemOf pkt with holder := 0 }) := by
  obtain ⟨_, _, hl⟩ := bind_eq_ok.mp hl
  obtain ⟨_, _, hl⟩ := bind_eq_ok.mp hl
  dsimp only at hl
  cases hlookup : f.cachedLocations.lookup (f.lineOf pkt) with
  | none =>
    have hnull := itemOf_of_none hlookup
    rw [hlookup] at hl
    cases hl
    have hsame : (if pkt.hasSharers then f.itemOf pkt else { f.itemOf pkt with holder := 0 }) =
        f.itemOf pkt := by
      rw [hnull]
      exact ite_self _
    rw [hsame, withItem_self h]
  | some item =>
    have hitem := itemOf_of_some hlookup
    rw [hlookup] at hl
    cases hsharers : pkt.hasSharers with
    | true =>
      rw [hsharers] at hl
      cases hl
      rw [if_pos rfl, withItem_self h]
    | false =>
      rw [hsharers] at hl
      cases hl
      rw [hitem, eraseIfNullEntry_insert]
      rfl

def answered (pkt : MemPacket) (mask : BitVec 256) (item : SnoopItem) : SnoopItem :=
  ⟨item.requested &&& ~~~mask,
    if pkt.isCacheMaintenance then
    (if pkt.isInvalidate then item.holder &&& ~~~mask else item.holder)
    else item.holder ||| mask⟩

theorem updateResponse_spec (hl : f.updateResponse pkt port = .ok f₁) :
    ((pkt.isUncacheable || !port.isSnooping) = true ∨ f.itemOf pkt = .null) ∧ f₁ = f ∨
      (pkt.isUncacheable || !port.isSnooping) = false ∧
      (f.itemOf pkt).requested &&& f.ports.portToMask port ≠ 0 ∧
      f₁ = f.withItem pkt (answered pkt (f.ports.portToMask port) (f.itemOf pkt)) := by
  obtain ⟨_, _, hl⟩ := bind_eq_ok.mp hl
  dsimp only at hl
  split at hl
  · rename_i hskip
    cases hl
    exact .inl ⟨.inl hskip, rfl⟩
  · rename_i hskip
    cases hlookup : f.cachedLocations.lookup (f.lineOf pkt) with
    | none =>
      have hnull := itemOf_of_none hlookup
      rw [hlookup] at hl
      cases hl
      exact .inl ⟨.inr hnull, rfl⟩
    | some item =>
      have hitem := itemOf_of_some hlookup
      rw [hlookup] at hl
      dsimp only at hl
      split at hl
      · cases hl
      · rename_i hreq
        refine .inr ⟨eq_false_iff.mpr hskip, hitem ▸ hreq, ?_⟩
        rw [hitem, answered]
        cases hm : pkt.isCacheMaintenance with
        | true =>
          rw [hm] at hl
          cases hl
          rw [eraseIfNullEntry_insert]
          rfl
        | false =>
          rw [hm] at hl
          obtain ⟨_, hnull, hl⟩ := bind_eq_ok.mp hl
          cases hl
          rw [insert_eq_store (by simpa using simAssert_eq_ok.mp hnull)]
          rfl

end SnoopFilter

end Gem5.Mem
