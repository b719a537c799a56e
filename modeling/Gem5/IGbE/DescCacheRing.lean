import Gem5.IGbE.DescCacheInvariant

/-!
# The descriptor cache on its ring

The guest posts descriptors by moving the tail and never laps the head. Counting
descriptors from the start, the queue is then a conveyor: posted, requested,
fetched, used, sent to writeback and retired are nested counters, and each
pointer of the cache is the ring slot of one of them.
-/

namespace Gem5.IGbE.DescCacheGlobal

open List

open RingIndex (advance_slot slot_lt slot_add_left)

open DescDMAPool (started fresh)

variable {α π : Type} {cfg : Config} {s t : DescCacheGlobal α π} {e : Nat} {m : BitVec 64}
  {order : List Nat}

structure Lineup (order : List Nat) (s : DescCacheGlobal α π) : Prop where
  numbered : Numbered Desc.origin s.hist.retired
    (s.usedCache ++ s.processed order ++ s.unusedCache)
  total : s.hist.retired + s.usedCache.length + (s.processed order).length +
    s.unusedCache.length = s.hist.fetched.length
  used : Numbered Desc.origin 0 s.hist.used
  used_length : s.hist.used.length = s.hist.retired + s.usedCache.length

namespace Lineup

theorem construct (base len : Nat) : Lineup [] (construct α π base len) :=
  ⟨Numbered.nil, rfl, Numbered.nil, rfl⟩

section

variable (h : Lineup order s)
include h

theorem of_same_caches
    (hp : (t.processed order).map Desc.origin = (s.processed order).map Desc.origin)
    (hc : (t.usedCache, t.unusedCache, t.hist.retired, t.hist.fetched, t.hist.used) =
      (s.usedCache, s.unusedCache, s.hist.retired, s.hist.fetched, s.hist.used)) :
    Lineup order t := by
  obtain ⟨h₁, h₂, h₃, h₄⟩ := h
  simp only [Prod.mk.injEq] at hc
  obtain ⟨hu, hn, hr, hf, hh⟩ := hc
  have hlen : (t.processed order).length = (s.processed order).length := by
    simpa using congrArg List.length hp
  constructor
  · rw [hr]
    exact (Numbered.congr_map (by rw [hu, hn, map_append, map_append, hp,
      ← map_append, ← map_append])).mpr h₁
  · rw [hu, hlen, hn, hr, hf]
    exact h₂
  · rw [hh]
    exact h₃
  · rw [hh, hr, hu]
    exact h₄

theorem numbered_used : Numbered Desc.origin s.hist.retired s.usedCache :=
  (Numbered.append_iff.mp (Numbered.append_iff.mp h.numbered).1).1

theorem numbered_processed :
    Numbered Desc.origin (s.hist.retired + s.usedCache.length) (s.processed order) :=
  (Numbered.append_iff.mp (Numbered.append_iff.mp h.numbered).1).2

theorem fetchDescriptorsGlobal (hp : Pools cfg s)
    (ht : fetchDescriptorsGlobal cfg s = .ok t) : Lineup order t := by
  rcases fetchDescriptorsGlobal_cases hp.fetch_wf ht with rfl | ⟨e, k, _, _, _, _, _, _, rfl⟩
  · exact h
  · exact h.of_same_caches rfl rfl

theorem writebackGlobal (hp : Pools cfg s)
    (ht : writebackGlobal cfg m s = .ok t) : Lineup order t := by
  rcases writebackGlobal_cases hp.wb_wf hp.wb_le ht with ⟨_, rfl⟩ | ⟨e, _, _, rfl⟩ | ⟨_, _, rfl⟩ <;>
    exact h.of_same_caches rfl rfl

theorem wbRetired {d head : Nat} {wb : DescDMAPool (Desc α)}
    (hd : d ≤ s.usedCache.length) : Lineup order (s.wbRetired wb head d) := by
  have hdrop := h.numbered.drop d (by rw [append_assoc, length_append]; omega)
  have htotal := h.total
  have hlength := h.used_length
  refine ⟨?_, ?_, h.used, ?_⟩
  · rw [append_assoc, drop_append_of_le_length hd, ← append_assoc] at hdrop
    exact hdrop
  · change s.hist.retired + d + (s.usedCache.drop d).length + (s.processed order).length +
      s.unusedCache.length = s.hist.fetched.length
    rw [length_drop]
    omega
  · change s.hist.used.length = s.hist.retired + d + (s.usedCache.drop d).length
    rw [length_drop]
    omega

theorem wbDrained {q : List Nat} (hp : Pools cfg s)
    (hd : WbDraining cfg.numDescDMAEngines s q t) : Lineup order t := by
  obtain ⟨d, heq, hsum, _⟩ := hd.eq
  have hle := hp.wb_le
  rw [heq]
  exact h.wbRetired (by omega)

theorem fetchDrained {q : List Nat}
    (hd : FetchDraining cfg.numDescDMAEngines s q t) : Lineup order t := by
  obtain ⟨news, heq, _, hnum, _⟩ := hd.eq
  have htotal := h.total
  rw [heq]
  refine ⟨?_, ?_, h.used, h.used_length⟩
  · change Numbered Desc.origin s.hist.retired
      (s.usedCache ++ s.processed order ++ (s.unusedCache ++ news.map Prod.snd))
    rw [← append_assoc, Numbered.append_iff]
    refine ⟨h.numbered, ?_⟩
    have hlen : s.hist.retired + (s.usedCache ++ s.processed order ++ s.unusedCache).length =
        s.hist.fetched.length := by
      simp only [length_append]
      omega
    rw [hlen]
    unfold Numbered
    rw [map_map, length_map]
    exact hnum
  · change s.hist.retired + s.usedCache.length + (s.processed order).length +
      (s.unusedCache ++ news.map Prod.snd).length = (s.hist.fetched ++ news).length
    simp only [length_append, length_map]
    omega

attribute [local simp] DescCacheGlobal.beginProcessing

theorem beginProcessing {d : Desc α} {rest : List (Desc α)}
    (hp : Processing cfg order s) (hfree : (s.processingCache e).desc = none)
    (hu : s.unusedCache = d :: rest) : Lineup (order ++ [e]) (s.beginProcessing e d) := by
  have hproc : (s.beginProcessing e d).processed (order ++ [e]) = s.processed order ++ [d] := by
    unfold processed
    rw [filterMap_append]
    congr 1
    · apply filterMap_congr
      intro i hi
      have hie : i ≠ e := by
        rintro rfl
        have hlive := (hp.live_iff i).mpr hi
        simp [hfree] at hlive
      simp [hie]
    · simp
  have hunused : (s.beginProcessing e d).unusedCache = rest := by
    simp [hu]
  have hnum := h.numbered
  have htotal := h.total
  rw [hu] at hnum htotal
  refine ⟨?_, ?_, h.used, h.used_length⟩
  · rw [hproc, hunused]
    simpa using hnum
  · rw [hproc, hunused]
    simp only [DescCacheGlobal.beginProcessing, length_append, length_cons, length_nil] at htotal ⊢
    omega

theorem markProcessed : Lineup order (s.markProcessed e) := by
  refine h.of_same_caches (congrArg _ ?_) rfl
  apply filterMap_congr
  intro i _
  by_cases hie : i = e <;> simp [DescCacheGlobal.markProcessed, hie]

theorem setBody (body : α) : Lineup order (s.setBody e body) := by
  refine h.of_same_caches ?_ rfl
  unfold processed
  rw [map_filterMap, map_filterMap]
  apply filterMap_congr
  intro i _
  by_cases hie : i = e
  · cases hd : (s.processingCache e).desc <;> simp [DescCacheGlobal.setBody, hie, hd]
  · simp [DescCacheGlobal.setBody, hie]

theorem retired {front rest : List Nat}
    (hr : Retired cfg order s front rest t) : Lineup rest t := by
  have hproc : s.processed order = s.processed front ++ t.processed rest := by
    rw [hr.split]
    unfold processed
    rw [filterMap_append]
    congr 1
    apply filterMap_congr
    intro i hi
    rw [hr.same i hi]
  have hnum := h.numbered
  have hprocessed := h.numbered_processed
  have htotal := h.total
  have hlength := h.used_length
  rw [hproc] at hnum hprocessed htotal
  generalize ht : t.processed rest = later at *
  rw [hr.eq] at ht ⊢
  refine ⟨?_, ?_, ?_, ?_⟩
  · rw [ht]
    simpa using hnum
  · rw [ht]
    simp only [length_append] at htotal ⊢
    omega
  · apply Numbered.append_iff.mpr
    refine ⟨h.used, ?_⟩
    rw [zero_add, hlength]
    exact (Numbered.append_iff.mp hprocessed).1
  · simp only [length_append]
    omega

end

end Lineup

/-- A record of DMA accesses in which the `k`-th one is to descriptor `k`, at its slot. -/
def Placed (len : Nat) (log : List (Nat × Desc α)) : Prop :=
  Numbered (fun x => x.2.origin) 0 log ∧ ∀ x ∈ log, x.1 = x.2.origin % len

theorem Placed.append {len : Nat} {log news : List (Nat × Desc α)} (h : Placed len log)
    (hn : Numbered (fun x => x.2.origin) log.length news)
    (hs : ∀ x ∈ news, x.1 = x.2.origin % len) : Placed len (log ++ news) := by
  refine ⟨Numbered.append_iff.mpr ⟨h.1, by rwa [zero_add]⟩, ?_⟩
  intro x hx
  rcases mem_append.mp hx with hx | hx
  · exact h.2 x hx
  · exact hs x hx

theorem Placed.getElem? {len k : Nat} {log : List (Nat × Desc α)} {x : Nat × Desc α}
    (h : Placed len log) (hx : log[k]? = some x) : x.1 = k % len ∧ x.2.origin = k := by
  have ho := h.1.getElem? hx
  have hslot := h.2 x (mem_of_getElem? hx)
  simp only [zero_add] at ho
  exact ⟨by rw [hslot, ho], ho⟩

attribute [local simp] DescCacheGlobal.fetchStarted DescDMAPool.count started

theorem FetchOnRing.fetchStarted {first k : Nat} (h : FetchOnRing s first)
    (hwf : s.fetch.WF cfg.numDescDMAEngines) (he : s.fetch.findFree cfg.numDescDMAEngines = some e)
    (hpnt : s.fetch.curDMAPnt = (first + s.fetch.curNum) % s.descLen)
    (hk : s.fetch.curDMAPnt + k ≤ s.descLen) :
    FetchOnRing (s.fetchStarted e k) first ∧ (s.fetchStarted e k).fetch.curDMAPnt =
      (first + (s.fetchStarted e k).fetch.curNum) % s.descLen := by
  obtain ⟨hlen, hcache, hblocks⟩ := h
  have hnot := hwf.not_mem_of_free (DescDMAPool.findFree_some he).2
  have hne : ∀ x ∈ s.fetch.jobQueue, x ≠ e := fun x hx hxe => hnot (hxe ▸ hx)
  have hcount : ∀ x ∈ s.fetch.jobQueue, (s.fetchStarted e k).fetch.count x = s.fetch.count x := by
    intro x hx
    simp [hne x hx]
  have hnew : (s.fetchStarted e k).fetch.count e = k := by
    simp
  have hmap : (s.fetch.jobQueue.map (s.fetchStarted e k).fetch.count).sum = s.fetch.curNum := by
    rw [map_congr_left hcount, ← hwf.curNum_eq]
  refine ⟨⟨hlen, hcache, ?_⟩, ?_⟩
  · apply DescDMAPool.blocks_concat
    · apply DescDMAPool.blocks_congr _ hcount hblocks
      intro x hx
      simp [hne x hx]
    · rw [hmap]
      simpa using hpnt
    · rw [hmap, hnew]
      change (first + s.fetch.curNum) % s.descLen + k ≤ s.descLen
      rw [← hpnt]
      exact hk
  · change RingIndex.advance s.descLen s.fetch.curDMAPnt k =
      (first + (s.fetch.curNum + k)) % s.descLen
    rw [hpnt, advance_slot hlen (by omega), add_assoc]

structure OnRing (s : DescCacheGlobal α π) : Prop where
  len_pos : 0 < s.descLen
  head : s.descHead = s.hist.retired % s.descLen
  wbPnt : s.wb.curDMAPnt = (s.hist.retired + s.wb.curNum) % s.descLen
  wbFits : ∀ e ∈ s.wb.jobQueue, s.wb.count e ≤ s.descLen
  cachePnt : s.cachePnt = s.hist.fetched.length % s.descLen
  blocks : s.fetch.Blocks s.descLen s.hist.fetched.length s.fetch.jobQueue
  fetchPnt : s.fetch.curDMAPnt = (s.hist.fetched.length + s.fetch.curNum) % s.descLen
  tail : s.descTail = s.hist.posted % s.descLen
  issued_le : s.hist.fetched.length + s.fetch.curNum ≤ s.hist.posted
  posted_le : s.hist.posted ≤ s.hist.retired + s.descLen
  fetched : Placed s.descLen s.hist.fetched
  written : Placed s.descLen s.hist.written
  written_length : s.hist.written.length = s.hist.retired + s.wb.curNum

def setTail (tail : Nat) (s : DescCacheGlobal α π) : DescCacheGlobal α π :=
  { s with
    descTail := tail
    hist := { s.hist with posted := s.hist.posted + RingIndex.ahead s.descLen s.descTail tail } }

attribute [local simp] DescCacheGlobal.construct

namespace OnRing

theorem construct {len : Nat} (base : Nat) (hlen : 0 < len) : OnRing (construct α π base len) where
  len_pos := hlen
  head := by simp
  wbPnt := by simp [fresh]
  wbFits := by simp [fresh]
  cachePnt := by simp
  blocks := trivial
  fetchPnt := by simp [fresh]
  tail := by simp
  issued_le := by simp [fresh]
  posted_le := by simp
  fetched := ⟨Numbered.nil, by simp⟩
  written := ⟨Numbered.nil, by simp⟩
  written_length := rfl

section

variable (h : OnRing s)
include h

theorem of_same_ring
    (heq : (t.descLen, t.descHead, t.descTail, t.cachePnt, t.fetch, t.wb, t.hist.retired,
        t.hist.fetched, t.hist.posted, t.hist.written) =
      (s.descLen, s.descHead, s.descTail, s.cachePnt, s.fetch, s.wb, s.hist.retired,
        s.hist.fetched, s.hist.posted, s.hist.written)) : OnRing t := by
  simp only [Prod.mk.injEq] at heq
  obtain ⟨hlen, hhead, htail, hpnt, hfetch, hwb, hret, hfet, hpost, hwrit⟩ := heq
  obtain ⟨h₁, h₂, h₃, h₄, h₅, h₆, h₇, h₈, h₉, h₁₀, h₁₁, h₁₂, h₁₃⟩ := h
  rw [← hlen] at h₁ h₂ h₃ h₄ h₅ h₆ h₇ h₈ h₁₀ h₁₁ h₁₂
  rw [← hret] at h₂ h₃ h₁₀ h₁₃
  rw [← hfet] at h₅ h₆ h₇ h₉ h₁₁
  rw [← hpost] at h₈ h₉ h₁₀
  rw [← hwrit] at h₁₂ h₁₃
  rw [← hwb] at h₃ h₄ h₁₃
  rw [← hfetch] at h₆ h₇ h₉
  exact ⟨h₁, by rw [hhead, h₂], h₃, h₄, by rw [hpnt, h₅], h₆, h₇, by rw [htail, h₈], h₉, h₁₀,
    h₁₁, h₁₂, h₁₃⟩

theorem fetchOnRing : FetchOnRing s s.hist.fetched.length :=
  ⟨h.len_pos, h.cachePnt, h.blocks⟩

theorem setTail {tail : Nat} (hlt : tail < s.descLen)
    (hle : s.hist.posted + RingIndex.ahead s.descLen s.descTail tail ≤
      s.hist.retired + s.descLen) : OnRing (s.setTail tail) := by
  have hissued := h.issued_le
  refine ⟨h.len_pos, h.head, h.wbPnt, h.wbFits, h.cachePnt, h.blocks, h.fetchPnt, ?_, ?_, hle,
    h.fetched, h.written, h.written_length⟩
  · simp only [DescCacheGlobal.setTail]
    rw [h.tail]
    exact (RingIndex.slot_ahead hlt).symm
  · simp only [DescCacheGlobal.setTail]
    omega

theorem wbPnt_lt : s.wb.curDMAPnt < s.descLen := by
  rw [h.wbPnt]
  exact slot_lt h.len_pos _

theorem fetchPnt_lt : s.fetch.curDMAPnt < s.descLen := by
  rw [h.fetchPnt]
  exact slot_lt h.len_pos _

theorem maxToFetch : ∃ room, s.maxToFetch = .ok room ∧
    s.hist.fetched.length + s.fetch.curNum + room ≤ s.hist.posted ∧
    s.fetch.curDMAPnt + room ≤ s.descLen := by
  have hlt := h.fetchPnt_lt
  have hissued := h.issued_le
  have htail := h.tail
  have htlt : s.descTail < s.descLen := by
    rw [htail]
    exact slot_lt h.len_pos _
  obtain ⟨gap, hgap⟩ := Nat.le.dest hissued
  have hmod : s.descTail = (s.fetch.curDMAPnt + gap) % s.descLen := by
    rw [htail, h.fetchPnt, slot_add_left, hgap]
  unfold DescCacheGlobal.maxToFetch
  split
  · refine ⟨_, rfl, ?_, by omega⟩
    by_cases hgl : s.fetch.curDMAPnt + gap < s.descLen
    · rw [Nat.mod_eq_of_lt hgl] at hmod
      omega
    · omega
  · refine ⟨s.descLen - s.fetch.curDMAPnt, ?_, ?_, by omega⟩
    · rw [simAssert_of (decide_eq_true (by omega))]
      rfl
    · by_cases hgl : s.fetch.curDMAPnt + gap < s.descLen
      · rw [Nat.mod_eq_of_lt hgl] at hmod
        omega
      · omega

theorem fetchDescriptorsGlobal_returns (hp : Pools cfg s) :
    ∃ t, fetchDescriptorsGlobal cfg s = .ok t := by
  obtain ⟨room, hroom, _, _⟩ := h.maxToFetch
  exact ⟨_, fetchDescriptorsGlobal_eq hp.fetch_wf hroom⟩

theorem fetchDescriptorsGlobal (hp : Pools cfg s)
    (ht : fetchDescriptorsGlobal cfg s = .ok t) : OnRing t := by
  rcases fetchDescriptorsGlobal_cases hp.fetch_wf ht with
    rfl | ⟨e, k, room, he, hk, hkr, _, hroom, rfl⟩
  · exact h
  · obtain ⟨room', hroom', hposted, hend⟩ := h.maxToFetch
    rw [hroom] at hroom'
    obtain rfl := Except.ok.inj hroom'
    obtain ⟨⟨_, _, hblocks⟩, hpnt⟩ :=
      h.fetchOnRing.fetchStarted (k := k) hp.fetch_wf he h.fetchPnt (by omega)
    refine ⟨h.len_pos, h.head, h.wbPnt, h.wbFits, h.cachePnt, hblocks, hpnt, h.tail, ?_,
      h.posted_le,
      h.fetched, h.written, h.written_length⟩
    change s.hist.fetched.length + (s.fetch.curNum + k) ≤ s.hist.posted
    omega

theorem maxToWb_pos_of_wraps (hw : s.wbWraps = true) : 0 < s.maxToWb m := by
  have hlt := h.wbPnt_lt
  unfold maxToWb
  rw [if_pos hw]
  omega

theorem wbStarted_placed (hl : Lineup order s) (hle : s.wb.curNum ≤ s.usedCache.length)
    (m : BitVec 64) : Placed s.descLen ((s.noteWb m).wbStarted e (s.maxToWb m)).hist.written := by
  have hk := add_maxToWb_le h.wbPnt_lt m
  have hwait := s.maxToWb_le m
  unfold waitingWb at hwait
  have hnum : Numbered Desc.origin (s.hist.retired + s.wb.curNum)
      ((s.usedCache.drop s.wb.curNum).take (s.maxToWb m)) :=
    (hl.numbered_used.drop _ hle).take _
  have hlen : ((s.usedCache.drop s.wb.curNum).take (s.maxToWb m)).length = s.maxToWb m := by
    rw [length_take, length_drop]
    omega
  apply h.written.append
  · rw [h.written_length]
    apply Numbered.of_getElem
    intro k hk
    rw [getElem_mapIdx]
    rw [length_mapIdx] at hk
    exact hnum.getElem? (List.getElem?_eq_getElem hk)
  · intro x hx
    obtain ⟨i, hi, rfl⟩ := mem_mapIdx.mp hx
    change i < ((s.usedCache.drop s.wb.curNum).take (s.maxToWb m)).length at hi
    have ho := hnum.getElem? (List.getElem?_eq_getElem hi)
    change s.wb.curDMAPnt + i =
      (((s.usedCache.drop s.wb.curNum).take (s.maxToWb m)).get ⟨i, _⟩).origin % s.descLen
    rw [get_eq_getElem, ho, h.wbPnt]
    rw [h.wbPnt] at hk
    exact (RingIndex.slot_add (by omega)).symm

theorem writebackGlobal (hp : Pools cfg s) (hl : Lineup order s)
    (ht : writebackGlobal cfg m s = .ok t) : OnRing t := by
  have hk := add_maxToWb_le h.wbPnt_lt m
  rcases writebackGlobal_cases hp.wb_wf hp.wb_le ht with
    ⟨_, rfl⟩ | ⟨e, he, hpos, rfl⟩ | ⟨_, _, rfl⟩
  · exact h.of_same_ring rfl
  · have hlength := h.written_length
    have hwait := s.maxToWb_le m
    unfold waitingWb at hwait
    refine ⟨h.len_pos, h.head, ?_, ?_, h.cachePnt, h.blocks, h.fetchPnt, h.tail, h.issued_le,
      h.posted_le, h.fetched, h.wbStarted_placed hl hp.wb_le m, ?_⟩
    · change RingIndex.advance s.descLen s.wb.curDMAPnt (s.maxToWb m) =
        (s.hist.retired + (s.wb.curNum + s.maxToWb m)) % s.descLen
      rw [h.wbPnt, advance_slot h.len_pos (by omega), add_assoc]
    · intro x hx
      by_cases hxe : x = e
      · subst hxe
        have hc : ((s.noteWb m).wbStarted x (s.maxToWb m)).wb.count x = s.maxToWb m := by
          simp [wbStarted]
        rw [hc]
        change s.maxToWb m ≤ s.descLen
        omega
      · have hc : ((s.noteWb m).wbStarted e (s.maxToWb m)).wb.count x = s.wb.count x := by
          simp [wbStarted, noteWb, hxe]
        rw [hc]
        exact h.wbFits x (by simpa [wbStarted, noteWb, hxe] using hx)
    · simp only [wbStarted, noteWb, started, length_append, length_mapIdx, length_take, length_drop]
      omega
  · exact h.of_same_ring rfl

theorem writebackGlobal_more (hp : Pools cfg s)
    (ht : DescCacheGlobal.writebackGlobal cfg m s = .ok t) (hmore : t.moreToWb = true) :
    t.wb.jobQueue ≠ [] := by
  rcases writebackGlobal_cases hp.wb_wf hp.wb_le ht with
    ⟨hzero, rfl⟩ | ⟨e, _, _, rfl⟩ | ⟨hfull, _, rfl⟩
  · have := h.maxToWb_pos_of_wraps (m := m) hmore
    omega
  · simp [wbStarted]
  · exact hp.wb_wf.jobQueue_ne_nil_of_full cfg.descDMA_pos hfull

theorem wbDrained (hd : WbDraining cfg.numDescDMAEngines s t.wb.jobQueue t) : OnRing t := by
  obtain ⟨d, heq, hsum, hhead⟩ := hd.eq
  have hfacts : t.descLen = s.descLen ∧ t.descTail = s.descTail ∧ t.cachePnt = s.cachePnt ∧
      t.fetch = s.fetch ∧ t.hist.retired = s.hist.retired + d ∧
      t.hist.fetched = s.hist.fetched ∧ t.hist.posted = s.hist.posted ∧
      t.hist.written = s.hist.written := by
    rw [heq]
    exact ⟨rfl, rfl, rfl, rfl, rfl, rfl, rfl, rfl⟩
  obtain ⟨hlen, htail, hpnt, hfetch, hret, hfet, hpost, hwrit⟩ := hfacts
  have hsame : s.hist.retired + d + t.wb.curNum = s.hist.retired + s.wb.curNum := by omega
  have hposted := h.posted_le
  constructor
  · rw [hlen]
    exact h.len_pos
  · rw [hlen, hret]
    exact hhead h.len_pos h.wbFits h.head
  · rw [hlen, hret, hd.pnt, hsame]
    exact h.wbPnt
  · intro x hx
    rw [hlen, hd.count x hx]
    exact h.wbFits x (hd.suffix.subset hx)
  · rw [hlen, hpnt, hfet]
    exact h.cachePnt
  · rw [hlen, hfetch, hfet]
    exact h.blocks
  · rw [hlen, hfetch, hfet]
    exact h.fetchPnt
  · rw [hlen, htail, hpost]
    exact h.tail
  · rw [hfetch, hfet, hpost]
    exact h.issued_le
  · omega
  · rw [hlen, hfet]
    exact h.fetched
  · rw [hlen, hwrit]
    exact h.written
  · rw [hwrit, hret, hsame]
    exact h.written_length

theorem fetchDrained
    (hd : FetchDraining cfg.numDescDMAEngines s t.fetch.jobQueue t) : OnRing t := by
  obtain ⟨news, heq, hsum, hnum, hring⟩ := hd.eq
  obtain ⟨⟨_, hpnt, hblocks⟩, hslots⟩ := hring h.fetchOnRing
  have hfacts : t.descLen = s.descLen ∧ t.descTail = s.descTail ∧ t.descHead = s.descHead ∧
      t.wb = s.wb ∧ t.hist.retired = s.hist.retired ∧
      t.hist.fetched = s.hist.fetched ++ news ∧ t.hist.posted = s.hist.posted ∧
      t.hist.written = s.hist.written := by
    rw [heq]
    exact ⟨rfl, rfl, rfl, rfl, rfl, rfl, rfl, rfl⟩
  obtain ⟨hlen, htail, hhead, hwb, hret, hfet, hpost, hwrit⟩ := hfacts
  have hsame : t.hist.fetched.length + t.fetch.curNum =
      s.hist.fetched.length + s.fetch.curNum := by
    rw [hfet, length_append]
    omega
  constructor
  · rw [hlen]
    exact h.len_pos
  · rw [hlen, hret, hhead]
    exact h.head
  · rw [hlen, hret, hwb]
    exact h.wbPnt
  · rw [hlen, hwb]
    exact h.wbFits
  · exact hpnt
  · exact hblocks
  · rw [hsame, hlen, hd.pnt]
    exact h.fetchPnt
  · rw [hlen, htail, hpost]
    exact h.tail
  · rw [hsame, hpost]
    exact h.issued_le
  · rw [hlen, hret, hpost]
    exact h.posted_le
  · rw [hlen, hfet]
    exact h.fetched.append hnum hslots
  · rw [hlen, hwrit]
    exact h.written
  · rw [hwrit, hret, hwb]
    exact h.written_length

end

end OnRing

/-- A queue at work on its ring; `order` is the line of packet engines. -/
structure Working (cfg : Config) (order : List Nat) (s : DescCacheGlobal α π) : Prop where
  pools : Pools cfg s
  processing : Processing cfg order s
  lineup : Lineup order s
  ring : OnRing s
  more : s.moreToWb = true → s.wb.jobQueue ≠ []

namespace Working

theorem construct {len : Nat} (cfg : Config) (base : Nat) (hlen : 0 < len) :
    Working cfg [] (construct α π base len) where
  pools := construct_pools cfg base len
  processing := Processing.construct cfg base len
  lineup := Lineup.construct base len
  ring := OnRing.construct base hlen
  more := by simp

section

variable (h : Working cfg order s)
include h

theorem fetched_length : s.hist.fetched.length =
    s.hist.retired + s.usedCache.length + s.descProcessing cfg + s.unusedCache.length := by
  rw [h.processing.descProcessing_eq, ← h.processing.processed_length]
  exact h.lineup.total.symm

theorem cachePnt_eq : s.cachePnt =
    (s.descHead + s.usedCache.length + s.descProcessing cfg + s.unusedCache.length) %
      s.descLen := by
  rw [h.ring.cachePnt, h.fetched_length, h.ring.head, add_assoc, add_assoc,
    add_assoc, add_assoc, slot_add_left]

theorem fetchPnt_eq : s.fetch.curDMAPnt = (s.cachePnt + s.fetch.curNum) % s.descLen := by
  rw [h.ring.fetchPnt, h.ring.cachePnt, slot_add_left]

theorem wbPnt_eq : s.wb.curDMAPnt = (s.descHead + s.wb.curNum) % s.descLen := by
  rw [h.ring.wbPnt, h.ring.head, slot_add_left]

theorem written_of_fetched {k : Nat} {x : Nat × Desc α}
    (hx : s.hist.written[k]? = some x) : x.1 = k % s.descLen ∧ x.2.origin = k ∧
      ∃ d, s.hist.fetched[k]? = some (k % s.descLen, d) ∧ d.origin = k := by
  obtain ⟨hslot, horigin⟩ := h.ring.written.getElem? hx
  refine ⟨hslot, horigin, ?_⟩
  have hlt : k < s.hist.written.length := (List.getElem?_eq_some_iff.mp hx).1
  have hwritten := h.ring.written_length
  have hle := h.pools.wb_le
  have htotal := h.lineup.total
  obtain ⟨⟨p, d⟩, hy⟩ : ∃ y, s.hist.fetched[k]? = some y :=
    ⟨_, List.getElem?_eq_getElem (by omega)⟩
  obtain ⟨hp, hd⟩ := h.ring.fetched.getElem? hy
  simp only at hp hd
  exact ⟨d, by rw [hy, hp], hd⟩

theorem setTail {tail : Nat} (hlt : tail < s.descLen)
    (hle : s.hist.posted + RingIndex.ahead s.descLen s.descTail tail ≤
      s.hist.retired + s.descLen) : Working cfg order (s.setTail tail) where
  pools := h.pools.of_same_engines rfl rfl le_rfl
  processing := h.processing.of_same_slots rfl rfl rfl
  lineup := h.lineup.of_same_caches rfl rfl
  ring := h.ring.setTail hlt hle
  more := h.more

theorem fetchDescriptorsGlobal
    (ht : fetchDescriptorsGlobal cfg s = .ok t) : Working cfg order t := by
  refine ⟨h.pools.fetchDescriptorsGlobal ht,
    h.processing.of_frame (fetchDescriptorsGlobal_frame ht),
    h.lineup.fetchDescriptorsGlobal h.pools ht, h.ring.fetchDescriptorsGlobal h.pools ht, ?_⟩
  rcases fetchDescriptorsGlobal_cases h.pools.fetch_wf ht with
    rfl | ⟨_, _, _, _, _, _, _, _, rfl⟩ <;>
    exact h.more

theorem writebackGlobal (ht : writebackGlobal cfg m s = .ok t) : Working cfg order t :=
  ⟨h.pools.writebackGlobal ht, h.processing.of_frame (writebackGlobal_frame ht),
    h.lineup.writebackGlobal h.pools ht, h.ring.writebackGlobal h.pools h.lineup ht,
    h.ring.writebackGlobal_more h.pools ht⟩

theorem fetchComplete {data : List α} (he : s.fetch.InFlight e)
    (hdata : data.length = s.fetch.requested e) (ht : fetchComplete cfg e data s = .ok t) :
    Working cfg order t := by
  obtain ⟨hp, hd⟩ := h.pools.fetchComplete he hdata ht
  refine ⟨hp, h.processing.of_frame (fetchComplete_frame ht), h.lineup.fetchDrained hd,
    h.ring.fetchDrained hd, ?_⟩
  obtain ⟨news, heq, _⟩ := hd.eq
  rw [heq]
  exact h.more

theorem fetchComplete_returns {data : List α}
    (he : s.fetch.InFlight e) (hdata : data.length = s.fetch.requested e) :
    ∃ t, DescCacheGlobal.fetchComplete cfg e data s = .ok t :=
  DescCacheGlobal.fetchComplete_returns h.pools.fetch_wf h.pools.fetch_loaded he hdata
    h.ring.fetchOnRing

theorem wbFinish (he : s.wb.InFlight e) :
    ∃ u, wbFinish e s = .ok u ∧ Pools cfg u ∧ Processing cfg order u ∧ Lineup order u ∧
      OnRing u := by
  obtain ⟨u, hu, hp, hd⟩ := h.pools.wbFinish he
  exact ⟨u, hu, hp, h.processing.of_frame (wbFinish_frame hu), h.lineup.wbDrained h.pools hd,
    h.ring.wbDrained hd⟩

theorem writebackComplete {f : Bool} (he : s.wb.InFlight e)
    (ht : writebackComplete cfg e f s = .ok t) : Working cfg order t := by
  have hlt := h.pools.wb_wf.lt ((h.pools.wb_wf.inFlight_iff e).mp he).1
  apply writebackComplete_keeps
    (P := fun u => Pools cfg u ∧ Processing cfg order u ∧ Lineup order u ∧ OnRing u)
    hlt _ _ _ (fun _ _ hu hv => hu.fetchDescriptorsGlobal hv) ht
  · intro u hu
    obtain ⟨u', hu', hall⟩ := h.wbFinish he
    rw [hu'] at hu
    exact Except.ok.inj hu ▸ hall
  · rintro u ⟨hp, hc, hl, hr⟩ hmore
    exact ⟨hp, hc, hl, hr, by simp [hmore]⟩
  · rintro u v ⟨hp, hc, hl, hr⟩ _ hv
    exact ⟨hp.writebackGlobal hv, hc.of_frame (writebackGlobal_frame hv),
      hl.writebackGlobal hp hv, hr.writebackGlobal hp hl hv, hr.writebackGlobal_more hp hv⟩

theorem writebackComplete_returns (he : s.wb.InFlight e) (f : Bool) :
    ∃ t, DescCacheGlobal.writebackComplete cfg e f s = .ok t := by
  have hlt := h.pools.wb_wf.lt ((h.pools.wb_wf.inFlight_iff e).mp he).1
  apply DescCacheGlobal.writebackComplete_returns
    (P := fun u => Pools cfg u ∧ Lineup order u ∧ OnRing u) f hlt
  · obtain ⟨u, hu, hp, _, hl, hr⟩ := h.wbFinish he
    exact ⟨u, hu, hp, hl, hr⟩
  · rintro u ⟨hp, hl, hr⟩
    obtain ⟨v, hv⟩ := writebackGlobal_returns hp.wb_wf hp.wb_le u.wbAlignment
    exact ⟨v, hv, hp.writebackGlobal hv, hl.writebackGlobal hp hv, hr.writebackGlobal hp hl hv⟩
  · rintro _ u ⟨hp, _, hr⟩
    exact hr.fetchDescriptorsGlobal_returns hp

theorem beginProcessing {d : Desc α} {rest : List (Desc α)}
    (hlt : e < cfg.numDMAEngines) (hfree : (s.processingCache e).desc = none)
    (hu : s.unusedCache = d :: rest) : Working cfg (order ++ [e]) (s.beginProcessing e d) where
  pools := h.pools.of_same_engines rfl rfl le_rfl
  processing := h.processing.beginProcessing hlt hfree
  lineup := h.lineup.beginProcessing h.processing hfree hu
  ring := h.ring.of_same_ring rfl
  more := h.more

theorem markProcessed (he : e ∈ order) : Working cfg order (s.markProcessed e) where
  pools := h.pools.of_same_engines rfl rfl le_rfl
  processing := h.processing.markProcessed he
  lineup := h.lineup.markProcessed
  ring := h.ring.of_same_ring rfl
  more := h.more

theorem setBody (body : α) : Working cfg order (s.setBody e body) where
  pools := h.pools.of_same_engines rfl rfl le_rfl
  processing := h.processing.setBody body
  lineup := h.lineup.setBody body
  ring := h.ring.of_same_ring rfl
  more := h.more

theorem setPkt (packet : Option π) : Working cfg order (s.setPkt e packet) where
  pools := h.pools.of_same_engines rfl rfl le_rfl
  processing := h.processing.setPkt packet
  lineup := h.lineup.of_same_caches rfl rfl
  ring := h.ring.of_same_ring rfl
  more := h.more

theorem retired {front rest : List Nat}
    (hr : Retired cfg order s front rest t) : Working cfg rest t := by
  have heq := hr.eq
  refine ⟨?_, hr.processing, h.lineup.retired hr, ?_, ?_⟩
  · apply h.pools.of_same_engines
    · rw [heq]
    · rw [heq]
    · rw [heq]
      simp
  · rw [heq]
    exact h.ring.of_same_ring rfl
  · rw [heq]
    exact h.more

end

end Working

end Gem5.IGbE.DescCacheGlobal
