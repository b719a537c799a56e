import Gem5.IGbE.DescCacheRing

/-!
# What a queue does to its descriptor cache

The functions of a queue change the cache by a few moves only. `CacheMoves` collects
them: a property that is closed under the moves is kept by every such function. The
properties are proved closed one by one and combined by `CacheMoves.and`. `Steady`
holds in every run; `Lineup` and `Working` need an order in which descriptors are
used; `Supplied` follows the descriptors from the ring to the cache.
-/

namespace Gem5.IGbE.DescCacheGlobal

open Function

open List

open DescDMAPool (started fresh markDone setBuf)

variable {α π : Type} {cfg : Config} {s t : DescCacheGlobal α π} {order : List Nat} {e : Nat}

structure Steady (cfg : Config) (order : List Nat) (s : DescCacheGlobal α π) : Prop where
  pools : Pools cfg s
  processing : Processing cfg order s
  settled : ∀ i, order.head? = some i → (s.processingCache i).done = false

/-- `Q` is closed under the moves; `direct` says with which engines at work a
descriptor may be used without being processed, `arrives` which descriptors the DMA
read of an engine may deliver. -/
structure CacheMoves (cfg : Config) (direct : List Nat → Prop)
    (arrives : DescCacheGlobal α π → Nat → List α → Prop)
    (Q : List Nat → DescCacheGlobal α π → Prop) : Prop where
  beginProcessing : ∀ {order s e d rest}, Steady cfg order s → Q order s →
    e < cfg.numDMAEngines → (s.processingCache e).desc = none → s.unusedCache = d :: rest →
    Q (order ++ [e]) (s.beginProcessing e d)
  setPkt : ∀ {order s}, Q order s → ∀ e packet, Q order (s.setPkt e packet)
  setBody : ∀ {order s}, Q order s → ∀ e body, Q order (s.setBody e body)
  retire : ∀ {order s t e front rest}, Steady cfg order s → Q order s → e ∈ order →
    Retired cfg order (s.markProcessed e) front rest t →
    (∀ i, rest.head? = some i → (t.processingCache i).done = false) → Q rest t
  useDirectly : ∀ {order s d rest}, Q order s → direct order → s.unusedCache = d :: rest →
    ∀ body, Q order (s.useDirectly { d with body := body })
  writebackGlobal : ∀ {order s t m}, Steady cfg order s → Q order s →
    writebackGlobal cfg m s = .ok t → Q order t
  fetchDescriptorsGlobal : ∀ {order s t}, Steady cfg order s → Q order s →
    fetchDescriptorsGlobal cfg s = .ok t → Q order t
  fetchComplete : ∀ {order s t e data}, Steady cfg order s → Q order s → s.fetch.InFlight e →
    data.length = s.fetch.requested e → arrives s e data → fetchComplete cfg e data s = .ok t →
    Q order t
  writebackComplete : ∀ {order s t e f}, Steady cfg order s → Q order s → s.wb.InFlight e →
    writebackComplete cfg e f s = .ok t → Q order t

section
variable {direct : List Nat → Prop} {arrives : DescCacheGlobal α π → Nat → List α → Prop}
  {Q R : List Nat → DescCacheGlobal α π → Prop}

theorem CacheMoves.and (h : CacheMoves cfg direct arrives Q) (k : CacheMoves cfg direct arrives R) :
    CacheMoves cfg direct arrives fun order s => Q order s ∧ R order s where
  beginProcessing := fun hs hq hlt hfree hu =>
    ⟨h.beginProcessing hs hq.1 hlt hfree hu, k.beginProcessing hs hq.2 hlt hfree hu⟩
  setPkt := fun hq e packet => ⟨h.setPkt hq.1 e packet, k.setPkt hq.2 e packet⟩
  setBody := fun hq e body => ⟨h.setBody hq.1 e body, k.setBody hq.2 e body⟩
  retire := fun hs hq he hr hset => ⟨h.retire hs hq.1 he hr hset, k.retire hs hq.2 he hr hset⟩
  useDirectly := fun hq hd hu body =>
    ⟨h.useDirectly hq.1 hd hu body, k.useDirectly hq.2 hd hu body⟩
  writebackGlobal := fun hs hq ht => ⟨h.writebackGlobal hs hq.1 ht, k.writebackGlobal hs hq.2 ht⟩
  fetchDescriptorsGlobal := fun hs hq ht =>
    ⟨h.fetchDescriptorsGlobal hs hq.1 ht, k.fetchDescriptorsGlobal hs hq.2 ht⟩
  fetchComplete := fun hs hq he hdata harr ht =>
    ⟨h.fetchComplete hs hq.1 he hdata harr ht, k.fetchComplete hs hq.2 he hdata harr ht⟩
  writebackComplete := fun hs hq he ht =>
    ⟨h.writebackComplete hs hq.1 he ht, k.writebackComplete hs hq.2 he ht⟩

attribute [local simp] DescCacheGlobal.useDirectly

namespace Steady

theorem construct (cfg : Config) (base len : Nat) : Steady cfg [] (construct α π base len) :=
  ⟨construct_pools cfg base len, Processing.construct cfg base len, by simp⟩

section

variable (h : Steady cfg order s)
include h

theorem of_same (hp : Pools cfg t)
    (hc : (t.processingCache, t.nextSeqToWriteback, t.nextSeqToProcess) =
      (s.processingCache, s.nextSeqToWriteback, s.nextSeqToProcess)) : Steady cfg order t := by
  simp only [Prod.mk.injEq] at hc
  refine ⟨hp, h.processing.of_same_slots hc.1 hc.2.1 hc.2.2, ?_⟩
  rw [hc.1]
  exact h.settled

theorem of_frame (hp : Pools cfg t) (hf : Frame s t) : Steady cfg order t :=
  ⟨hp, h.processing.of_frame hf, by
    rw [hf.processingCache]
    exact h.settled⟩

theorem beginProcessing {d : Desc α} (hlt : e < cfg.numDMAEngines)
    (hfree : (s.processingCache e).desc = none) :
    Steady cfg (order ++ [e]) (s.beginProcessing e d) := by
  refine ⟨h.pools.of_same_engines rfl rfl le_rfl, h.processing.beginProcessing hlt hfree, ?_⟩
  intro i hi
  by_cases hie : i = e
  · simp [DescCacheGlobal.beginProcessing, hie]
  · have hhead : order.head? = some i := by
      cases order with
      | nil =>
        simp only [nil_append, List.head?_cons, Option.some.injEq] at hi
        exact absurd hi.symm hie
      | cons j rest => exact hi
    simpa [DescCacheGlobal.beginProcessing, hie] using h.settled i hhead

theorem setBody (e : Nat) (body : α) : Steady cfg order (s.setBody e body) := by
  refine ⟨h.pools.of_same_engines rfl rfl le_rfl, h.processing.setBody body, ?_⟩
  intro i hi
  by_cases hie : i = e
  · subst hie
    simpa [DescCacheGlobal.setBody] using h.settled i hi
  · simpa [DescCacheGlobal.setBody, hie] using h.settled i hi

theorem setPkt (e : Nat) (packet : Option π) : Steady cfg order (s.setPkt e packet) :=
  h.of_same (h.pools.of_same_engines rfl rfl le_rfl) rfl

theorem retire {front rest : List Nat} (hr : Retired cfg order (s.markProcessed e) front rest t)
    (hset : ∀ i, rest.head? = some i → (t.processingCache i).done = false) : Steady cfg rest t := by
  have heq := hr.eq
  refine ⟨?_, hr.processing, hset⟩
  apply h.pools.of_same_engines
  · rw [heq]
    rfl
  · rw [heq]
    rfl
  · rw [heq]
    simp [markProcessed]

end

theorem cacheMoves : CacheMoves (α := α) (π := π) cfg direct arrives (Steady cfg) where
  beginProcessing := fun _ h hlt hfree _ => h.beginProcessing hlt hfree
  setPkt := fun h e packet => h.setPkt e packet
  setBody := fun h e body => h.setBody e body
  retire := fun h _ _ hr hset => h.retire hr hset
  useDirectly := fun h _ _ _ => by
    refine h.of_same (h.pools.of_same_engines rfl rfl ?_) rfl
    simp [pushUsed]
  writebackGlobal := fun _ h ht =>
    h.of_frame (h.pools.writebackGlobal ht) (writebackGlobal_frame ht)
  fetchDescriptorsGlobal := fun _ h ht =>
    h.of_frame (h.pools.fetchDescriptorsGlobal ht) (fetchDescriptorsGlobal_frame ht)
  fetchComplete := fun _ h he hdata _ ht =>
    h.of_frame (h.pools.fetchComplete he hdata ht).1 (fetchComplete_frame ht)
  writebackComplete := fun _ h he ht =>
    h.of_frame (h.pools.writebackComplete he ht) (writebackComplete_frame ht)

theorem manageUsedCache (h : Steady cfg order s) (he : (s.processingCache e).desc.isSome = true) :
    ∃ t front rest, (s.markProcessed e).manageUsedCache cfg = .ok t ∧ e ∈ order ∧
      Retired cfg order (s.markProcessed e) front rest t ∧
      ∀ i, rest.head? = some i → (t.processingCache i).done = false := by
  have hm := (h.processing.live_iff e).mp he
  obtain ⟨t, front, rest, ht, hr, hset⟩ := manageUsedCache_spec (h.processing.markProcessed hm)
  refine ⟨t, front, rest, ht, hm, hr, ?_⟩
  intro i hi
  rw [hr.same i (mem_of_mem_head? hi)]
  exact hset i hi

end Steady

theorem CacheMoves.withSteady (h : CacheMoves cfg direct arrives Q) :
    CacheMoves cfg direct arrives fun order s => Steady cfg order s ∧ Q order s :=
  Steady.cacheMoves.and h

theorem descLen_cacheMoves (len : Nat) :
    CacheMoves (α := α) (π := π) cfg direct arrives fun _ s => s.descLen = len where
  beginProcessing := fun _ h _ _ _ => h
  setPkt := fun h _ _ => h
  setBody := fun h _ _ => h
  retire := fun _ h _ hr _ => by
    rw [hr.eq]
    exact h
  useDirectly := fun h _ _ _ => h
  writebackGlobal := fun _ h ht => (writebackGlobal_frame ht).descLen.trans h
  fetchDescriptorsGlobal := fun _ h ht => (fetchDescriptorsGlobal_frame ht).descLen.trans h
  fetchComplete := fun _ h _ _ _ ht => (fetchComplete_frame ht).descLen.trans h
  writebackComplete := fun _ h _ ht => (writebackComplete_frame ht).descLen.trans h

namespace Lineup

theorem useDirectly {d : Desc α} {rest : List (Desc α)} (h : Lineup [] s)
    (hu : s.unusedCache = d :: rest) (body : α) :
    Lineup [] (s.useDirectly { d with body := body }) := by
  have hnum := h.numbered
  have htotal := h.total
  have hlength := h.used_length
  rw [hu] at hnum htotal
  simp only [processed, filterMap_nil, append_nil] at hnum htotal
  have hunused : (s.useDirectly { d with body := body }).unusedCache = rest := by
    simp [hu]
  have hd : d.origin = s.hist.retired + s.usedCache.length :=
    (Numbered.cons_iff.mp (Numbered.append_iff.mp hnum).2).1
  refine ⟨?_, ?_, ?_, ?_⟩
  · rw [hunused]
    refine (Numbered.congr_map ?_).mp hnum
    simp [pushUsed, processed]
  · rw [hunused]
    simp only [DescCacheGlobal.useDirectly, pushUsed, processed, filterMap_nil,
      length_append, length_cons, length_nil] at htotal ⊢
    omega
  · apply Numbered.append_iff.mpr
    refine ⟨h.used, Numbered.singleton_iff.mpr ?_⟩
    change d.origin = 0 + s.hist.used.length
    omega
  · simp only [DescCacheGlobal.useDirectly, pushUsed, length_append]
    omega

theorem writebackComplete {f : Bool} (h : Lineup order s) (hp : Pools cfg s)
    (he : s.wb.InFlight e) (ht : writebackComplete cfg e f s = .ok t) : Lineup order t := by
  have hlt := hp.wb_wf.lt ((hp.wb_wf.inFlight_iff e).mp he).1
  refine And.right (writebackComplete_keeps (P := fun u => Pools cfg u ∧ Lineup order u) hlt ?_
    (fun _ hu _ => hu) (fun _ _ hu _ hv => ⟨hu.1.writebackGlobal hv, hu.2.writebackGlobal hu.1 hv⟩)
    (fun _ _ hu hv => ⟨hu.1.fetchDescriptorsGlobal hv, hu.2.fetchDescriptorsGlobal hu.1 hv⟩) ht)
  intro u hu
  obtain ⟨v, hv, hpv, hd⟩ := hp.wbFinish he
  obtain rfl := eq_of_ok hv hu
  exact ⟨hpv, h.wbDrained hp hd⟩

theorem cacheMoves (hdirect : ∀ order, direct order → order = []) :
    CacheMoves (α := α) (π := π) cfg direct arrives Lineup where
  beginProcessing := fun hs h _ hfree hu => h.beginProcessing hs.processing hfree hu
  setPkt := fun h _ _ => h.of_same_caches rfl rfl
  setBody := fun h _ body => h.setBody body
  retire := fun _ h _ hr _ => h.markProcessed.retired hr
  useDirectly := fun h hd hu body => by
    obtain rfl := hdirect _ hd
    exact h.useDirectly hu body
  writebackGlobal := fun hs h ht => h.writebackGlobal hs.pools ht
  fetchDescriptorsGlobal := fun hs h ht => h.fetchDescriptorsGlobal hs.pools ht
  fetchComplete := fun hs h he hdata _ ht => h.fetchDrained (hs.pools.fetchComplete he hdata ht).2
  writebackComplete := fun hs h he ht => h.writebackComplete hs.pools he ht

end Lineup

theorem Working.cacheMoves (hdirect : ∀ order, direct order → order = []) :
    CacheMoves (α := α) (π := π) cfg direct arrives (Working cfg) where
  beginProcessing := fun _ h hlt hfree hu => h.beginProcessing hlt hfree hu
  setPkt := fun h _ packet => h.setPkt packet
  setBody := fun h _ body => h.setBody body
  retire := fun _ h he hr _ => (h.markProcessed he).retired hr
  useDirectly := fun h hd hu body => by
    obtain rfl := hdirect _ hd
    refine ⟨h.pools.of_same_engines rfl rfl ?_, h.processing.of_same_slots rfl rfl rfl,
      h.lineup.useDirectly hu body, h.ring.of_same_ring rfl, h.more⟩
    simp [pushUsed]
  writebackGlobal := fun _ h ht => h.writebackGlobal ht
  fetchDescriptorsGlobal := fun _ h ht => h.fetchDescriptorsGlobal ht
  fetchComplete := fun _ h he hdata _ ht => h.fetchComplete he hdata ht
  writebackComplete := fun _ h he ht => h.writebackComplete he ht

theorem Steady.writebackComplete_induct {f : Bool} {Q : DescCacheGlobal α π → Prop}
    (hs : Steady cfg order s) (he : s.wb.InFlight e) (hfinish : ∀ v, wbFinish e s = .ok v → Q v)
    (hwb : ∀ u v m, Steady cfg order u → Q u → writebackGlobal cfg m u = .ok v → Q v)
    (hfetch : ∀ u v, Steady cfg order u → Q u → fetchDescriptorsGlobal cfg u = .ok v → Q v)
    (ht : writebackComplete cfg e f s = .ok t) : Q t := by
  have hlt := hs.pools.wb_wf.lt ((hs.pools.wb_wf.inFlight_iff e).mp he).1
  refine And.right (writebackComplete_keeps (P := fun u => Steady cfg order u ∧ Q u)
    hlt ?_ (fun _ hu _ => hu) ?_ ?_ ht)
  · intro u hu
    obtain ⟨v, hv, hpv, _⟩ := hs.pools.wbFinish he
    obtain rfl := eq_of_ok hv hu
    exact ⟨hs.of_frame hpv (wbFinish_frame hv), hfinish v hv⟩
  · intro u v hu _ hv
    exact ⟨hu.1.of_frame (hu.1.pools.writebackGlobal hv) (writebackGlobal_frame hv),
      hwb u v _ hu.1 hu.2 hv⟩
  · intro u v hu hv
    exact ⟨hu.1.of_frame (hu.1.pools.fetchDescriptorsGlobal hv) (fetchDescriptorsGlobal_frame hv),
      hfetch u v hu.1 hu.2 hv⟩

/-- The cache never holds more than `size` descriptors, those under way included. -/
def Within (cfg : Config) (order : List Nat) (s : DescCacheGlobal α π) : Prop :=
  s.usedCache.length + s.unusedCache.length + order.length + s.fetch.curNum ≤ cfg.size

namespace Within

theorem construct (cfg : Config) (base len : Nat) : Within cfg [] (construct α π base len) :=
  Nat.zero_le _

theorem fetchDescriptorsGlobal (h : Within cfg order s) (hs : Steady cfg order s)
    (ht : fetchDescriptorsGlobal cfg s = .ok t) : Within cfg order t := by
  rcases fetchDescriptorsGlobal_cases hs.pools.fetch_wf ht with
    rfl | ⟨e, k, room, _, _, _, hfree, _, rfl⟩
  · exact h
  · unfold Within at h ⊢
    rw [freeCache, hs.processing.descProcessing_eq] at hfree
    simp only [fetchStarted, started]
    omega

theorem retired {front rest : List Nat} (h : Within cfg order s)
    (hr : Retired cfg order s front rest t) : Within cfg rest t := by
  have hlen : (s.processed front).length ≤ front.length := length_filterMap_le _ _
  unfold Within at h ⊢
  rw [hr.eq]
  rw [hr.split, length_append] at h
  simp only [length_append]
  omega

theorem wbFinish (h : Within cfg order s) (hs : Steady cfg order s) (he : s.wb.InFlight e)
    (ht : wbFinish e s = .ok t) : Within cfg order t := by
  obtain ⟨v, hv, _, hd⟩ := hs.pools.wbFinish he
  obtain rfl := eq_of_ok hv ht
  obtain ⟨d, heq, _⟩ := hd.eq
  unfold Within at h ⊢
  rw [heq]
  simp only [wbRetired, length_drop]
  omega

theorem writebackComplete {f : Bool} (h : Within cfg order s) (hs : Steady cfg order s)
    (he : s.wb.InFlight e) (ht : writebackComplete cfg e f s = .ok t) : Within cfg order t := by
  refine hs.writebackComplete_induct he (fun _ hv => h.wbFinish hs he hv) ?_
    (fun _ _ hu h hv => h.fetchDescriptorsGlobal hu hv) ht
  intro u v m _ hu hv
  obtain ⟨_, _, _, _, rfl⟩ := writebackGlobal_shape hv
  exact hu

theorem cacheMoves : CacheMoves (α := α) (π := π) cfg direct arrives (Within cfg) where
  beginProcessing := fun _ h _ _ hu => by
    unfold Within at h ⊢
    rw [hu] at h
    simp only [DescCacheGlobal.beginProcessing, hu, tail_cons, length_append,
      length_cons, length_nil] at h ⊢
    omega
  setPkt := fun h _ _ => h
  setBody := fun h _ _ => h
  retire := fun _ h _ hr _ => retired (s := markProcessed _ _) h hr
  useDirectly := fun h _ hu _ => by
    unfold Within at h ⊢
    rw [hu] at h
    simp only [DescCacheGlobal.useDirectly, pushUsed, hu, tail_cons, length_append,
      length_cons, length_nil] at h ⊢
    omega
  writebackGlobal := fun _ h ht => by
    obtain ⟨_, _, _, _, rfl⟩ := writebackGlobal_shape ht
    exact h
  fetchDescriptorsGlobal := fun hs h ht => h.fetchDescriptorsGlobal hs ht
  fetchComplete := fun hs h he hdata _ ht => by
    obtain ⟨news, heq, hsum, _⟩ := (hs.pools.fetchComplete he hdata ht).2.eq
    unfold Within at h ⊢
    rw [heq]
    simp only [fetchArrived, length_append, length_map]
    omega
  writebackComplete := fun hs h he ht => h.writebackComplete hs he ht

end Within

/-- The descriptors that wait in the cache are the last ones fetched, in order, and
every descriptor read from slot `x` of the ring satisfies `P x`. -/
structure Supplied (P : Nat → α → Prop) (s : DescCacheGlobal α π) : Prop where
  suffix : s.unusedCache <:+ s.hist.fetched.map Prod.snd
  numbered : Numbered Desc.origin 0 (s.hist.fetched.map Prod.snd)
  fetched : ∀ x ∈ s.hist.fetched, P x.1 x.2.body
  buffered : ∀ e, s.fetch.done e = true → ∀ x b, (s.fetch.buf e)[x]? = some b →
    P ((s.fetch.baseIdx e).getD 0 + x) b

/-- The descriptors of a DMA read satisfy `P` where they were read. -/
def Arrives (P : Nat → α → Prop) (s : DescCacheGlobal α π) (e : Nat) (data : List α) : Prop :=
  ∀ x b, data[x]? = some b → P ((s.fetch.baseIdx e).getD 0 + x) b

def taken (s : DescCacheGlobal α π) : Nat := s.hist.fetched.length - s.unusedCache.length

namespace Supplied

variable {P : Nat → α → Prop}

theorem construct (P : Nat → α → Prop) (base len : Nat) : Supplied P (construct α π base len) :=
  ⟨suffix_refl _, Numbered.nil, by simp [DescCacheGlobal.construct],
    by simp [DescCacheGlobal.construct, fresh]⟩

section

variable (h : Supplied P s)
include h

theorem tail {d : Desc α} {rest : List (Desc α)}
    (hu : s.unusedCache = d :: rest) (ht : t.unusedCache = s.unusedCache.tail)
    (hc : (t.fetch, t.hist.fetched) = (s.fetch, s.hist.fetched)) : Supplied P t := by
  simp only [Prod.mk.injEq] at hc
  refine ⟨?_, ?_, ?_, ?_⟩
  · rw [ht, hc.2, hu]
    exact (suffix_cons d rest).trans (hu ▸ h.suffix)
  · rw [hc.2]
    exact h.numbered
  · rw [hc.2]
    exact h.fetched
  · rw [hc.1]
    exact h.buffered

theorem of_same
    (hc : (t.fetch, t.unusedCache, t.hist.fetched) = (s.fetch, s.unusedCache, s.hist.fetched)) :
    Supplied P t := by
  simp only [Prod.mk.injEq] at hc
  refine ⟨?_, ?_, ?_, ?_⟩
  · rw [hc.2.1, hc.2.2]
    exact h.suffix
  · rw [hc.2.2]
    exact h.numbered
  · rw [hc.2.2]
    exact h.fetched
  · rw [hc.1]
    exact h.buffered

theorem fetchStarted (e k : Nat) : Supplied P (s.fetchStarted e k) := by
  refine ⟨h.suffix, h.numbered, h.fetched, ?_⟩
  intro i hi x b hb
  by_cases hie : i = e
  · simp [DescCacheGlobal.fetchStarted, started, hie] at hi
  · simp only [DescCacheGlobal.fetchStarted, started, ne_eq, hie, not_false_eq_true,
      update_of_ne] at hi hb ⊢
    exact h.buffered i hi x b hb

theorem fetchDescriptorsGlobal (hp : Pools cfg s)
    (ht : fetchDescriptorsGlobal cfg s = .ok t) : Supplied P t := by
  rcases fetchDescriptorsGlobal_cases hp.fetch_wf ht with rfl | ⟨e, k, _, _, _, _, _, _, rfl⟩
  · exact h
  · exact h.fetchStarted e k

theorem fetchPop {j : Nat} (hj : s.fetch.done j = true)
    (ht : fetchPop j s = .ok t) : Supplied P t := by
  obtain ⟨k, _, ht⟩ := bind_eq_ok.mp ht
  obtain ⟨_, _, ht⟩ := bind_eq_ok.mp ht
  obtain ⟨_, _, rfl⟩ := map_eq_ok.mp ht
  refine ⟨?_, ?_, ?_, ?_⟩
  · obtain ⟨front, hfront⟩ := h.suffix
    refine ⟨front, ?_⟩
    simp only [fetchPopped, map_append, ← hfront, append_assoc]
  · simp only [fetchPopped, map_append]
    refine Numbered.append_iff.mpr ⟨h.numbered, ?_⟩
    rw [length_map, zero_add]
    have hnum := arrivals_numbered ((s.fetch.baseIdx j).getD 0) s.hist.fetched.length
      ((s.fetch.buf j).take k)
    unfold Numbered at hnum ⊢
    rw [map_map, length_map]
    exact hnum
  · intro x hx
    rcases mem_append.mp hx with hx | hx
    · exact h.fetched x hx
    · obtain ⟨i, hi, rfl⟩ := mem_mapIdx.mp hx
      apply h.buffered j hj
      rw [getElem_take]
      apply List.getElem?_eq_getElem
  · intro i hi x b hb
    by_cases hij : i = j
    · simp [fetchPopped, DescDMAPool.release, hij] at hi
    · simp only [fetchPopped, DescDMAPool.release, ne_eq, hij, not_false_eq_true,
        update_of_ne] at hi hb ⊢
      exact h.buffered i hi x b hb

theorem fetchLanded {data : List α} (harr : Arrives P s e data) :
    Supplied P (s.fetchLanded e data) := by
  refine ⟨h.suffix, h.numbered, h.fetched, ?_⟩
  intro i hi x b hb
  by_cases hie : i = e
  · subst hie
    simp only [DescCacheGlobal.fetchLanded, markDone, DescDMAPool.clear,
      setBuf, update_self] at hb ⊢
    exact harr x b hb
  · simp only [DescCacheGlobal.fetchLanded, markDone, DescDMAPool.clear,
      setBuf, ne_eq, hie, not_false_eq_true, update_of_ne] at hi hb ⊢
    exact h.buffered i hi x b hb

theorem fetchComplete {data : List α} (hp : Pools cfg s)
    (he : s.fetch.InFlight e) (harr : Arrives P s e data)
    (ht : fetchComplete cfg e data s = .ok t) : Supplied P t := by
  obtain ⟨hm, _⟩ := (hp.fetch_wf.inFlight_iff e).mp he
  rw [fetchComplete_eq (hp.fetch_wf.lt hm) hm] at ht
  have hlanded := h.fetchLanded harr
  split at ht
  · rename_i hfront
    obtain ⟨rest, hq⟩ := List.head?_eq_some_iff.mp hfront
    rw [hq] at ht
    have hdone : (s.fetchLanded e data).fetch.done e = true := by
      simp [DescCacheGlobal.fetchLanded, markDone]
    obtain ⟨_, hkeep, _⟩ := InOrder.drainLoop_keeps (r := fun u j => u.fetch.done j)
      (P := fun _ u => Supplied P u) (fun hu hdone hpop => hu.fetchPop hdone hpop) hlanded hdone ht
    exact hkeep
  · cases ht
    exact hlanded

theorem writebackComplete {f : Bool} (hp : Pools cfg s)
    (he : s.wb.InFlight e) (ht : writebackComplete cfg e f s = .ok t) : Supplied P t := by
  have hlt := hp.wb_wf.lt ((hp.wb_wf.inFlight_iff e).mp he).1
  refine And.right (writebackComplete_keeps (P := fun u => Pools cfg u ∧ Supplied P u) hlt ?_
    (fun _ hu _ => hu) ?_
    (fun _ _ hu hv => ⟨hu.1.fetchDescriptorsGlobal hv, hu.2.fetchDescriptorsGlobal hu.1 hv⟩) ht)
  · intro u hu
    obtain ⟨v, hv, hpv, hd⟩ := hp.wbFinish he
    obtain rfl := eq_of_ok hv hu
    obtain ⟨_, heq, _⟩ := hd.eq
    refine ⟨hpv, ?_⟩
    rw [heq]
    exact h.of_same rfl
  · intro u v hu _ hv
    refine ⟨hu.1.writebackGlobal hv, ?_⟩
    obtain ⟨_, _, _, _, rfl⟩ := writebackGlobal_shape hv
    exact hu.2.of_same rfl

end

theorem cacheMoves (harrives : ∀ s e data, arrives s e data → Arrives P s e data) :
    CacheMoves (α := α) (π := π) cfg direct arrives fun _ s => Supplied P s where
  beginProcessing := fun _ h _ _ hu => h.tail hu rfl rfl
  setPkt := fun h _ _ => h.of_same rfl
  setBody := fun h _ _ => h.of_same rfl
  retire := fun _ h _ hr _ => by
    rw [hr.eq]
    exact h.of_same rfl
  useDirectly := fun h _ hu _ => h.tail hu rfl rfl
  writebackGlobal := fun _ h ht => by
    obtain ⟨_, _, _, _, rfl⟩ := writebackGlobal_shape ht
    exact h.of_same rfl
  fetchDescriptorsGlobal := fun hs h ht => h.fetchDescriptorsGlobal hs.pools ht
  fetchComplete := fun hs h he _ harr ht => h.fetchComplete hs.pools he (harrives _ _ _ harr) ht
  writebackComplete := fun hs h he ht => h.writebackComplete hs.pools he ht

theorem length_le (h : Supplied P s) : s.unusedCache.length ≤ s.hist.fetched.length := by
  simpa using h.suffix.length_le

theorem unused_eq (h : Supplied P s) :
    s.unusedCache = (s.hist.fetched.map Prod.snd).drop s.taken := by
  have hdrop := suffix_iff_eq_drop.mp h.suffix
  rwa [length_map] at hdrop

theorem front {d : Desc α} {rest : List (Desc α)} (h : Supplied P s)
    (hu : s.unusedCache = d :: rest) :
    d.origin = s.taken ∧ ∃ slot, s.hist.fetched[s.taken]? = some (slot, d) ∧ P slot d.body := by
  have hget : (s.hist.fetched.map Prod.snd)[s.taken]? = some d := by
    have hhead := congrArg List.head? h.unused_eq
    rw [hu, List.head?_drop] at hhead
    exact hhead.symm
  refine ⟨by simpa using h.numbered.getElem? hget, ?_⟩
  rw [List.getElem?_map, Option.map_eq_some_iff] at hget
  obtain ⟨⟨slot, d'⟩, hx, rfl⟩ := hget
  exact ⟨slot, hx, h.fetched _ (mem_of_getElem? hx)⟩

end Supplied

end

structure Quiet (s t : DescCacheGlobal α π) : Prop where
  slots : t.processingCache = s.processingCache
  packets : t.processingPktArray = s.processingPktArray
  used : t.hist.used = s.hist.used
  news : ∃ news, t.hist.fetched = s.hist.fetched ++ news ∧
    t.unusedCache = s.unusedCache ++ news.map Prod.snd

namespace Quiet

theorem of_same (hc : (t.processingCache, t.processingPktArray, t.hist.used, t.hist.fetched,
      t.unusedCache) = (s.processingCache, s.processingPktArray, s.hist.used, s.hist.fetched,
      s.unusedCache)) : Quiet s t := by
  simp only [Prod.mk.injEq] at hc
  exact ⟨hc.1, hc.2.1, hc.2.2.1, [], by simpa using hc.2.2.2.1, by simpa using hc.2.2.2.2⟩

theorem trans {u : DescCacheGlobal α π} (h : Quiet s t) (k : Quiet t u) : Quiet s u := by
  obtain ⟨x, hxf, hxu⟩ := h.news
  obtain ⟨y, hyf, hyu⟩ := k.news
  refine ⟨k.slots.trans h.slots, k.packets.trans h.packets, k.used.trans h.used, x ++ y, ?_, ?_⟩
  · rw [hyf, hxf, append_assoc]
  · rw [hyu, hxu, map_append, append_assoc]

theorem setTail (s : DescCacheGlobal α π) (tail : Nat) : Quiet s (s.setTail tail) := of_same rfl

theorem writebackGlobal {m : BitVec 64} (h : writebackGlobal cfg m s = .ok t) : Quiet s t := by
  obtain ⟨_, _, _, _, rfl⟩ := writebackGlobal_shape h
  exact of_same rfl

theorem fetchDescriptorsGlobal (hp : Pools cfg s) (h : fetchDescriptorsGlobal cfg s = .ok t) :
    Quiet s t := by
  rcases fetchDescriptorsGlobal_cases hp.fetch_wf h with rfl | ⟨e, k, _, _, _, _, _, _, rfl⟩ <;>
    exact of_same rfl

theorem fetchComplete {data : List α} (hp : Pools cfg s) (he : s.fetch.InFlight e)
    (hdata : data.length = s.fetch.requested e) (h : fetchComplete cfg e data s = .ok t) :
    Quiet s t := by
  obtain ⟨news, heq, _⟩ := (hp.fetchComplete he hdata h).2.eq
  rw [heq]
  exact ⟨rfl, rfl, rfl, news, rfl, rfl⟩

theorem writebackComplete {f : Bool} (hp : Pools cfg s) (he : s.wb.InFlight e)
    (h : writebackComplete cfg e f s = .ok t) : Quiet s t := by
  have hlt := hp.wb_wf.lt ((hp.wb_wf.inFlight_iff e).mp he).1
  refine And.right (writebackComplete_keeps (P := fun u => Pools cfg u ∧ Quiet s u) hlt ?_
    (fun _ hu _ => hu)
    (fun _ _ hu _ hv => ⟨hu.1.writebackGlobal hv, hu.2.trans (writebackGlobal hv)⟩)
    (fun _ _ hu hv => ⟨hu.1.fetchDescriptorsGlobal hv, hu.2.trans (fetchDescriptorsGlobal hu.1 hv)⟩)
    h)
  intro u hu
  obtain ⟨v, hv, hpv, hd⟩ := hp.wbFinish he
  obtain rfl := eq_of_ok hv hu
  obtain ⟨_, heq, _⟩ := hd.eq
  refine ⟨hpv, ?_⟩
  rw [heq]
  exact of_same rfl

theorem taken_eq (h : Quiet s t) : t.taken = s.taken := by
  obtain ⟨news, hf, hu⟩ := h.news
  unfold taken
  rw [hf, hu, length_append, length_append, length_map]
  omega

theorem fetched {k : Nat} {x : Nat × Desc α} (h : Quiet s t) (hx : s.hist.fetched[k]? = some x) :
    t.hist.fetched[k]? = some x := by
  obtain ⟨news, hf, _⟩ := h.news
  have hk := (List.getElem?_eq_some_iff.mp hx).1
  rw [hf, List.getElem?_append_left hk, hx]

end Quiet

/-! An empty cache gets everything that has been posted with one fetch. -/

section Fill
variable (π : Type) (cfg : Config) (base len : Nat) (data : List α)

/-- The guest has posted `data`. -/
def posted : DescCacheGlobal α π := (construct α π base len).setTail data.length

def filled : DescCacheGlobal α π :=
  (((posted π base len data).fetchStarted 0 data.length).fetchLanded 0 data).fetchPopped 0
    data.length

variable {π cfg base len data} (hpos : data ≠ []) (hlen : data.length < len)

theorem posted_pools : Pools cfg (posted π base len data) :=
  (construct_pools cfg base len).of_same_engines rfl rfl le_rfl

theorem posted_findFree :
    (posted π base len data).fetch.findFree cfg.numDescDMAEngines = some 0 := by
  unfold DescDMAPool.findFree
  rw [List.find?_range_eq_some]
  exact ⟨rfl, mem_range.mpr cfg.descDMA_pos, by simp⟩

attribute [local simp] construct setTail posted

include hpos in
theorem posted_fetch (hsize : data.length ≤ cfg.size) :
    fetchDescriptorsGlobal cfg (posted π base len data) =
      .ok ((posted π base len data).fetchStarted 0 data.length) := by
  have hroom : (posted π base len data).maxToFetch = .ok data.length := by
    simp [maxToFetch, fresh]
  have hfree : (posted π base len data).freeCache cfg = cfg.size := by
    simp [freeCache, descProcessing, fresh]
  have hmin : min data.length cfg.size = data.length := Nat.min_eq_left hsize
  have hne : data.length ≠ 0 := fun h => hpos (eq_nil_of_length_eq_zero h)
  rw [fetchDescriptorsGlobal_eq posted_pools.fetch_wf hroom, hfree, hmin, if_neg hne,
    posted_findFree]

attribute [local simp] fetchStarted

theorem posted_inFlight : ((posted π base len data).fetchStarted 0 data.length).fetch.requested 0 =
    data.length := by
  simp [started, DescDMAPool.requested]

include hlen in
theorem filled_eq : fetchComplete cfg 0 data ((posted π base len data).fetchStarted 0 data.length) =
      .ok (filled π base len data) := by
  rw [fetchComplete_eq cfg.descDMA_pos (by simp [started])]
  have hqueue : ((posted π base len data).fetchStarted 0 data.length).fetch.jobQueue = [0] := rfl
  rw [hqueue, List.head?_cons, if_pos rfl]
  have hpop :
      fetchPop 0 (((posted π base len data).fetchStarted 0 data.length).fetchLanded 0 data) =
      .ok (filled π base len data) := by
    simp [fetchPop, filled, fetchLanded, started, markDone, DescDMAPool.clear, setBuf, fresh,
      simAssert, le_of_lt hlen]
  exact InOrder.drainLoop_cons hpop

theorem filled_unused : (filled π base len data).unusedCache = data.mapIdx fun x b => ⟨x, b⟩ := by
  apply ext_getElem
  · simp [filled, fetchPopped, fetchLanded, markDone, DescDMAPool.clear, setBuf, arrivals]
  · intro k h₁ h₂
    simp [filled, fetchPopped, fetchLanded, markDone, DescDMAPool.clear, setBuf, arrivals]

end Fill

end Gem5.IGbE.DescCacheGlobal
