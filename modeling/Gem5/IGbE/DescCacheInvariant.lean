import Gem5.IGbE.DescCacheSteps

/-!
# Invariants of a descriptor cache

`Pools` relates the two sets of descriptor engines to their queues, `Processing`
the packet engines to the sequence numbers they work on. Neither mentions the
ring. `Lineup` says that the three caches hold consecutive descriptors, and
`OnRing` ties the pointers of the cache to the ring the guest posts to.
-/

namespace Gem5.IGbE.DescCacheGlobal

open List Nat

variable {α π : Type} {cfg : Config} {s t u : DescCacheGlobal α π} {e : Nat} {m : BitVec 64}
  {order : List Nat}

structure Pools (cfg : Config) (s : DescCacheGlobal α π) : Prop where
  fetch_wf : s.fetch.WF cfg.numDescDMAEngines
  fetch_settled : s.fetch.Settled
  fetch_loaded : Loaded s.fetch
  wb_wf : s.wb.WF cfg.numDescDMAEngines
  wb_settled : s.wb.Settled
  wb_le : s.wb.curNum ≤ s.usedCache.length

structure Untouched (α π : Type) where
  descBase : Nat
  descTail : Nat
  descLen : Nat
  nextSeqToWriteback : Nat
  nextSeqToProcess : Nat
  processingCache : Nat → ProcessingCacheEntry α
  processingPktArray : Nat → Option π
  curFetching : Nat
  wbOut : Nat
  used : List (Desc α)
  posted : Nat

def untouched (s : DescCacheGlobal α π) : Untouched α π :=
  ⟨s.descBase, s.descTail, s.descLen, s.nextSeqToWriteback, s.nextSeqToProcess,
    s.processingCache, s.processingPktArray, s.curFetching, s.wbOut, s.hist.used, s.hist.posted⟩

def Frame (s t : DescCacheGlobal α π) : Prop := t.untouched = s.untouched

namespace Frame

theorem refl (s : DescCacheGlobal α π) : Frame s s := rfl

theorem trans (h : Frame s t) (k : Frame t u) : Frame s u := Eq.trans k h

theorem descLen (h : Frame s t) : t.descLen = s.descLen := congrArg Untouched.descLen h

theorem processingCache (h : Frame s t) : t.processingCache = s.processingCache :=
  congrArg Untouched.processingCache h

theorem processingPktArray (h : Frame s t) : t.processingPktArray = s.processingPktArray :=
  congrArg Untouched.processingPktArray h

end Frame

/-! Whatever an operation of the queues finds, it leaves the rest of the state alone. -/

theorem fetchDescriptorsGlobal_frame (h : fetchDescriptorsGlobal cfg s = .ok t) : Frame s t := by
  obtain ⟨room, _, h⟩ := bind_eq_ok.mp h
  dsimp only at h
  split at h
  · exact Except.ok.inj h ▸ Frame.refl s
  · obtain ⟨free, _, h⟩ := bind_eq_ok.mp h
    cases free with
    | false => exact Except.ok.inj h ▸ Frame.refl s
    | true =>
      obtain ⟨found, _, h⟩ := bind_eq_ok.mp h
      obtain ⟨e, _, h⟩ := bind_eq_ok.mp h
      obtain ⟨_, _, h⟩ := bind_eq_ok.mp h
      exact Except.ok.inj h ▸ rfl

theorem writebackGlobal_shape (h : writebackGlobal cfg m s = .ok t) :
    ∃ wb more align written, t = { s with
      wb := wb, moreToWb := more, wbAlignment := align
      hist := { s.hist with written := written } } := by
  obtain ⟨_, _, h⟩ := bind_eq_ok.mp h
  dsimp only at h
  split at h
  · exact ⟨_, _, _, _, eq_of_ok h rfl⟩
  · obtain ⟨free, _, h⟩ := bind_eq_ok.mp h
    cases free with
    | false => exact ⟨_, _, _, _, eq_of_ok h rfl⟩
    | true =>
      obtain ⟨found, _, h⟩ := bind_eq_ok.mp h
      obtain ⟨e, _, h⟩ := bind_eq_ok.mp h
      obtain ⟨_, _, h⟩ := bind_eq_ok.mp h
      obtain ⟨_, _, h⟩ := bind_eq_ok.mp h
      exact ⟨_, _, _, _, eq_of_ok h rfl⟩

theorem writebackGlobal_frame (h : writebackGlobal cfg m s = .ok t) : Frame s t := by
  obtain ⟨_, _, _, _, rfl⟩ := writebackGlobal_shape h
  rfl

theorem wbPop_frame (h : wbPop e s = .ok t) : Frame s t := by
  obtain ⟨k, _, h⟩ := bind_eq_ok.mp h
  obtain ⟨_, _, h⟩ := bind_eq_ok.mp h
  obtain ⟨_, _, h⟩ := bind_eq_ok.mp h
  exact Except.ok.inj h ▸ rfl

theorem fetchPop_frame (h : fetchPop e s = .ok t) : Frame s t := by
  obtain ⟨k, _, h⟩ := bind_eq_ok.mp h
  obtain ⟨_, _, h⟩ := bind_eq_ok.mp h
  obtain ⟨_, _, h⟩ := bind_eq_ok.mp h
  exact Except.ok.inj h ▸ rfl

theorem drainLoop_frame {pop : Nat → DescCacheGlobal α π → Sim (DescCacheGlobal α π)}
    {ready : DescCacheGlobal α π → Nat → Bool} {jobs : List Nat}
    (hpop : ∀ {j u v}, pop j u = .ok v → Frame u v)
    (h : InOrder.drainLoop pop ready jobs s = .ok t) : Frame s t :=
  InOrder.drainLoop_invariant (P := Frame s) (fun hu hv => hu.trans (hpop hv)) (Frame.refl s) h

theorem wbFinish_frame (h : wbFinish e s = .ok t) : Frame s t := by
  have hmarked : Frame s { s with wb := (s.wb.clear e).markDone e } := rfl
  obtain ⟨_, _, h⟩ := bind_eq_ok.mp h
  split at h
  · exact hmarked.trans (drainLoop_frame wbPop_frame h)
  · exact Except.ok.inj h ▸ hmarked

theorem writebackComplete_frame {f : Bool} (h : writebackComplete cfg e f s = .ok t) :
    Frame s t := by
  have he : e < cfg.numDescDMAEngines := by
    obtain ⟨_, he, _⟩ := bind_eq_ok.mp h
    exact of_decide_eq_true (simAssert_eq_ok.mp he)
  exact writebackComplete_keeps (P := Frame s) he (fun _ hu => wbFinish_frame hu)
    (fun _ hu _ => hu) (fun _ _ hu _ hv => hu.trans (writebackGlobal_frame hv))
    (fun _ _ hu hv => hu.trans (fetchDescriptorsGlobal_frame hv)) h

theorem fetchComplete_frame {data : List α} (h : fetchComplete cfg e data s = .ok t) :
    Frame s t := by
  have hlanded : Frame s (s.fetchLanded e data) := rfl
  obtain ⟨_, _, h⟩ := bind_eq_ok.mp h
  obtain ⟨_, _, h⟩ := bind_eq_ok.mp h
  split at h
  · exact hlanded.trans (drainLoop_frame fetchPop_frame h)
  · exact Except.ok.inj h ▸ hlanded

attribute [local simp] DescDMAPool.fresh

theorem construct_pools (cfg : Config) (base len : Nat) : Pools cfg (construct α π base len) where
  fetch_wf := DescDMAPool.fresh_wf _
  fetch_settled := DescDMAPool.fresh_settled
  fetch_loaded := by simp [Loaded, construct]
  wb_wf := DescDMAPool.fresh_wf _
  wb_settled := DescDMAPool.fresh_settled
  wb_le := zero_le _

theorem started_loaded {p : DescDMAPool α} {base len k : Nat} (h : Loaded p) :
    Loaded (p.started base len e k []) := by
  intro x hx
  by_cases hxe : x = e
  · simp [DescDMAPool.started, hxe] at hx
  · have hd : p.done x = true := by simpa [DescDMAPool.started, hxe] using hx
    simpa [DescDMAPool.started, DescDMAPool.count, hxe] using h x hd

namespace Pools

section

variable (h : Pools cfg s)
include h

theorem of_same_engines (hf : t.fetch = s.fetch) (hw : t.wb = s.wb)
    (hu : s.usedCache.length ≤ t.usedCache.length) : Pools cfg t where
  fetch_wf := hf ▸ h.fetch_wf
  fetch_settled := hf ▸ h.fetch_settled
  fetch_loaded := hf ▸ h.fetch_loaded
  wb_wf := hw ▸ h.wb_wf
  wb_settled := hw ▸ h.wb_settled
  wb_le := by
    rw [hw]
    exact le_trans h.wb_le hu

theorem fetchStarted {k : Nat} (he : s.fetch.findFree cfg.numDescDMAEngines = some e) (hk : 0 < k) :
    Pools cfg (s.fetchStarted e k) := by
  obtain ⟨hn, hw⟩ := DescDMAPool.findFree_some he
  exact ⟨h.fetch_wf.started_wf hn hw hk _ _ _, DescDMAPool.WF.started_settled h.fetch_settled _ _ _,
    started_loaded h.fetch_loaded, h.wb_wf, h.wb_settled, h.wb_le⟩

theorem fetchDescriptorsGlobal (ht : fetchDescriptorsGlobal cfg s = .ok t) : Pools cfg t := by
  rcases fetchDescriptorsGlobal_cases h.fetch_wf ht with rfl | ⟨e, k, _, he, hk, _, _, _, rfl⟩
  · exact h
  · exact h.fetchStarted he hk

theorem wbStarted {k : Nat}
    (he : s.wb.findFree cfg.numDescDMAEngines = some e) (hk : 0 < k) (hle : k ≤ s.waitingWb) :
    Pools cfg ((s.noteWb m).wbStarted e k) := by
  obtain ⟨hn, hw⟩ := DescDMAPool.findFree_some he
  refine ⟨h.fetch_wf, h.fetch_settled, h.fetch_loaded, h.wb_wf.started_wf hn hw hk _ _ _,
    DescDMAPool.WF.started_settled h.wb_settled _ _ _, ?_⟩
  unfold waitingWb at hle
  change s.wb.curNum + k ≤ s.usedCache.length
  omega

theorem writebackGlobal (ht : writebackGlobal cfg m s = .ok t) : Pools cfg t := by
  rcases writebackGlobal_cases h.wb_wf h.wb_le ht with ⟨_, rfl⟩ | ⟨e, he, hk, rfl⟩ | ⟨_, _, rfl⟩
  · exact h.of_same_engines rfl rfl le_rfl
  · exact h.wbStarted he hk (maxToWb_le s m)
  · exact h.of_same_engines rfl rfl le_rfl

theorem wbFinish (he : s.wb.InFlight e) : ∃ t, wbFinish e s = .ok t ∧ Pools cfg t ∧
      WbDraining cfg.numDescDMAEngines s t.wb.jobQueue t := by
  obtain ⟨t, ht, hsettled, hdrain⟩ := wbFinish_spec h.wb_wf h.wb_settled h.wb_le he
  obtain ⟨d, heq, hsum, _⟩ := hdrain.eq
  have hused : t.usedCache = s.usedCache.drop d := by rw [heq]; rfl
  have hfetch : t.fetch = s.fetch := by rw [heq]; rfl
  have hle := h.wb_le
  refine ⟨t, ht, ⟨hfetch ▸ h.fetch_wf, hfetch ▸ h.fetch_settled, hfetch ▸ h.fetch_loaded,
    hdrain.wf, hsettled, ?_⟩, hdrain⟩
  rw [hused, length_drop]
  omega

theorem writebackComplete {f : Bool} (he : s.wb.InFlight e)
    (ht : writebackComplete cfg e f s = .ok t) : Pools cfg t := by
  have hlt := h.wb_wf.lt ((h.wb_wf.inFlight_iff e).mp he).1
  apply writebackComplete_keeps (P := Pools cfg) hlt _ (fun _ hu _ => hu)
    (fun _ _ hu _ hv => hu.writebackGlobal hv) (fun _ _ hu hv => hu.fetchDescriptorsGlobal hv) ht
  intro u hu
  obtain ⟨u', hu', hp, _⟩ := h.wbFinish he
  rw [hu'] at hu
  exact Except.ok.inj hu ▸ hp

theorem fetchComplete {data : List α} (he : s.fetch.InFlight e)
    (hdata : data.length = s.fetch.requested e) (ht : fetchComplete cfg e data s = .ok t) :
    Pools cfg t ∧ FetchDraining cfg.numDescDMAEngines s t.fetch.jobQueue t := by
  obtain ⟨hsettled, hdrain⟩ :=
    fetchComplete_spec h.fetch_wf h.fetch_settled h.fetch_loaded he hdata ht
  obtain ⟨news, heq, _⟩ := hdrain.eq
  have hwb : t.wb = s.wb := by rw [heq]; rfl
  have hused : t.usedCache = s.usedCache := by rw [heq]; rfl
  refine ⟨⟨hdrain.wf, hsettled, hdrain.loaded, hwb ▸ h.wb_wf, hwb ▸ h.wb_settled, ?_⟩, hdrain⟩
  rw [hwb, hused]
  exact h.wb_le

theorem writeRegister (r : AreaRegister) (val : BitVec 32) : Pools cfg (s.writeRegister r val) := by
  cases r with
  | bal | bah | len | head => exact h.of_same_engines rfl rfl le_rfl

theorem reset (hf : ∀ e < cfg.numDescDMAEngines, ¬ s.fetch.InFlight e)
    (hw : ∀ e < cfg.numDescDMAEngines, ¬ s.wb.InFlight e) : Pools cfg s.reset where
  fetch_wf := DescDMAPool.WF.reset_wf (h.fetch_wf.engine_idle_of_quiet hf)
  fetch_settled := by simp [DescDMAPool.Settled, DescCacheGlobal.reset, DescDMAPool.reset]
  fetch_loaded := by simp [Loaded, DescCacheGlobal.reset, DescDMAPool.reset]
  wb_wf := DescDMAPool.WF.reset_wf (h.wb_wf.engine_idle_of_quiet hw)
  wb_settled := by simp [DescDMAPool.Settled, DescCacheGlobal.reset, DescDMAPool.reset]
  wb_le := zero_le _

end

end Pools

/-- The descriptors of the packet engines listed in `order`. -/
def processed (s : DescCacheGlobal α π) (order : List Nat) : List (Desc α) :=
  order.filterMap fun i => (s.processingCache i).desc

/-- `order` lists the packet engines that hold a descriptor, oldest sequence number first. -/
structure Processing (cfg : Config) (order : List Nat) (s : DescCacheGlobal α π) : Prop where
  lt : ∀ i ∈ order, i < cfg.numDMAEngines
  nodup : order.Nodup
  live_iff : ∀ i, (s.processingCache i).desc.isSome = true ↔ i ∈ order
  done_mem : ∀ i, (s.processingCache i).done = true → i ∈ order
  first_lt : s.nextSeqToWriteback < seqModulus
  seq : ∀ k i, order[k]? = some i →
    (s.processingCache i).seqIdx = (s.nextSeqToWriteback + k) % seqModulus
  next : s.nextSeqToProcess = (s.nextSeqToWriteback + order.length) % seqModulus

namespace Processing

section

variable (h : Processing cfg order s)
include h

theorem of_same_slots (hc : t.processingCache = s.processingCache)
    (hw : t.nextSeqToWriteback = s.nextSeqToWriteback)
    (hp : t.nextSeqToProcess = s.nextSeqToProcess) : Processing cfg order t where
  lt := h.lt
  nodup := h.nodup
  live_iff := hc ▸ h.live_iff
  done_mem := hc ▸ h.done_mem
  first_lt := hw ▸ h.first_lt
  seq := by
    rw [hc, hw]
    exact h.seq
  next := by
    rw [hp, hw]
    exact h.next

theorem of_frame (hf : Frame s t) : Processing cfg order t :=
  h.of_same_slots hf.processingCache (congrArg Untouched.nextSeqToWriteback hf)
    (congrArg Untouched.nextSeqToProcess hf)

theorem length_le : order.length ≤ cfg.numDMAEngines := by
  have hsub : order ⊆ List.range cfg.numDMAEngines := fun i hi => mem_range.mpr (h.lt i hi)
  simpa using (subperm_of_subset h.nodup hsub).length_le

theorem length_lt_modulus : order.length < seqModulus := by
  have hle := le_trans h.length_le cfg.dma_le
  unfold maxDMAEngineSize at hle
  unfold seqModulus
  omega

theorem descProcessing_eq : s.descProcessing cfg = order.length := by
  have hperm : ((List.range cfg.numDMAEngines).filter
      fun i => (s.processingCache i).desc.isSome).Perm order := by
    apply (perm_ext_iff_of_nodup (nodup_range.filter _) h.nodup).mpr
    intro i
    rw [mem_filter, mem_range, h.live_iff]
    exact ⟨fun hi => hi.2, fun hi => ⟨h.lt i hi, hi⟩⟩
  exact hperm.length_eq

theorem processed_length : (s.processed order).length = order.length := by
  unfold processed
  rw [length_filterMap_eq_countP, countP_eq_length]
  intro i hi
  exact (h.live_iff i).mpr hi

end

theorem construct (cfg : Config) (base len : Nat) : Processing cfg [] (construct α π base len) where
  lt := by simp
  nodup := nodup_nil
  live_iff := by simp [DescCacheGlobal.construct]
  done_mem := by simp [DescCacheGlobal.construct]
  first_lt := by simp [DescCacheGlobal.construct, seqModulus]
  seq := by simp
  next := rfl

section

variable (h : Processing cfg order s)
include h

attribute [local simp] DescCacheGlobal.beginProcessing

theorem beginProcessing {d : Desc α} (hlt : e < cfg.numDMAEngines)
    (hfree : (s.processingCache e).desc = none) :
    Processing cfg (order ++ [e]) (s.beginProcessing e d) := by
  have hnot : e ∉ order := by
    rw [← h.live_iff, hfree]
    simp
  have hne : ∀ i ∈ order, i ≠ e := fun i hi hie => hnot (hie ▸ hi)
  constructor
  · intro i hi
    rcases mem_append.mp hi with hi | hi
    · exact h.lt i hi
    · rw [mem_singleton.mp hi]
      exact hlt
  · apply nodup_append.mpr
    refine ⟨h.nodup, nodup_singleton e, ?_⟩
    intro i hi j hj
    rw [mem_singleton.mp hj]
    exact hne i hi
  · intro i
    by_cases hie : i = e
    · simp [hie]
    · simp [hie, h.live_iff i]
  · intro i hi
    by_cases hie : i = e
    · simp [hie]
    · exact mem_append_left _
        (h.done_mem i (by simpa [hie] using hi))
  · exact h.first_lt
  · intro k i hk
    by_cases hlen : k < order.length
    · rw [List.getElem?_append_left hlen] at hk
      have hie := hne i (mem_of_getElem? hk)
      simpa [hie] using h.seq k i hk
    · rw [List.getElem?_append_right (by omega)] at hk
      obtain ⟨hk0, rfl⟩ : k - order.length = 0 ∧ e = i := by
        cases hj : k - order.length with
        | zero => simpa [hj] using hk
        | succ j => simp [hj] at hk
      have hkl : k = order.length := by omega
      simpa [hkl] using h.next
  · have hnext := h.next
    simp only [DescCacheGlobal.beginProcessing, length_append, length_singleton]
    rw [hnext, mod_add_mod, add_assoc]

theorem markProcessed (hm : e ∈ order) : Processing cfg order (s.markProcessed e) where
  lt := h.lt
  nodup := h.nodup
  live_iff := by
    intro i
    rw [← h.live_iff]
    by_cases hie : i = e <;> simp [DescCacheGlobal.markProcessed, hie]
  done_mem := by
    intro i hi
    by_cases hie : i = e
    · rw [hie]
      exact hm
    · exact h.done_mem i (by simpa [DescCacheGlobal.markProcessed, hie] using hi)
  first_lt := h.first_lt
  seq := by
    intro k i hk
    refine Eq.trans ?_ (h.seq k i hk)
    by_cases hie : i = e <;> simp [DescCacheGlobal.markProcessed, hie]
  next := h.next

theorem setBody (body : α) : Processing cfg order (s.setBody e body) where
  lt := h.lt
  nodup := h.nodup
  live_iff := by
    intro i
    rw [← h.live_iff]
    by_cases hie : i = e <;> simp [DescCacheGlobal.setBody, hie]
  done_mem := by
    intro i hi
    apply h.done_mem
    by_cases hie : i = e <;> simpa [DescCacheGlobal.setBody, hie] using hi
  first_lt := h.first_lt
  seq := by
    intro k i hk
    refine Eq.trans ?_ (h.seq k i hk)
    by_cases hie : i = e <;> simp [DescCacheGlobal.setBody, hie]
  next := h.next

theorem setPkt (packet : Option π) :
    Processing cfg order (s.setPkt e packet) := h.of_same_slots rfl rfl rfl

theorem eq_head_of_seq (hm : e ∈ order)
    (hseq : (s.processingCache e).seqIdx = s.nextSeqToWriteback) : order.head? = some e := by
  obtain ⟨k, hk⟩ := mem_iff_getElem?.mp hm
  have hlen : k < order.length := (List.getElem?_eq_some_iff.mp hk).1
  have hk0 := h.seq k e hk
  have hmod := h.length_lt_modulus
  have hfirst := h.first_lt
  cases k with
  | zero => simpa [List.head?_eq_getElem?] using hk
  | succ k =>
    unfold seqModulus at hk0 hmod hfirst
    omega

end

theorem seq_head {rest : List Nat} (h : Processing cfg (e :: rest) s) :
    (s.processingCache e).seqIdx = s.nextSeqToWriteback := by
  rw [h.seq 0 e rfl, add_zero, mod_eq_of_lt h.first_lt]

end Processing

/-- Descriptor `d` of packet engine `i` becomes used. -/
def retireOne (s : DescCacheGlobal α π) (i : Nat) (d : Desc α) : DescCacheGlobal α π :=
  { s.pushUsed d with
    processingCache := Function.update s.processingCache i ⟨none, 0, false⟩
    nextSeqToWriteback := (s.nextSeqToWriteback + 1) % seqModulus }

theorem retireNext_eq (h : Processing cfg order s) : (retireNext cfg s = .ok none ∧
      ∀ i, order.head? = some i → (s.processingCache i).done = false) ∨
    ∃ i rest d, order = i :: rest ∧ (s.processingCache i).desc = some d ∧
      (s.processingCache i).done = true ∧ retireNext cfg s = .ok (some (s.retireOne i d)) := by
  unfold retireNext
  split
  · rename_i hnone
    refine .inl ⟨rfl, ?_⟩
    intro i hi
    obtain ⟨rest, rfl⟩ := List.head?_eq_some_iff.mp hi
    have hscan := List.find?_eq_none.mp hnone i
      (mem_range.mpr (h.lt i mem_cons_self))
    simpa [h.seq_head] using hscan
  · rename_i i hsome
    right
    have hfound := List.find?_some hsome
    simp only [Bool.and_eq_true, beq_iff_eq] at hfound
    have hm := h.done_mem i hfound.1
    obtain ⟨rest, rfl⟩ := List.head?_eq_some_iff.mp (h.eq_head_of_seq hm hfound.2)
    obtain ⟨d, hd⟩ := Option.isSome_iff_exists.mp ((h.live_iff i).mpr hm)
    refine ⟨i, rest, d, rfl, hd, hfound.1, ?_⟩
    rw [hd]
    rfl

theorem manageUsedCache_shape (h : manageUsedCache cfg s = .ok t) :
    ∃ used slots next log, (∀ i, slots i = s.processingCache i ∨ slots i = ⟨none, 0, false⟩) ∧
      t = { s with
        usedCache := used, processingCache := slots, nextSeqToWriteback := next
        hist := { s.hist with used := log } } := by
  refine InOrder.exhaust_invariant (P := fun u : DescCacheGlobal α π =>
    ∃ used slots next log, (∀ i, slots i = s.processingCache i ∨ slots i = ⟨none, 0, false⟩) ∧
      u = { s with
        usedCache := used, processingCache := slots, nextSeqToWriteback := next
        hist := { s.hist with used := log } }) ?_ ⟨_, _, _, _, fun _ => Or.inl rfl, rfl⟩ h
  rintro u v ⟨used, slots, next, log, hslots, rfl⟩ hv
  unfold retireNext at hv
  split at hv
  · cases hv
  · rename_i i _
    obtain ⟨d, _, hv⟩ := bind_eq_ok.mp hv
    obtain rfl := Option.some.inj (Except.ok.inj hv)
    refine ⟨_, _, _, _, ?_, rfl⟩
    intro j
    by_cases hji : j = i
    · right
      simp [hji]
    · simpa [hji] using hslots j

theorem manageUsedCache_frame (h : manageUsedCache cfg s = .ok t) :
    (t.fetch, t.wb, t.processingPktArray, t.curFetching, t.wbOut) =
      (s.fetch, s.wb, s.processingPktArray, s.curFetching, s.wbOut) ∧
    s.usedCache.length ≤ t.usedCache.length := by
  refine InOrder.exhaust_invariant (P := fun u : DescCacheGlobal α π =>
    (u.fetch, u.wb, u.processingPktArray, u.curFetching, u.wbOut) =
      (s.fetch, s.wb, s.processingPktArray, s.curFetching, s.wbOut) ∧
    s.usedCache.length ≤ u.usedCache.length) ?_ ⟨rfl, le_rfl⟩ h
  rintro u v ⟨hu, hlen⟩ hv
  unfold retireNext at hv
  split at hv
  · cases hv
  · obtain ⟨d, _, hv⟩ := bind_eq_ok.mp hv
    obtain rfl := Option.some.inj (Except.ok.inj hv)
    refine ⟨hu, le_trans hlen ?_⟩
    simp [pushUsed]

attribute [local simp] DescCacheGlobal.retireOne

theorem Processing.retireOne {i : Nat} {rest : List Nat} (h : Processing cfg (i :: rest) s)
    (d : Desc α) : Processing cfg rest (s.retireOne i d) := by
  obtain ⟨hnot, hnodup⟩ := nodup_cons.mp h.nodup
  have hne : ∀ j ∈ rest, j ≠ i := fun j hj hji => hnot (hji ▸ hj)
  constructor
  · exact fun j hj => h.lt j (mem_cons_of_mem i hj)
  · exact hnodup
  · intro j
    by_cases hji : j = i
    · simp [hji, hnot]
    · simp [hji, h.live_iff j]
  · intro j hj
    by_cases hji : j = i
    · simp [hji] at hj
    · have hm := h.done_mem j (by simpa [hji] using hj)
      simpa [hji] using hm
  · exact mod_lt _ (by simp [seqModulus])
  · intro k j hk
    have hji := hne j (mem_of_getElem? hk)
    have hseq := h.seq (k + 1) j (by simpa using hk)
    simp only [DescCacheGlobal.retireOne, Function.update_of_ne hji]
    rw [hseq, mod_add_mod]
    congr 1
    omega
  · have hnext := h.next
    simp only [DescCacheGlobal.retireOne, pushUsed]
    rw [hnext, mod_add_mod, length_cons]
    congr 1
    omega

/-- `front` has been moved from the packet engines to the used cache. -/
structure Retired (cfg : Config) (order : List Nat) (s : DescCacheGlobal α π)
    (front rest : List Nat) (t : DescCacheGlobal α π) : Prop where
  split : order = front ++ rest
  processing : Processing cfg rest t
  done : ∀ i ∈ front, (s.processingCache i).done = true
  same : ∀ i ∈ rest, t.processingCache i = s.processingCache i
  eq : t = { s with
    usedCache := s.usedCache ++ s.processed front
    processingCache := t.processingCache
    nextSeqToWriteback := t.nextSeqToWriteback
    hist := { s.hist with used := s.hist.used ++ s.processed front } }

theorem Retired.refl (h : Processing cfg order s) : Retired cfg order s [] order s :=
  ⟨rfl, h, by simp, fun _ _ => rfl, by simp [processed]⟩

theorem Retired.step {front rest : List Nat} {i : Nat} {d : Desc α}
    (h : Retired cfg order s front (i :: rest) t) (hd : (t.processingCache i).desc = some d)
    (hdone : (t.processingCache i).done = true) :
    Retired cfg order s (front ++ [i]) rest (t.retireOne i d) := by
  have hds : (s.processingCache i).desc = some d := by
    rw [← h.same i mem_cons_self]
    exact hd
  have hfront : s.processed (front ++ [i]) = s.processed front ++ [d] := by
    simp [processed, hds]
  refine ⟨by simp [h.split], h.processing.retireOne d, ?_, ?_, ?_⟩
  · intro j hj
    rcases mem_append.mp hj with hj | hj
    · exact h.done j hj
    · rw [mem_singleton.mp hj, ← h.same i mem_cons_self]
      exact hdone
  · intro j hj
    have hji : j ≠ i := fun hji =>
      (nodup_cons.mp h.processing.nodup).1 (hji ▸ hj)
    rw [← h.same j (mem_cons_of_mem i hj)]
    simp [hji]
  · rw [hfront]
    have heq := h.eq
    generalize t.processingCache = c at *
    generalize t.nextSeqToWriteback = w at *
    subst heq
    simp [pushUsed]

theorem Retired.slot {front rest : List Nat} (hp : Processing cfg order s)
    (h : Retired cfg order s front rest t) (i : Nat) :
    t.processingCache i = s.processingCache i ∨ ((t.processingCache i).desc = none ∧
      ((s.processingCache i).desc = none ∨ (s.processingCache i).done = true)) := by
  by_cases hrest : i ∈ rest
  · exact .inl (h.same i hrest)
  · right
    have hnone : ∀ {order : List Nat} {u : DescCacheGlobal α π}, Processing cfg order u →
        i ∉ order → (u.processingCache i).desc = none := by
      intro order u hu hi
      rw [← hu.live_iff] at hi
      simpa using hi
    refine ⟨hnone h.processing hrest, ?_⟩
    by_cases hfront : i ∈ front
    · exact .inr (h.done i hfront)
    · refine .inl (hnone hp ?_)
      rw [h.split, mem_append]
      exact not_or_intro hfront hrest

theorem manageUsedCache_spec (h : Processing cfg order s) :
    ∃ t front rest, manageUsedCache cfg s = .ok t ∧ Retired cfg order s front rest t ∧
      ∀ i, rest.head? = some i → (s.processingCache i).done = false := by
  have hgo : ∀ {u : DescCacheGlobal α π}, (∃ front rest, Retired cfg order s front rest u) →
      retireNext cfg u = .ok none ∨ ∃ v, retireNext cfg u = .ok (some v) ∧
        (∃ front rest, Retired cfg order s front rest v) ∧
        v.descProcessing cfg < u.descProcessing cfg := by
    rintro u ⟨front, rest, hr⟩
    rcases retireNext_eq hr.processing with ⟨hnone, _⟩ | ⟨i, rest', d, rfl, hd, hdone, hsome⟩
    · exact .inl hnone
    · refine .inr ⟨_, hsome, ⟨_, _, hr.step hd hdone⟩, ?_⟩
      rw [(hr.step hd hdone).processing.descProcessing_eq, hr.processing.descProcessing_eq]
      simp
  have hsize : s.descProcessing cfg ≤ cfg.numDMAEngines := by
    rw [h.descProcessing_eq]
    exact h.length_le
  obtain ⟨t, ht, ⟨front, rest, hr⟩, hnone⟩ :=
    InOrder.exhaust_returns (descProcessing cfg) hgo ⟨[], order, Retired.refl h⟩ hsize
  refine ⟨t, front, rest, ht, hr, ?_⟩
  intro i hi
  rcases retireNext_eq hr.processing with ⟨_, hdone⟩ | ⟨j, rest', d, _, _, _, hsome⟩
  · rw [← hr.same i (mem_of_mem_head? hi)]
    exact hdone i hi
  · rw [hnone] at hsome
    cases hsome

end Gem5.IGbE.DescCacheGlobal
