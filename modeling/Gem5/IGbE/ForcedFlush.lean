import Gem5.IGbE.RxRing

/-!
# Forced writebacks

`writebackGlobal(0)` asks for everything that is used. What it cannot start at once,
because the ring ends or every engine is busy, is remembered only in `moreToWb` and
`wbAlignment`, and asked for again when a writeback DMA ends.
-/

namespace Gem5.IGbE

namespace DescCacheGlobal

variable {α π : Type} {cfg : Config} {s t : DescCacheGlobal α π} {order : List Nat} {e n : Nat}
  {m : BitVec 64}

/-- Of all descriptors that have become used, the first `n` have been given to a
writeback DMA, or an unaligned request for the rest is still remembered. -/
structure Flushing (n : Nat) (s : DescCacheGlobal α π) : Prop where
  used : n ≤ s.hist.retired + s.usedCache.length
  sent : n ≤ s.hist.retired + s.wb.curNum ∨ s.moreToWb = true ∧ s.wbAlignment = 0

namespace Flushing

theorem of_same (h : Flushing n s) (hlen : s.usedCache.length ≤ t.usedCache.length)
    (heq : (t.hist.retired, t.wb, t.moreToWb, t.wbAlignment) =
      (s.hist.retired, s.wb, s.moreToWb, s.wbAlignment)) : Flushing n t := by
  simp only [Prod.mk.injEq] at heq
  obtain ⟨hr, hw, hm, ha⟩ := heq
  have hused := h.used
  constructor
  · omega
  · rw [hr, hw, hm, ha]
    exact h.sent

theorem force (hring : OnRing s) (hp : Pools cfg s) (hn : n ≤ s.hist.retired + s.usedCache.length)
    (ht : writebackGlobal cfg 0 s = .ok t) : Flushing n t := by
  have hall : s.wbWraps = false → s.maxToWb 0 = s.usedCache.length - s.wb.curNum := by
    intro hw
    simp [maxToWb, hw, waitingWb]
  rcases writebackGlobal_cases hp.wb_wf hp.wb_le ht with
    ⟨hzero, rfl⟩ | ⟨e, _, _, rfl⟩ | ⟨_, _, rfl⟩
  · refine ⟨hn, .inl ?_⟩
    cases hw : s.wbWraps with
    | true =>
      have hpos := hring.maxToWb_pos_of_wraps (m := 0) hw
      omega
    | false =>
      have hk := hall hw
      change n ≤ s.hist.retired + s.wb.curNum
      omega
  · refine ⟨hn, ?_⟩
    cases hw : s.wbWraps with
    | true => exact .inr ⟨hw, rfl⟩
    | false =>
      left
      have hk := hall hw
      change n ≤ s.hist.retired + (s.wb.curNum + s.maxToWb 0)
      omega
  · exact ⟨hn, .inr ⟨rfl, rfl⟩⟩

section

variable (h : Flushing n s)
include h

theorem writebackGlobal (hring : OnRing s) (hp : Pools cfg s)
    (hm : m = 0 ∨ ¬ (s.moreToWb = true ∧ s.wbAlignment = 0))
    (ht : writebackGlobal cfg m s = .ok t) : Flushing n t := by
  rcases hm with rfl | hm
  · exact force hring hp h.used ht
  · have hsent := h.sent.resolve_right hm
    rcases writebackGlobal_cases hp.wb_wf hp.wb_le ht with
      ⟨_, rfl⟩ | ⟨e, _, _, rfl⟩ | ⟨_, _, rfl⟩
    · exact ⟨h.used, .inl hsent⟩
    · refine ⟨h.used, .inl ?_⟩
      change n ≤ s.hist.retired + (s.wb.curNum + s.maxToWb m)
      omega
    · exact ⟨h.used, .inl hsent⟩

theorem fetchDescriptorsGlobal (hp : Pools cfg s)
    (ht : fetchDescriptorsGlobal cfg s = .ok t) : Flushing n t := by
  rcases fetchDescriptorsGlobal_cases hp.fetch_wf ht with rfl | ⟨_, _, _, _, _, _, _, _, rfl⟩
  · exact h
  · exact h.of_same le_rfl rfl

theorem fetchComplete {data : List α} (hp : Pools cfg s)
    (he : s.fetch.InFlight e) (hdata : data.length = s.fetch.requested e)
    (ht : fetchComplete cfg e data s = .ok t) : Flushing n t := by
  obtain ⟨news, heq, _⟩ := (hp.fetchComplete he hdata ht).2.eq
  rw [heq]
  exact h.of_same le_rfl rfl

theorem wbDrained {q : List Nat} (hd : WbDraining cfg.numDescDMAEngines s q t) : Flushing n t := by
  obtain ⟨d, heq, hsum, _⟩ := hd.eq
  have hused := h.used
  have hsent := h.sent
  have hfacts : t.hist.retired = s.hist.retired + d ∧
      t.usedCache.length = s.usedCache.length - d ∧ t.moreToWb = s.moreToWb ∧
      t.wbAlignment = s.wbAlignment := by
    rw [heq]
    exact ⟨rfl, List.length_drop, rfl, rfl⟩
  obtain ⟨hr, hl, hm, ha⟩ := hfacts
  constructor
  · omega
  · rw [hm, ha]
    rcases hsent with hsent | hmore
    · left
      omega
    · exact .inr hmore

theorem writebackComplete {f : Bool} (hw : Working cfg order s)
    (he : s.wb.InFlight e) (ht : writebackComplete cfg e f s = .ok t) : Flushing n t := by
  have hlt := hw.pools.wb_wf.lt ((hw.pools.wb_wf.inFlight_iff e).mp he).1
  refine And.right (writebackComplete_keeps (P := fun u => Pools cfg u ∧ OnRing u ∧ Flushing n u)
    (Q := fun u => Pools cfg u ∧ Flushing n u) hlt ?_ ?_ ?_ ?_ ht)
  · intro u hu
    obtain ⟨v, hv, hp, hd⟩ := hw.pools.wbFinish he
    obtain rfl := eq_of_ok hv hu
    exact ⟨hp, hw.ring.wbDrained hd, h.wbDrained hd⟩
  · rintro u ⟨hp, _, hfl⟩ _
    exact ⟨hp, hfl⟩
  · rintro u v ⟨hp, hring, hfl⟩ hmore hv
    refine ⟨hp.writebackGlobal hv, hfl.writebackGlobal hring hp ?_ hv⟩
    by_cases hzero : u.wbAlignment = 0
    · exact .inl hzero
    · exact .inr fun hboth => hzero hboth.2
  · rintro u v ⟨hp, hfl⟩ hv
    exact ⟨hp.fetchDescriptorsGlobal hv, hfl.fetchDescriptorsGlobal hp hv⟩

theorem retired_of_quiet (hw : Working cfg order s)
    (hq : ∀ e < cfg.numDescDMAEngines, ¬ s.wb.InFlight e) : n ≤ s.hist.retired := by
  have hnil : s.wb.jobQueue = [] := by
    apply (hw.pools.wb_wf.jobQueue_nil_iff hw.pools.wb_settled).mpr
    intro e he
    exact hq e (hw.pools.wb_wf.lt ((hw.pools.wb_wf.inFlight_iff e).mp he).1) he
  have hzero := hw.pools.wb_wf.curNum_eq_zero_iff.mpr hnil
  rcases h.sent with hsent | ⟨hmore, _⟩
  · omega
  · exact absurd hnil (hw.more hmore)

end

end Flushing

end DescCacheGlobal

namespace RxDescCacheGlobal

open DescCacheGlobal (Flushing)

variable {cfg : Config} {s t : RxDescCacheGlobal} {a : RxAct} {len n : Nat}

def FlushAllowed (cfg : Config) (s : RxDescCacheGlobal) : RxAct → Prop
  | .writeback mask => mask = 0 ∨ ¬ (s.moreToWb = true ∧ s.wbAlignment = 0)
  | a => RingAllowed cfg s a

instance (cfg : Config) (s : RxDescCacheGlobal) (a : RxAct) : Decidable (FlushAllowed cfg s a) :=
  match a with
  | .writeback _ => inferInstanceAs (Decidable (_ ∨ _))
  | .setTail tail => inferInstanceAs (Decidable (RingAllowed cfg s (.setTail tail)))
  | .areaWrite _ _ | .reset => isFalse id
  | .fetchDescriptors | .clearDone => isTrue trivial
  | .fetchComplete e data => instDecidablePossible cfg s (.fetchComplete e data)
  | .writePacket env p => instDecidablePossible cfg s (.writePacket env p)
  | .dmaEvent env e => instDecidablePossible cfg s (.dmaEvent env e)
  | .writebackComplete e f => instDecidablePossible cfg s (.writebackComplete e f)

theorem FlushAllowed.ring (ha : FlushAllowed cfg s a) : RingAllowed cfg s a := by
  cases a with
  | writeback mask => trivial
  | _ => exact ha

theorem flushing_step (hw : ∃ order, RxWorking cfg len order s)
    (h : Flushing n s.toDescCacheGlobal) (ha : FlushAllowed cfg s a) (hs : step cfg s a = .ok t) :
    Flushing n t.toDescCacheGlobal := by
  obtain ⟨order, hw⟩ := hw
  cases a with
  | setTail tail =>
    cases hs
    exact h.of_same le_rfl rfl
  | fetchDescriptors =>
    obtain ⟨b, hb, rfl⟩ := onBase_eq_ok.mp hs
    exact h.fetchDescriptorsGlobal hw.base.pools hb
  | fetchComplete e data =>
    obtain ⟨b, hb, rfl⟩ := onBase_eq_ok.mp hs
    exact h.fetchComplete hw.base.pools ha.1 ha.2 hb
  | writePacket env packet =>
    obtain ⟨⟨accepted, u⟩, hu, hs⟩ := bind_eq_ok.mp hs
    cases hs
    rcases writePacketGlobal_cases hu with rfl | ⟨i, d, eng, body, _, _, rfl⟩
    · exact h
    · exact h.of_same le_rfl rfl
  | dmaEvent env i =>
    obtain ⟨hpend, hpcss, hdt⟩ := ha
    rcases dmaEvent_spec hw.engines hw.base.processing hpend hpcss hdt with
      ⟨eng, body, hok, _⟩ | ⟨eng, body, front, rest, b, hok, _, hr, _, _⟩
    · obtain rfl := eq_of_ok hok hs
      exact h.of_same le_rfl rfl
    · obtain rfl := eq_of_ok hok hs
      rw [hr.eq]
      refine h.of_same ?_ rfl
      rw [List.length_append]
      exact Nat.le_add_right _ _
  | clearDone =>
    obtain ⟨done, rfl⟩ := clearDone_cases hs
    exact h
  | writeback mask =>
    obtain ⟨b, hb, rfl⟩ := onBase_eq_ok.mp hs
    exact h.writebackGlobal hw.base.ring hw.base.pools ha hb
  | writebackComplete e f =>
    obtain ⟨b, hb, rfl⟩ := onBase_eq_ok.mp hs
    exact h.writebackComplete hw.base ha hb
  | areaWrite r val | reset => exact ha.elim

/-- A forced writeback at any point of a run on the ring: in every continuation in
which no aligned request replaces a remembered unaligned one, once no writeback DMA
is in flight, every descriptor that was used at the time of the call has been written
back and has left the used cache. -/
theorem forced_flush (cfg : Config) (base len : Nat) (hlen : 0 < len) (s t u : RxDescCacheGlobal)
    (h : Reach (step cfg) (RingAllowed cfg) (construct base len) s)
    (hforce : step cfg s (.writeback 0) = .ok t) (hrun : Reach (step cfg) (FlushAllowed cfg) t u)
    (hq : ∀ e < cfg.numDescDMAEngines, ¬ u.wb.InFlight e) :
    ∀ d ∈ s.usedCache, d.origin ∈ u.hist.written.map (fun x => x.2.origin) ∧
      d.origin ∉ u.usedCache.map Desc.origin := by
  have hring : ∀ {x}, Reach (step cfg) (FlushAllowed cfg) t x →
      Reach (step cfg) (RingAllowed cfg) (construct base len) x := fun hx =>
    (h.snoc (show RingAllowed cfg s (.writeback 0) from trivial) hforce).trans
      (hx.mono fun _ _ => FlushAllowed.ring)
  obtain ⟨_, hs⟩ := RxWorking.of_reach hlen h
  obtain ⟨_, hu⟩ := RxWorking.of_reach hlen (hring hrun)
  obtain ⟨b, hb, hbt⟩ := onBase_eq_ok.mp hforce
  have hstart : Flushing (s.hist.retired + s.usedCache.length) t.toDescCacheGlobal := by
    rw [hbt]
    exact Flushing.force hs.base.ring hs.base.pools le_rfl hb
  have hflush := hrun.invariant_under (fun hx => RxWorking.of_reach hlen (hring hx)) hstart
    flushing_step
  have hretired := hflush.retired_of_quiet hu.base hq
  intro d hd
  have hbound := (hs.base.lineup.numbered_used.mem_bounds hd).2
  constructor
  · rw [hu.base.ring.written.1, hu.base.ring.written_length, List.mem_range'_1]
    omega
  · intro hm
    obtain ⟨x, hx, hxd⟩ := List.mem_map.mp hm
    have := (hu.base.lineup.numbered_used.mem_bounds hx).1
    omega

def packetReceived : List RxAct := [.writePacket plainEnv ⟨[1]⟩, .dmaEvent plainEnv 0, .clearDone]

theorem forced_flush_across_ring_end :
    ∃ s t u, Reach (step twoEngines) (RingAllowed twoEngines) (construct 0 8) s ∧
      step twoEngines s (.writeback 0) = .ok t ∧
      Reach (step twoEngines) (FlushAllowed twoEngines) t u ∧ s.usedCache.length = 2 ∧
      ∀ d ∈ s.usedCache, d.origin ∉ u.usedCache.map Desc.origin := by
  obtain ⟨s, hs, hp⟩ := Reach.exists_of_runFrom (step twoEngines) (RingAllowed twoEngines)
    (construct 0 8)
    ([.setTail 7, .fetchDescriptors, .fetchComplete 0 (List.replicate 7 ⟨0, 0⟩)] ++
      (List.replicate 7 packetReceived).flatten ++ [.writeback 0, .writebackComplete 0 false,
        .setTail 1, .fetchDescriptors, .fetchComplete 0 [⟨0, 0⟩], .fetchDescriptors,
        .fetchComplete 0 [⟨0, 0⟩]] ++ packetReceived ++ packetReceived)
    (fun s => decide (s.usedCache.length = 2) && okAnd (step twoEngines s (.writeback 0)) fun t =>
      (runFrom (step twoEngines) (FlushAllowed twoEngines) t
        [.writebackComplete 0 false, .writebackComplete 0 false]).any fun (u : RxDescCacheGlobal) =>
        decide (∀ e < twoEngines.numDescDMAEngines, ¬ u.wb.InFlight e))
    (by decide +kernel)
  simp only [Bool.and_eq_true, decide_eq_true_eq, okAnd_iff] at hp
  obtain ⟨htwo, t, ht, hrest⟩ := hp
  obtain ⟨u, hu, hq⟩ := Reach.exists_of_runFrom (step twoEngines) (FlushAllowed twoEngines) t
    [.writebackComplete 0 false, .writebackComplete 0 false] _ hrest
  refine ⟨s, t, u, hs, ht, hu, htwo, fun d hd => ?_⟩
  exact (forced_flush twoEngines 0 8 (by decide) s t u hs ht hu hq d hd).2

/-- The only writeback engine is busy when the second descriptor is flushed. The
state machine's next request, aligned to four descriptors, takes the place of the
forced one, and the descriptor stays in the cache with no DMA in flight. -/
theorem forced_flush_lost :
    ∃ s t u, Reach (step twoEngines) (RingAllowed twoEngines) (construct 0 8) s ∧
      step twoEngines s (.writeback 0) = .ok t ∧
      Reach (step twoEngines) (RingAllowed twoEngines) t u ∧
      (∀ e < twoEngines.numDescDMAEngines, ¬ u.wb.InFlight e) ∧
      ∃ d ∈ s.usedCache, d ∈ u.usedCache := by
  obtain ⟨s, hs, hp⟩ := Reach.exists_of_runFrom (step twoEngines) (RingAllowed twoEngines)
    (construct 0 8)
    (twoFetched ++ [.writePacket plainEnv ⟨[1]⟩, .writePacket plainEnv ⟨[2]⟩, .dmaEvent plainEnv 0,
      .writeback 0, .dmaEvent plainEnv 1])
    (fun s => okAnd (step twoEngines s (.writeback 0)) fun t =>
      (runFrom (step twoEngines) (RingAllowed twoEngines) t
        [.writeback 3, .writebackComplete 0 false]).any fun (u : RxDescCacheGlobal) =>
        decide ((∀ e < twoEngines.numDescDMAEngines, ¬ u.wb.InFlight e) ∧
          ∃ d ∈ s.usedCache, d ∈ u.usedCache))
    (by decide +kernel)
  obtain ⟨t, ht, hrest⟩ := okAnd_iff.mp hp
  obtain ⟨u, hu, hq⟩ := Reach.exists_of_runFrom (step twoEngines) (RingAllowed twoEngines) t
    [.writeback 3, .writebackComplete 0 false] _ hrest
  exact ⟨s, t, u, hs, ht, hu, hq⟩

end RxDescCacheGlobal

end Gem5.IGbE
