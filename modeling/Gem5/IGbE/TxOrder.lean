import Gem5.IGbE.TxQueue

/-!
# The order in which transmit descriptors are used

Data descriptors become used in the order of their sequence numbers. Context
descriptors, and a descriptor that holds a segmentation header and nothing else, do
not get one: they are used at once, which keeps the order only if no older descriptor
is still in processing. No context descriptor gets past the assert at the end of its fetch.
-/

namespace Gem5.IGbE.TxDescCacheGlobal

open DescCacheGlobal (Lineup Working Processing CacheMoves)

variable {cfg : Config} {s t : TxDescCacheGlobal} {o : TxOp}

def OrderAllowed (cfg : Config) (s : TxDescCacheGlobal) (o : TxOp) : Prop :=
  Possible s o ∧ (s.takesDirectly o = true → s.descProcessing cfg = 0)

instance (cfg : Config) (s : TxDescCacheGlobal) (o : TxOp) : Decidable (OrderAllowed cfg s o) :=
  inferInstanceAs (Decidable (_ ∧ _))

def TailAllowed (s : TxDescCacheGlobal) : TxOp → Prop
  | .setTail tail => tail < s.descLen ∧
      s.hist.posted + RingIndex.ahead s.descLen s.descTail tail ≤ s.hist.retired + s.descLen
  | _ => True

instance (s : TxDescCacheGlobal) (o : TxOp) : Decidable (TailAllowed s o) :=
  match o with
  | .setTail _ => inferInstanceAs (Decidable (_ ∧ _))
  | .fetchDescriptors | .fetchComplete _ _ | .writeback _ | .writebackComplete _ _
  | .processContextDesc _ | .headerComplete _ | .getPacketSize | .getPacketData _
  | .pktComplete _ _ | .pushReady _ _ => isTrue trivial

def RingOrderAllowed (cfg : Config) (s : TxDescCacheGlobal) (o : TxOp) : Prop :=
  OrderAllowed cfg s o ∧ TailAllowed s o

instance (cfg : Config) (s : TxDescCacheGlobal) (o : TxOp) :
    Decidable (RingOrderAllowed cfg s o) := inferInstanceAs (Decidable (_ ∧ _))

theorem OrderAllowed.direct (ha : OrderAllowed cfg s o) (hd : s.takesDirectly o = true)
    (order : List Nat) (hp : Processing cfg order s.toDescCacheGlobal) : order = [] := by
  have hzero := ha.2 hd
  rw [hp.descProcessing_eq] at hzero
  exact List.eq_nil_of_length_eq_zero hzero

theorem lineup_step (h : Kept cfg Lineup s) (ha : OrderAllowed cfg s o)
    (hs : op cfg s o = .ok t) : Kept cfg Lineup t := by
  have hmoves : CacheMoves cfg (fun order => order = []) (fun _ _ _ => True)
      (Lineup (α := TxDesc) (π := EthPacketData)) := Lineup.cacheMoves fun _ h => h
  exact op_keeps hmoves h ha.1 ha.direct (fun _ _ _ => trivial)
    (fun _ _ _ hl => hl.of_same_caches rfl rfl) hs

/-- The cache works on a ring of `len` descriptors. -/
abbrev OnRingOf (cfg : Config) (len : Nat) (order : List Nat)
    (b : DescCacheGlobal TxDesc EthPacketData) : Prop := Working cfg order b ∧ b.descLen = len

theorem working_step {len : Nat} (h : Kept cfg (OnRingOf cfg len) s)
    (ha : RingOrderAllowed cfg s o) (hs : op cfg s o = .ok t) : Kept cfg (OnRingOf cfg len) t := by
  have hmoves : CacheMoves cfg (fun order => order = []) (fun _ _ _ => True) (OnRingOf cfg len) :=
    (Working.cacheMoves fun _ h => h).and (DescCacheGlobal.descLen_cacheMoves len)
  refine op_keeps hmoves h ha.1.1 ha.1.direct (fun _ _ _ => trivial) ?_ hs
  rintro tail rfl order ⟨hw, hlen⟩
  exact ⟨hw.setTail ha.2.1 ha.2.2, hlen⟩

/-- Along every run in which descriptors are used without processing only when none
is in processing, the `k`-th descriptor to become used is the `k`-th one fetched; and
on a ring whose tail the guest keeps behind the head, the `k`-th descriptor written
back goes to the slot the `k`-th one was fetched from. -/
theorem tx_used_in_order (cfg : Config) (base len : Nat) :
    (∀ s, Reach (op cfg) (OrderAllowed cfg) (construct base len) s →
      s.hist.used.map Desc.origin = List.range s.hist.used.length) ∧
    (0 < len → ∀ s, Reach (op cfg) (RingOrderAllowed cfg) (construct base len) s →
      ∀ k x, s.hist.written[k]? = some x → x.1 = k % len ∧
        ∃ d, s.hist.fetched[k]? = some (k % len, d) ∧ x.2.origin = d.origin) := by
  constructor
  · intro s h
    have hstart : Kept cfg Lineup (construct base len) := construct_kept (Lineup.construct base len)
    obtain ⟨order, _, hl⟩ := (h.invariant hstart lineup_step).cache
    rw [List.range_eq_range']
    exact hl.used
  · intro hlen s h k x hx
    have hstart : Kept cfg (OnRingOf cfg len) (construct base len) :=
      construct_kept ⟨Working.construct cfg base hlen, rfl⟩
    obtain ⟨order, _, hw, rfl⟩ := (h.invariant hstart working_step).cache
    obtain ⟨hslot, horigin, d, hd, hdo⟩ := hw.written_of_fetched hx
    exact ⟨hslot, d, hd, horigin.trans hdo.symm⟩

theorem tx_used_in_order_two_frames :
    ∃ s, Reach (op twoEngines) (OrderAllowed twoEngines) (construct 0 8) s ∧
      s.hist.used.length = 3 ∧ s.hist.used.map Desc.origin = [0, 1, 2] := by
  obtain ⟨s, hs, hp⟩ := Reach.exists_of_runFrom (op twoEngines) (OrderAllowed twoEngines)
    (construct 0 8)
    [.setTail 3, .fetchDescriptors, .fetchComplete 0 [frameDesc 1, frameDesc 2, headerDesc],
      .getPacketSize, .getPacketData plainEnv, .getPacketSize, .getPacketData plainEnv,
      .pktComplete plainEnv 1, .pktComplete plainEnv 0, .processContextDesc plainEnv,
      .headerComplete plainEnv]
    (fun s => s.hist.used.length = 3) (by decide +kernel)
  have hlen : s.hist.used.length = 3 := hp
  refine ⟨s, hs, hlen, ?_⟩
  rw [(tx_used_in_order twoEngines 0 8).1 s hs, hlen]
  rfl

/-- The header descriptor behind a frame whose DMA read has not ended is used first. -/
theorem header_overtakes_frame :
    ∃ s, Reach (op twoEngines) Possible (construct 0 8) s ∧
      s.hist.fetched.map (fun x => x.2.origin) = [0, 1] ∧ s.hist.used.map Desc.origin = [1] :=
  Reach.exists_of_run
    [.setTail 2, .fetchDescriptors, .fetchComplete 0 [frameDesc 1, headerDesc],
      .processContextDesc plainEnv, .getPacketSize, .getPacketData plainEnv,
      .processContextDesc plainEnv, .headerComplete plainEnv] (by decide +kernel)

end Gem5.IGbE.TxDescCacheGlobal
