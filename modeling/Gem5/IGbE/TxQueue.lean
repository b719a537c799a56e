import Gem5.IGbE.CacheMoves
import Gem5.IGbE.TxDescCache
import Gem5.Shared.Reachability

/-!
# A transmit queue step by step

`TxOp` is one call of a function of the queue. For each function, the states it can
return; then `op_keeps`, the rule for properties of the descriptor cache.
-/

open Option

namespace Gem5.IGbE


open Bool hiding not_or

inductive TxOp where
  | setTail (tail : Nat)
  | fetchDescriptors
  | fetchComplete (e : Nat) (data : List TxDesc)
  | writeback (mask : BitVec 64)
  | writebackComplete (e : Nat) (fetchAfterWb : Bool)
  | processContextDesc (env : TxEnv)
  | headerComplete (env : TxEnv)
  | getPacketSize
  | getPacketData (env : TxEnv)
  | pktComplete (env : TxEnv) (e : Nat)
  | pushReady (env : TxEnv) (pushOk : Bool)

namespace TxDescCacheGlobal

variable {cfg : Config} {env : TxEnv} {s t : TxDescCacheGlobal} {d : Desc TxDesc}
  {p : EthPacketData} {e i : Nat} {o : TxOp}

/-- `fetchBufToString` calls `getBuf` for every descriptor that the end of a fetch adds. -/
def fetchComplete (cfg : Config) (e : Nat) (data : List TxDesc) (s : TxDescCacheGlobal) :
    Sim TxDescCacheGlobal := do
  let t ← s.onBase (DescCacheGlobal.fetchComplete cfg e data)
  simAssert ((t.unusedCache.drop s.unusedCache.length).all (·.body.carriesData))
  pure t

def op (cfg : Config) (s : TxDescCacheGlobal) : TxOp → Sim TxDescCacheGlobal
  | .setTail tail => s.onBase fun b => pure (b.setTail tail)
  | .fetchDescriptors => s.onBase (DescCacheGlobal.fetchDescriptorsGlobal cfg)
  | .fetchComplete e data => s.fetchComplete cfg e data
  | .writeback mask => s.onBase (DescCacheGlobal.writebackGlobal cfg mask)
  | .writebackComplete e f => s.onBase (DescCacheGlobal.writebackComplete cfg e f)
  | .processContextDesc env => s.processContextDesc env
  | .headerComplete env => s.headerComplete env
  | .getPacketSize => do
    let (_, s) ← s.getPacketSize
    pure s
  | .getPacketData env => s.getPacketDataGlobal cfg env
  | .pktComplete env e => s.pktComplete cfg env e
  | .pushReady env pushOk => s.pushReady cfg env pushOk

def Possible (s : TxDescCacheGlobal) : TxOp → Prop
  | .fetchComplete e data => s.fetch.InFlight e ∧ data.length = s.fetch.requested e
  | .writebackComplete e _ => s.wb.InFlight e
  | .headerComplete _ => s.pktHdrWaiting = true
  | .pktComplete _ e => (s.dmaEngineArray e).pktPtr = true
  | _ => True

instance (s : TxDescCacheGlobal) (o : TxOp) : Decidable (Possible s o) :=
  match o with
  | .setTail _ | .fetchDescriptors | .writeback _ | .processContextDesc _ | .getPacketSize
  | .getPacketData _ | .pushReady _ _ => isTrue trivial
  | .fetchComplete _ _ => inferInstanceAs (Decidable (_ ∧ _))
  | .writebackComplete _ _ => inferInstanceAs (Decidable (DescDMAPool.InFlight _ _))
  | .headerComplete _ => inferInstanceAs (Decidable (_ = true))
  | .pktComplete _ _ => inferInstanceAs (Decidable (_ = true))

theorem onBase_eq_ok {f : DescCacheGlobal TxDesc EthPacketData →
      Sim (DescCacheGlobal TxDesc EthPacketData)} :
    s.onBase f = .ok t ↔ ∃ b, f s.toDescCacheGlobal = .ok b ∧
      t = { s with toDescCacheGlobal := b } :=
  map_eq_ok.trans (exists_congr fun _ => and_congr_right fun _ => eq_comm)

theorem fetchComplete_eq_ok {data : List TxDesc} : s.fetchComplete cfg e data = .ok t ↔
    ∃ b, DescCacheGlobal.fetchComplete cfg e data s.toDescCacheGlobal = .ok b ∧
      t = { s with toDescCacheGlobal := b } ∧
      ∀ d ∈ b.unusedCache.drop s.unusedCache.length, d.body.carriesData = true := by
  rw [fetchComplete, bind_eq_ok]
  constructor
  · rintro ⟨u, hu, h⟩
    obtain ⟨_, hall, rfl⟩ := map_eq_ok.mp h
    obtain ⟨b, hb, rfl⟩ := onBase_eq_ok.mp hu
    exact ⟨b, hb, rfl, List.all_eq_true.mp (simAssert_eq_ok.mp hall)⟩
  · rintro ⟨b, hb, rfl, hall⟩
    exact ⟨_, onBase_eq_ok.mpr ⟨b, hb, rfl⟩, map_eq_ok.mpr
      ⟨(), simAssert_of (List.all_eq_true.mpr hall), rfl⟩⟩

theorem takeContexts_keeps {P : TxDescCacheGlobal → Prop}
    (keep : ∀ {s d rest}, P s → s.unusedCache = d :: rest → s.useTso = false →
      d.body.isContext = true → P (s.takeContext d)) :
    ∀ {l s}, s.unusedCache = l → P s → P (takeContexts l s) := by
  intro l
  induction l with
  | nil => exact fun _ hp => hp
  | cons d rest ih =>
    intro s hu hp
    unfold takeContexts
    split
    · rename_i hc
      simp only [and_eq_true, not_eq_true'] at hc
      apply ih
      · unfold takeContext
        split <;> simp [DescCacheGlobal.useDirectly, startTso, hu]
      · exact keep hp hu hc.1 hc.2
    · exact hp

theorem processContextDesc_cases (h : s.processContextDesc env = .ok t) :
    ∃ u, (u = takeContexts s.unusedCache s ∨ ∃ d rest,
        (takeContexts s.unusedCache s).unusedCache = d :: rest ∧
        (takeContexts s.unusedCache s).useTso = false ∧ d.body.startsTso = true ∧
        u = (takeContexts s.unusedCache s).startTso d.body.getTsoLen) ∧
      (t = u ∧ (u.unusedCache = [] ∨ u.useTso = false ∨ u.tsoLoadedHeader = true) ∨
        ∃ d rest, u.unusedCache = d :: rest ∧ u.useTso = true ∧ u.tsoLoadedHeader = false ∧
        d.body.isData = true ∧ u.tsoHeaderLen ≤ d.body.getLen ∧ u.tsoHeaderLen ≤ 256 ∧
        t = { u with pktHdrWaiting := true, tsoHeaderAddr := env.pciToDma d.body.getBuf }) := by
  unfold processContextDesc at h
  generalize takeContexts s.unusedCache s = v at h ⊢
  cases hv : v.unusedCache with
  | nil =>
    simp only [hv] at h
    exact ⟨v, .inl rfl, .inl ⟨eq_of_ok h rfl, .inl hv⟩⟩
  | cons d rest =>
    simp only [hv] at h
    have hu : ∃ u, (if !v.useTso && d.body.startsTso then v.startTso d.body.getTsoLen else v) = u ∧
        u.unusedCache = d :: rest ∧ (u = v ∨ ∃ d' rest', v.unusedCache = d' :: rest' ∧
          v.useTso = false ∧ d'.body.startsTso = true ∧ u = v.startTso d'.body.getTsoLen) := by
      refine ⟨_, rfl, ?_⟩
      split
      · rename_i hc
        simp only [and_eq_true, not_eq_true'] at hc
        exact ⟨hv, .inr ⟨d, rest, hv, hc.1, hc.2, rfl⟩⟩
      · exact ⟨hv, .inl rfl⟩
    obtain ⟨u, hif, huc, hcase⟩ := hu
    rw [hif] at h
    rw [← hv]
    refine ⟨u, hcase, ?_⟩
    split at h
    · rename_i hc
      simp only [and_eq_true, not_eq_true'] at hc
      obtain ⟨_, hdata, h⟩ := bind_eq_ok.mp h
      obtain ⟨_, hlen, h⟩ := bind_eq_ok.mp h
      have hdata := simAssert_eq_ok.mp hdata
      simp only [and_eq_true, decide_eq_true_eq] at hdata
      exact .inr ⟨d, rest, huc, hc.1, hc.2, hdata.1, hdata.2,
        of_decide_eq_true (simAssert_eq_ok.mp hlen), eq_of_ok h rfl⟩
    · rename_i hc
      refine .inl ⟨eq_of_ok h rfl, .inr ?_⟩
      cases hu : u.useTso with
      | false => exact .inl rfl
      | true =>
        right
        simpa [hu] using hc

theorem headerComplete_cases (h : s.headerComplete env = .ok t) :
    ∃ d rest, s.unusedCache = d :: rest ∧
      (d.body.getLen = s.tsoHeaderLen ∧ t = { s with
          toDescCacheGlobal := s.useDirectly d
          pktHdrWaiting := false
          tsoHeader := env.read s.tsoHeaderAddr s.tsoHeaderLen
          tsoDescBytesUsed := 0
          tsoLoadedHeader := true } ∨
        d.body.getLen ≠ s.tsoHeaderLen ∧ t = { s with
          pktHdrWaiting := false
          tsoHeader := env.read s.tsoHeaderAddr s.tsoHeaderLen
          tsoDescBytesUsed := s.tsoHeaderLen
          tsoLoadedHeader := true }) := by
  obtain ⟨d, hd, h⟩ := bind_eq_ok.mp h
  obtain ⟨rest, hu⟩ := List.head?_eq_some_iff.mp (simSome_eq_ok.mp hd)
  refine ⟨d, rest, hu, ?_⟩
  split at h
  · rename_i hlen
    exact .inl ⟨hlen, eq_of_ok h rfl⟩
  · rename_i hlen
    exact .inr ⟨hlen, eq_of_ok h rfl⟩

theorem getPacketSize_cases {n : Nat} (h : s.getPacketSize = .ok (n, t)) :
    (s.unusedCache = [] ∧ n = 0 ∧ t = s) ∨ ∃ d rest, s.unusedCache = d :: rest ∧
      (s.useTso = false ∧ n = d.body.getLen ∧ t = s ∨
        s.useTso = true ∧ s.tsoLoadedHeader = true ∧ ∃ k, s.copyBytes d.body = .ok k ∧
          n = (k + if s.tsoPktHasHeader then 0 else s.tsoHeaderLen) % 2 ^ 32 ∧
          t = { s with tsoCopyBytes := k }) := by
  unfold getPacketSize at h
  cases hu : s.unusedCache with
  | nil =>
    simp only [hu] at h
    have heq := Prod.mk.inj (Except.ok.inj h)
    exact .inl ⟨rfl, heq.1.symm, heq.2.symm⟩
  | cons d rest =>
    simp only [hu] at h
    obtain ⟨_, hloaded, h⟩ := bind_eq_ok.mp h
    have hloaded := simAssert_eq_ok.mp hloaded
    refine .inr ⟨d, rest, rfl, ?_⟩
    cases htso : s.useTso with
    | false =>
      rw [htso] at h
      have heq := Prod.mk.inj (Except.ok.inj h)
      exact .inl ⟨rfl, heq.1.symm, heq.2.symm⟩
    | true =>
      rw [htso] at h hloaded
      obtain ⟨k, hk, h⟩ := bind_eq_ok.mp h
      have heq := Prod.mk.inj (Except.ok.inj h)
      exact .inr ⟨rfl, by simpa using hloaded, k, hk, heq.1.symm, heq.2.symm⟩

theorem getFreeDMAEngine_some (h : s.getFreeDMAEngine cfg = some i) :
    i < cfg.numDMAEngines ∧ (s.dmaEngineArray i).pktWaiting = false ∧
      (s.dmaEngineArray i).pktDone = false ∧ (s.processingCache i).desc = none := by
  have hlt := List.mem_range.mp (List.mem_of_find?_eq_some h)
  have hfree := List.find?_some h
  simp only [isFree, and_eq_true, not_eq_true', isNone_iff_eq_none] at hfree
  exact ⟨hlt, hfree.1.1, hfree.1.2, hfree.2⟩

theorem freshEngine_eq_ok (h : s.freshEngine cfg = .ok i) :
    s.getFreeDMAEngine cfg = some i ∧ s.processingPktArray i = none := by
  obtain ⟨_, _, h⟩ := bind_eq_ok.mp h
  obtain ⟨_, _, h⟩ := bind_eq_ok.mp h
  obtain ⟨j, hj, h⟩ := bind_eq_ok.mp h
  obtain ⟨_, hp, rfl⟩ := map_eq_ok.mp h
  exact ⟨simSome_eq_ok.mp hj, isNone_iff_eq_none.mp (simAssert_eq_ok.mp hp)⟩

theorem getPacketData_eq_ok {off addr size : Nat} {eng eng' : TxDescCache} :
    eng.getPacketData off addr size = .ok eng' ↔ eng.pktPtr = false ∧ eng.pktWaiting = false ∧
      off + size ≤ ethPacketSize ∧ eng' = eng.reading off addr size := by
  unfold TxDescCache.getPacketData
  cases eng.pktPtr with
  | true => simp
  | false =>
    cases eng.pktWaiting with
    | true => simp
    | false =>
      by_cases hfit : off + size ≤ ethPacketSize
      · simp [hfit, eq_comm]
      · simp [hfit]

theorem tsoPacket_cases (h : s.tsoPacket cfg = .ok (e, p)) :
    (s.tsoDMAEngineIdx = none ∧ s.getFreeDMAEngine cfg = some e ∧
      s.processingPktArray e = none ∧ p = .fresh) ∨
    (s.tsoDMAEngineIdx = some e ∧ s.processingPktArray e = some p) := by
  unfold tsoPacket at h
  cases hidx : s.tsoDMAEngineIdx with
  | none =>
    simp only [hidx] at h
    obtain ⟨j, hj, h⟩ := bind_eq_ok.mp h
    cases h
    obtain ⟨hfree, hpkt⟩ := freshEngine_eq_ok hj
    exact .inl ⟨rfl, hfree, hpkt, rfl⟩
  | some j =>
    simp only [hidx] at h
    obtain ⟨q, hq, h⟩ := bind_eq_ok.mp h
    cases h
    exact .inr ⟨rfl, simSome_eq_ok.mp hq⟩

theorem getPacketDataGlobal_cases (h : s.getPacketDataGlobal cfg env = .ok t) :
    ∃ d rest, s.unusedCache = d :: rest ∧ d.body.carriesData = true ∧ d.body.getLen ≠ 0 ∧
      (s.useTso = false ∧ (∃ i, s.getFreeDMAEngine cfg = some i ∧
          s.processingPktArray i = none ∧ (s.dmaEngineArray i).pktPtr = false ∧
          d.body.getLen ≤ ethPacketSize ∧ t = s.assign i d .fresh ((s.dmaEngineArray i).reading 0
            (env.pciToDma d.body.getBuf) d.body.getLen)) ∨
        s.useTso = true ∧ ∃ e p, s.tsoPacket cfg = .ok (e, p) ∧ s.tsoLoadedHeader = true ∧
          (s.processingCache e).desc = none ∧ 0 < s.tsoCopyBytes ∧
          (s.dmaEngineArray e).pktPtr = false ∧ (s.dmaEngineArray e).pktWaiting = false ∧
          (s.loadHeader p).length + s.tsoCopyBytes ≤ ethPacketSize ∧
          s.tsoDescBytesUsed + s.tsoCopyBytes ≤ d.body.getLen ∧
          t = { s.assign e d (s.loadHeader p) ((s.dmaEngineArray e).reading
              (s.loadHeader p).length (env.pciToDma d.body.getBuf + s.tsoDescBytesUsed)
              s.tsoCopyBytes) with
            tsoDMAEngineIdx := some e
            tsoPktHasHeader := true
            tsoDescBytesUsed := s.tsoDescBytesUsed + s.tsoCopyBytes }) := by
  obtain ⟨d, hd, h⟩ := bind_eq_ok.mp h
  obtain ⟨_, hdata, h⟩ := bind_eq_ok.mp h
  obtain ⟨rest, hu⟩ := List.head?_eq_some_iff.mp (simSome_eq_ok.mp hd)
  have hdata := simAssert_eq_ok.mp hdata
  simp only [and_eq_true, bne_iff_ne] at hdata
  refine ⟨d, rest, hu, hdata.1, hdata.2, ?_⟩
  split at h
  · rename_i htso
    obtain ⟨⟨e, p⟩, hep, h⟩ := bind_eq_ok.mp h
    obtain ⟨_, hloaded, h⟩ := bind_eq_ok.mp h
    obtain ⟨_, hdesc, h⟩ := bind_eq_ok.mp h
    obtain ⟨_, hcopy, h⟩ := bind_eq_ok.mp h
    obtain ⟨eng, heng, h⟩ := bind_eq_ok.mp h
    obtain ⟨_, hlen, h⟩ := bind_eq_ok.mp h
    obtain ⟨hptr, hwait, hfit, rfl⟩ := getPacketData_eq_ok.mp heng
    exact .inr ⟨htso, e, p, hep, simAssert_eq_ok.mp hloaded,
      isNone_iff_eq_none.mp (simAssert_eq_ok.mp hdesc),
      of_decide_eq_true (simAssert_eq_ok.mp hcopy), hptr, hwait, hfit,
      of_decide_eq_true (simAssert_eq_ok.mp hlen), eq_of_ok h rfl⟩
  · rename_i htso
    obtain ⟨i, hi, h⟩ := bind_eq_ok.mp h
    obtain ⟨_, _, h⟩ := bind_eq_ok.mp h
    obtain ⟨eng, heng, h⟩ := bind_eq_ok.mp h
    obtain ⟨hfree, hpkt⟩ := freshEngine_eq_ok hi
    obtain ⟨hptr, _, hfit, rfl⟩ := getPacketData_eq_ok.mp heng
    exact .inl ⟨by simpa using htso, i, hfree, hpkt, hptr, by simpa using hfit,
      (eq_of_ok h rfl)⟩

theorem retire_cases (h : s.retire cfg e = .ok t) :
    ∃ b, (s.markProcessed e).manageUsedCache cfg = .ok b ∧
      t = { s with toDescCacheGlobal := b, tsoDescBytesUsed := 0 } := by
  obtain ⟨u, hu, h⟩ := bind_eq_ok.mp h
  obtain ⟨b, hb, rfl⟩ := onBase_eq_ok.mp hu
  exact ⟨b, hb, eq_of_ok h rfl⟩

theorem writebackAfterPacket_cases (h : writebackAfterPacket cfg env s = .ok t) :
    t = s ∨ ∃ m b, DescCacheGlobal.writebackGlobal cfg m s.toDescCacheGlobal = .ok b ∧
      t = { s with toDescCacheGlobal := b } := by
  unfold writebackAfterPacket at h
  split_ifs at h
  case neg => exact .inl (eq_of_ok h rfl)
  all_goals exact .inr ⟨_, onBase_eq_ok.mp h⟩

theorem partDone_cases {body : TxDesc} (h : s.partDone cfg e body = .ok t) :
    (s.useTso = true → s.tsoDescBytesUsed = body.getLen) ∧ ∃ u, s.retire cfg e = .ok u ∧
      t = { u.engineDone e with pktMultiDesc := true } := by
  obtain ⟨_, hlen, h⟩ := bind_eq_ok.mp h
  obtain ⟨u, hu, h⟩ := bind_eq_ok.mp h
  refine ⟨?_, u, hu, eq_of_ok h rfl⟩
  intro htso
  simpa [htso] using simAssert_eq_ok.mp hlen

theorem packetDone_cases {body : TxDesc} (h : s.packetDone cfg env e body p = .ok t) :
    body.vle = false ∧ (s.useTso = true ∨ body.eop = true) ∧ ∃ data u,
      s.offload env body p.contents = .ok data ∧
      ((s.useTso = false ∨ body.getLen = s.tsoDescBytesUsed) ∧
          (s.completed env e body p data).retire cfg e = .ok u ∨
        s.useTso = true ∧ body.getLen ≠ s.tsoDescBytesUsed ∧ u = s.completed env e body p data) ∧
      writebackAfterPacket cfg env { u.endTso.engineDone e with tsoPktHasHeader := false } =
        .ok t := by
  obtain ⟨_, hvle, h⟩ := bind_eq_ok.mp h
  obtain ⟨_, heop, h⟩ := bind_eq_ok.mp h
  obtain ⟨data, hdata, h⟩ := bind_eq_ok.mp h
  obtain ⟨u, hu, h⟩ := bind_eq_ok.mp h
  refine ⟨by simpa using simAssert_eq_ok.mp hvle, by simpa using simAssert_eq_ok.mp heop,
    data, u, hdata, ?_, h⟩
  unfold retireUsedUp at hu
  split at hu
  · rename_i hc
    refine .inl ⟨?_, hu⟩
    simpa [completed] using hc
  · rename_i hc
    simp only [or_eq_true, not_eq_true', beq_iff_eq, not_or,
      not_eq_false] at hc
    exact .inr ⟨hc.1, hc.2, eq_of_ok hu rfl⟩

theorem pktComplete_cases (h : s.pktComplete cfg env e = .ok t) :
    ∃ p d q v u, (s.dmaEngineArray e).pktPtr = true ∧ e < cfg.numDMAEngines ∧
      s.processingPktArray e = some p ∧ (s.processingCache e).desc = some d ∧
      d.body.carriesData = true ∧ d.body.getLen ≠ 0 ∧
      (s.landed env e).received e d (p.storeAt (s.dmaEngineArray e).dmaOff
        (env.read (s.dmaEngineArray e).dmaAddr (s.dmaEngineArray e).dmaSize)) = (q, v) ∧
      (v.moreToCome d.body q = true ∧ v.partDone cfg e d.body = .ok u ∨
        v.moreToCome d.body q = false ∧ v.packetDone cfg env e d.body q = .ok u) ∧
      t = u.setEngine e { u.dmaEngineArray e with pktPtr := false, dmaAddr := 0 } := by
  obtain ⟨_, hptr, h⟩ := bind_eq_ok.mp h
  obtain ⟨u, hu, h⟩ := bind_eq_ok.mp h
  obtain ⟨_, hlt, hu⟩ := bind_eq_ok.mp hu
  obtain ⟨p', hp, hu⟩ := bind_eq_ok.mp hu
  obtain ⟨d, hd, hu⟩ := bind_eq_ok.mp hu
  obtain ⟨_, hdata, hu⟩ := bind_eq_ok.mp hu
  have hdata := simAssert_eq_ok.mp hdata
  simp only [and_eq_true, bne_iff_ne] at hdata
  have hp' := simSome_eq_ok.mp hp
  simp only [landed, DescCacheGlobal.setPkt, Function.update_self, map_eq_some_iff] at hp'
  obtain ⟨p, hpkt, rfl⟩ := hp'
  generalize hrec : (s.landed env e).received e d _ = r at hu
  obtain ⟨q, v⟩ := r
  refine ⟨p, d, q, v, u, simAssert_eq_ok.mp hptr, of_decide_eq_true (simAssert_eq_ok.mp hlt), hpkt,
    simSome_eq_ok.mp hd, hdata.1, hdata.2, hrec, ?_, eq_of_ok h rfl⟩
  dsimp only at hu
  split at hu
  · rename_i hmore
    exact .inl ⟨hmore, hu⟩
  · rename_i hmore
    exact .inr ⟨by simpa using hmore, hu⟩

theorem pktComplete_of {q : EthPacketData} {u v : TxDescCacheGlobal}
    (hptr : (s.dmaEngineArray e).pktPtr = true) (he : e < cfg.numDMAEngines)
    (hp : s.processingPktArray e = some p) (hd : (s.processingCache e).desc = some d)
    (hdata : d.body.carriesData = true) (hlen : d.body.getLen ≠ 0)
    (hrec : (s.landed env e).received e d (p.storeAt (s.dmaEngineArray e).dmaOff
      (env.read (s.dmaEngineArray e).dmaAddr (s.dmaEngineArray e).dmaSize)) = (q, v))
    (hcase : v.moreToCome d.body q = true ∧ v.partDone cfg e d.body = .ok u ∨
      v.moreToCome d.body q = false ∧ v.packetDone cfg env e d.body q = .ok u) :
    s.pktComplete cfg env e =
      .ok (u.setEngine e { u.dmaEngineArray e with pktPtr := false, dmaAddr := 0 }) := by
  have hpkt : (s.landed env e).processingPktArray e = some (p.storeAt (s.dmaEngineArray e).dmaOff
      (env.read (s.dmaEngineArray e).dmaAddr (s.dmaEngineArray e).dmaSize)) := by
    simp [landed, DescCacheGlobal.setPkt, hp]
  have hslot : ((s.landed env e).processingCache e).desc = some d := hd
  have hne : (d.body.getLen != 0) = true := by simpa using hlen
  have hdma : onDMAComplete cfg env e (s.landed env e) = .ok u := by
    unfold onDMAComplete
    rw [hpkt, hslot]
    simp only [he, sim_ok_bind, simSome_some, hdata, hne, hrec]
    rcases hcase with ⟨hmore, hu⟩ | ⟨hmore, hu⟩
    · rw [if_pos hmore]
      exact hu
    · rw [if_neg (by simp [hmore])]
      exact hu
  unfold pktComplete
  rw [hptr, hdma]
  rfl

theorem readyEngine_some (h : s.readyEngine cfg = some i) :
    i < cfg.numDMAEngines ∧ s.isReady i = true := by
  obtain ⟨j, _, rfl⟩ := List.mem_map.mp (List.mem_of_find?_eq_some h)
  exact ⟨Nat.mod_lt _ cfg.dma_pos, List.find?_some h⟩

theorem pushReadyTo_eq_ok {φ : Type} {fifo : TxFifo φ} {f g : φ} :
    s.pushReadyTo fifo cfg env f = .ok (t, g) ↔ ∃ p u, s.getReadyEthPacket cfg = .ok (p, u) ∧
      fifo.push p f = .ok (true, g) ∧ onBase (DescCacheGlobal.writebackGlobal cfg env.blockMask)
        { u with sent := u.sent ++ [p] } = .ok t := by
  constructor
  · intro h
    obtain ⟨⟨p, u⟩, hu, h⟩ := bind_eq_ok.mp h
    obtain ⟨⟨success, f'⟩, hpush, h⟩ := bind_eq_ok.mp h
    obtain ⟨_, hsuccess, h⟩ := bind_eq_ok.mp h
    obtain ⟨v, hv, h⟩ := map_eq_ok.mp h
    cases h
    exact ⟨p, u, hu, by rw [hpush, simAssert_eq_ok.mp hsuccess], hv⟩
  · rintro ⟨p, u, hu, hpush, ht⟩
    simp [pushReadyTo, hu, hpush, ht]

theorem pushReady_cases {ok : Bool} (h : s.pushReady cfg env ok = .ok t) :
    ∃ i p b, s.readyEngine cfg = some i ∧ s.processingPktArray i = some p ∧
      (s.dmaEngineArray i).pktWaiting = false ∧
      DescCacheGlobal.writebackGlobal cfg env.blockMask (s.setPkt i none) = .ok b ∧
      t = { s with
        toDescCacheGlobal := b
        dmaEngineArray := Function.update s.dmaEngineArray i
          { s.dmaEngineArray i with pktDone := false }
        roundRobinIdx := (i + 1) % cfg.numDMAEngines
        sent := s.sent ++ [p] } := by
  obtain ⟨⟨v, f⟩, hto, rfl⟩ := map_eq_ok.mp h
  obtain ⟨p, u, hu, -, hwb⟩ := pushReadyTo_eq_ok.mp hto
  obtain ⟨i, hi, hu⟩ := bind_eq_ok.mp hu
  obtain ⟨q, hq, hu⟩ := bind_eq_ok.mp hu
  obtain ⟨_, hwait, hu⟩ := bind_eq_ok.mp hu
  obtain ⟨rfl, rfl⟩ := Prod.mk.inj (Except.ok.inj hu)
  obtain ⟨b, hb, rfl⟩ := onBase_eq_ok.mp hwb
  exact ⟨i, q, b, simSome_eq_ok.mp hi, simSome_eq_ok.mp hq,
    by simpa using simAssert_eq_ok.mp hwait, hb, rfl⟩

theorem takeContext_base (s : TxDescCacheGlobal) (d : Desc TxDesc) :
    (s.takeContext d).toDescCacheGlobal =
      s.toDescCacheGlobal.useDirectly { d with body := d.body.setDd } := by
  unfold takeContext
  split <;> rfl

theorem takeContext_engines (s : TxDescCacheGlobal) (d : Desc TxDesc) :
    ((s.takeContext d).dmaEngineArray, (s.takeContext d).tsoDMAEngineIdx, (s.takeContext d).sent) =
      (s.dmaEngineArray, s.tsoDMAEngineIdx, s.sent) := by
  unfold takeContext
  split <;> rfl

def takesDirectly (s : TxDescCacheGlobal) : TxOp → Bool
  | .processContextDesc _ =>
    !s.useTso && s.unusedCache.head?.any fun d => d.body.isContext
  | .headerComplete _ => s.unusedCache.head?.any fun d => d.body.getLen == s.tsoHeaderLen
  | _ => false

theorem takeContexts_eq_self (h : s.takesDirectly (.processContextDesc env) = false) :
    takeContexts s.unusedCache s = s := by
  unfold takesDirectly at h
  cases hu : s.unusedCache with
  | nil => rfl
  | cons d rest =>
    unfold takeContexts
    rw [if_neg]
    simpa [hu] using h

theorem received_base {q : EthPacketData} {v : TxDescCacheGlobal}
    (h : s.received e d p = (q, v)) :
    v.toDescCacheGlobal = s.setPkt e (some q) ∧ v.tsoDMAEngineIdx = s.tsoDMAEngineIdx := by
  obtain ⟨rfl, rfl⟩ := Prod.mk.inj h
  dsimp only
  split <;> exact ⟨rfl, rfl⟩

theorem endTso_cases (s : TxDescCacheGlobal) :
    s.endTso = s ∨ s.useTso = true ∧ s.tsoUsedLen = s.tsoTotalLen ∧
      s.endTso = { s with useTso := false, tsoDMAEngineIdx := none } := by
  unfold endTso
  split
  · rename_i h
    simp only [and_eq_true, beq_iff_eq] at h
    exact .inr ⟨h.1, h.2, rfl⟩
  · exact .inl rfl

section Moves
variable {direct : List Nat → Prop}
  {arrives : DescCacheGlobal TxDesc EthPacketData → Nat → List TxDesc → Prop}
  {Q : List Nat → DescCacheGlobal TxDesc EthPacketData → Prop}

structure Kept (cfg : Config) (Q : List Nat → DescCacheGlobal TxDesc EthPacketData → Prop)
    (s : TxDescCacheGlobal) : Prop where
  cache : ∃ order, DescCacheGlobal.Steady cfg order s.toDescCacheGlobal ∧
    Q order s.toDescCacheGlobal
  engine : ∀ e, s.tsoDMAEngineIdx = some e → e < cfg.numDMAEngines

theorem construct_kept {base len : Nat} (h : Q [] (construct base len).toDescCacheGlobal) :
    Kept cfg Q (construct base len) :=
  ⟨⟨[], DescCacheGlobal.Steady.construct cfg base len, h⟩, by simp [construct]⟩

section

variable (h : DescCacheGlobal.CacheMoves cfg direct arrives Q)
include h

section

variable (hk : Kept cfg Q s)
include hk

theorem retire_keeps (he : (s.processingCache e).desc.isSome = true) (ht : s.retire cfg e = .ok t) :
    Kept cfg Q t := by
  obtain ⟨b, hb, rfl⟩ := retire_cases ht
  obtain ⟨order, hq⟩ := hk.cache
  obtain ⟨u, front, rest, hu, hm, hr, hset⟩ := hq.1.manageUsedCache he
  obtain rfl := eq_of_ok hu hb
  exact ⟨⟨rest, h.withSteady.retire hq.1 hq hm hr hset⟩, hk.engine⟩

theorem writebackAfterPacket_keeps (ht : writebackAfterPacket cfg env s = .ok t) :
    Kept cfg Q t := by
  rcases writebackAfterPacket_cases ht with rfl | ⟨m, b, hb, rfl⟩
  · exact hk
  · obtain ⟨order, hq⟩ := hk.cache
    exact ⟨⟨order, h.withSteady.writebackGlobal hq.1 hq hb⟩, hk.engine⟩

theorem packetDone_keeps {body : TxDesc} (he : (s.processingCache e).desc.isSome = true)
    (ht : s.packetDone cfg env e body p = .ok t) : Kept cfg Q t := by
  obtain ⟨_, _, data, u, _, hu, ht⟩ := packetDone_cases ht
  have hcompleted : Kept cfg Q (s.completed env e body p data) := by
    obtain ⟨order, hq⟩ := hk.cache
    exact ⟨⟨order, h.withSteady.setPkt (h.withSteady.setBody hq e _) e _⟩, hk.engine⟩
  have hkeep : Kept cfg Q u := by
    rcases hu with ⟨_, hu⟩ | ⟨_, _, rfl⟩
    · apply retire_keeps h hcompleted _ hu
      simpa [completed, DescCacheGlobal.setPkt, DescCacheGlobal.setBody] using he
    · exact hcompleted
  refine writebackAfterPacket_keeps h ?_ ht
  rcases endTso_cases u with heq | ⟨_, _, heq⟩
  · rw [heq]
    exact ⟨hkeep.cache, hkeep.engine⟩
  · rw [heq]
    exact ⟨hkeep.cache, by simp [engineDone, setEngine]⟩

theorem pktComplete_keeps (ht : s.pktComplete cfg env e = .ok t) : Kept cfg Q t := by
  obtain ⟨p, d, q, v, u, _, _, _, hd, _, _, hrec, hcase, rfl⟩ := pktComplete_cases ht
  obtain ⟨hbase, hidx⟩ := received_base hrec
  have hv : Kept cfg Q v := by
    obtain ⟨order, hq⟩ := hk.cache
    refine ⟨⟨order, ?_⟩, ?_⟩
    · rw [hbase]
      exact h.withSteady.setPkt (h.withSteady.setPkt hq e _) e _
    · rw [hidx]
      exact hk.engine
  have hslot : (v.processingCache e).desc.isSome = true := by
    have : v.processingCache = s.processingCache := by
      rw [hbase]
      rfl
    rw [this, hd]
    rfl
  have hu : Kept cfg Q u := by
    rcases hcase with ⟨_, hu⟩ | ⟨_, hu⟩
    · obtain ⟨_, w, hw, rfl⟩ := partDone_cases hu
      have hkw := retire_keeps h hv hslot hw
      exact ⟨hkw.cache, hkw.engine⟩
    · exact packetDone_keeps h hv hslot hu
  exact ⟨hu.cache, hu.engine⟩

theorem getPacketDataGlobal_keeps (ht : s.getPacketDataGlobal cfg env = .ok t) : Kept cfg Q t := by
  obtain ⟨order, hq⟩ := hk.cache
  obtain ⟨d, rest, hu, _, _, hcase⟩ := getPacketDataGlobal_cases ht
  rcases hcase with ⟨_, i, hfree, _, _, _, rfl⟩ | ⟨_, e, p, hp, _, hdesc, _, _, _, _, _, rfl⟩
  · obtain ⟨hlt, _, _, hdesc⟩ := getFreeDMAEngine_some hfree
    exact ⟨⟨order ++ [i],
    h.withSteady.setPkt (h.withSteady.beginProcessing hq.1 hq hlt hdesc hu) i _⟩, hk.engine⟩
  · have hlt : e < cfg.numDMAEngines := by
      rcases tsoPacket_cases hp with ⟨_, hfree, _, _⟩ | ⟨hidx, _⟩
      · exact (getFreeDMAEngine_some hfree).1
      · exact hk.engine e hidx
    refine ⟨⟨order ++ [e],
      h.withSteady.setPkt (h.withSteady.beginProcessing hq.1 hq hlt hdesc hu) e _⟩, ?_⟩
    intro j hj
    obtain rfl := Option.some.inj hj
    exact hlt

theorem takeContexts_keeps_cache (hd : s.takesDirectly (.processContextDesc env) = true →
      ∀ order, DescCacheGlobal.Processing cfg order s.toDescCacheGlobal → direct order) :
    Kept cfg Q (takeContexts s.unusedCache s) := by
  cases hdirect : s.takesDirectly (.processContextDesc env) with
  | false => rwa [takeContexts_eq_self hdirect]
  | true =>
    obtain ⟨order, hq⟩ := hk.cache
    have hdir := hd hdirect order hq.1.processing
    have hkeep := takeContexts_keeps (P := fun u =>
        (DescCacheGlobal.Steady cfg order u.toDescCacheGlobal ∧ Q order u.toDescCacheGlobal) ∧
          ∀ e, u.tsoDMAEngineIdx = some e → e < cfg.numDMAEngines) (s := s) (by
      rintro u d rest ⟨hu, hidx⟩ huc _ _
      have heng := takeContext_engines u d
      simp only [Prod.mk.injEq] at heng
      refine ⟨?_, ?_⟩
      · rw [takeContext_base]
        exact h.withSteady.useDirectly hu hdir huc _
      · rw [heng.2.1]
        exact hidx) rfl ⟨hq, hk.engine⟩
    exact ⟨⟨order, hkeep.1⟩, hkeep.2⟩

theorem processContextDesc_keeps (hd : s.takesDirectly (.processContextDesc env) = true →
      ∀ order, DescCacheGlobal.Processing cfg order s.toDescCacheGlobal → direct order)
    (ht : s.processContextDesc env = .ok t) : Kept cfg Q t := by
  have hcontexts := takeContexts_keeps_cache h hk hd
  obtain ⟨u, hu, ht⟩ := processContextDesc_cases ht
  have hku : Kept cfg Q u := by
    rcases hu with rfl | ⟨d, rest, _, _, _, rfl⟩
    · exact hcontexts
    · exact ⟨hcontexts.cache, hcontexts.engine⟩
  rcases ht with ⟨rfl, _⟩ | ⟨d, rest, _, _, _, _, _, _, rfl⟩
  · exact hku
  · exact ⟨hku.cache, hku.engine⟩

theorem op_keeps (ha : Possible s o) (hd : s.takesDirectly o = true →
      ∀ order, DescCacheGlobal.Processing cfg order s.toDescCacheGlobal → direct order)
    (harr : ∀ e data, o = .fetchComplete e data → arrives s.toDescCacheGlobal e data)
    (htail : ∀ tail, o = .setTail tail → ∀ order, Q order s.toDescCacheGlobal →
      Q order (s.toDescCacheGlobal.setTail tail)) (hs : op cfg s o = .ok t) : Kept cfg Q t := by
  have hbase : ∀ {b}, (∃ order, DescCacheGlobal.Steady cfg order b ∧ Q order b) →
      Kept cfg Q { s with toDescCacheGlobal := b } := fun hb => ⟨hb, hk.engine⟩
  obtain ⟨order, hq⟩ := hk.cache
  cases o with
  | setTail tail =>
    cases hs
    exact hbase ⟨order, hq.1.of_same (hq.1.pools.of_same_engines rfl rfl le_rfl) rfl,
      htail tail rfl order hq.2⟩
  | fetchDescriptors =>
    obtain ⟨b, hb, rfl⟩ := onBase_eq_ok.mp hs
    exact hbase ⟨order, h.withSteady.fetchDescriptorsGlobal hq.1 hq hb⟩
  | fetchComplete e data =>
    obtain ⟨b, hb, rfl, _⟩ := fetchComplete_eq_ok.mp hs
    exact hbase ⟨order, h.withSteady.fetchComplete hq.1 hq ha.1 ha.2 (harr e data rfl) hb⟩
  | writeback mask =>
    obtain ⟨b, hb, rfl⟩ := onBase_eq_ok.mp hs
    exact hbase ⟨order, h.withSteady.writebackGlobal hq.1 hq hb⟩
  | writebackComplete e f =>
    obtain ⟨b, hb, rfl⟩ := onBase_eq_ok.mp hs
    exact hbase ⟨order, h.withSteady.writebackComplete hq.1 hq ha hb⟩
  | processContextDesc env => exact processContextDesc_keeps h hk hd hs
  | headerComplete env =>
    obtain ⟨d, rest, hu, ⟨hlen, rfl⟩ | ⟨_, rfl⟩⟩ := headerComplete_cases hs
    · have hdirect := hd (by simp [takesDirectly, hu, hlen]) order hq.1.processing
      exact ⟨⟨order, h.withSteady.useDirectly hq hdirect hu d.body⟩, hk.engine⟩
    · exact ⟨⟨order, hq⟩, hk.engine⟩
  | getPacketSize =>
    obtain ⟨⟨n, u⟩, hu, hs⟩ := bind_eq_ok.mp hs
    cases hs
    rcases getPacketSize_cases hu with ⟨_, _, rfl⟩ | ⟨d, rest, _, hcase⟩
    · exact hk
    · rcases hcase with ⟨_, _, rfl⟩ | ⟨_, _, k, _, _, rfl⟩
      · exact hk
      · exact ⟨⟨order, hq⟩, hk.engine⟩
  | getPacketData env => exact getPacketDataGlobal_keeps h hk hs
  | pktComplete env e => exact pktComplete_keeps h hk hs
  | pushReady env ok =>
    obtain ⟨i, p, b, _, _, _, hb, rfl⟩ := pushReady_cases hs
    have hset := h.withSteady.setPkt hq i none
    exact ⟨⟨order, h.withSteady.writebackGlobal hset.1 hset hb⟩, hk.engine⟩

end

end

end Moves

def plainEnv : TxEnv where
  mem := fun a => UInt8.ofNat a
  pciToDma := id
  headers := noHeaders
  wthresh := 0
  gran := false
  cacheBlockSize := 64

def twoEngines : Config :=
  ⟨8, 2, 1, Nat.two_pos, two_le_maxDMAEngineSize, Nat.one_pos, one_le_maxDMAEngineSize⟩

def frameDesc (buf : BitVec 64) : TxDesc := ⟨buf, 0x21100001⟩

/-- It starts a segmentation, and holds a header of no bytes and nothing else. -/
def headerDesc : TxDesc := ⟨0, 0xA0300000⟩

end TxDescCacheGlobal

end Gem5.IGbE
