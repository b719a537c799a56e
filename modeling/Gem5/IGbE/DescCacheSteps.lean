import Gem5.IGbE.DescCache
import Gem5.Shared.Numbered

/-!
# What the operations of a descriptor cache do

For each operation, the states it can return, under the assumption that the
arrays agree with the job queues. Later modules use these descriptions and do
not unfold the operations again.
-/

namespace Gem5.IGbE.DescCacheGlobal

open List

open DescDMAPool (release markDone setBuf)

variable {α π : Type} {cfg : Config} {s t : DescCacheGlobal α π} {e k : Nat}
  {m : BitVec 64}

theorem maxToWb_le (s : DescCacheGlobal α π) (m : BitVec 64) : s.maxToWb m ≤ s.waitingWb := by
  unfold maxToWb
  split
  · rename_i h
    have hw : s.descLen ≤ s.waitingWb + s.wb.curDMAPnt := by simpa [wbWraps] using h
    omega
  · split
    · exact le_trans Nat.and_le_left (Nat.mod_le _ _)
    · exact le_rfl

theorem add_maxToWb_le (h : s.wb.curDMAPnt < s.descLen) (m : BitVec 64) :
    s.wb.curDMAPnt + s.maxToWb m ≤ s.descLen := by
  have hle := s.maxToWb_le m
  unfold maxToWb
  by_cases hw : s.wbWraps = true
  · rw [if_pos hw]
    omega
  · have hn : ¬ s.descLen ≤ s.waitingWb + s.wb.curDMAPnt := by simpa [wbWraps] using hw
    unfold maxToWb at hle
    omega

theorem writebackGlobal_eq (hwf : s.wb.WF cfg.numDescDMAEngines)
    (hle : s.wb.curNum ≤ s.usedCache.length) : writebackGlobal cfg m s = .ok (
      if s.maxToWb m = 0 then s.noteWb m
      else match s.wb.findFree cfg.numDescDMAEngines with
        | some e => (s.noteWb m).wbStarted e (s.maxToWb m)
        | none => { s.noteWb m with moreToWb := true }) := by
  unfold writebackGlobal
  rw [simAssert_of (by simpa using hle)]
  simp only [sim_ok_bind]
  split
  · rfl
  · have hwf' : (s.noteWb m).wb.WF cfg.numDescDMAEngines := hwf
    simp only [hasFreeWbDMAEngine, getFreeWbDMAEngine, hwf'.hasFree_eq, hwf'.getFree_eq]
    change (if (s.wb.findFree cfg.numDescDMAEngines).isSome = true then _ else _) = _
    cases hf : s.wb.findFree cfg.numDescDMAEngines with
    | none => rfl
    | some e =>
      have hlek := s.maxToWb_le m
      have hfit : (s.noteWb m).wb.curNum + s.maxToWb m ≤ (s.noteWb m).usedCache.length := by
        unfold waitingWb at hlek
        change s.wb.curNum + s.maxToWb m ≤ s.usedCache.length
        omega
      have hfind : (s.noteWb m).wb.findFree cfg.numDescDMAEngines = some e := hf
      simp only [hfind, simSome_some, sim_ok_bind, startWb]
      rw [simAssert_of (decide_eq_true hfit), hwf'.start_eq (DescDMAPool.findFree_some hf).2]
      rfl

theorem writebackGlobal_cases (hwf : s.wb.WF cfg.numDescDMAEngines)
    (hle : s.wb.curNum ≤ s.usedCache.length) (h : writebackGlobal cfg m s = .ok t) :
    (s.maxToWb m = 0 ∧ t = s.noteWb m) ∨
    (∃ e, s.wb.findFree cfg.numDescDMAEngines = some e ∧ 0 < s.maxToWb m ∧
      t = (s.noteWb m).wbStarted e (s.maxToWb m)) ∨
    (s.wb.findFree cfg.numDescDMAEngines = none ∧ 0 < s.maxToWb m ∧
      t = { s.noteWb m with moreToWb := true }) := by
  rw [writebackGlobal_eq hwf hle] at h
  have ht := (eq_of_ok h rfl)
  split at ht
  · rename_i hk
    exact .inl ⟨hk, ht⟩
  · have hpos : 0 < s.maxToWb m := by omega
    cases hf : s.wb.findFree cfg.numDescDMAEngines with
    | none =>
      rw [hf] at ht
      exact .inr (Or.inr ⟨rfl, hpos, ht⟩)
    | some e =>
      rw [hf] at ht
      exact .inr (Or.inl ⟨e, rfl, hpos, ht⟩)

theorem writebackGlobal_returns (hwf : s.wb.WF cfg.numDescDMAEngines)
    (hle : s.wb.curNum ≤ s.usedCache.length) (m : BitVec 64) :
    ∃ t, writebackGlobal cfg m s = .ok t := ⟨_, writebackGlobal_eq hwf hle⟩

theorem fetchDescriptorsGlobal_eq {room : Nat} (hwf : s.fetch.WF cfg.numDescDMAEngines)
    (hroom : s.maxToFetch = .ok room) : fetchDescriptorsGlobal cfg s = .ok (
      if min room (s.freeCache cfg) = 0 then s
      else match s.fetch.findFree cfg.numDescDMAEngines with
        | some e => s.fetchStarted e (min room (s.freeCache cfg))
        | none => s) := by
  unfold fetchDescriptorsGlobal
  simp only [hroom, sim_ok_bind]
  split
  · rfl
  · simp only [hasFreeFetchDMAEngine, getFreeFetchDMAEngine, hwf.hasFree_eq, hwf.getFree_eq]
    cases hf : s.fetch.findFree cfg.numDescDMAEngines with
    | none => rfl
    | some e =>
      simp only [simSome_some, sim_ok_bind]
      rw [hwf.start_eq (DescDMAPool.findFree_some hf).2]
      rfl

theorem fetchDescriptorsGlobal_cases (hwf : s.fetch.WF cfg.numDescDMAEngines)
    (h : fetchDescriptorsGlobal cfg s = .ok t) :
    t = s ∨ ∃ e k room, s.fetch.findFree cfg.numDescDMAEngines = some e ∧ 0 < k ∧
      k ≤ room ∧ k ≤ s.freeCache cfg ∧ s.maxToFetch = .ok room ∧ t = s.fetchStarted e k := by
  obtain ⟨room, hroom, _⟩ := bind_eq_ok.mp h
  rw [fetchDescriptorsGlobal_eq hwf hroom] at h
  have ht := (eq_of_ok h rfl)
  split at ht
  · exact .inl ht
  · cases hf : s.fetch.findFree cfg.numDescDMAEngines with
    | none =>
      rw [hf] at ht
      exact .inl ht
    | some e =>
      rw [hf] at ht
      exact .inr ⟨e, _, room, rfl, by omega, Nat.min_le_left _ _, Nat.min_le_right _ _,
        hroom, ht⟩

theorem wbPop_eq (hwf : s.wb.WF cfg.numDescDMAEngines) (hm : e ∈ s.wb.jobQueue)
    (hle : s.wb.curNum ≤ s.usedCache.length) : wbPop e s = .ok (s.wbPopped e (s.wb.count e)) := by
  have hc := hwf.count_le hm
  unfold wbPop
  rw [hwf.num_eq hm]
  simp only [simSome_some, sim_ok_bind]
  rw [simAssert_of (decide_eq_true hc), simAssert_of (decide_eq_true (le_trans hc hle))]
  rfl

theorem fetchPop_eq (hwf : s.fetch.WF cfg.numDescDMAEngines) (hm : e ∈ s.fetch.jobQueue) :
    fetchPop e s = if s.cachePnt + s.fetch.count e ≤ s.descLen
      then .ok (s.fetchPopped e (s.fetch.count e)) else .error .assertion := by
  unfold fetchPop
  rw [hwf.num_eq hm]
  simp only [simSome_some, sim_ok_bind]
  rw [simAssert_of (decide_eq_true (hwf.count_le hm))]
  by_cases h : s.cachePnt + s.fetch.count e ≤ s.descLen <;> simp [h]

theorem fetchPop_ok (hwf : s.fetch.WF cfg.numDescDMAEngines) (hm : e ∈ s.fetch.jobQueue)
    (h : fetchPop e s = .ok t) :
    s.cachePnt + s.fetch.count e ≤ s.descLen ∧ t = s.fetchPopped e (s.fetch.count e) := by
  rw [fetchPop_eq hwf hm] at h
  split at h
  · rename_i hfit
    exact ⟨hfit, eq_of_ok h rfl⟩
  · cases h

/-- `d` used descriptors have left the cache through finished writebacks. -/
def wbRetired (s : DescCacheGlobal α π) (wb : DescDMAPool (Desc α)) (head d : Nat) :
    DescCacheGlobal α π :=
  { s with
    wb := wb
    usedCache := s.usedCache.drop d
    descHead := head
    hist := { s.hist with retired := s.hist.retired + d } }

/-- Between two passes of the loop of `wbCompleteGlobal`. -/
structure WbDraining (n : Nat) (s : DescCacheGlobal α π) (q : List Nat)
    (t : DescCacheGlobal α π) : Prop where
  wf : t.wb.WF n
  queue : t.wb.jobQueue = q
  suffix : q <:+ s.wb.jobQueue
  count : ∀ x ∈ q, t.wb.count x = s.wb.count x
  pnt : t.wb.curDMAPnt = s.wb.curDMAPnt
  eq : ∃ d, t = s.wbRetired t.wb t.descHead d ∧ t.wb.curNum + d = s.wb.curNum ∧
    (0 < s.descLen → (∀ x ∈ s.wb.jobQueue, s.wb.count x ≤ s.descLen) →
      s.descHead = s.hist.retired % s.descLen →
      t.descHead = (s.hist.retired + d) % s.descLen)

theorem wbDraining_start (hwf : s.wb.WF cfg.numDescDMAEngines) :
    WbDraining cfg.numDescDMAEngines s s.wb.jobQueue s where
  wf := hwf
  queue := rfl
  suffix := suffix_refl _
  count := fun _ _ => rfl
  pnt := rfl
  eq := ⟨0, by simp [wbRetired], rfl, fun _ _ h => h⟩

attribute [local simp] release

theorem wbDraining_pop {u : DescCacheGlobal α π} {rest : List Nat}
    (hle : s.wb.curNum ≤ s.usedCache.length)
    (h : WbDraining cfg.numDescDMAEngines s (e :: rest) u) (hd : u.wb.done e = true) :
    ∃ t, wbPop e u = .ok t ∧ WbDraining cfg.numDescDMAEngines s rest t := by
  obtain ⟨d, heq, hsum, hhead⟩ := h.eq
  have hm : e ∈ u.wb.jobQueue := by
    rw [h.queue]
    exact mem_cons_self
  have hc := h.wf.count_le hm
  have hused : u.usedCache = s.usedCache.drop d := by rw [heq]; rfl
  have hfit : u.wb.curNum ≤ u.usedCache.length := by
    rw [hused, length_drop]
    omega
  refine ⟨_, wbPop_eq h.wf hm hfit, ?_⟩
  have hne : ∀ x ∈ rest, x ≠ e := by
    have hnd := h.wf.nodup
    rw [h.queue] at hnd
    intro x hx hxe
    exact (nodup_cons.mp hnd).1 (hxe ▸ hx)
  constructor
  · exact h.wf.release_wf h.queue hd
  · simp [wbPopped, h.queue]
  · exact (suffix_cons e rest).trans h.suffix
  · intro x hx
    rw [← h.count x (mem_cons_of_mem e hx)]
    simp [wbPopped, DescDMAPool.count, hne x hx]
  · exact h.pnt
  · refine ⟨d + u.wb.count e, ?_, ?_, ?_⟩
    · generalize u.wb.count e = k at *
      rw [heq]
      simp [wbRetired, wbPopped, add_assoc]
    · simp only [wbPopped, release]
      omega
    · intro hlen hcounts hstart
      have hcount : u.wb.count e ≤ s.descLen := by
        rw [h.count e mem_cons_self]
        exact hcounts e (h.suffix.subset mem_cons_self)
      have hu := hhead hlen hcounts hstart
      have hulen : u.descLen = s.descLen := by rw [heq]; rfl
      simp only [wbPopped]
      rw [hu, hulen, RingIndex.advance_slot hlen hcount, add_assoc]

theorem wbRetire_spec (hwf : s.wb.WF cfg.numDescDMAEngines)
    (hle : s.wb.curNum ≤ s.usedCache.length) (hm : e ∈ s.wb.jobQueue) (hd : s.wb.done e = true)
    (hset : ∀ x, s.wb.jobQueue.head? = some x → x ≠ e → s.wb.done x = false) :
    ∃ t, wbRetire e s = .ok t ∧ t.wb.Settled ∧
      WbDraining cfg.numDescDMAEngines s t.wb.jobQueue t := by
  have hne : s.wb.jobQueue ≠ [] := ne_nil_of_mem hm
  have hstart := wbDraining_start hwf
  unfold wbRetire
  rw [simAssert_of (by simpa using hne)]
  split
  · rename_i hfront
    obtain ⟨rest, hq⟩ : ∃ rest, s.wb.jobQueue = e :: rest := by
      cases hq : s.wb.jobQueue with
      | nil => exact absurd hq hne
      | cons y rest =>
        rw [hq] at hfront
        exact ⟨rest, by rw [Option.some.inj hfront]⟩
    rw [hq] at hstart ⊢
    have go : ∀ {j rest u}, WbDraining cfg.numDescDMAEngines s (j :: rest) u →
        u.wb.done j = true → ∃ t, wbPop j u = .ok t ∧
          WbDraining cfg.numDescDMAEngines s rest t :=
      fun hu hdone => wbDraining_pop hle hu hdone
    obtain ⟨t, ht⟩ := InOrder.drainLoop_returns (r := fun u j => u.wb.done j) go hstart hd
    refine ⟨t, ht, ?_⟩
    obtain ⟨q, hkeep, hhead⟩ := InOrder.drainLoop_keeps (r := fun u j => u.wb.done j)
      (P := WbDraining cfg.numDescDMAEngines s)
      (fun hu hdone hpop => by
        obtain ⟨t', ht', hq'⟩ := go hu hdone
        rw [ht'] at hpop
        exact Except.ok.inj hpop ▸ hq') hstart hd ht
    have hqq := hkeep.queue
    rw [hqq]
    exact ⟨fun x hx => hhead x (by rwa [hqq] at hx), hkeep⟩
  · rename_i hfront
    refine ⟨s, rfl, ?_, hstart⟩
    intro x hx
    apply hset x hx
    intro hxe
    rw [hxe] at hx
    exact hfront hx

theorem wbRemaining_eq (cfg : Config) (s : DescCacheGlobal α π) :
    wbRemaining cfg s = if s.moreToWb then writebackGlobal cfg s.wbAlignment s else .ok s := rfl

/-- The end of the DMA write of engine `e` up to the point where the queue is settled again. -/
def wbFinish (e : Nat) (s : DescCacheGlobal α π) : Sim (DescCacheGlobal α π) :=
  wbRetire e { s with wb := (s.wb.clear e).markDone e }

theorem writebackComplete_eq (he : e < cfg.numDescDMAEngines) (f : Bool) :
    writebackComplete cfg e f s = (do
      let s ← wbFinish e s
      let s ← wbRemaining cfg s
      if f then fetchDescriptorsGlobal cfg s else pure s) := by
  unfold writebackComplete wbCompleteGlobal
  rw [simAssert_of (decide_eq_true he)]
  rfl

theorem writebackComplete_keeps {P Q : DescCacheGlobal α π → Prop} {f : Bool}
    (he : e < cfg.numDescDMAEngines) (retire : ∀ u, wbFinish e s = .ok u → P u)
    (skip : ∀ u, P u → u.moreToWb = false → Q u) (request : ∀ u v, P u → u.moreToWb = true →
      writebackGlobal cfg u.wbAlignment u = .ok v → Q v)
    (fetch : ∀ u v, Q u → fetchDescriptorsGlobal cfg u = .ok v → Q v)
    (h : writebackComplete cfg e f s = .ok t) : Q t := by
  rw [writebackComplete_eq he] at h
  obtain ⟨u, hu, h⟩ := bind_eq_ok.mp h
  obtain ⟨v, hv, h⟩ := bind_eq_ok.mp h
  have hq : Q v := by
    rw [wbRemaining_eq] at hv
    cases hmore : u.moreToWb with
    | false =>
      rw [hmore] at hv
      exact Except.ok.inj hv ▸ skip u (retire u hu) hmore
    | true =>
      rw [hmore] at hv
      exact request u v (retire u hu) hmore hv
  cases f with
  | false => exact Except.ok.inj h ▸ hq
  | true => exact fetch v t hq h

theorem writebackComplete_returns {P : DescCacheGlobal α π → Prop} (f : Bool)
    (he : e < cfg.numDescDMAEngines) (retire : ∃ u, wbFinish e s = .ok u ∧ P u)
    (request : ∀ u, P u → ∃ v, writebackGlobal cfg u.wbAlignment u = .ok v ∧ P v)
    (fetch : f = true → ∀ u, P u → ∃ v, fetchDescriptorsGlobal cfg u = .ok v) :
    ∃ t, writebackComplete cfg e f s = .ok t := by
  rw [writebackComplete_eq he]
  obtain ⟨u, hu, hpu⟩ := retire
  rw [hu, sim_ok_bind, wbRemaining_eq]
  obtain ⟨v, hv, hpv⟩ : ∃ v, (if u.moreToWb then writebackGlobal cfg u.wbAlignment u
      else .ok u) = .ok v ∧ P v := by
    cases u.moreToWb with
    | false => exact ⟨u, rfl, hpu⟩
    | true => exact request u hpu
  rw [hv]
  cases f with
  | false => exact ⟨v, rfl⟩
  | true => exact fetch rfl v hpv

attribute [local simp] DescDMAPool.clear markDone

theorem wbFinish_spec (hwf : s.wb.WF cfg.numDescDMAEngines) (hset : s.wb.Settled)
    (hle : s.wb.curNum ≤ s.usedCache.length) (he : s.wb.InFlight e) :
    ∃ t, wbFinish e s = .ok t ∧ t.wb.Settled ∧
      WbDraining cfg.numDescDMAEngines s t.wb.jobQueue t := by
  have hm := ((hwf.inFlight_iff e).mp he).1
  obtain ⟨t, ht, hsettled, hdrain⟩ := wbRetire_spec (e := e)
    (s := { s with wb := (s.wb.clear e).markDone e }) (hwf.finish_wf hm) hle hm
    (by simp)
    (fun x hx hxe => by simpa [hxe] using hset x hx)
  exact ⟨t, ht, hsettled, hdrain.wf, hdrain.queue, hdrain.suffix, hdrain.count, hdrain.pnt,
    hdrain.eq⟩

/-- `news` has been fetched: its descriptors are at the back of the unused cache. -/
def fetchArrived (s : DescCacheGlobal α π) (fetch : DescDMAPool α) (cachePnt : Nat)
    (news : List (Nat × Desc α)) : DescCacheGlobal α π :=
  { s with
    fetch := fetch
    unusedCache := s.unusedCache ++ news.map Prod.snd
    cachePnt := cachePnt
    hist := { s.hist with fetched := s.hist.fetched ++ news } }

attribute [local simp] fetchPopped

theorem fetchArrived_popped (s : DescCacheGlobal α π) (fetch : DescDMAPool α) (cachePnt : Nat)
    (news : List (Nat × Desc α)) (e k : Nat) :
    (s.fetchArrived fetch cachePnt news).fetchPopped e k =
      s.fetchArrived ((s.fetchArrived fetch cachePnt news).fetchPopped e k).fetch
        ((s.fetchArrived fetch cachePnt news).fetchPopped e k).cachePnt
        (news ++ arrivals ((fetch.baseIdx e).getD 0)
          (s.fetchArrived fetch cachePnt news).hist.fetched.length ((fetch.buf e).take k)) := by
  simp [fetchArrived]

def Loaded (p : DescDMAPool α) : Prop := ∀ e, p.done e = true → (p.buf e).length = p.count e

/-- The fetch blocks start where `cachePnt` stands, which is after `first` descriptors. -/
def FetchOnRing (s : DescCacheGlobal α π) (first : Nat) : Prop :=
  0 < s.descLen ∧ s.cachePnt = first % s.descLen ∧
    s.fetch.Blocks s.descLen first s.fetch.jobQueue

/-- Between two passes of the loop of `fetchCompleteGlobal`. -/
structure FetchDraining (n : Nat) (s : DescCacheGlobal α π) (q : List Nat)
    (t : DescCacheGlobal α π) : Prop where
  wf : t.fetch.WF n
  loaded : Loaded t.fetch
  queue : t.fetch.jobQueue = q
  pnt : t.fetch.curDMAPnt = s.fetch.curDMAPnt
  eq : ∃ news, t = s.fetchArrived t.fetch t.cachePnt news ∧
    t.fetch.curNum + news.length = s.fetch.curNum ∧
    Numbered (fun x => x.2.origin) s.hist.fetched.length news ∧
    (FetchOnRing s s.hist.fetched.length →
      FetchOnRing t t.hist.fetched.length ∧ ∀ x ∈ news, x.1 = x.2.origin % s.descLen)

theorem fetchDraining_start (hwf : s.fetch.WF cfg.numDescDMAEngines) (hl : Loaded s.fetch) :
    FetchDraining cfg.numDescDMAEngines s s.fetch.jobQueue s where
  wf := hwf
  loaded := hl
  queue := rfl
  pnt := rfl
  eq := ⟨[], by simp [fetchArrived], rfl, Numbered.nil, fun h => ⟨h, by simp⟩⟩

theorem arrivals_length (base first : Nat) (bodies : List α) :
    (arrivals base first bodies).length = bodies.length := by simp [arrivals]

theorem arrivals_numbered (base first : Nat) (bodies : List α) :
    Numbered (fun x => x.2.origin) first (arrivals base first bodies) := by
  apply Numbered.of_getElem
  intro k hk
  simp [arrivals]

theorem arrivals_slot {base len : Nat} (first : Nat) {bodies : List α} (hbase : base = first % len)
    (hfit : base + bodies.length ≤ len) :
    ∀ x ∈ arrivals base first bodies, x.1 = x.2.origin % len := by
  intro x hx
  obtain ⟨i, hi, rfl⟩ := mem_mapIdx.mp hx
  subst hbase
  exact (RingIndex.slot_add (by omega)).symm

theorem fetchDraining_pop {u : DescCacheGlobal α π} {rest : List Nat}
    (h : FetchDraining cfg.numDescDMAEngines s (e :: rest) u) (hd : u.fetch.done e = true)
    (hpop : fetchPop e u = .ok t) : FetchDraining cfg.numDescDMAEngines s rest t := by
  have hm : e ∈ u.fetch.jobQueue := by
    rw [h.queue]
    exact mem_cons_self
  obtain ⟨hfit, rfl⟩ := fetchPop_ok h.wf hm hpop
  obtain ⟨news, heq, hsum, hnum, hring⟩ := h.eq
  have hc := h.wf.count_le hm
  have hne : ∀ x ∈ rest, x ≠ e := by
    have hnd := h.wf.nodup
    rw [h.queue] at hnd
    intro x hx hxe
    exact (nodup_cons.mp hnd).1 (hxe ▸ hx)
  have hlen : ((u.fetch.buf e).take (u.fetch.count e)).length = u.fetch.count e := by
    rw [length_take, h.loaded e hd, Nat.min_self]
  have hfetched : u.hist.fetched = s.hist.fetched ++ news := by rw [heq]; rfl
  constructor
  · exact h.wf.release_wf h.queue hd
  · intro x hx
    by_cases hxe : x = e
    · simp [hxe] at hx
    · have hx' : u.fetch.done x = true := by
        simpa [hxe] using hx
      simpa [DescDMAPool.count, hxe] using h.loaded x hx'
  · simp [h.queue]
  · exact h.pnt
  · refine ⟨news ++ arrivals ((u.fetch.baseIdx e).getD 0) u.hist.fetched.length
      ((u.fetch.buf e).take (u.fetch.count e)), ?_, ?_, ?_, ?_⟩
    · have hpopped := fetchArrived_popped s u.fetch u.cachePnt news e (u.fetch.count e)
      rw [← heq] at hpopped
      exact hpopped
    · rw [length_append, arrivals_length]
      simp only [fetchPopped, release]
      omega
    · rw [Numbered.append_iff, hfetched, length_append]
      exact ⟨hnum, arrivals_numbered _ _ _⟩
    · intro hstart
      obtain ⟨⟨hpos, hpnt, hblocks⟩, hslots⟩ := hring hstart
      rw [h.queue] at hblocks
      obtain ⟨hbase, hblock, hrest⟩ := hblocks
      have hulen : u.descLen = s.descLen := by rw [heq]; rfl
      have htotal : (u.fetchPopped e (u.fetch.count e)).hist.fetched.length =
          u.hist.fetched.length + u.fetch.count e := by
        simp only [fetchPopped, length_append, arrivals_length, hlen]
      refine ⟨⟨hpos, ?_, ?_⟩, ?_⟩
      · rw [htotal]
        simp only [fetchPopped]
        rw [hpnt, ← RingIndex.advance_slot hpos (by omega)]
        unfold RingIndex.advance
        split
        · rw [if_pos (by omega)]
          omega
        · rw [if_neg (by omega)]
      · rw [htotal]
        have hq : (u.fetchPopped e (u.fetch.count e)).fetch.jobQueue = rest := by
          simp [h.queue]
        rw [hq]
        apply DescDMAPool.blocks_congr _ _ hrest
        · intro x hx
          simp [hne x hx]
        · intro x hx
          simp [DescDMAPool.count, hne x hx]
      · intro x hx
        rcases mem_append.mp hx with hx | hx
        · exact hslots x hx
        · rw [hbase] at hx
          rw [← hulen]
          apply arrivals_slot u.hist.fetched.length rfl _ x (by simpa using hx)
          rw [hlen]
          exact hblock

/-- Engine `e` has its data; the queue has not been looked at yet. -/
def fetchLanded (s : DescCacheGlobal α π) (e : Nat) (data : List α) : DescCacheGlobal α π :=
  { s with fetch := ((s.fetch.setBuf e data).clear e).markDone e }

theorem fetchOnRing_landed {data : List α} {first : Nat} (h : FetchOnRing s first) :
    FetchOnRing (s.fetchLanded e data) first := by
  refine ⟨h.1, h.2.1, ?_⟩
  apply DescDMAPool.blocks_congr (p := s.fetch) _ _ h.2.2
  · intro x _
    rfl
  · intro x _
    rfl

theorem fetchDraining_of_landed {data : List α} {n : Nat} {q : List Nat}
    (h : FetchDraining n (s.fetchLanded e data) q t) : FetchDraining n s q t := by
  obtain ⟨news, heq, hsum, hnum, hring⟩ := h.eq
  exact ⟨h.wf, h.loaded, h.queue, h.pnt, news, heq, hsum, hnum,
    fun hs => hring (fetchOnRing_landed hs)⟩

theorem fetchComplete_eq {data : List α} (he : e < cfg.numDescDMAEngines)
    (hm : e ∈ s.fetch.jobQueue) : fetchComplete cfg e data s =
      if s.fetch.jobQueue.head? = some e then
        InOrder.drainLoop fetchPop (fun s j => s.fetch.done j) s.fetch.jobQueue
          (s.fetchLanded e data) else .ok (s.fetchLanded e data) := by
  have hne : (!s.fetch.jobQueue.isEmpty) = true := by simpa using ne_nil_of_mem hm
  unfold fetchComplete fetchCompleteGlobal
  rw [simAssert_of (decide_eq_true he)]
  change (simAssert (!s.fetch.jobQueue.isEmpty) >>= _) = _
  rw [simAssert_of hne]
  rfl

section FetchComplete
variable {data : List α} (hwf : s.fetch.WF cfg.numDescDMAEngines) (hset : s.fetch.Settled)
  (hl : Loaded s.fetch) (he : s.fetch.InFlight e) (hdata : data.length = s.fetch.requested e)
include hwf hl he hdata

attribute [local simp] fetchLanded

theorem fetchDraining_landed :
    FetchDraining cfg.numDescDMAEngines (s.fetchLanded e data) s.fetch.jobQueue
      (s.fetchLanded e data) := by
  obtain ⟨hm, hunfinished⟩ := (hwf.inFlight_iff e).mp he
  rw [hwf.busy hm hunfinished] at hdata
  apply fetchDraining_start
  · exact (hwf.setBuf_wf data).finish_wf hm
  · intro x hx
    by_cases hxe : x = e
    · subst hxe
      simpa [setBuf, DescDMAPool.count] using hdata
    · have hdx : s.fetch.done x = true := by
        simpa [setBuf, hxe] using hx
      simpa [setBuf, DescDMAPool.count, hxe] using hl x hdx

include hset

theorem fetchComplete_spec (h : fetchComplete cfg e data s = .ok t) :
    t.fetch.Settled ∧ FetchDraining cfg.numDescDMAEngines s t.fetch.jobQueue t := by
  obtain ⟨hm, hd⟩ := (hwf.inFlight_iff e).mp he
  have hstart := fetchDraining_landed hwf hl he hdata
  rw [fetchComplete_eq (hwf.lt hm) hm] at h
  split at h
  · rename_i hfront
    obtain ⟨rest, hq⟩ := List.head?_eq_some_iff.mp hfront
    rw [hq] at h hstart
    have hdone : (s.fetchLanded e data).fetch.done e = true := by
      simp
    obtain ⟨q, hkeep, hhead⟩ := InOrder.drainLoop_keeps (r := fun u j => u.fetch.done j)
      (P := FetchDraining cfg.numDescDMAEngines (s.fetchLanded e data))
      (fun hu hdone hpop => fetchDraining_pop hu hdone hpop) hstart hdone h
    have hqq := hkeep.queue
    rw [hqq]
    exact ⟨fun x hx => hhead x (by rwa [hqq] at hx), fetchDraining_of_landed hkeep⟩
  · rename_i hfront
    rw [← Except.ok.inj h]
    refine ⟨?_, fetchDraining_of_landed hstart⟩
    intro x hx
    have hxe : x ≠ e := fun hxe => hfront (hxe ▸ hx)
    simpa [setBuf, hxe]
      using hset x hx

omit hset

theorem fetchComplete_returns (hring : FetchOnRing s s.hist.fetched.length) :
    ∃ t, fetchComplete cfg e data s = .ok t := by
  obtain ⟨hm, hd⟩ := (hwf.inFlight_iff e).mp he
  have hstart := fetchDraining_landed hwf hl he hdata
  have hdone : (s.fetchLanded e data).fetch.done e = true := by
    simp
  rw [fetchComplete_eq (hwf.lt hm) hm]
  split
  · rename_i hfront
    obtain ⟨rest, hq⟩ := List.head?_eq_some_iff.mp hfront
    rw [hq] at hstart ⊢
    apply InOrder.drainLoop_returns (r := fun u j => u.fetch.done j)
      (P := FetchDraining cfg.numDescDMAEngines (s.fetchLanded e data)) _ hstart hdone
    intro j rest u hu hj
    have hmem : j ∈ u.fetch.jobQueue := by
      rw [hu.queue]
      exact mem_cons_self
    obtain ⟨news, heq, _, _, hon⟩ := hu.eq
    obtain ⟨⟨_, hpnt, hblocks⟩, _⟩ := hon (fetchOnRing_landed hring)
    rw [hu.queue] at hblocks
    have hpop : fetchPop j u = .ok (u.fetchPopped j (u.fetch.count j)) := by
      rw [fetchPop_eq hu.wf hmem, if_pos (by rw [hpnt]; exact hblocks.2.1)]
    exact ⟨_, hpop, fetchDraining_pop hu hj hpop⟩
  · exact ⟨_, rfl⟩

end FetchComplete

end Gem5.IGbE.DescCacheGlobal
