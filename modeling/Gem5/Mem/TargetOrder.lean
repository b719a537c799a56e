import Gem5.Mem.TargetList
import Mathlib.Data.List.TakeWhile

/-!
# The order of the targets of an MSHR

A run records the CPU targets given to the MSHR and the batches extracted from it. A response
promotes what it may, extracts a batch and promotes deferred targets, as the cache does; then the
MSHR waits for service again, or has ended.
-/

namespace Gem5.Mem

open List

def Target.cpu (t : Target) : Bool := t.source == .fromCPU

def cpuOrders (ts : List Target) : List Nat := (ts.filter Target.cpu).map Target.order

structure TargetRun where
  mshr : MSHR
  given : List Nat
  batches : List (List Target)

namespace TargetRun

def batch (withInvalidate : Bool) (ts : List Target) : List Target :=
  if withInvalidate then ts.take 1 ++ ts.tail.filter fun t => !t.cpu else ts

inductive Act where
  | allocateTarget (t : Target)
  | handleSnoop (t : Target)
  | markInService (pendingModifiedResp : Bool)
  | downstream (pending : Bool)
  | forward (isForward : Bool)
  /-- The block is readable or writable when the response has been handled. -/
  | respond (withInvalidate isReadable isWritable : Bool)

variable (blkSize : Nat)

def allocate (t : Target) : TargetRun where
  mshr := .allocate blkSize t
  given := cpuOrders (MSHR.allocate blkSize t).targets.ts
  batches := []

def promote (s : MSHR) (isReadable isWritable : Bool) : Sim MSHR :=
  (if isReadable then s.promoteReadable blkSize else pure s) >>= fun s =>
    if isWritable then s.promoteWritable blkSize else pure s

/-- The targets that are left wait for another service. -/
def resume (s : MSHR) : Sim MSHR :=
  if s.targets.ts.isEmpty && s.deferredTargets.ts.isEmpty then pure s
  else (s.promoteDeferredTargets blkSize).markPending

def respond (r : TargetRun) (withInvalidate isReadable isWritable : Bool) : Sim TargetRun := do
  let s ← promote blkSize r.mshr isReadable isWritable
  let t ← s.extractServiceableTargets blkSize withInvalidate
  let t ← resume blkSize t
  pure ⟨t, r.given, r.batches ++ [batch withInvalidate s.targets.ts]⟩

def step (r : TargetRun) : Act → Sim TargetRun
  | .allocateTarget t => do
    let s ← r.mshr.allocateTarget t
    pure ⟨s, r.given ++ [t.order], r.batches⟩
  | .handleSnoop t => do
    let s ← r.mshr.handleSnoop t
    pure ⟨s, r.given, r.batches⟩
  | .markInService p => do
    let s ← r.mshr.markInService p
    pure ⟨s, r.given, r.batches⟩
  | .downstream p => pure ⟨{ r.mshr with downstreamPending := p }, r.given, r.batches⟩
  | .forward f => pure ⟨{ r.mshr with isForward := f }, r.given, r.batches⟩
  | .respond i rd wr => r.respond blkSize i rd wr

def Plain (ts : List Target) : Prop :=
  ∀ t ∈ ts, t.cpu = true → t.pkt.isCacheMaintenance = false

def Act.Apart (r : TargetRun) : Act → Prop
  | .respond _ rd wr => ∀ s, promote blkSize r.mshr rd wr = .ok s →
    s.targets.ts = r.mshr.targets.ts ∨ Plain s.targets.ts
  | _ => True

def Ordered (r : TargetRun) : Prop :=
  cpuOrders r.batches.flatten ++ cpuOrders r.mshr.targets.ts ++
    cpuOrders r.mshr.deferredTargets.ts = r.given

def Alone (ts : List Target) : Prop :=
  ∀ t ∈ ts, t.cpu = true → t.pkt.isCacheMaintenance = true → ts.filter Target.cpu = [t]

variable {blkSize : Nat} {s u : MSHR} {r q : TargetRun}

section Lists

theorem cpuOrders_append (ts us : List Target) :
    cpuOrders (ts ++ us) = cpuOrders ts ++ cpuOrders us := by
  rw [cpuOrders, filter_append, map_append, cpuOrders, cpuOrders]

theorem cpu_replaceUpgrade (ts : List Target) : (ts.map Target.replaceUpgrade).filter Target.cpu =
    (ts.filter Target.cpu).map Target.replaceUpgrade := by
  rw [filter_map]
  rfl

theorem cpuOrders_replaceUpgrades (l : TargetList) :
    cpuOrders l.replaceUpgrades.ts = cpuOrders l.ts := by
  unfold TargetList.replaceUpgrades
  split
  · rw [cpuOrders, cpu_replaceUpgrade, map_map]
    rfl
  · rfl

theorem cpuOrders_batch (i : Bool) (ts : List Target) :
    cpuOrders (batch i ts) ++ cpuOrders (MSHR.remaining i ts) = cpuOrders ts := by
  cases i with
  | false => exact append_nil _
  | true =>
    have hnone : cpuOrders (ts.tail.filter fun t => !t.cpu) = [] := by
      rw [cpuOrders]
      simp
    have hall : cpuOrders (ts.tail.filter fun t => t.source == .fromCPU) = cpuOrders ts.tail := by
      rw [cpuOrders, filter_filter]
      congr 1
      apply filter_congr
      intro t _
      exact Bool.and_self t.cpu
    change cpuOrders (ts.take 1 ++ ts.tail.filter fun t => !t.cpu) ++
      cpuOrders (ts.tail.filter fun t => t.source == .fromCPU) = _
    rw [cpuOrders_append, hnone, hall, append_nil, ← cpuOrders_append]
    cases ts <;> rfl

end Lists

def held (s : MSHR) : List Nat := cpuOrders s.targets.ts ++ cpuOrders s.deferredTargets.ts

section Held

theorem held_allocateTarget {t : Target} (h : s.allocateTarget t = .ok u) :
    held u = held s ++ [t.order] := by
  obtain ⟨_, _, h⟩ := bind_eq_ok.mp h
  obtain ⟨first, _, h⟩ := bind_eq_ok.mp h
  split at h
  · cases h
    change _ ++ cpuOrders (_ ++ [_]) = _
    rw [cpuOrders_append, held, append_assoc]
    congr 2
    split <;> rfl
  · rename_i hdefer
    cases h
    simp only [Bool.or_eq_true, not_or, Bool.not_eq_true', Bool.not_eq_false] at hdefer
    have hempty : s.deferredTargets.ts = [] := List.isEmpty_iff.mp (by simpa using hdefer.1.2)
    change cpuOrders (_ ++ [_]) ++ cpuOrders s.deferredTargets.ts = _
    rw [held, hempty]
    simp [cpuOrders, Target.cpu]

theorem targets_replaceDeferred (gone : Bool) : (s.replaceDeferred gone).targets = s.targets := by
  unfold MSHR.replaceDeferred
  split <;> rfl

theorem deferred_replaceDeferred (gone : Bool) :
    (s.replaceDeferred gone).deferredTargets = s.deferredTargets ∨
      (s.replaceDeferred gone).deferredTargets = s.deferredTargets.replaceUpgrades := by
  unfold MSHR.replaceDeferred
  split
  · exact .inr rfl
  · exact .inl rfl

def snoopTarget (t : Target) : Target := { t with source := .fromSnoop, allocOnFill := false }

theorem saveSnoop_spec (t : Target) : (s.saveSnoop t).deferredTargets = s.deferredTargets ∧
    ((s.saveSnoop t).targets = s.targets ∨
      (s.saveSnoop t).targets = s.targets.add (snoopTarget t)) := by
  unfold MSHR.saveSnoop
  split
  · exact ⟨rfl, .inr rfl⟩
  · exact ⟨rfl, .inl rfl⟩

theorem handleSnoop_spec {t : Target} (h : s.handleSnoop t = .ok u) :
    (u.targets = s.targets ∨ u.targets = s.targets.replaceUpgrades ∨
      u.targets = s.targets.add (snoopTarget t)) ∧ (u.deferredTargets = s.deferredTargets ∨
      u.deferredTargets = s.deferredTargets.replaceUpgrades) := by
  unfold MSHR.handleSnoop at h
  split at h
  · cases h
  split at h
  · cases h
    refine ⟨?_, deferred_replaceDeferred _⟩
    simp only [targets_replaceDeferred]
    split
    · exact .inr (.inl rfl)
    · exact .inl rfl
  · obtain ⟨first, _, h⟩ := bind_eq_ok.mp h
    split at h
    · cases h
      exact ⟨.inl (targets_replaceDeferred _), deferred_replaceDeferred _⟩
    · cases h
      obtain ⟨hdef, hts⟩ := saveSnoop_spec
        (s := s.replaceDeferred (t.pkt.needsWritable || t.pkt.isCacheInvalidate)) t
      refine ⟨?_, ?_⟩
      · rw [targets_replaceDeferred] at hts
        exact hts.imp_right .inr
      · exact hdef ▸ deferred_replaceDeferred _

theorem held_handleSnoop {t : Target} (h : s.handleSnoop t = .ok u) : held u = held s := by
  obtain ⟨hts, hdef⟩ := handleSnoop_spec h
  have htargets : cpuOrders u.targets.ts = cpuOrders s.targets.ts := by
    rcases hts with hts | hts | hts <;> rw [hts]
    · exact cpuOrders_replaceUpgrades s.targets
    · exact (cpuOrders_append _ _).trans (append_nil _)
  have hdeferred : cpuOrders u.deferredTargets.ts = cpuOrders s.deferredTargets.ts := by
    rcases hdef with hdef | hdef <;> rw [hdef]
    exact cpuOrders_replaceUpgrades s.deferredTargets
  rw [held, htargets, hdeferred, held]

theorem held_promoteIf {pred : Target → Bool} (h : s.promoteIf blkSize pred = .ok u) :
    held u = held s := by
  obtain ⟨_, _, rfl⟩ := map_eq_ok.mp h
  change cpuOrders (_ ++ _) ++ cpuOrders (s.deferredTargets.ts.dropWhile pred) = _
  rw [cpuOrders_append, append_assoc, ← cpuOrders_append, takeWhile_append_dropWhile, held]

theorem held_promoteReadable (h : s.promoteReadable blkSize = .ok u) : held u = held s := by
  unfold MSHR.promoteReadable at h
  split at h
  · exact held_promoteIf h
  · cases h
    rfl

theorem held_promoteWritable (h : s.promoteWritable blkSize = .ok u) : held u = held s := by
  unfold MSHR.promoteWritable at h
  split at h
  · obtain ⟨_, _, h⟩ := bind_eq_ok.mp h
    exact (held_promoteIf h).trans rfl
  · cases h
    rfl

theorem resume_spec (h : resume blkSize s = .ok u) :
    (u.targets, u.deferredTargets) = ((s.promoteDeferredTargets blkSize).targets,
      (s.promoteDeferredTargets blkSize).deferredTargets) := by
  unfold resume at h
  split at h
  · rename_i hempty
    cases h
    rw [MSHR.promoteDeferredTargets, if_pos hempty]
  · obtain ⟨_, _, rfl⟩ := map_eq_ok.mp h
    rfl

theorem held_resume (h : resume blkSize s = .ok u) : held u = held s := by
  obtain ⟨hts, hdef⟩ := Prod.mk.inj (resume_spec h)
  rw [held, hts, hdef]
  unfold MSHR.promoteDeferredTargets
  split
  · rfl
  · change cpuOrders (_ ++ _) ++ cpuOrders (s.deferredTargets.ts.drop _) = _
    rw [cpuOrders_append, append_assoc, ← cpuOrders_append, take_append_drop, held]

end Held

section Order

theorem held_promote {rd wr : Bool} (h : promote blkSize s rd wr = .ok u) : held u = held s := by
  obtain ⟨v, hv, hu⟩ := bind_eq_ok.mp h
  have hfirst : held v = held s := by
    split at hv
    · exact held_promoteReadable hv
    · cases hv
      rfl
  split at hu
  · exact (held_promoteWritable hu).trans hfirst
  · cases hu
    exact hfirst

theorem extract_spec {i : Bool} (h : s.extractServiceableTargets blkSize i = .ok u) :
    u.targets.ts = MSHR.remaining i s.targets.ts ∧ u.deferredTargets = s.deferredTargets := by
  obtain ⟨_, _, h⟩ := bind_eq_ok.mp h
  obtain ⟨_, _, rfl⟩ := map_eq_ok.mp h
  exact ⟨rfl, rfl⟩

theorem Ordered.of_held {s : MSHR} (h : r.Ordered) (hs : held s = held r.mshr) :
    Ordered ⟨s, r.given, r.batches⟩ := by
  unfold Ordered at h ⊢
  rw [append_assoc] at h ⊢
  exact (congrArg _ hs).trans h

theorem Ordered.respond {i rd wr : Bool} (h : r.Ordered) (hs : r.respond blkSize i rd wr = .ok q) :
    q.Ordered := by
  obtain ⟨s, hprom, hs⟩ := bind_eq_ok.mp hs
  obtain ⟨u, hext, hs⟩ := bind_eq_ok.mp hs
  obtain ⟨v, hres, rfl⟩ := map_eq_ok.mp hs
  obtain ⟨hts, hdef⟩ := extract_spec hext
  have hrest : held v =
      cpuOrders (MSHR.remaining i s.targets.ts) ++ cpuOrders s.deferredTargets.ts := by
    rw [held_resume hres, held, hts, hdef]
  have hall : cpuOrders r.batches.flatten ++ held s = r.given := by
    rw [held_promote hprom, held, ← append_assoc]
    exact h
  change cpuOrders (r.batches ++ [batch i s.targets.ts]).flatten ++ _ ++ _ = r.given
  rw [append_assoc]
  change _ ++ held v = _
  rw [hrest, flatten_append, cpuOrders_append, append_assoc, flatten_singleton,
    ← append_assoc (cpuOrders (batch i s.targets.ts)), cpuOrders_batch]
  exact hall

theorem Ordered.step {a : Act} (h : r.Ordered) (hs : r.step blkSize a = .ok q) : q.Ordered := by
  cases a with
  | allocateTarget t =>
    obtain ⟨s, halloc, rfl⟩ := map_eq_ok.mp hs
    unfold Ordered at h ⊢
    rw [append_assoc] at h ⊢
    change _ ++ held s = _
    rw [held_allocateTarget halloc, ← append_assoc, ← h]
    rfl
  | handleSnoop t =>
    obtain ⟨s, hsnoop, rfl⟩ := map_eq_ok.mp hs
    exact h.of_held (held_handleSnoop hsnoop)
  | markInService p =>
    obtain ⟨s, hmark, rfl⟩ := map_eq_ok.mp hs
    obtain ⟨_, _, rfl⟩ := map_eq_ok.mp hmark
    exact h.of_held rfl
  | downstream p | forward f =>
    cases hs
    exact h.of_held rfl
  | respond i rd wr => exact h.respond hs

end Order

section Purity

def Leads (ts : List Target) : Prop :=
  ∀ t ∈ ts, t.cpu = true → t.pkt.isCacheMaintenance = true →
    ts.head? = some t ∧ ts.filter Target.cpu = [t]

theorem Plain.leads {ts : List Target} (h : Plain ts) : Leads ts := by
  intro t ht hcpu hm
  rw [h t ht hcpu] at hm
  cases hm

theorem Leads.append {ts us : List Target} (h : Leads ts) (hus : Plain us)
    (hfree : us.filter Target.cpu = [] ∨ ∀ t ∈ ts.head?, t.pkt.isCacheMaintenance = false) :
    Leads (ts ++ us) := by
  intro t ht hcpu hm
  rcases mem_append.mp ht with hin | hin
  · obtain ⟨hhead, hfilter⟩ := h t hin hcpu hm
    rcases hfree with hnone | hno
    · refine ⟨?_, ?_⟩
      · rw [List.head?_append, hhead]
        rfl
      · rw [filter_append, hnone, append_nil, hfilter]
    · rw [hno t hhead] at hm
      cases hm
  · rw [hus t hin hcpu] at hm
    cases hm

theorem Leads.replaceUpgrades {l : TargetList} (h : Leads l.ts) : Leads l.replaceUpgrades.ts := by
  unfold TargetList.replaceUpgrades
  split
  · intro t ht hcpu hm
    obtain ⟨u, hu, rfl⟩ := mem_map.mp ht
    obtain ⟨hhead, hfilter⟩ := h u hu hcpu hm
    exact ⟨by rw [List.head?_map, hhead]; rfl, by rw [cpu_replaceUpgrade, hfilter]; rfl⟩
  · exact h

theorem Leads.remaining {ts : List Target} (h : Leads ts) (i : Bool) :
    Plain (MSHR.remaining i ts) := by
  intro t ht hcpu
  cases i with
  | false => cases ht
  | true =>
    by_contra hm
    obtain ⟨htail, -⟩ := mem_filter.mp ht
    obtain ⟨hhead, hfilter⟩ := h t (mem_of_mem_tail htail) hcpu (by simpa using hm)
    cases ts with
    | nil => cases hhead
    | cons u us =>
      obtain rfl := Option.some.inj hhead
      rw [filter_cons_of_pos hcpu, List.cons.injEq] at hfilter
      have hin : u ∈ us.filter Target.cpu := mem_filter.mpr ⟨htail, hcpu⟩
      rw [hfilter.2] at hin
      cases hin

theorem Leads.batch {ts : List Target} (h : Leads ts) (i : Bool) : Alone (batch i ts) := by
  intro t ht hcpu hm
  cases i with
  | false => exact (h t ht hcpu hm).2
  | true =>
    have hnone : (ts.tail.filter fun t => !t.cpu).filter Target.cpu = [] := by
      simp
    change (ts.take 1 ++ ts.tail.filter fun t => !t.cpu).filter Target.cpu = [t]
    rw [filter_append, hnone, append_nil]
    rcases mem_append.mp ht with hin | hin
    · cases ts with
      | nil => cases hin
      | cons u us =>
        obtain rfl := mem_singleton.mp hin
        exact filter_cons_of_pos hcpu
    · have hnot := (mem_filter.mp hin).2
      rw [hcpu] at hnot
      cases hnot

theorem Plain.append {ts us : List Target} (h : Plain ts) (k : Plain us) : Plain (ts ++ us) := by
  intro t ht
  rcases mem_append.mp ht with hin | hin
  · exact h t hin
  · exact k t hin

theorem plain_before (ts : List Target) :
    Plain (ts.take (ts.takeWhile fun t => !t.pkt.isCacheMaintenance).length) := by
  intro t ht _
  have htake : ts.take (ts.takeWhile fun t => !t.pkt.isCacheMaintenance).length =
      ts.takeWhile fun t => !t.pkt.isCacheMaintenance := by
    conv_lhs =>
      arg 2
      rw [← takeWhile_append_dropWhile
        (p := fun t : Target => !t.pkt.isCacheMaintenance) (l := ts)]
    exact take_left
  rw [htake] at ht
  have hnot := mem_takeWhile_imp (p := fun t : Target => !t.pkt.isCacheMaintenance) ht
  exact (Bool.not_eq_true' _).mp hnot

theorem leads_first (ts : List Target) : Leads (ts.take 1) := by
  intro t ht hcpu _
  cases ts with
  | nil => cases ht
  | cons u us =>
    obtain rfl := mem_singleton.mp ht
    exact ⟨rfl, filter_cons_of_pos hcpu⟩

theorem leads_promoteDeferred (h : Plain s.targets.ts) :
    Leads (s.promoteDeferredTargets blkSize).targets.ts := by
  unfold MSHR.promoteDeferredTargets
  split
  · exact h.leads
  · simp only [MSHR.promotable]
    by_cases hnone : (s.deferredTargets.ts.takeWhile fun t => !t.pkt.isCacheMaintenance).length = 0
    · rw [if_pos hnone]
      split
      · rename_i hempty
        rw [List.isEmpty_iff.mp hempty]
        exact leads_first _
      · rw [take_zero, append_nil]
        exact h.leads
    · rw [if_neg hnone]
      exact (h.append (plain_before _)).leads

theorem leads_allocateTarget {t : Target} (h : Leads s.targets.ts)
    (hs : s.allocateTarget t = .ok u) : Leads u.targets.ts := by
  obtain ⟨_, _, hs⟩ := bind_eq_ok.mp hs
  obtain ⟨first, hfirst, hs⟩ := bind_eq_ok.mp hs
  split at hs
  · cases hs
    exact h
  · rename_i hdefer
    cases hs
    simp only [Bool.or_eq_true, not_or, Bool.not_eq_true] at hdefer
    refine h.append (fun v hv _ => ?_) (.inr fun v hv => ?_)
    · rw [mem_singleton.mp hv]
      exact hdefer.1.1.1
    · unfold MSHR.front at hfirst
      split at hfirst
      · rename_i hts
        cases hfirst
        rw [hts] at hv
        obtain rfl := Option.some.inj hv
        exact hdefer.1.1.2
      · cases hfirst

theorem leads_handleSnoop {t : Target} (h : Leads s.targets.ts) (hs : s.handleSnoop t = .ok u) :
    Leads u.targets.ts := by
  rcases (handleSnoop_spec hs).1 with hts | hts | hts <;> rw [hts]
  · exact h
  · exact h.replaceUpgrades
  · refine h.append (fun v hv hcpu => ?_) (.inl rfl)
    rw [mem_singleton.mp hv] at hcpu
    cases hcpu

structure Separate (r : TargetRun) : Prop where
  targets : Leads r.mshr.targets.ts
  batches : ∀ b ∈ r.batches, Alone b

theorem Separate.respond {i rd wr : Bool} (h : r.Separate)
    (hapart : Act.Apart blkSize r (.respond i rd wr)) (hs : r.respond blkSize i rd wr = .ok q) :
    q.Separate := by
  obtain ⟨s, hprom, hs⟩ := bind_eq_ok.mp hs
  obtain ⟨u, hext, hs⟩ := bind_eq_ok.mp hs
  obtain ⟨v, hres, rfl⟩ := map_eq_ok.mp hs
  have hlead : Leads s.targets.ts := by
    rcases hapart s hprom with hsame | hplain
    · rw [hsame]
      exact h.targets
    · exact hplain.leads
  refine ⟨?_, fun b hb => ?_⟩
  · change Leads v.targets.ts
    rw [(Prod.mk.inj (resume_spec hres)).1]
    apply leads_promoteDeferred
    rw [(extract_spec hext).1]
    exact hlead.remaining i
  · rcases mem_append.mp hb with hin | hin
    · exact h.batches b hin
    · rw [mem_singleton.mp hin]
      exact hlead.batch i

theorem Separate.step {a : Act} (h : r.Separate) (hapart : a.Apart blkSize r)
    (hs : r.step blkSize a = .ok q) : q.Separate := by
  cases a with
  | allocateTarget t =>
    obtain ⟨s, halloc, rfl⟩ := map_eq_ok.mp hs
    exact ⟨leads_allocateTarget h.targets halloc, h.batches⟩
  | handleSnoop t =>
    obtain ⟨s, hsnoop, rfl⟩ := map_eq_ok.mp hs
    exact ⟨leads_handleSnoop h.targets hsnoop, h.batches⟩
  | markInService p =>
    obtain ⟨s, hmark, rfl⟩ := map_eq_ok.mp hs
    obtain ⟨_, _, rfl⟩ := map_eq_ok.mp hmark
    exact ⟨h.targets, h.batches⟩
  | downstream p | forward f =>
    cases hs
    exact ⟨h.targets, h.batches⟩
  | respond i rd wr => exact h.respond hapart hs

end Purity

/-- In every run each CPU target given has been extracted or waits, in the order of arrival; and
a cache maintenance request is extracted apart from other CPU targets, if no response promotes
targets next to one. -/
theorem targets_in_order (blkSize : Nat) (first : Target) :
    (∀ r, Reach (step blkSize) (fun _ _ => True) (allocate blkSize first) r → r.Ordered) ∧
    ∀ r, Reach (step blkSize) (fun r a => a.Apart blkSize r) (allocate blkSize first) r →
      ∀ b ∈ r.batches, Alone b := by
  refine ⟨fun r hr => hr.invariant (P := Ordered) ?_ fun h _ hs => h.step hs, fun r hr => ?_⟩
  · exact append_nil _
  · have hstart : Separate (allocate blkSize first) :=
      ⟨leads_first (MSHR.allocate blkSize first).targets.ts, fun b hb => by cases hb⟩
    exact (hr.invariant (P := Separate) hstart fun h ha hs => h.step ha hs).batches

/-- A read behind a clean operation is served in a second round. -/
theorem targets_in_order_two_rounds : ∃ r : TargetRun, r.Ordered ∧ (∀ b ∈ r.batches, Alone b) ∧
    r.batches.map cpuOrders = [[0], [1]] := by
  obtain ⟨r, hr, hbatches⟩ := Reach.exists_of_runFrom_all (step 4) (fun _ _ => True)
    (allocate 4 (MSHR.request 0 .cleanSharedReq true false)) (fun r a => a.Apart 4 r)
    [.allocateTarget (MSHR.request 1 .readReq false true), .markInService false,
      .respond false false false, .markInService false, .respond false false false] (by
      intro a ha r _
      simp only [mem_cons, not_mem_nil, or_false] at ha
      rcases ha with rfl | rfl | rfl | rfl | rfl <;> first
        | exact trivial
        | exact fun s hs => .inl (by cases hs; rfl))
    (fun r => r.batches.map cpuOrders = [[0], [1]]) (by decide +kernel)
  obtain ⟨hordered, halone⟩ := targets_in_order 4 (MSHR.request 0 .cleanSharedReq true false)
  exact ⟨r, hordered r (hr.mono fun _ _ _ => trivial), halone r hr, hbatches⟩

/-- A read that waits behind a clean operation is promoted by its response and served with it. -/
theorem clean_with_read : ∃ r : TargetRun, Reach (step 4) (fun _ _ => True)
    (allocate 4 (MSHR.request 0 .cleanSharedReq true false)) r ∧ ∃ b ∈ r.batches, ¬Alone b := by
  obtain ⟨r, hr, hbatch⟩ := Reach.exists_of_runFrom (step 4) (fun _ _ => True)
    (allocate 4 (MSHR.request 0 .cleanSharedReq true false))
    [.allocateTarget (MSHR.request 1 .readReq false true), .markInService false,
      .respond false true false]
    (fun r => r.batches = [[MSHR.request 0 .cleanSharedReq true false,
      MSHR.request 1 .readReq false true]]) (by decide +kernel)
  refine ⟨r, hr,
    [MSHR.request 0 .cleanSharedReq true false, MSHR.request 1 .readReq false true], ?_,
    fun h => ?_⟩
  · rw [hbatch]
    exact mem_cons_self
  · exact absurd (h _ mem_cons_self rfl rfl) (by decide)

end TargetRun

end Gem5.Mem
