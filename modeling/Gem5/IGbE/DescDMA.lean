import Gem5.Shared.Sim
import Gem5.Shared.RingIndex
import Mathlib.Tactic

/-!
# Descriptor DMA engines and their job queue

`DescCacheGlobal` keeps the same set of arrays twice, once for descriptor fetches
and once for descriptor writebacks. A `DescDMAPool` is one such set. The marker
`-1` of the base and count arrays is `none`.
-/

namespace Gem5.IGbE

open List

def maxDMAEngineSize : Nat := 512

theorem one_le_maxDMAEngineSize : 1 ≤ maxDMAEngineSize := by decide

theorem two_le_maxDMAEngineSize : 2 ≤ maxDMAEngineSize := by decide

def sizeofDesc : Nat := 16

/-- `DescDMAEngine`: the request it carries, all zero while it is idle. -/
structure DescDMAEngine where
  descBase : Nat
  descLen : Nat
  numDescDMAing : Nat
  deriving DecidableEq, Repr

def DescDMAEngine.idle : DescDMAEngine := ⟨0, 0, 0⟩

/-- `fetchRegister` and `writebackRegister`. Their asserts on the two delayed
events hold exactly when the three fields are zero. -/
def DescDMAEngine.register (e : DescDMAEngine) (base len num : Nat) : Sim DescDMAEngine := do
  simAssert (e.descBase == 0)
  simAssert (e.descLen == 0)
  simAssert (e.numDescDMAing == 0)
  pure ⟨base, len, num⟩

structure DescDMAPool (β : Type) where
  engines : Nat → DescDMAEngine
  working : Nat → Bool
  done : Nat → Bool
  baseIdx : Nat → Option Nat
  num : Nat → Option Nat
  buf : Nat → List β
  jobQueue : List Nat
  curDMAPnt : Nat
  curNum : Nat

namespace DescDMAPool

variable {β : Type} {p q : DescDMAPool β} {n e k : Nat}

def fresh : DescDMAPool β where
  engines := fun _ => .idle
  working := fun _ => false
  done := fun _ => false
  baseIdx := fun _ => none
  num := fun _ => none
  buf := fun _ => []
  jobQueue := []
  curDMAPnt := 0
  curNum := 0

def findFree (n : Nat) (p : DescDMAPool β) : Option Nat :=
  (List.range n).find? fun i => !p.working i

def hasFree (n : Nat) (p : DescDMAPool β) : Sim Bool :=
  match findFree n p with
  | none => pure false
  | some i => do
    simAssert (!p.done i)
    pure true

def getFree (n : Nat) (p : DescDMAPool β) : Sim (Option Nat) :=
  match findFree n p with
  | none => pure none
  | some i => do
    simAssert (!p.done i)
    pure (some i)

/-- The arrays once engine `e` works on `k` descriptors from the current ring position on. -/
def started (p : DescDMAPool β) (ringBase ringLen e k : Nat) (data : List β) : DescDMAPool β where
  engines := Function.update p.engines e
    ⟨ringBase + p.curDMAPnt * sizeofDesc, k * sizeofDesc, k⟩
  working := Function.update p.working e true
  done := Function.update p.done e false
  baseIdx := Function.update p.baseIdx e (some p.curDMAPnt)
  num := Function.update p.num e (some k)
  buf := Function.update p.buf e data
  jobQueue := p.jobQueue ++ [e]
  curDMAPnt := RingIndex.advance ringLen p.curDMAPnt k
  curNum := p.curNum + k

def start (p : DescDMAPool β) (ringBase ringLen e k : Nat) (data : List β) :
    Sim (DescDMAPool β) := do
  let _ ← (p.engines e).register (ringBase + p.curDMAPnt * sizeofDesc) (k * sizeofDesc) k
  simAssert (!p.jobQueue.contains e)
  pure (p.started ringBase ringLen e k data)

/-- `writebackComplete` and `fetchComplete` of the engine, before they call the cache. -/
def clear (p : DescDMAPool β) (e : Nat) : DescDMAPool β :=
  { p with engines := Function.update p.engines e .idle }

def markDone (p : DescDMAPool β) (e : Nat) : DescDMAPool β :=
  { p with done := Function.update p.done e true }

def setBuf (p : DescDMAPool β) (e : Nat) (data : List β) : DescDMAPool β :=
  { p with buf := Function.update p.buf e data }

/-- The front job `e`, of `k` descriptors, leaves the queue and frees its engine. -/
def release (p : DescDMAPool β) (e k : Nat) : DescDMAPool β :=
  { p with
    working := Function.update p.working e false
    done := Function.update p.done e false
    baseIdx := Function.update p.baseIdx e none
    num := Function.update p.num e none
    jobQueue := p.jobQueue.tail
    curNum := p.curNum - k }

/-- The part of `reset` that concerns one set of arrays; the engines keep their requests. -/
def reset (p : DescDMAPool β) : DescDMAPool β :=
  { (fresh : DescDMAPool β) with engines := p.engines, buf := p.buf }

def count (p : DescDMAPool β) (e : Nat) : Nat := (p.num e).getD 0

/-- How many descriptors the DMA of engine `e` moves, zero when it has none. -/
def requested (p : DescDMAPool β) (e : Nat) : Nat := (p.engines e).numDescDMAing

def InFlight (p : DescDMAPool β) (e : Nat) : Prop := p.requested e ≠ 0

instance (p : DescDMAPool β) (e : Nat) : Decidable (p.InFlight e) :=
  inferInstanceAs (Decidable (_ ≠ _))

structure WF (n : Nat) (p : DescDMAPool β) : Prop where
  lt : ∀ {e}, e ∈ p.jobQueue → e < n
  nodup : p.jobQueue.Nodup
  working_iff : ∀ e, p.working e = true ↔ e ∈ p.jobQueue
  done_mem : ∀ {e}, p.done e = true → e ∈ p.jobQueue
  num_pos : ∀ {e}, e ∈ p.jobQueue → ∃ k, 0 < k ∧ p.num e = some k
  curNum_eq : p.curNum = (p.jobQueue.map p.count).sum
  idle : ∀ {e}, (e ∈ p.jobQueue → p.done e = true) → p.engines e = .idle
  busy : ∀ {e}, e ∈ p.jobQueue → p.done e = false → p.requested e = p.count e

def Settled (p : DescDMAPool β) : Prop := ∀ e, p.jobQueue.head? = some e → p.done e = false

/-- The queued jobs cover the ring from counter `a` on, block after block, and no
block runs past the end of the ring. -/
def Blocks (len : Nat) (p : DescDMAPool β) : Nat → List Nat → Prop
  | _, [] => True
  | a, e :: rest => p.baseIdx e = some (a % len) ∧ a % len + p.count e ≤ len ∧
      Blocks len p (a + p.count e) rest

theorem blocks_congr {len : Nat} {jobs : List Nat}
    (hb : ∀ e ∈ jobs, q.baseIdx e = p.baseIdx e) (hc : ∀ e ∈ jobs, q.count e = p.count e) :
    ∀ {a}, Blocks len p a jobs → Blocks len q a jobs := by
  induction jobs with
  | nil => exact fun _ => trivial
  | cons e rest ih =>
    rintro a ⟨hbase, hfit, hrest⟩
    refine ⟨(hb e mem_cons_self).trans hbase, ?_, ?_⟩
    · rw [hc e mem_cons_self]
      exact hfit
    · rw [hc e mem_cons_self]
      exact ih (fun x hx => hb x (mem_cons_of_mem e hx))
        (fun x hx => hc x (mem_cons_of_mem e hx)) hrest

theorem blocks_concat {len : Nat} {jobs : List Nat} :
    ∀ {a}, Blocks len p a jobs → p.baseIdx e = some ((a + (jobs.map p.count).sum) % len) →
      (a + (jobs.map p.count).sum) % len + p.count e ≤ len → Blocks len p a (jobs ++ [e]) := by
  induction jobs with
  | nil =>
    intro a _ hbase hfit
    exact ⟨by simpa using hbase, by simpa using hfit, trivial⟩
  | cons x rest ih =>
    rintro a ⟨hx, hxfit, hrest⟩ hbase hfit
    have hsum : a + ((x :: rest).map p.count).sum =
        a + p.count x + (rest.map p.count).sum := by
      simp [add_assoc]
    rw [hsum] at hbase hfit
    exact ⟨hx, hxfit, ih hrest hbase hfit⟩

attribute [local simp] fresh

theorem fresh_wf (n : Nat) : (fresh : DescDMAPool β).WF n where
  lt := by simp
  nodup := nodup_nil
  working_iff := by simp
  done_mem := by simp
  num_pos := by simp
  curNum_eq := rfl
  idle := by simp
  busy := by simp

theorem fresh_settled : (fresh : DescDMAPool β).Settled := by simp [Settled]

theorem findFree_some (h : findFree n p = some e) : e < n ∧ p.working e = false := by
  have hp := List.find?_some h
  have hm := mem_of_find?_eq_some h
  exact ⟨mem_range.mp hm, by simpa using hp⟩

theorem findFree_none (h : findFree n p = none) (he : e < n) : p.working e = true := by
  have hp := List.find?_eq_none.mp h e (mem_range.mpr he)
  simpa using hp

namespace WF

attribute [local simp] requested

section

variable (h : p.WF n)
include h

theorem not_done_of_free (he : p.working e = false) : p.done e = false := by
  cases hd : p.done e with
  | false => rfl
  | true =>
    have hw := (h.working_iff e).mpr (h.done_mem hd)
    rw [he] at hw
    cases hw

theorem hasFree_eq : hasFree n p = .ok (findFree n p).isSome := by
  unfold hasFree
  cases hf : findFree n p with
  | none => rfl
  | some i => simp [h.not_done_of_free (findFree_some hf).2]

theorem getFree_eq : getFree n p = .ok (findFree n p) := by
  unfold getFree
  cases hf : findFree n p with
  | none => rfl
  | some i => simp [h.not_done_of_free (findFree_some hf).2]

theorem not_mem_of_free (he : p.working e = false) : e ∉ p.jobQueue := by
  intro hm
  have hw := (h.working_iff e).mpr hm
  rw [he] at hw
  cases hw

theorem count_pos (he : e ∈ p.jobQueue) : 0 < p.count e := by
  obtain ⟨k, hk, hnum⟩ := h.num_pos he
  simpa [count, hnum] using hk

theorem inFlight_of_unfinished (he : e ∈ p.jobQueue) (hd : p.done e = false) : p.InFlight e := by
  have hpos := h.count_pos he
  unfold InFlight
  rw [h.busy he hd]
  omega

theorem inFlight_iff (e : Nat) : p.InFlight e ↔ e ∈ p.jobQueue ∧ p.done e = false := by
  constructor
  · intro hf
    by_contra hn
    have hidle : p.engines e = .idle := by
      apply h.idle
      intro hm
      cases hd : p.done e with
      | true => rfl
      | false => exact absurd ⟨hm, hd⟩ hn
    simp [InFlight, hidle, DescDMAEngine.idle] at hf
  · rintro ⟨hm, hd⟩
    exact h.inFlight_of_unfinished hm hd

theorem jobQueue_nil_iff (hs : p.Settled) : p.jobQueue = [] ↔ ∀ e, ¬ p.InFlight e := by
  constructor
  · intro hq e hf
    have hm := ((h.inFlight_iff e).mp hf).1
    rw [hq] at hm
    cases hm
  · intro hf
    cases hq : p.jobQueue with
    | nil => rfl
    | cons e rest =>
      have hd := hs e (by rw [hq]; rfl)
      exact absurd (h.inFlight_of_unfinished (by rw [hq]; exact mem_cons_self) hd) (hf e)

theorem jobQueue_ne_nil_of_full (hn : 0 < n) (hf : findFree n p = none) : p.jobQueue ≠ [] := by
  intro hq
  have hm := (h.working_iff 0).mp (findFree_none hf hn)
  rw [hq] at hm
  cases hm

theorem count_le (he : e ∈ p.jobQueue) : p.count e ≤ p.curNum := by
  rw [h.curNum_eq]
  exact le_sum_of_mem (mem_map_of_mem he)

theorem num_eq (he : e ∈ p.jobQueue) : p.num e = some (p.count e) := by
  obtain ⟨k, _, hnum⟩ := h.num_pos he
  simp [count, hnum]

theorem curNum_pos (hq : p.jobQueue ≠ []) : 0 < p.curNum := by
  obtain ⟨e, he⟩ := exists_mem_of_ne_nil _ hq
  exact lt_of_lt_of_le (h.count_pos he) (h.count_le he)

theorem curNum_eq_zero_iff : p.curNum = 0 ↔ p.jobQueue = [] := by
  constructor
  · intro h0
    by_contra hq
    have := h.curNum_pos hq
    omega
  · intro hq
    rw [h.curNum_eq, hq]
    rfl

theorem engine_idle_of_free (he : p.working e = false) : p.engines e = .idle :=
  h.idle fun hm => absurd hm (h.not_mem_of_free he)

theorem engine_idle_of_quiet (hq : ∀ e < n, ¬ p.InFlight e) (e : Nat) : p.engines e = .idle := by
  apply h.idle
  intro hm
  cases hd : p.done e with
  | true => rfl
  | false => exact absurd (h.inFlight_of_unfinished hm hd) (hq e (h.lt hm))

theorem start_eq (he : p.working e = false) (base len k : Nat) (data : List β) :
    p.start base len e k data = .ok (p.started base len e k data) := by
  unfold start
  rw [h.engine_idle_of_free he]
  simp [DescDMAEngine.register, DescDMAEngine.idle, h.not_mem_of_free he]

theorem started_wf (hn : e < n) (he : p.working e = false) (hk : 0 < k)
    (base len : Nat) (data : List β) : (p.started base len e k data).WF n where
  lt := by
    intro x hx
    rcases mem_append.mp hx with hx | hx
    · exact h.lt hx
    · rw [mem_singleton.mp hx]
      exact hn
  nodup := by
    apply nodup_append.mpr
    refine ⟨h.nodup, nodup_singleton e, ?_⟩
    intro x hx y hy hxy
    rw [hxy, mem_singleton.mp hy] at hx
    exact h.not_mem_of_free he hx
  working_iff := by
    intro x
    by_cases hx : x = e
    · subst hx
      simp [started]
    · simp [started, hx, h.working_iff x]
  done_mem := by
    intro x hx
    by_cases hxe : x = e
    · subst hxe
      simp [started]
    · exact mem_append_left _ (h.done_mem (by simpa [started, hxe] using hx))
  num_pos := by
    intro x hx
    by_cases hxe : x = e
    · subst hxe
      exact ⟨k, hk, by simp [started]⟩
    · have hm : x ∈ p.jobQueue := by simpa [started, hxe] using hx
      obtain ⟨j, hj, hnum⟩ := h.num_pos hm
      exact ⟨j, hj, by simp [started, hxe, hnum]⟩
  curNum_eq := by
    have hcount : ∀ x ∈ p.jobQueue, (p.started base len e k data).count x = p.count x := by
      intro x hx
      have hxe : x ≠ e := fun hxe => h.not_mem_of_free he (hxe ▸ hx)
      simp [count, started, hxe]
    have hnew : (p.started base len e k data).count e = k := by simp [count, started]
    change p.curNum + k = ((p.jobQueue ++ [e]).map _).sum
    rw [map_append, map_congr_left hcount, sum_append, ← h.curNum_eq]
    simp [hnew]
  idle := by
    intro x hx
    by_cases hxe : x = e
    · subst hxe
      have hd := hx (by simp [started])
      simp [started] at hd
    · have hidle : p.engines x = .idle := by
        apply h.idle
        intro hm
        simpa [started, hxe] using hx (mem_append_left _ hm)
      simpa [started, hxe] using hidle
  busy := by
    intro x hx hd
    by_cases hxe : x = e
    · subst hxe
      simp [count, started]
    · have hm : x ∈ p.jobQueue := by simpa [started, hxe] using hx
      have hb := h.busy hm (by simpa [started, hxe] using hd)
      simpa [count, started, hxe] using hb

end

theorem started_settled (h : p.Settled) (base len : Nat) (data : List β) :
    (p.started base len e k data).Settled := by
  intro x hx
  cases hq : p.jobQueue with
  | nil =>
    simp only [started, hq, nil_append, List.head?_cons, Option.some.injEq] at hx
    subst hx
    simp [started]
  | cons y rest =>
    have hxy : y = x := by simpa [started, hq] using hx
    subst hxy
    have hd := h y (by rw [hq]; rfl)
    by_cases hye : y = e
    · simp [started, hye]
    · simp [started, hye, hd]

attribute [local simp] markDone clear

theorem finish_wf (h : p.WF n) (he : e ∈ p.jobQueue) : ((p.clear e).markDone e).WF n where
  lt := h.lt
  nodup := h.nodup
  working_iff := h.working_iff
  done_mem := by
    intro x hx
    by_cases hxe : x = e
    · rw [hxe]
      exact he
    · exact h.done_mem (by simpa [hxe] using hx)
  num_pos := h.num_pos
  curNum_eq := h.curNum_eq
  idle := by
    intro x hx
    by_cases hxe : x = e
    · simp [hxe]
    · have hidle := h.idle fun hm => by simpa [hxe] using hx hm
      simpa [hxe] using hidle
  busy := by
    intro x hx hd
    by_cases hxe : x = e
    · simp [hxe] at hd
    · have hb := h.busy hx (by simpa [hxe] using hd)
      simpa [count, hxe] using hb

theorem setBuf_wf (h : p.WF n) (data : List β) : (p.setBuf e data).WF n :=
  ⟨h.lt, h.nodup, h.working_iff, h.done_mem, h.num_pos, h.curNum_eq, h.idle, h.busy⟩

attribute [local simp] release

theorem release_wf {rest : List Nat} (h : p.WF n) (hq : p.jobQueue = e :: rest)
    (hd : p.done e = true) : (p.release e (p.count e)).WF n := by
  have hnd := h.nodup
  rw [hq] at hnd
  have hrest : (p.release e (p.count e)).jobQueue = rest := by simp [hq]
  have hne : ∀ {x}, x ∈ rest → x ≠ e := fun hx hxe => (nodup_cons.mp hnd).1 (hxe ▸ hx)
  have hmem : ∀ {x}, x ∈ rest → x ∈ p.jobQueue := by
    intro x hx
    rw [hq]
    exact mem_cons_of_mem e hx
  constructor
  · intro x hx
    rw [hrest] at hx
    exact h.lt (hmem hx)
  · rw [hrest]
    exact (nodup_cons.mp hnd).2
  · intro x
    rw [hrest]
    by_cases hxe : x = e
    · subst hxe
      simp [(nodup_cons.mp hnd).1]
    · simp [hxe, h.working_iff x, hq]
  · intro x hx
    rw [hrest]
    by_cases hxe : x = e
    · simp [hxe] at hx
    · have hm := h.done_mem (by simpa [hxe] using hx)
      simpa [hq, hxe] using hm
  · intro x hx
    rw [hrest] at hx
    obtain ⟨j, hj, hnum⟩ := h.num_pos (hmem hx)
    exact ⟨j, hj, by simp [hne hx, hnum]⟩
  · rw [hrest]
    have hcount : ∀ x ∈ rest, (p.release e (p.count e)).count x = p.count x := by
      intro x hx
      simp [count, hne hx]
    rw [map_congr_left hcount]
    have hsum := h.curNum_eq
    rw [hq, map_cons, sum_cons] at hsum
    simp only [release]
    omega
  · intro x hx
    by_cases hxe : x = e
    · subst hxe
      simpa using h.idle fun _ => hd
    · have hidle : p.engines x = .idle := by
        apply h.idle
        intro hm
        have hr : x ∈ rest := by simpa [hq, hxe] using hm
        simpa [hxe] using hx (by rw [hrest]; exact hr)
      simpa using hidle
  · intro x hx hdx
    rw [hrest] at hx
    have hb := h.busy (hmem hx) (by simpa [hne hx] using hdx)
    simpa [count, hne hx] using hb

theorem reset_wf (hidle : ∀ e, p.engines e = .idle) : p.reset.WF n where
  lt := by simp [reset]
  nodup := nodup_nil
  working_iff := by simp [reset]
  done_mem := by simp [reset]
  num_pos := by simp [reset]
  curNum_eq := rfl
  idle := fun _ => hidle _
  busy := by simp [reset]

end WF

end DescDMAPool

end Gem5.IGbE
