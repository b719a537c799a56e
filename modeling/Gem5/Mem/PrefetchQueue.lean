import Gem5.Shared.Reachability
import Gem5.Shared.Sim
import Mathlib.Data.List.DropRight
import Mathlib.Data.List.Nodup
import Mathlib.Data.List.Pairwise

/-!
# The prefetch queue

The prefetches wait in the order of their priorities, and their packets are numbered as they are
made. Each of raising, dropping and placing an entry has its own walk through the list.
-/

namespace Gem5.Mem

open List

/-- What `sameAddr` compares. -/
structure PrefetchInfo where
  addr : BitVec 64
  secure : Bool
  deriving DecidableEq

structure Queued.DeferredPacket where
  pfInfo : PrefetchInfo
  priority : Int
  pkt : Nat
  deriving DecidableEq

structure Queued where
  pfq : List Queued.DeferredPacket := []
  created : Nat := 0

/-- `redundant`: the cache is snooped, and it or its miss queue has the block. -/
inductive PfAct where
  | insert (pfi : PrefetchInfo) (priority : Int) (redundant : Bool)
  | squash (pfi : PrefetchInfo)
  | getPacket

namespace Queued

variable {n : Nat} {s : Queued} {q : List DeferredPacket} {pfi : PrefetchInfo} {priority : Int}

def swapUp (queue : List DeferredPacket) (it : Nat) : Nat → List DeferredPacket
  | 0 => queue
  | prev + 1 =>
    match queue[it]?, queue[prev]? with
    | some a, some b =>
      if b.priority < a.priority then swapUp ((queue.set it b).set prev a) prev prev
      else swapUp queue it prev
    | _, _ => queue

/-- The search ends with its iterator behind the entry that it has found. -/
def alreadyInQueue (pfi : PrefetchInfo) (priority : Int) (queue : List DeferredPacket) :
    Bool × List DeferredPacket :=
  let it := queue.findIdx (·.pfInfo = pfi) + 1
  (queue.any (·.pfInfo = pfi),
    match queue[it]? with
    | none => queue
    | some e =>
      if e.priority < priority then swapUp (queue.set it { e with priority := priority }) it it
      else queue)

/-- The entry to drop is the first one of the last one's priority. -/
def dropLowest (queue : List DeferredPacket) : List DeferredPacket :=
  queue.eraseIdx
    (queue.rdropWhile fun e => queue.getLast?.map (·.priority) = some e.priority).length

def makeRoom (queueSize : Nat) (queue : List DeferredPacket) : Sim (List DeferredPacket) :=
  if queue.length = queueSize then
    if queue.length = 0 then throw (.panic "Prefetch queue is both full and empty!")
    else if queue.length = 1 then throw (.panic "Prefetch queue is full with 1 element!")
    else pure (dropLowest queue)
  else pure queue

def addToQueue (queueSize : Nat) (dpp : DeferredPacket) (queue : List DeferredPacket) :
    Sim (List DeferredPacket) := do
  let queue ← makeRoom queueSize queue
  if ∀ back ∈ queue.getLast?, dpp.priority ≤ back.priority then pure (queue ++ [dpp])
  else
    -- the walk from the back stops at an entry that is not lower; only at the head it goes behind
    let stop := (queue.rdropWhile fun e => e.priority < dpp.priority).length
    pure (queue.insertIdx (if stop ≤ 1 then stop else stop - 1) dpp)

def insert (queueSize : Nat) (pfi : PrefetchInfo) (priority : Int) (redundant : Bool)
    (s : Queued) : Sim Queued :=
  let (found, queue) := alreadyInQueue pfi priority s.pfq
  if found then pure { s with pfq := queue }
  else if redundant then pure s
  else do
    let queue ← addToQueue queueSize ⟨pfi, priority, s.created⟩ s.pfq
    pure ⟨queue, s.created + 1⟩

def getPacket (s : Queued) : Option Nat × Queued :=
  match s.pfq with
  | [] => (none, s)
  | front :: rest => (some front.pkt, { s with pfq := rest })

/-- `MlcPrefetcher::getPacket` marks the packet that it gets. -/
def mlcGetPacket (s : Queued) : Sim (Option Nat × Queued) :=
  match s.getPacket with
  | (none, _) => throw .outOfBounds
  | marked => pure marked

def step (queueSize : Nat) (s : Queued) : PfAct → Sim Queued
  | .insert pfi priority redundant => s.insert queueSize pfi priority redundant
  | .squash pfi => pure { s with pfq := s.pfq.filter (·.pfInfo ≠ pfi) }
  | .getPacket => pure s.getPacket.2

def Before (a b : DeferredPacket) : Prop :=
  b.priority < a.priority ∨ (b.priority = a.priority ∧ a.pkt < b.pkt)

instance : DecidableRel Before := fun _ _ => inferInstanceAs (Decidable (_ ∨ _))

structure Kept (queueSize : Nat) (s : Queued) : Prop where
  bounded : s.pfq.length ≤ queueSize
  distinct : (s.pfq.map (·.pfInfo)).Nodup
  sorted : s.pfq.Pairwise Before

/-- When the queue is full, the oldest entry `v` of the lowest priority makes room. -/
def Inserts (queueSize : Nat) (pfi : PrefetchInfo) (priority : Int) (s t : Queued) : Prop :=
  if pfi ∈ s.pfq.map (·.pfInfo) then t.pfq ~ s.pfq.map fun e =>
    if e.pfInfo = pfi then { e with priority := max e.priority priority } else e
  else if s.pfq.length < queueSize then t.pfq ~ ⟨pfi, priority, s.created⟩ :: s.pfq
  else ∃ v rest, s.pfq ~ v :: rest ∧ t.pfq ~ ⟨pfi, priority, s.created⟩ :: rest ∧
    ∀ e ∈ rest, v.priority < e.priority ∨ (v.priority = e.priority ∧ v.pkt < e.pkt)

/-- A queued address does not come with a higher priority than the entry behind it, nor than its
own. For a new one, none of the entries that stay is lower, or all but the front one are. -/
def InPlace (queueSize : Nat) (s : Queued) : PfAct → Prop
  | .insert pfi priority redundant =>
    (∀ e ∈ (s.pfq.drop (s.pfq.findIdx (·.pfInfo = pfi))).take 2, priority ≤ e.priority) ∧
    (pfi ∉ s.pfq.map (·.pfInfo) → redundant = false →
      ∀ kept ∈ (makeRoom queueSize s.pfq).toOption,
        (∀ e ∈ kept, priority ≤ e.priority) ∨ ∀ e ∈ kept.tail, e.priority < priority)
  | _ => True

instance {s : Queued} {a : PfAct} : Decidable (s.InPlace n a) :=
  match a with
  | .insert .. => inferInstanceAs (Decidable (_ ∧ (_ → _ → ∀ kept ∈ _, _)))
  | .squash _ | .getPacket => isTrue trivial

structure Inv (queueSize : Nat) (s : Queued) : Prop extends s.Kept queueSize where
  numbered : ∀ e ∈ s.pfq, e.pkt < s.created

/-- Where `p` stays true once it is, the walk from the back goes over all that satisfy it. -/
theorem rdropWhile_split {α : Type} {p : α → Bool} {l : List α}
    (h : l.Pairwise fun a b => p a → p b) :
    ∃ r, l = l.rdropWhile p ++ r ∧ (∀ e ∈ r, p e) ∧ ∀ e ∈ l.rdropWhile p, ¬p e := by
  refine ⟨l.rtakeWhile p, (rdropWhile_append_rtakeWhile ..).symm, fun e => mem_rtakeWhile_imp, ?_⟩
  induction l using reverseRecOn with
  | nil => nofun
  | append_singleton l x ih =>
    obtain ⟨hl, _, hx⟩ := pairwise_append.mp h
    by_cases hp : p x
    · rw [rdropWhile_concat_pos _ _ _ hp]
      exact ih hl
    · rw [rdropWhile_concat_neg _ _ _ hp]
      intro e he hpe
      rcases mem_append.mp he with he | he
      · exact hp (hx e he x (mem_singleton_self x) hpe)
      · exact hp (mem_singleton.mp he ▸ hpe)

theorem Before.le {a b : DeferredPacket} (h : Before a b) : b.priority ≤ a.priority := by
  rw [Before] at h
  omega

theorem getLast_le (h : q.Pairwise Before) (hne : q ≠ []) :
    ∀ e ∈ q, (q.getLast hne).priority ≤ e.priority := fun _ he =>
  (h.imp Before.le).rel_getLast_of_rel_getLast_getLast he (Int.le_refl _)

theorem dropLowest_spec (h : q.Pairwise Before) (hne : q ≠ []) :
    ∃ l v r, q = l ++ v :: r ∧ dropLowest q = l ++ r ∧ ∀ e ∈ l ++ r,
      v.priority < e.priority ∨ (v.priority = e.priority ∧ v.pkt < e.pkt) := by
  have hlast := getLast_le h hne
  obtain ⟨r, hq, hr, hl⟩ := rdropWhile_split (l := q)
    (p := fun e => q.getLast?.map (·.priority) = some e.priority) (by
      refine h.imp_of_mem fun {a b} _ hb hab => ?_
      have hle := hlast b hb
      have hba := hab.le
      simp only [getLast?_eq_some_getLast hne, Option.map_some, Option.some.injEq,
        decide_eq_true_eq]
      omega)
  rw [dropLowest]
  generalize (q.rdropWhile _) = l at hq hl ⊢
  simp only [getLast?_eq_some_getLast hne, Option.map_some, Option.some.injEq,
    decide_eq_true_eq] at hr hl
  cases r with
  | nil => exact absurd rfl (hl _ (by rw [← append_nil l, ← hq]; exact getLast_mem hne))
  | cons v r =>
    have hv := hr v mem_cons_self
    refine ⟨l, v, r, hq, by rw [hq, eraseIdx_append_of_length_le le_rfl, Nat.sub_self]; rfl, ?_⟩
    intro e he
    rcases mem_append.mp he with he | he
    · have hle := hlast e (hq ▸ mem_append_left _ he)
      have hne := hl e he
      omega
    · have hequal := hr e (mem_cons_of_mem v he)
      have hbefore := (pairwise_cons.mp (pairwise_append.mp (hq ▸ h)).2.1).1 e he
      rw [Before] at hbefore
      omega

theorem makeRoom_spec (hn : 2 ≤ n) (hlen : q.length ≤ n) (h : q.Pairwise Before) :
    ∃ kept, makeRoom n q = .ok kept ∧ kept <+ q ∧ kept.length < n ∧
      if q.length < n then kept = q
      else ∃ v, q ~ v :: kept ∧ ∀ e ∈ kept,
        v.priority < e.priority ∨ (v.priority = e.priority ∧ v.pkt < e.pkt) := by
  rw [makeRoom]
  split
  · obtain ⟨l, v, r, rfl, hdrop, hv⟩ := dropLowest_spec h (ne_nil_of_length_pos (by omega))
    rw [if_neg (by omega), if_neg (by omega), hdrop]
    simp only [if_neg (show ¬(l ++ v :: r).length < n by omega)]
    refine ⟨l ++ r, rfl, (sublist_cons_self v r).append_left l, ?_, v, perm_middle, hv⟩
    rw [length_append, length_cons] at hlen
    rw [length_append]
    omega
  · simp only [if_pos (show q.length < n by omega)]
    exact ⟨q, rfl, .refl q, by omega, rfl⟩

theorem addToQueue_spec {d : DeferredPacket} {kept : List DeferredPacket}
    (hroom : makeRoom n q = .ok kept) (h : kept.Pairwise Before)
    (hplace : (∀ e ∈ kept, d.priority ≤ e.priority) ∨
      ∀ e ∈ kept.tail, e.priority < d.priority) :
    ∃ l r, kept = l ++ r ∧ addToQueue n d q = .ok (l ++ d :: r) ∧
      (∀ e ∈ l, d.priority ≤ e.priority) ∧ ∀ e ∈ r, e.priority < d.priority := by
  obtain ⟨r, hq, hr, hl⟩ := rdropWhile_split (l := kept)
    (p := fun e => e.priority < d.priority) (by
      refine h.imp fun {a b} hab => ?_
      have hle := hab.le
      simp only [decide_eq_true_eq]
      omega)
  rw [addToQueue, hroom, sim_ok_bind]
  generalize (kept.rdropWhile _) = l at hq hl ⊢
  simp only [decide_eq_true_eq, Int.not_lt] at hr hl
  refine ⟨l, r, hq, ?_, hl, hr⟩
  split
  · rename_i hback
    have hr : r = [] := by
      by_contra hne
      have hlast := hback (r.getLast hne) (by
        rw [hq, getLast?_append, getLast?_eq_some_getLast hne]
        rfl)
      have hlow := hr _ (getLast_mem hne)
      omega
    rw [hq, hr, append_nil]
    rfl
  · rename_i hback
    have hlow := hplace.resolve_left fun hall => hback fun back hm => hall back (mem_of_getLast? hm)
    subst hq
    match l, hl with
    | [], _ | [_], _ => rfl
    | a :: b :: l, hl =>
      have hb := hlow b (by simp)
      have hle := hl b (by simp)
      omega

namespace Inv

theorem sublist (h : Inv n s) (hq : q <+ s.pfq) : Inv n { s with pfq := q } where
  bounded := hq.length_le.trans h.bounded
  distinct := h.distinct.sublist (hq.map _)
  sorted := h.sorted.sublist hq
  numbered e he := h.numbered e (hq.subset he)

theorem placed {r : List DeferredPacket} (h : Inv n { s with pfq := q ++ r })
    (hlen : (q ++ r).length < n)
    (hnew : pfi ∉ (q ++ r).map (·.pfInfo)) (hq : ∀ e ∈ q, priority ≤ e.priority)
    (hr : ∀ e ∈ r, e.priority < priority) :
    Inv n ⟨q ++ ⟨pfi, priority, s.created⟩ :: r, s.created + 1⟩ where
  bounded := (perm_middle.length_eq).trans_le hlen
  distinct := (perm_middle.map _).nodup_iff.mpr (nodup_cons.mpr ⟨hnew, h.distinct⟩)
  sorted := by
    obtain ⟨hsq, hsr, hqr⟩ := pairwise_append.mp h.sorted
    refine pairwise_append.mpr ⟨hsq, pairwise_cons.mpr ⟨fun e he => .inl (hr e he), hsr⟩, ?_⟩
    intro a ha b hb
    rcases mem_cons.mp hb with rfl | hb
    · exact (Int.lt_or_eq_of_le (hq a ha)).imp_right fun heq =>
        ⟨heq, h.numbered a (mem_append_left _ ha)⟩
    · exact hqr a ha b hb
  numbered e he := by
    rcases mem_cons.mp (perm_middle.subset he) with rfl | he
    · exact Nat.lt_succ_self _
    · exact Nat.lt_succ_of_lt (h.numbered e he)

/-- The entry behind the queued one is not lower than the new priority, so it is not raised. -/
theorem queued (h : Inv n s) (hin : pfi ∈ s.pfq.map (·.pfInfo))
    (hplace : ∀ e ∈ (s.pfq.drop (s.pfq.findIdx (·.pfInfo = pfi))).take 2, priority ≤ e.priority) :
    alreadyInQueue pfi priority s.pfq = (true, s.pfq) ∧
      s.pfq = s.pfq.map fun e =>
        if e.pfInfo = pfi then { e with priority := max e.priority priority } else e := by
  obtain ⟨e, he, rfl⟩ := mem_map.mp hin
  have hlt : s.pfq.findIdx (·.pfInfo = e.pfInfo) < s.pfq.length :=
    findIdx_lt_length_of_exists ⟨e, he, by simp⟩
  have hfound := findIdx_getElem (w := hlt)
  simp only [alreadyInQueue]
  generalize s.pfq.findIdx _ = i at hlt hplace hfound ⊢
  constructor
  · refine Prod.ext (by simpa using ⟨e, he, rfl⟩) ?_
    show (match s.pfq[i + 1]? with | none => _ | some f => _) = _
    split
    · rfl
    · rename_i f hf
      refine if_neg (Int.not_lt.mpr (hplace f (mem_iff_getElem?.mpr ⟨1, ?_⟩)))
      rw [getElem?_take_of_lt (by decide), getElem?_drop, hf]
  · refine ((map_congr_left fun f hf => ?_).trans (map_id _)).symm
    split
    · rename_i heq
      have hsame : f = s.pfq[i] := inj_on_of_nodup_map h.distinct hf (getElem_mem hlt)
        (heq.trans (of_decide_eq_true hfound).symm)
      have hle := hplace f (mem_iff_getElem?.mpr ⟨0, by
        rw [getElem?_take_of_lt (by decide), getElem?_drop, hsame]
        exact getElem?_eq_getElem hlt⟩)
      rw [Int.max_eq_left hle]
      rfl
    · rfl

theorem insert (hn : 2 ≤ n) (h : Inv n s) (redundant : Bool)
    (hplace : s.InPlace n (.insert pfi priority redundant)) :
    ∃ t, s.insert n pfi priority redundant = .ok t ∧ Inv n t ∧
      (redundant = false → Inserts n pfi priority s t) := by
  obtain ⟨hbehind, hplace⟩ := hplace
  simp only [Queued.insert, Inserts]
  by_cases hin : pfi ∈ s.pfq.map (·.pfInfo)
  · obtain ⟨hsame, hmap⟩ := h.queued hin hbehind
    simp only [hsame, if_pos hin]
    exact ⟨s, rfl, h, fun _ => .of_eq hmap⟩
  · have hany : ¬(alreadyInQueue pfi priority s.pfq).1 := by simpa [alreadyInQueue] using hin
    rw [if_neg hany]
    simp only [if_neg hin]
    cases redundant with
    | true => exact ⟨s, rfl, h, nofun⟩
    | false =>
      obtain ⟨kept, hroom, hsub, hlen, hdrop⟩ := makeRoom_spec hn h.bounded h.sorted
      obtain ⟨l, r, rfl, hadd, hl, hr⟩ := addToQueue_spec (d := ⟨pfi, priority, s.created⟩) hroom
        (h.sorted.sublist hsub) (hplace hin rfl kept (by rw [hroom]; rfl))
      refine ⟨⟨_, s.created + 1⟩, by rw [hadd]; rfl, (h.sublist hsub).placed hlen
        (fun hm => hin ((hsub.map _).subset hm)) hl hr, fun _ => ?_⟩
      split at hdrop
      · rw [if_pos ‹_›, ← hdrop]
        exact perm_middle
      · rw [if_neg ‹_›]
        obtain ⟨v, hperm, hv⟩ := hdrop
        exact ⟨v, l ++ r, hperm, perm_middle, hv⟩

theorem step {t : Queued} {a : PfAct} (hn : 2 ≤ n) (h : Inv n s) (ha : s.InPlace n a)
    (hs : s.step n a = .ok t) : Inv n t := by
  cases a with
  | insert pfi priority redundant =>
    obtain ⟨u, hu, hinv, _⟩ := h.insert hn redundant ha
    exact eq_of_ok hu hs ▸ hinv
  | squash pfi =>
    cases hs
    exact h.sublist filter_sublist
  | getPacket =>
    cases hs
    rw [getPacket]
    split
    · exact h
    · rename_i hq
      exact h.sublist (hq ▸ sublist_cons_self _ _)

end Inv

/-- In a run whose insertions are in place the queue is kept, and one more such insertion adds
or raises its entry and drops the oldest of the lowest. `getPacket` takes the front entry. -/
theorem prefetch_queue_kept (hn : 2 ≤ n) (hr : Reach (step n) (InPlace n) {} s) :
    s.Kept n ∧
    (∀ pfi priority, s.InPlace n (.insert pfi priority false) →
      ∃ t, s.insert n pfi priority false = .ok t ∧ Inserts n pfi priority s t) ∧
    s.getPacket = (s.pfq.head?.map (·.pkt), { s with pfq := s.pfq.tail }) ∧
    (s.pfq ≠ [] → s.mlcGetPacket = .ok s.getPacket) := by
  have hinv : Inv n s := hr.invariant ⟨⟨Nat.zero_le _, nodup_nil, .nil⟩, nofun⟩ (Inv.step hn)
  refine ⟨hinv.toKept, fun pfi priority hplace => ?_, ?_, fun hne => ?_⟩
  · obtain ⟨t, ht, _, hinserts⟩ := hinv.insert hn false hplace
    exact ⟨t, ht, hinserts rfl⟩
  · cases s with
    | mk pfq created => cases pfq <;> rfl
  · obtain ⟨front, rest, hq⟩ := exists_cons_of_ne_nil hne
    simp [mlcGetPacket, getPacket, hq]

theorem prefetch_queue_kept_full :
    ∃ s : Queued, s.Kept 3 ∧
      s.pfq.map (fun e => (e.priority, e.pkt)) = [(9, 2), (5, 0), (4, 3)] := by
  obtain ⟨s, hr, hs⟩ := Reach.exists_of_runFrom (step 3) (InPlace 3) {}
    [.insert ⟨0, false⟩ 5 false, .insert ⟨64, false⟩ 3 false, .insert ⟨128, false⟩ 9 false,
      .insert ⟨192, false⟩ 4 false, .insert ⟨0, false⟩ 4 false]
    (fun s => s.pfq.map (fun e => (e.priority, e.pkt)) = [(9, 2), (5, 0), (4, 3)])
    (by decide +kernel)
  exact ⟨s, (prefetch_queue_kept (by decide) hr).1, hs⟩

/-- The entry behind the raised one gets the priority, an entry is placed before a higher one, and
the null packet of an empty queue is marked. -/
theorem prefetch_queue_disturbed :
    (runFrom (step 4) (fun _ _ => True) {} [.insert ⟨0, false⟩ 0 false, .insert ⟨64, false⟩ 0 false,
      .insert ⟨0, false⟩ 5 false]).map pfq = some [⟨⟨64, false⟩, 5, 1⟩, ⟨⟨0, false⟩, 0, 0⟩] ∧
    (runFrom (step 4) (fun _ _ => True) {} [.insert ⟨0, false⟩ 5 false, .insert ⟨64, false⟩ 3 false,
      .insert ⟨128, false⟩ 1 false, .insert ⟨192, false⟩ 2 false]).map (·.pfq.map (·.priority)) =
      some [5, 2, 3, 1] ∧ mlcGetPacket {} = .error .outOfBounds := by
  decide +kernel

end Queued

end Gem5.Mem
