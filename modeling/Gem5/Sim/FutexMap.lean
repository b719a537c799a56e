import Gem5.Shared.Reachability
import Gem5.Shared.Sim
import Mathlib.Data.List.Basic

/-!
# The futex map

Each key has the list of the threads that wait for it, and `waitingTcs` is the set of all of them.
A requeue wakes threads without taking them out of the set, and it takes the second key's list
from the end of the map if nothing is moved and nobody waits there.
-/

namespace Gem5

open Function (update update_apply update_self)

structure FutexKey where
  addr : BitVec 64
  tgid : BitVec 64
  deriving DecidableEq

structure WaiterState where
  tc : Nat
  bitmask : BitVec 32
  deriving DecidableEq

/-- A key without an entry has `none`; `activated` lists the threads in the order of `activate`. -/
structure FutexMap where
  lists : FutexKey → Option (List WaiterState) := fun _ => none
  waitingTcs : Nat → Bool := fun _ => false
  activated : List Nat := []

/-- Whether a wakeup with this mask is for the waiter. -/
def WaiterState.checkMask (wakeupBitmask : BitVec 32) (w : WaiterState) : Bool :=
  w.bitmask &&& wakeupBitmask != 0

inductive FutexAct where
  | suspend (key : FutexKey) (tc : Nat) (bitmask : BitVec 32)
  | wakeup (key : FutexKey) (count : Nat)
  | wakeupBitset (key : FutexKey) (bitmask : BitVec 32)
  | requeue (key : FutexKey) (count count₂ : Nat) (addr₂ : BitVec 64)

namespace FutexMap

variable {s t : FutexMap} {key : FutexKey} {l : List WaiterState}

def waiters (s : FutexMap) (key : FutexKey) : List WaiterState := (s.lists key).getD []

def setList (s : FutexMap) (key : FutexKey) (l : List WaiterState) : FutexMap :=
  { s with lists := update s.lists key (some l) }

/-- `erase(it)` for a list that has become empty. -/
def eraseEmpty (s : FutexMap) (key : FutexKey) : FutexMap :=
  if s.waiters key = [] then { s with lists := update s.lists key none } else s

def activate (s : FutexMap) (w : WaiterState) : FutexMap :=
  { s with activated := s.activated ++ [w.tc] }

def wake (s : FutexMap) (w : WaiterState) : FutexMap :=
  { s.activate w with waitingTcs := update s.waitingTcs w.tc false }

/-- The loops that take waiters from the front: the rest, the number taken, and the effect. -/
def popLoop {σ : Type} (f : σ → WaiterState → σ) :
    Nat → List WaiterState → σ → List WaiterState × Nat × σ
  | count + 1, w :: l, s =>
    let (rest, taken, s) := popLoop f count l (f s w)
    (rest, taken + 1, s)
  | _, l, s => (l, 0, s)

def suspendBitset (s : FutexMap) (key : FutexKey) (tc : Nat) (bitmask : BitVec 32) : FutexMap :=
  let l := match s.lists key with
    | none => [⟨tc, bitmask⟩]
    | some l => l ++ [⟨tc, bitmask⟩]
  { s.setList key l with waitingTcs := update s.waitingTcs tc true }

def wakeup (s : FutexMap) (key : FutexKey) (count : Nat) : Nat × FutexMap :=
  match s.lists key with
  | none => (0, s)
  | some l =>
    let (l, wokenUp, s) := popLoop wake count l s
    (wokenUp, (s.setList key l).eraseEmpty key)

def bitsetLoop (bitmask : BitVec 32) :
    List WaiterState → FutexMap → List WaiterState × Nat × FutexMap
  | [], s => ([], 0, s)
  | w :: l, s =>
    if w.checkMask bitmask then
      let (rest, wokenUp, s) := bitsetLoop bitmask l (s.wake w)
      (rest, wokenUp + 1, s)
    else
      let (rest, wokenUp, s) := bitsetLoop bitmask l s
      (w :: rest, wokenUp, s)

def wakeupBitset (s : FutexMap) (key : FutexKey) (bitmask : BitVec 32) : Nat × FutexMap :=
  match s.lists key with
  | none => (0, s)
  | some l =>
    let (l, wokenUp, s) := bitsetLoop bitmask l s
    (wokenUp, (s.setList key l).eraseEmpty key)

def requeue (s : FutexMap) (key : FutexKey) (count count₂ : Nat) (addr₂ : BitVec 64) :
    Sim (Nat × FutexMap) :=
  match s.lists key with
  | none => pure (0, s)
  | some l =>
    let (l, wokenUp, s) := popLoop activate count l s
    let (l, requeued, tmpList) := popLoop (fun tmp w => tmp ++ [w]) count₂ l []
    let s := s.setList key l
    let key₂ := { key with addr := addr₂ }
    match s.lists key₂ with
    | none =>
      if 0 < requeued then pure (wokenUp + requeued, (s.setList key₂ tmpList).eraseEmpty key)
      else throw .outOfBounds
    | some l₂ => pure (wokenUp + requeued, (s.setList key₂ (l₂ ++ tmpList)).eraseEmpty key)

def step (s : FutexMap) : FutexAct → Sim FutexMap
  | .suspend key tc bitmask => pure (s.suspendBitset key tc bitmask)
  | .wakeup key count => pure (s.wakeup key count).2
  | .wakeupBitset key bitmask => pure (s.wakeupBitset key bitmask).2
  | .requeue key count count₂ addr₂ => Prod.snd <$> s.requeue key count count₂ addr₂

/-- How often a thread is in a list. -/
def occ (tc : Nat) (l : List WaiterState) : Nat := l.countP (·.tc = tc)

/-- A requeue of a list moves something or the second key has a list. -/
def HasTarget (s : FutexMap) (key : FutexKey) (count count₂ : Nat) (addr₂ : BitVec 64) : Prop :=
  s.lists key ≠ none →
    count < (s.waiters key).length ∧ 0 < count₂ ∨ s.lists { key with addr := addr₂ } ≠ none

/-- A suspended thread makes no call, and a requeue wakes nobody. -/
def Proper (s : FutexMap) : FutexAct → Prop
  | .suspend _ tc _ => ∀ key, occ tc (s.waiters key) = 0
  | .requeue key count count₂ addr₂ =>
    (count = 0 ∨ s.waiters key = []) ∧ s.HasTarget key count count₂ addr₂
  | _ => True

/-- The waiters `gone` of a key have been woken in order, and `kept` still wait. -/
structure Wakes (s : FutexMap) (key : FutexKey) (gone kept : List WaiterState) (t : FutexMap) :
    Prop where
  activated : t.activated = s.activated ++ gone.map (·.tc)
  waiters : t.waiters = update s.waiters key kept
  waiting (tc : Nat) : t.waitingTcs tc = (s.waitingTcs tc && occ tc gone = 0)

/-- A requeue wakes `count` waiters of a key and puts the next `count₂` to those of another. -/
structure Requeues (s : FutexMap) (key : FutexKey) (count count₂ : Nat) (key₂ : FutexKey)
    (t : FutexMap) : Prop where
  activated : t.activated = s.activated ++ ((s.waiters key).take count).map (·.tc)
  waiting : t.waitingTcs = s.waitingTcs
  waiters : t.waiters = let q := update s.waiters key ((s.waiters key).drop (count + count₂))
    update q key₂ (q key₂ ++ ((s.waiters key).drop count).take count₂)

@[simp] theorem waiters_setList : (s.setList key l).waiters = update s.waiters key l := by
  funext k
  by_cases hk : k = key <;> simp [waiters, setList, hk]

@[simp] theorem eraseEmpty_fields : (s.eraseEmpty key).waiters = s.waiters ∧
    (s.eraseEmpty key).waitingTcs = s.waitingTcs ∧ (s.eraseEmpty key).activated = s.activated := by
  unfold eraseEmpty
  split
  · rename_i hnil
    refine ⟨?_, rfl, rfl⟩
    funext k
    by_cases hk : k = key
    · simp only [hk, waiters, update_self]
      exact hnil.symm
    · simp [waiters, hk]
  · exact ⟨rfl, rfl, rfl⟩

theorem popLoop_eq {σ : Type} (f : σ → WaiterState → σ) (count : Nat) (s : σ) :
    popLoop f count l s = (l.drop count, min count l.length, (l.take count).foldl f s) := by
  induction count generalizing l s with
  | zero => cases l <;> simp [popLoop]
  | succ count ih =>
    cases l with
    | nil => simp [popLoop]
    | cons w l => simp [popLoop, ih]

theorem bitsetLoop_eq (bitmask : BitVec 32) :
    bitsetLoop bitmask l s = (l.filter (!·.checkMask bitmask),
      (l.filter (·.checkMask bitmask)).length, (l.filter (·.checkMask bitmask)).foldl wake s) := by
  induction l generalizing s with
  | nil => rfl
  | cons w l ih => cases hw : w.checkMask bitmask <;> simp [bitsetLoop, hw, ih]

theorem foldl_activate :
    l.foldl activate s = { s with activated := s.activated ++ l.map (·.tc) } := by
  induction l generalizing s with
  | nil => simp
  | cons w l ih => simp [ih, activate]

theorem foldl_wake (l : List WaiterState) (s : FutexMap) :
    (l.foldl wake s).lists = s.lists ∧ (l.foldl wake s).activated = s.activated ++ l.map (·.tc) ∧
      ∀ tc, (l.foldl wake s).waitingTcs tc = (s.waitingTcs tc && occ tc l = 0) := by
  induction l generalizing s with
  | nil => simp [occ]
  | cons w l ih =>
    obtain ⟨hl, ha, hw⟩ := ih (s.wake w)
    refine ⟨hl, ha.trans (by simp [wake, activate]), fun tc => ?_⟩
    rw [List.foldl_cons, hw]
    by_cases htc : w.tc = tc
    · simp [wake, occ, htc]
    · simp [wake, occ, htc, Ne.symm htc]

theorem wakes_foldl (gone kept : List WaiterState) :
    Wakes s key gone kept (((gone.foldl wake s).setList key kept).eraseEmpty key) := by
  obtain ⟨hl, ha, hw⟩ := foldl_wake gone s
  refine ⟨by simpa [setList] using ha, ?_, by simpa [setList] using hw⟩
  rw [eraseEmpty_fields.1, waiters_setList]
  congr 1
  funext k
  rw [waiters, hl, waiters]

theorem wakes_none (h : s.lists key = none) : Wakes s key [] [] s := by
  refine ⟨by simp, ?_, by simp [occ]⟩
  rw [Function.eq_update_iff]
  simp [waiters, h]

theorem wakeup_spec (s : FutexMap) (key : FutexKey) (count : Nat) :
    (s.wakeup key count).1 = min count (s.waiters key).length ∧
      Wakes s key ((s.waiters key).take count) ((s.waiters key).drop count)
        (s.wakeup key count).2 := by
  unfold wakeup
  split
  · rename_i h
    simpa [waiters, h] using wakes_none h
  · rename_i l h
    simp only [popLoop_eq, waiters, h, Option.getD_some]
    exact ⟨trivial, wakes_foldl _ _⟩

theorem wakeupBitset_spec (s : FutexMap) (key : FutexKey) (bitmask : BitVec 32) :
    (s.wakeupBitset key bitmask).1 = ((s.waiters key).filter (·.checkMask bitmask)).length ∧
      Wakes s key ((s.waiters key).filter (·.checkMask bitmask))
        ((s.waiters key).filter (!·.checkMask bitmask)) (s.wakeupBitset key bitmask).2 := by
  unfold wakeupBitset
  split
  · rename_i h
    simpa [waiters, h] using wakes_none h
  · rename_i l h
    simp only [bitsetLoop_eq, waiters, h, Option.getD_some]
    exact ⟨trivial, wakes_foldl _ _⟩

theorem requeue_spec {count count₂ : Nat} {addr₂ : BitVec 64}
    (h : s.HasTarget key count count₂ addr₂) :
    ∃ t, s.requeue key count count₂ addr₂ = .ok (min (count + count₂) (s.waiters key).length, t) ∧
      Requeues s key count count₂ { key with addr := addr₂ } t := by
  unfold requeue
  split
  · rename_i hnone
    have hnil : s.waiters key = [] := by simp [waiters, hnone]
    refine ⟨s, by simp [hnil], by simp [hnil], rfl, ?_⟩
    simp only [hnil, List.drop_nil, List.take_nil, List.append_nil, Function.update_eq_self]
    rw [← hnil, Function.update_eq_self]
  · rename_i l hl
    have hw : s.waiters key = l := by simp [waiters, hl]
    simp only [popLoop_eq, foldl_activate, List.foldl_append_eq_append, hw,
      List.length_drop, List.drop_drop, ← List.flatMap_def]
    have hcount : min count l.length + min count₂ (l.length - count) =
      min (count + count₂) l.length := by omega
    generalize hs : setList _ key _ = s'
    have hq : s'.waiters = update s.waiters key (l.drop (count + count₂)) := by
      rw [← hs, waiters_setList]
      rfl
    rw [hcount]
    split
    · rename_i hnone
      have h₂ : s'.waiters { key with addr := addr₂ } = [] := by rw [waiters, hnone]; rfl
      have hnone₂ : s.lists { key with addr := addr₂ } = none := by
        simp only [← hs, setList] at hnone
        grind
      have hmoved := (h (by simp [hl])).resolve_right (not_not.mpr hnone₂)
      rw [hw] at hmoved
      rw [if_pos (by omega)]
      exact ⟨_, rfl, by simp [setList, ← hs, hw], by simp [setList, ← hs], by simp [hw, ← hq, h₂]⟩
    · rename_i l₂ hsome
      have h₂ : s'.waiters { key with addr := addr₂ } = l₂ := by rw [waiters, hsome]; rfl
      exact ⟨_, rfl, by simp [setList, ← hs, hw], by simp [setList, ← hs], by simp [hw, ← hq, h₂]⟩

/-- Every thread is in one list, once, or in none, and the set says which. -/
def Inv (s : FutexMap) : Prop :=
  ∀ tc, ∃ home : Option FutexKey, s.waitingTcs tc = home.isSome ∧
    ∀ k, occ tc (s.waiters k) = if home = some k then 1 else 0

theorem Inv.wakes {gone kept : List WaiterState} (h : Inv s) (hw : Wakes s key gone kept t)
    (hl : ∀ tc, occ tc gone + occ tc kept = occ tc (s.waiters key)) : Inv t := by
  intro tc
  obtain ⟨home, hset, hocc⟩ := h tc
  have hkey := hocc key
  have htc := hl tc
  by_cases hg : occ tc gone = 0
  · refine ⟨home, by simp [hw.waiting, hset, hg], fun k => ?_⟩
    rw [hw.waiters, update_apply]
    grind
  · refine ⟨none, by simp [hw.waiting, hg], fun k => ?_⟩
    rw [hw.waiters, update_apply]
    grind

theorem waiters_suspendBitset {tc : Nat} {bitmask : BitVec 32} :
    (s.suspendBitset key tc bitmask).waiters =
      update s.waiters key (s.waiters key ++ [⟨tc, bitmask⟩]) := by
  refine waiters_setList.trans ?_
  cases h : s.lists key <;> simp [waiters, h]

theorem Inv.suspend {tc : Nat} {bitmask : BitVec 32} (h : Inv s)
    (hp : ∀ key, occ tc (s.waiters key) = 0) : Inv (s.suspendBitset key tc bitmask) := by
  intro x
  obtain ⟨home, hset, hocc⟩ := h x
  by_cases hx : tc = x
  · subst hx
    refine ⟨some key, by simp [suspendBitset], fun k => ?_⟩
    rw [waiters_suspendBitset, update_apply]
    grind [occ]
  · refine ⟨home, by simpa [suspendBitset, Ne.symm hx] using hset, fun k => ?_⟩
    rw [waiters_suspendBitset, update_apply]
    grind [occ]

theorem Inv.requeue {key₂ : FutexKey} {moved rest : List WaiterState} (h : Inv s)
    (hset : t.waitingTcs = s.waitingTcs)
    (hl : ∀ tc, occ tc moved + occ tc rest = occ tc (s.waiters key))
    (hq : t.waiters = update (update s.waiters key rest) key₂
      (update s.waiters key rest key₂ ++ moved)) : Inv t := by
  intro tc
  obtain ⟨home, hhome, hocc⟩ := h tc
  have hkey := hocc key
  have htc := hl tc
  have ht : ∀ k, occ tc (t.waiters k) = (if k = key then occ tc rest else occ tc (s.waiters k)) +
      if k = key₂ then occ tc moved else 0 := by
    intro k
    simp only [occ]
    split_ifs <;> simp_all
  by_cases hm : occ tc moved = 0
  · exact ⟨home, by rw [hset, hhome], by grind⟩
  · exact ⟨some key₂, by grind, by grind⟩

theorem Inv.step {a : FutexAct} (h : Inv s) (ha : s.Proper a) (hs : s.step a = .ok t) : Inv t := by
  cases a with
  | suspend key tc bitmask =>
    cases hs
    exact h.suspend ha
  | wakeup key count =>
    cases hs
    refine h.wakes (s.wakeup_spec key count).2 fun tc => ?_
    rw [occ, occ, ← List.countP_append, List.take_append_drop, occ]
  | wakeupBitset key bitmask =>
    cases hs
    refine h.wakes (s.wakeupBitset_spec key bitmask).2 fun tc => ?_
    exact (List.countP_eq_countP_filter_add _ _ _).symm
  | requeue key count count₂ addr₂ =>
    obtain ⟨u, hu, -, hset, hq⟩ := requeue_spec ha.2
    rw [FutexMap.step, hu] at hs
    cases hs
    refine h.requeue hset (fun tc => ?_) hq
    have hd : (s.waiters key).drop count = s.waiters key := by
      obtain hc | hnil := ha.1
      · rw [hc, List.drop_zero]
      · rw [hnil, List.drop_nil]
    rw [← List.drop_drop, hd, occ, occ, ← List.countP_append, List.take_append_drop, occ]

/-- In every run the set says who is in a list. Who suspends waits behind the others of the key, a
wakeup takes those in front, who have waited longest, or all that its mask is for, and a requeue
moves the next ones in their order. -/
theorem futex_map_lists_agree (h : Reach step Proper {} s) :
    (∀ tc, (s.waitingTcs tc = true ↔
        ∃ key, ∀ k, occ tc (s.waiters k) = if key = k then 1 else 0) ∧
      (s.waitingTcs tc = false ↔ ∀ k, occ tc (s.waiters k) = 0)) ∧
    (∀ key tc bitmask, (s.suspendBitset key tc bitmask).waiters =
      update s.waiters key (s.waiters key ++ [⟨tc, bitmask⟩])) ∧
    (∀ key count, (s.wakeup key count).1 = min count (s.waiters key).length ∧
      Wakes s key ((s.waiters key).take count) ((s.waiters key).drop count)
        (s.wakeup key count).2) ∧
    (∀ key bitmask, (s.wakeupBitset key bitmask).1 =
        ((s.waiters key).filter (·.checkMask bitmask)).length ∧
      Wakes s key ((s.waiters key).filter (·.checkMask bitmask))
        ((s.waiters key).filter (!·.checkMask bitmask)) (s.wakeupBitset key bitmask).2) ∧
    ∀ key count count₂ addr₂, s.HasTarget key count count₂ addr₂ →
      ∃ t, s.requeue key count count₂ addr₂ = .ok (min (count + count₂) (s.waiters key).length, t) ∧
        Requeues s key count count₂ { key with addr := addr₂ } t := by
  have hinv : Inv s := h.invariant (fun tc => ⟨none, rfl, fun _ => rfl⟩) Inv.step
  refine ⟨fun tc => ?_, fun _ _ _ => waiters_suspendBitset, s.wakeup_spec, s.wakeupBitset_spec,
    fun _ _ _ _ => requeue_spec⟩
  obtain ⟨home, hset, hocc⟩ := hinv tc
  simp only [hset, hocc]
  cases home with
  | none => simp
  | some key => simpa using ⟨key, fun _ => rfl⟩

theorem futex_map_wakes_moved_waiter :
    ∃ s, Reach step Proper {} s ∧ (s.wakeup ⟨8, 0⟩ 2).1 = 1 ∧ s.waitingTcs 0 = true := by
  have run : Reach step Proper {} _ :=
    (Reach.single (a := .suspend ⟨0, 0⟩ 0 1) (fun _ => rfl) rfl).snoc
      (a := .requeue ⟨0, 0⟩ 0 1 8) ⟨.inl rfl, fun _ => .inl (by decide)⟩ rfl
  exact ⟨_, run, ((futex_map_lists_agree run).2.2.1 ⟨8, 0⟩ 2).1, rfl⟩

/-- The thread is woken and stays in the set. With nobody to move and no list to move to, the map's
end is read. -/
theorem requeue_leaves_woken_thread_in_set :
    let key : FutexKey := ⟨0, 0⟩
    let s := ({} : FutexMap).suspendBitset key 0 1
    s.requeue key 1 1 8 = .error .outOfBounds ∧
      ∃ t, s.requeue key 1 1 0 = .ok (1, t) ∧ t.activated = [0] ∧ t.waitingTcs 0 = true ∧
        ∀ k, t.waiters k = [] := by
  refine ⟨rfl, _, rfl, rfl, rfl, fun k => ?_⟩
  rw [eraseEmpty_fields.1, waiters_setList, update_apply]
  split
  · rfl
  · rename_i hk
    rw [waiters_setList, update_apply, if_neg hk]
    exact (congrFun waiters_suspendBitset k).trans (Function.update_of_ne hk _ _)

end FutexMap

end Gem5
