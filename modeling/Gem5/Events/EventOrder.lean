import Gem5.Events.EventQueue
import Gem5.Shared.Reachability
import Mathlib.Data.Fintype.Card

/-!
# The order of events

The pointers hold the scheduled events in bins, and each operation changes them as the
list operations of `BinnedList` do. `EventRun` keeps the time of the last insertion of
each event beside the queue.
-/

namespace Gem5.Events

open Function

open List LinkedList BinnedList

namespace EventQueue

variable {n : Nat} {q q' : EventQueue n} {e a b c t : Fin n} {p : Option (Fin n)}
  {bins pre post : List (Fin n × List (Fin n))}

section Pointers

def nextBin (q : EventQueue n) (a : Fin n) : Option (Fin n) := (q.events a).nextBin

def nextInBin (q : EventQueue n) (a : Fin n) : Option (Fin n) := (q.events a).nextInBin

def key (q : EventQueue n) (a : Fin n) : Nat ×ₗ Int := (q.events a).key

/-- The queue holds the given bins from `p` on. -/
abbrev Holds (q : EventQueue n) (p : Option (Fin n)) (bins : List (Fin n × List (Fin n))) : Prop :=
  Binned q.nextBin q.nextInBin p bins

variable {f : Event n → Event n}

theorem events_modify_self : (q.modify e f).events e = f (q.events e) := update_self ..

theorem events_modify_ne (h : a ≠ e) :
    (q.modify e f).events a = q.events a := update_of_ne h ..

theorem events_modify :
    (q.modify e f).events a = if a = e then f (q.events e) else q.events a :=
  update_apply ..

/-- What `f` does not change. -/
theorem modify_kept {β : Type} (g : Event n → β) (hf : ∀ x, g (f x) = g x) (a : Fin n) :
    g ((q.modify e f).events a) = g (q.events a) := by
  rw [events_modify]
  split
  · rename_i heq
    rw [heq, hf]
  · rfl

def data (x : Event n) : (Nat ×ₗ Int) × Bool × Bool := (x.key, x.scheduled, x.onQueue)

structure SameEvents (q q' : EventQueue n) : Prop where
  curTick : q'.curTick = q.curTick
  data : ∀ a, data (q'.events a) = data (q.events a)

namespace SameEvents

theorem refl : SameEvents q q := ⟨rfl, fun _ => rfl⟩

theorem trans {q'' : EventQueue n} (h : SameEvents q q') (h' : SameEvents q' q'') :
    SameEvents q q'' := ⟨h'.curTick.trans h.curTick, fun a => (h'.data a).trans (h.data a)⟩

section

variable (h : SameEvents q q')
include h

theorem head {p : Option (Fin n)} : SameEvents q { q' with head := p } := ⟨h.curTick, h.data⟩

theorem key : q'.key = q.key := funext fun a => congrArg Prod.fst (h.data a)

theorem when (a : Fin n) : (q'.events a).when = (q.events a).when :=
  congrArg (fun x => (ofLex x.1).1) (h.data a)

theorem priority (a : Fin n) : (q'.events a).priority = (q.events a).priority :=
  congrArg (fun x => (ofLex x.1).2) (h.data a)

theorem scheduled (a : Fin n) : (q'.events a).scheduled = (q.events a).scheduled :=
  congrArg (fun x => x.2.1) (h.data a)

theorem onQueue (a : Fin n) : (q'.events a).onQueue = (q.events a).onQueue :=
  congrArg (fun x => x.2.2) (h.data a)

end

end SameEvents

theorem sameEvents_setNextBin : SameEvents q (q.setNextBin e p) :=
  ⟨rfl, modify_kept data fun _ => rfl⟩

theorem sameEvents_setNextInBin : SameEvents q (q.setNextInBin e p) :=
  ⟨rfl, modify_kept data fun _ => rfl⟩

@[simp] theorem nextBin_setNextBin_self : (q.setNextBin e p).nextBin e = p := by
  simp only [nextBin, setNextBin, events_modify_self]

@[simp] theorem nextInBin_setNextInBin_self : (q.setNextInBin e p).nextInBin e = p := by
  simp only [nextInBin, setNextInBin, events_modify_self]

theorem nextBin_setNextBin_ne (h : a ≠ e) : (q.setNextBin e p).nextBin a = q.nextBin a := by
  simp only [nextBin, setNextBin, events_modify_ne h]

theorem nextInBin_setNextInBin_ne (h : a ≠ e) :
    (q.setNextInBin e p).nextInBin a = q.nextInBin a := by
  simp only [nextInBin, setNextInBin, events_modify_ne h]

@[simp] theorem nextInBin_setNextBin : (q.setNextBin e p).nextInBin = q.nextInBin :=
  funext (modify_kept Event.nextInBin fun _ => rfl)

@[simp] theorem nextBin_setNextInBin : (q.setNextInBin e p).nextBin = q.nextBin :=
  funext (modify_kept Event.nextBin fun _ => rfl)

end Pointers

theorem setNextBin_holds {last : Fin n × List (Fin n)} {p' : Option (Fin n)}
    {bins' : List (Fin n × List (Fin n))} (h : q.Holds p (pre ++ last :: post))
    (hnew : q'.Holds p' bins') (hnodup : (members (pre ++ [last])).Nodup)
    (hapart : last.1 ∉ members bins') (hsame : ∀ a ∈ members (pre ++ [last]),
      q'.nextBin a = q.nextBin a ∧ q'.nextInBin a = q.nextInBin a) :
    (q'.setNextBin last.1 p').Holds p (pre ++ last :: bins') := by
  have hset : (q'.setNextBin last.1 p').Holds p' bins' := by
    refine hnew.congr (fun a ha => nextBin_setNextBin_ne fun heq => hapart (heq ▸ ha)) ?_
    intro a _
    rw [nextInBin_setNextBin]
  refine h.set_rest hset hnodup ?_ ?_ nextBin_setNextBin_self
  · intro a ha hne
    rw [nextBin_setNextBin_ne hne, (hsame a ha).1]
  · intro a ha
    rw [nextInBin_setNextBin, (hsame a ha).2]

section Insert

theorem insertBefore_cases : ∃ x y, (q.insertBefore e p) = (q.setNextBin e x).setNextInBin e y ∧
    ((p = none ∧ x = none ∧ y = none) ∨ ∃ c, p = some c ∧
      ((q.key e < q.key c ∧ x = some c ∧ y = none) ∨
        (¬ q.key e < q.key c ∧ x = q.nextBin c ∧ y = some c))) := by
  cases p with
  | none => exact ⟨none, none, rfl, .inl ⟨rfl, rfl, rfl⟩⟩
  | some c =>
    unfold insertBefore
    dsimp only
    split
    · rename_i hlt
      exact ⟨_, _, rfl, .inr ⟨c, rfl, .inl ⟨Event.lt_iff.mp hlt, rfl, rfl⟩⟩⟩
    · rename_i hlt
      exact ⟨_, _, rfl, .inr ⟨c, rfl, .inr ⟨fun h => hlt (Event.lt_iff.mpr h), rfl, rfl⟩⟩⟩

theorem sameEvents_insertBefore : SameEvents q (q.insertBefore e p) := by
  obtain ⟨x, y, heq, _⟩ := insertBefore_cases (q := q) (e := e) (p := p)
  rw [heq]
  exact sameEvents_setNextBin.trans sameEvents_setNextInBin

theorem head_insertBefore : (q.insertBefore e p).head = q.head := by
  obtain ⟨x, y, heq, _⟩ := insertBefore_cases (q := q) (e := e) (p := p)
  rw [heq]
  rfl

theorem insertBefore_frame (h : a ≠ e) : (q.insertBefore e p).nextBin a = q.nextBin a ∧
    (q.insertBefore e p).nextInBin a = q.nextInBin a := by
  obtain ⟨x, y, heq, _⟩ := insertBefore_cases (q := q) (e := e) (p := p)
  rw [heq, nextBin_setNextInBin, nextBin_setNextBin_ne h, nextInBin_setNextInBin_ne h,
    nextInBin_setNextBin]
  exact ⟨rfl, rfl⟩

theorem insertBefore_holds (h : q.Holds p bins) (he : e ∉ members bins)
    (hle : ∀ b ∈ bins.head?, q.key e ≤ q.key b.1) :
    (q.insertBefore e p).Holds (some e) (insertBins q.key e bins) := by
  obtain ⟨x, y, heq, hcase⟩ := insertBefore_cases (q := q) (e := e) (p := p)
  have hbin : ∀ a, a ≠ e → (q.insertBefore e p).nextBin a = q.nextBin a := fun a ha =>
    (insertBefore_frame ha).1
  have hin : ∀ a, a ≠ e → (q.insertBefore e p).nextInBin a = q.nextInBin a := fun a ha =>
    (insertBefore_frame ha).2
  have hx : (q.insertBefore e p).nextBin e = x := by
    rw [heq, nextBin_setNextInBin, nextBin_setNextBin_self]
  have hy : (q.insertBefore e p).nextInBin e = y := by
    rw [heq, nextInBin_setNextInBin_self]
  cases bins with
  | nil =>
    have hp : p = none := h.chain
    obtain ⟨_, rfl, rfl⟩ | ⟨c, hc, _⟩ := hcase
    · exact h.push_bin he hbin hin (hx.trans hp.symm) hy
    · rw [hp] at hc
      cases hc
  | cons b bins =>
    have hp : p = some b.1 := h.chain.1
    obtain ⟨hnone, _⟩ | ⟨c, hc, hcase⟩ := hcase
    · rw [hp] at hnone
      cases hnone
    · obtain rfl : b.1 = c := Option.mem_unique hp hc
      rw [insertBins]
      rcases hcase with ⟨hlt, rfl, rfl⟩ | ⟨hlt, rfl, rfl⟩
      · rw [if_pos hlt]
        exact h.push_bin he hbin hin (hx.trans hp.symm) hy
      · have hkey : q.key e = q.key b.1 := le_antisymm (hle b rfl) (not_lt.mp hlt)
        rw [if_neg hlt, if_pos hkey]
        exact h.push_top he hbin hin hx hy

theorem length_le_of_nodup {l : List (Fin n)} (h : l.Nodup) : l.length ≤ n := by
  have hcard := h.length_le_card
  rwa [Fintype.card_fin] at hcard

theorem findBin_spec {first : Fin n × List (Fin n)} (h : q.Holds p (first :: bins))
    (hnodup : (members (first :: bins)).Nodup) (hfirst : q.key first.1 < q.key e) :
    ∃ pre last post, first :: bins = pre ++ last :: post ∧
      (∀ b ∈ pre ++ [last], q.key b.1 < q.key e) ∧ (∀ b ∈ post.head?, q.key e ≤ q.key b.1) ∧
      q.findBin e first.1 = .ok (last.1, (post.head?).map Prod.fst) := by
  obtain ⟨_, _, hrest⟩ := Binned.cons_iff.mp h
  have hfuel : (bins.map Prod.fst).length < n + 1 := by
    have hshort : ((first :: bins).map Prod.fst).length ≤ (members (first :: bins)).length :=
      tops_length_le
    have hall := length_le_of_nodup hnodup
    rw [map_cons, length_cons] at hshort
    omega
  obtain ⟨front, rear, hsplit, hfront, hrear, hwalk⟩ := walk_spec
    (fun c => (q.events c).lt (q.events e)) first.1 hrest.chain hfuel
  obtain ⟨pre, post, rfl, rfl, rfl⟩ := map_eq_append_iff.mp hsplit
  have hne : first :: pre ≠ [] := cons_ne_nil first pre
  refine ⟨(first :: pre).dropLast, (first :: pre).getLast hne, post, ?_, ?_, ?_, ?_⟩
  · rw [append_cons, dropLast_append_getLast, cons_append]
  · rw [dropLast_append_getLast]
    intro b hb
    rcases mem_cons.mp hb with rfl | hb
    · exact hfirst
    · exact Event.lt_iff.mp (hfront b.1 (mem_map_of_mem hb))
  · intro b hb
    have hstop := hrear b.1 (by rw [List.head?_map, hb]; rfl)
    exact not_lt.mp fun hlt => Bool.eq_false_iff.mp hstop (Event.lt_iff.mpr hlt)
  · have hlast : (first.1 :: pre.map Prod.fst).getLast (cons_ne_nil _ _) =
        ((first :: pre).getLast hne).1 := by
      rw [← getLast_map (f := Prod.fst) (l := first :: pre)]
      rfl
    rw [hlast, List.head?_map] at hwalk
    have hmatch :
        walk (fun a => (q.events a).nextBin) (fun c => (q.events c).lt (q.events e)) (n + 1)
        first.1 (q.events first.1).nextBin = _ := hwalk
    unfold findBin
    rw [hmatch]

theorem insert_holds (h : q.Holds q.head bins) (hnodup : (members bins).Nodup)
    (he : e ∉ members bins) : ∃ q', q.insert e = .ok q' ∧ SameEvents q q' ∧
      q'.Holds q'.head (insertBins q.key e bins) := by
  unfold insert
  cases bins with
  | nil =>
    have hhead : q.head = none := h.chain
    rw [hhead] at h
    rw [hhead]
    refine ⟨_, rfl, sameEvents_insertBefore.head, ?_⟩
    exact insertBefore_holds h he fun b hb => by cases hb
  | cons first bins =>
    have hhead : q.head = some first.1 := h.chain.1
    rw [hhead] at h
    rw [hhead]
    dsimp only
    split
    · rename_i hle
      refine ⟨_, rfl, sameEvents_insertBefore.head, ?_⟩
      refine insertBefore_holds h he fun b hb => ?_
      obtain rfl := Option.some.inj hb
      exact Event.le_iff.mp hle
    · rename_i hle
      have hfirst : q.key first.1 < q.key e := not_le.mp fun hk => hle (Event.le_iff.mpr hk)
      obtain ⟨pre, last, post, hsplit, hlow, hhigh, hfind⟩ := findBin_spec h hnodup hfirst
      rw [hfind]
      refine ⟨_, rfl, sameEvents_insertBefore.trans sameEvents_setNextBin, ?_⟩
      rw [hsplit] at h hnodup he ⊢
      rw [append_cons] at hnodup he
      rw [members_append] at hnodup he
      obtain ⟨hfront, _, hapart⟩ := nodup_append.mp hnodup
      obtain ⟨hefront, hepost⟩ := not_or.mp (mem_append.not.mp he)
      have hinserted := insertBefore_holds h.rest hepost hhigh
      rw [insertBins_append fun b hb => hlow b (mem_append_left _ hb), insertBins,
        if_neg (not_lt_of_gt (hlow last (by simp))), if_neg (ne_of_gt (hlow last (by simp)))]
      have hsame : (q.insertBefore e ((post.head?).map Prod.fst)).head = some first.1 :=
        head_insertBefore.trans hhead
      change Holds _ (q.insertBefore e ((post.head?).map Prod.fst)).head _
      rw [hsame]
      refine setNextBin_holds h hinserted hfront ?_ fun a ha => ?_
      · rw [mem_members_insertBins]
        have hlast : last.1 ∈ members (pre ++ [last]) :=
          top_mem_members (mem_append_right pre (mem_singleton_self last))
        rintro (heq | hmem)
        · exact hefront (heq ▸ hlast)
        · exact hapart last.1 hlast last.1 hmem rfl
      · exact insertBefore_frame fun heq => hefront (heq ▸ ha)

end Insert

section Remove

theorem removeItem_holds {first : Fin n × List (Fin n)} (h : q.Holds p (first :: bins))
    (hnodup : (members (first :: bins)).Nodup) (he : e ∈ first.1 :: first.2) :
    ∃ p' q', q.removeItem e first.1 = .ok (p', q') ∧ SameEvents q q' ∧ q'.head = q.head ∧
      q'.Holds p' (removeBins e (first :: bins)) ∧
      ∀ a, a ∉ first.1 :: first.2 → q'.nextBin a = q.nextBin a ∧
        q'.nextInBin a = q.nextInBin a := by
  obtain ⟨top, stack⟩ := first
  obtain ⟨_, hstack, hrest⟩ := Binned.cons_iff.mp h
  rw [removeBins, if_pos he]
  unfold removeItem
  by_cases htop : e = top
  · subst htop
    rw [if_pos rfl, erase_cons_head]
    cases stack with
    | nil =>
      have hnext : (q.events e).nextInBin = none := hstack
      rw [hnext]
      exact ⟨_, q, rfl, .refl, rfl, hrest, fun _ _ => ⟨rfl, rfl⟩⟩
    | cons u r =>
      have hnext : (q.events e).nextInBin = some u := hstack.1
      rw [hnext]
      have hu : u ∉ members bins := fun hmem =>
        (nodup_append.mp hnodup).2.2 u (mem_cons_of_mem e mem_cons_self) u hmem rfl
      refine ⟨some u, _, rfl, sameEvents_setNextBin, rfl, ?_, ?_⟩
      · have hpop := h.pop_top hu
          (fun a ha => nextBin_setNextBin_ne (q := q) (e := u) (p := q.nextBin e) ha)
          nextBin_setNextBin_self
        refine hpop.congr (fun _ _ => rfl) fun a _ => ?_
        exact congrFun nextInBin_setNextBin a
      · intro a ha
        have hau : a ≠ u := fun heq => ha (heq ▸ mem_cons_of_mem e mem_cons_self)
        exact ⟨nextBin_setNextBin_ne hau, congrFun nextInBin_setNextBin a⟩
  · have hmem : e ∈ stack := (mem_cons.mp he).resolve_left htop
    rw [if_neg htop]
    have hstackNodup : stack.Nodup := by
      exact (nodup_cons.mp (nodup_append.mp hnodup).1).2
    have hfuel : stack.length < n + 1 := Nat.lt_succ_of_le (length_le_of_nodup hstackNodup)
    obtain ⟨front, rear, rfl, hfront, hrear, hwalk⟩ := walk_spec
      (fun c => decide (e ≠ c)) top hstack hfuel
    obtain ⟨back, rfl⟩ : ∃ back, rear = e :: back := by
      have hnot : e ∉ front := fun hf => (of_decide_eq_true (hfront e hf)) rfl
      have hrearMem := (mem_append.mp hmem).resolve_left hnot
      cases rear with
      | nil => cases hrearMem
      | cons x back =>
        have hx := hrear x rfl
        have heq : e = x := by
          by_contra hne
          exact Bool.eq_false_iff.mp hx (decide_eq_true hne)
        exact ⟨back, by rw [heq]⟩
    have hnot : e ∉ front := fun hf => (of_decide_eq_true (hfront e hf)) rfl
    have hmatch : walk (fun a => (q.events a).nextInBin) (fun c => decide (e ≠ c)) (n + 1) top
        (q.events top).nextInBin = some (_, some e) := hwalk
    rw [hmatch]
    have herase : (top :: (front ++ e :: back)).erase e = top :: (front ++ back) := by
      rw [erase_cons_tail (by simpa using Ne.symm htop), erase_append_right _ hnot,
        erase_cons_head]
    rw [herase]
    set c := (top :: front).getLast (cons_ne_nil top front) with hc
    refine ⟨some top, _, rfl, sameEvents_setNextInBin, rfl, ?_, ?_⟩
    · have hp : p = some top := h.chain.1
      have hunlink := h.unlink hnodup hc
        (fun a ha => nextInBin_setNextInBin_ne (q := q) (e := c) (p := q.nextInBin e) ha)
        nextInBin_setNextInBin_self
      rw [hp] at hunlink
      refine hunlink.congr (fun a _ => ?_) fun _ _ => rfl
      exact congrFun nextBin_setNextInBin a
    · intro a ha
      have hac : a ≠ c := by
        rintro rfl
        apply ha
        have hlast : c ∈ top :: front := getLast_mem _
        rcases mem_cons.mp hlast with heq | hlast
        · rw [heq]
          exact mem_cons_self
        · exact mem_cons_of_mem top (mem_append_left _ hlast)
      exact ⟨congrFun nextBin_setNextInBin a, nextInBin_setNextInBin_ne hac⟩

theorem popHead_eq {p : Option (Fin n)} (h : q.removeItem e e = .ok (p, q')) :
    q.popHead e = { q' with head := p } := by
  unfold removeItem at h
  unfold popHead
  rw [if_pos rfl] at h
  cases hnext : (q.events e).nextInBin with
  | none | some next =>
    rw [hnext] at h
    cases h
    rfl

theorem mem_bin_of_key {stamp : Fin n → Nat} {first : Fin n × List (Fin n)}
    (h : Ordered q.key stamp (first :: bins)) (he : e ∈ members (first :: bins))
    (hkey : q.key e ≤ q.key first.1) : e ∈ first.1 :: first.2 := by
  obtain ⟨_, _, hlow, hrest⟩ := Ordered.cons_iff.mp h
  rw [members_cons, mem_append] at he
  rcases he with he | he
  · exact he
  · obtain ⟨b, hb, hmem⟩ := mem_flatMap.mp he
    exact absurd (lt_of_lt_of_le (hlow b hb) (hrest.key_eq hb hmem ▸ hkey)) (lt_irrefl _)

theorem remove_holds {stamp : Fin n → Nat} (h : q.Holds q.head bins)
    (hord : Ordered q.key stamp bins) (hnodup : (members bins).Nodup) (he : e ∈ members bins)
    (hqueue : (q.events e).onQueue = true) : ∃ q', q.remove e = .ok q' ∧ SameEvents q q' ∧
      q'.Holds q'.head (removeBins e bins) := by
  cases bins with
  | nil => cases he
  | cons first bins =>
    have hhead : q.head = some first.1 := h.chain.1
    rw [hhead] at h
    unfold remove
    rw [hhead]
    simp only [simAssert_of hqueue]
    unfold removeFrom
    have hfirst := hord.key_le e he
    split
    · rename_i heq
      have hkey : q.key first.1 = q.key e := Event.beq_iff.mp heq
      have hmem := mem_bin_of_key hord he hkey.ge
      obtain ⟨p', q', hitem, hsame, _, hholds, _⟩ := removeItem_holds h hnodup hmem
      rw [hitem]
      exact ⟨_, rfl, hsame.head, hholds⟩
    · rename_i hne
      have hkey : q.key first.1 < q.key e :=
        lt_of_le_of_ne hfirst fun heq => hne (Event.beq_iff.mpr heq)
      obtain ⟨pre, last, post, hsplit, hlow, hhigh, hfind⟩ := findBin_spec h hnodup hkey
      rw [hfind]
      rw [hsplit] at h hnodup he hord ⊢
      -- the event is in none of the bins in front
      have hnotin : ∀ b ∈ pre ++ [last], e ∉ b.1 :: b.2 := by
        intro b hb hmem
        have hin : b ∈ pre ++ last :: post := by
          rw [append_cons]
          exact mem_append_left _ hb
        exact absurd (hord.key_eq hin hmem ▸ hlow b hb) (lt_irrefl _)
      rw [append_cons] at hnodup he hord
      rw [members_append] at hnodup he
      obtain ⟨hfront, hpostNodup, hapart⟩ := nodup_append.mp hnodup
      have hepost : e ∈ members post := by
        refine (mem_append.mp he).resolve_left fun hmem => ?_
        obtain ⟨b, hb, hmem⟩ := mem_flatMap.mp hmem
        exact hnotin b hb hmem
      cases post with
      | nil => cases hepost
      | cons bin post =>
        have hpostOrd : Ordered q.key stamp (bin :: post) := by
          refine ⟨fun b hb => hord.level b (mem_append_right _ hb),
            (pairwise_append.mp hord.ascending).2.1,
            fun b hb => hord.stacked b (mem_append_right _ hb)⟩
        have hbin : q.key bin.1 = q.key e :=
          le_antisymm (hpostOrd.key_le e hepost) (hhigh bin rfl)
        have hmem := mem_bin_of_key hpostOrd hepost hbin.ge
        have hbeq : (q.events bin.1).beq (q.events e) = true := Event.beq_iff.mpr hbin
        obtain ⟨p', q', hitem, hsame, hheadSame, hholds, hframe⟩ :=
          removeItem_holds h.rest hpostNodup hmem
        simp only [removeBehind, List.head?_cons, Option.map_some, hbeq, hitem, sim_ok_bind]
        refine ⟨_, rfl, hsame.trans sameEvents_setNextBin, ?_⟩
        have hkeep : (q'.setNextBin last.1 p').head = some first.1 := hheadSame.trans hhead
        rw [hkeep, append_cons, removeBins_append hnotin, ← append_cons]
        have hlast : last.1 ∈ members (pre ++ [last]) :=
          top_mem_members (mem_append_right pre (mem_singleton_self last))
        refine setNextBin_holds h hholds hfront ?_ fun a ha => hframe a fun hbinMem => ?_
        · rw [members_removeBins hpostNodup]
          exact fun hmem => hapart last.1 hlast last.1 (mem_of_mem_erase hmem) rfl
        · exact hapart a ha a (mem_flatMap.mpr ⟨bin, mem_cons_self, hbinMem⟩) rfl

end Remove

end EventQueue

structure EventRun (n : Nat) where
  queue : EventQueue n
  stamp : Fin n → Nat
  clock : Nat

inductive EventOp (n : Nat) where
  | schedule (event : Fin n) (when : Nat)
  | deschedule (event : Fin n)
  | reschedule (event : Fin n) (when : Nat) (always : Bool)
  | serviceOne
  | squash (event : Fin n)

namespace EventRun

variable {n : Nat} {s t : EventRun n} {e : Fin n} {bins : List (Fin n × List (Fin n))}

def start (priority : Fin n → Int) : EventRun n := ⟨.construct priority, fun _ => 0, 0⟩

def inserted (e : Fin n) (q : EventQueue n) (s : EventRun n) : EventRun n :=
  ⟨q, Function.update s.stamp e s.clock, s.clock + 1⟩

def step (s : EventRun n) : EventOp n → Sim (EventRun n)
  | .schedule event when => do
    let q ← s.queue.schedule event when
    pure (s.inserted event q)
  | .deschedule event => do
    let q ← s.queue.deschedule event
    pure { s with queue := q }
  | .reschedule event when always => do
    let q ← s.queue.reschedule event when always
    pure (s.inserted event q)
  | .serviceOne => do
    let (_, q) ← s.queue.serviceOne
    pure { s with queue := q }
  | .squash event => pure { s with queue := s.queue.squash event }

def Legal (s : EventRun n) : EventOp n → Prop
  | .schedule event when => s.queue.curTick ≤ when ∧ (s.queue.events event).scheduled = false
  | .deschedule event => (s.queue.events event).scheduled = true
  | .reschedule event when always => s.queue.curTick ≤ when ∧
      (always = true ∨ (s.queue.events event).scheduled = true)
  | .serviceOne => s.queue.head ≠ none
  | .squash _ => True

structure Contents (s : EventRun n) (bins : List (Fin n × List (Fin n))) : Prop where
  holds : s.queue.Holds s.queue.head bins
  nodup : (members bins).Nodup
  ordered : Ordered s.queue.key s.stamp bins
  future : ∀ e ∈ members bins, s.queue.curTick ≤ (s.queue.events e).when
  stamped : ∀ e ∈ members bins, s.stamp e < s.clock
  onQueue : ∀ e ∈ members bins, (s.queue.events e).onQueue = true

structure Sorted (s : EventRun n) (bins : List (Fin n × List (Fin n))) : Prop
    extends s.Contents bins where
  exact : ∀ e, e ∈ members bins ↔ (s.queue.events e).scheduled = true

def Effect (s t : EventRun n) (old new : List (Fin n)) : EventOp n → Prop
  | .schedule e when => new.erase e = old ∧ (t.queue.events e).when = when
  | .deschedule e => new = old.erase e
  | .reschedule e when _ => new.erase e = old.erase e ∧ (t.queue.events e).when = when
  | .serviceOne => ∃ e, s.queue.serviceOne = .ok (e, t.queue) ∧ old = e :: new ∧
      ∀ a ∈ new, s.queue.key e < s.queue.key a ∨
        (s.queue.key e = s.queue.key a ∧ s.stamp a < s.stamp e)
  | .squash _ => new = old

/-- `op` returns, keeps the order and does what it should. -/
def Goes (s : EventRun n) (bins : List (Fin n × List (Fin n))) (op : EventOp n) : Prop :=
  ∃ t bins', s.step op = .ok t ∧ t.Sorted bins' ∧ s.queue.curTick ≤ t.queue.curTick ∧
    Effect s t (members bins) (members bins') op

def core (x : Event n) : Nat × Int × Option (Fin n) × Option (Fin n) × Bool :=
  (x.when, x.priority, x.nextBin, x.nextInBin, x.onQueue)

variable {q : EventQueue n}

theorem Contents.congr (h : s.Contents bins) (hhead : q.head = s.queue.head)
    (hcore : ∀ a ∈ members bins, core (q.events a) = core (s.queue.events a))
    (htick : ∀ a ∈ members bins, q.curTick ≤ (s.queue.events a).when) :
    Contents { s with queue := q } bins := by
  have hsame : ∀ a ∈ members bins, (q.events a).when = (s.queue.events a).when ∧
      (q.events a).priority = (s.queue.events a).priority ∧ q.nextBin a = s.queue.nextBin a ∧
      q.nextInBin a = s.queue.nextInBin a ∧ (q.events a).onQueue = (s.queue.events a).onQueue := by
    intro a ha
    have hall := hcore a ha
    simp only [core, Prod.mk.injEq] at hall
    exact hall
  refine ⟨?_, h.nodup, ?_, ?_, h.stamped, ?_⟩
  · rw [hhead]
    exact h.holds.congr (fun a ha => (hsame a ha).2.2.1) fun a ha => (hsame a ha).2.2.2.1
  · refine h.ordered.congr (fun a ha => ?_) fun _ _ => rfl
    change (q.events a).key = (s.queue.events a).key
    rw [Event.key, Event.key, (hsame a ha).1, (hsame a ha).2.1]
  · intro a ha
    rw [(hsame a ha).1]
    exact htick a ha
  · intro a ha
    rw [(hsame a ha).2.2.2.2]
    exact h.onQueue a ha

variable {when : Nat}

theorem Contents.insert (h : s.Contents bins) {f : Event n → Event n}
    (he : e ∉ members bins) (hwhen : s.queue.curTick ≤ when)
    (hexact : ∀ a, a ≠ e → (a ∈ members bins ↔ (s.queue.events a).scheduled = true))
    (hf : ∀ x, core (f x) = core x ∧ (f x).scheduled = true) :
    ∃ q bins', (s.queue.setWhen e when).insert e = .ok q ∧
      (s.inserted e (q.modify e f)).Sorted bins' ∧ q.curTick = s.queue.curTick ∧
      (members bins').erase e = members bins ∧ ((q.modify e f).events e).when = when := by
  have hcore : ∀ x, core (f x) = core x := fun x => (hf x).1
  have hne : ∀ a ∈ members bins, a ≠ e := fun a ha heq => he (heq ▸ ha)
  have hset : ∀ a, a ≠ e → (s.queue.setWhen e when).events a = s.queue.events a := fun a ha =>
    EventQueue.events_modify_ne ha
  have hself : (s.queue.setWhen e when).events e =
      { s.queue.events e with when := when, onQueue := true } := EventQueue.events_modify_self
  have hready := h.congr (q := s.queue.setWhen e when) rfl
    (fun a ha => by rw [hset a (hne a ha)]) h.future
  obtain ⟨q, hq, hsame, hholds⟩ := EventQueue.insert_holds hready.holds hready.nodup he
  have hkey : q.key = (s.queue.setWhen e when).key := hsame.key
  -- the order of the new contents, with the new stamp
  have hord : Ordered q.key (Function.update s.stamp e s.clock)
      (insertBins (s.queue.setWhen e when).key e bins) := by
    rw [hkey]
    refine Ordered.insert (hready.ordered.congr (fun _ _ => rfl) fun a ha => ?_) ?_
    · exact update_of_ne (hne a ha) ..
    · intro a ha
      rw [update_self, update_of_ne (hne a ha)]
      exact h.stamped a ha
  have hnodup : (members (insertBins (s.queue.setWhen e when).key e bins)).Nodup :=
    members_insertBins_perm.nodup_iff.mpr (nodup_cons.mpr ⟨he, h.nodup⟩)
  have hinserted : Contents (s.inserted e q) (insertBins (s.queue.setWhen e when).key e bins) := by
    refine ⟨hholds, hnodup, hord, ?_, ?_, ?_⟩
    · intro a ha
      change q.curTick ≤ (q.events a).when
      rw [hsame.when a, hsame.curTick]
      rcases mem_members_insertBins.mp ha with rfl | ha
      · rw [hself]
        exact hwhen
      · rw [hset a (hne a ha)]
        exact h.future a ha
    · intro a ha
      change Function.update s.stamp e s.clock a < s.clock + 1
      rcases mem_members_insertBins.mp ha with rfl | ha
      · rw [update_self]
        exact Nat.lt_succ_self _
      · rw [update_of_ne (hne a ha)]
        exact Nat.lt_succ_of_lt (h.stamped a ha)
    · intro a ha
      change (q.events a).onQueue = true
      rw [hsame.onQueue a]
      rcases mem_members_insertBins.mp ha with rfl | ha
      · rw [hself]
      · rw [hset a (hne a ha)]
        exact h.onQueue a ha
  have hflags : Contents (s.inserted e (q.modify e f))
      (insertBins (s.queue.setWhen e when).key e bins) :=
    hinserted.congr rfl (fun a _ => EventQueue.modify_kept core hcore a) hinserted.future
  refine ⟨q, _, hq, ⟨hflags, fun a => ?_⟩, hsame.curTick, erase_members_insertBins he, ?_⟩
  · rw [mem_members_insertBins]
    change _ ↔ ((q.modify e f).events a).scheduled = true
    rw [EventQueue.events_modify]
    by_cases hae : a = e
    · rw [if_pos hae]
      exact iff_of_true (.inl hae) (hf _).2
    · rw [if_neg hae, hsame.scheduled a, hset a hae, ← hexact a hae]
      exact or_iff_right hae
  · have hall := EventQueue.modify_kept (q := q) (e := e) core hcore e
    simp only [core, Prod.mk.injEq] at hall
    rw [hall.1, hsame.when e, hself]

theorem Contents.removed (h : s.Contents bins) (hsame : EventQueue.SameEvents s.queue q)
    (hholds : q.Holds q.head (removeBins e bins)) :
    Contents { s with queue := q } (removeBins e bins) := by
  have hmem : ∀ a ∈ members (removeBins e bins), a ∈ members bins := by
    intro a ha
    rw [members_removeBins h.nodup] at ha
    exact mem_of_mem_erase ha
  refine ⟨hholds, ?_, ?_, ?_, fun a ha => h.stamped a (hmem a ha), ?_⟩
  · rw [members_removeBins h.nodup]
    exact h.nodup.erase e
  · rw [hsame.key]
    exact h.ordered.remove
  · intro a ha
    rw [hsame.curTick, hsame.when a]
    exact h.future a (hmem a ha)
  · intro a ha
    rw [hsame.onQueue a]
    exact h.onQueue a (hmem a ha)

theorem Contents.remove (h : s.Contents bins) (he : e ∈ members bins) :
    ∃ q, s.queue.remove e = .ok q ∧ Contents { s with queue := q } (removeBins e bins) ∧
      EventQueue.SameEvents s.queue q := by
  obtain ⟨q, hq, hsame, hholds⟩ :=
    EventQueue.remove_holds h.holds h.ordered h.nodup he (h.onQueue e he)
  exact ⟨q, hq, h.removed hsame hholds, hsame⟩

theorem Sorted.schedule (h : s.Sorted bins) (hlegal : s.Legal (.schedule e when)) :
    s.Goes bins (.schedule e when) := by
  obtain ⟨hwhen, hidle⟩ := hlegal
  have he : e ∉ members bins := fun hmem => by
    rw [(h.exact e).mp hmem] at hidle
    cases hidle
  obtain ⟨q, bins', hq, hsorted, htick, herase, hset⟩ := h.insert
    (f := fun x => { x with scheduled := true }) he hwhen (fun a _ => h.exact a)
    fun x => ⟨rfl, rfl⟩
  refine ⟨_, bins', ?_, hsorted, htick.ge, herase, hset⟩
  simp only [step, EventQueue.schedule, simAssert_of (decide_eq_true hwhen), hidle, Bool.not_false,
    simAssert_true, hq, sim_ok_bind, sim_pure]

theorem Sorted.deschedule (h : s.Sorted bins) (hlegal : s.Legal (.deschedule e)) :
    s.Goes bins (.deschedule e) := by
  have hscheduled : (s.queue.events e).scheduled = true := hlegal
  obtain ⟨q, hq, hcontents, hsame⟩ := h.remove ((h.exact e).mpr hscheduled)
  have hflags := hcontents.congr (q := q.modify e fun x =>
    { x with squashed := false, scheduled := false }) rfl
    (fun a _ => EventQueue.modify_kept core (by exact fun _ => rfl) a) hcontents.future
  refine ⟨_, _, ?_, ⟨hflags, fun a => ?_⟩, hsame.curTick.ge, members_removeBins h.nodup⟩
  · simp only [step, EventQueue.deschedule, simAssert_of hscheduled, hq, sim_ok_bind, sim_pure]
  · rw [members_removeBins h.nodup, h.nodup.mem_erase_iff, h.exact a]
    rw [EventQueue.events_modify]
    by_cases hae : a = e
    · rw [if_pos hae]
      exact iff_of_false (fun hmem => hmem.1 hae) Bool.false_ne_true
    · rw [if_neg hae, hsame.scheduled a]
      exact and_iff_right hae

theorem Sorted.reschedule {always : Bool} (h : s.Sorted bins)
    (hlegal : s.Legal (.reschedule e when always)) : s.Goes bins (.reschedule e when always) := by
  obtain ⟨hwhen, halways⟩ := hlegal
  have hassert : (always || (s.queue.events e).scheduled) = true := by
    rw [Bool.or_eq_true]
    exact halways
  -- an event that is scheduled is taken out first
  obtain ⟨q, mid, hq, hcontents, hsame, hmid, he⟩ : ∃ q mid,
      s.queue.removeScheduled e = .ok q ∧
        Contents { s with queue := q } mid ∧ EventQueue.SameEvents s.queue q ∧
        members mid = (members bins).erase e ∧ e ∉ members mid := by
    by_cases hscheduled : (s.queue.events e).scheduled = true
    · obtain ⟨q, hq, hcontents, hsame⟩ := h.remove ((h.exact e).mpr hscheduled)
      have hmembers := members_removeBins (e := e) h.nodup
      refine ⟨q, _, (if_pos hscheduled).trans hq, hcontents, hsame, hmembers, ?_⟩
      rw [hmembers, h.nodup.mem_erase_iff]
      exact fun hmem => hmem.1 rfl
    · have he : e ∉ members bins := fun hmem => hscheduled ((h.exact e).mp hmem)
      exact ⟨_, bins, if_neg hscheduled, h.toContents, .refl, (erase_of_not_mem he).symm, he⟩
  have hexact : ∀ a, a ≠ e → (a ∈ members mid ↔ (q.events a).scheduled = true) := by
    intro a ha
    rw [hmid, hsame.scheduled a, mem_erase_of_ne ha]
    exact h.exact a
  obtain ⟨q', bins', hq', hsorted, htick, herase, hset⟩ := hcontents.insert
    (f := fun x => { x with squashed := false, scheduled := true }) he
    (hsame.curTick ▸ hwhen : q.curTick ≤ when) hexact fun x => ⟨rfl, rfl⟩
  refine ⟨_, bins', ?_, hsorted, (htick.trans hsame.curTick).ge, herase.trans hmid, hset⟩
  simp only [step, EventQueue.reschedule, simAssert_of (decide_eq_true hwhen), simAssert_of hassert,
    hq, hq', sim_ok_bind]
  rfl

theorem serviceOne_cases (hhead : q.head = some e) : ∃ f tick,
    q.serviceOne = .ok (e, { (q.popHead e).modify e f with curTick := tick }) ∧
      (∀ x, core (f x) = core x ∧ (f x).scheduled = false) ∧
      (tick = q.curTick ∨ tick = (q.events e).when) := by
  have htick : (q.popHead e).curTick = q.curTick := by
    unfold EventQueue.popHead
    split <;> rfl
  unfold EventQueue.serviceOne
  rw [hhead]
  dsimp only
  split
  · refine ⟨fun x => { x with scheduled := false, squashed := false }, _, ?_, fun _ => ⟨rfl, rfl⟩,
      .inl htick⟩
    rfl
  · exact ⟨fun x => { x with scheduled := false }, _, rfl, fun _ => ⟨rfl, rfl⟩, .inr rfl⟩

theorem Sorted.popHead {first : Fin n × List (Fin n)} (h : s.Sorted (first :: bins)) :
    ∃ bins', Contents { s with queue := s.queue.popHead first.1 } bins' ∧
      members (first :: bins) = first.1 :: members bins' ∧
      (∀ a ∈ members bins', s.queue.key first.1 < s.queue.key a ∨
        (s.queue.key first.1 = s.queue.key a ∧ s.stamp a < s.stamp first.1)) ∧
      (∀ a, ((s.queue.popHead first.1).events a).when = (s.queue.events a).when) ∧
      ∀ a, ((s.queue.popHead first.1).events a).scheduled = (s.queue.events a).scheduled := by
  have hholds := h.holds
  obtain ⟨p, q, hitem, hsame, _, hpopped, _⟩ := EventQueue.removeItem_holds hholds h.nodup
    (mem_cons_self (a := first.1))
  have hmembers : members (first :: bins) =
      first.1 :: members (removeBins first.1 (first :: bins)) := by
    rw [members_removeBins h.nodup, members_cons, cons_append, erase_cons_head]
  have hall := h.ordered.pairwise_members
  rw [hmembers] at hall
  rw [EventQueue.popHead_eq hitem]
  exact ⟨_, h.removed hsame.head hpopped, hmembers, (pairwise_cons.mp hall).1, hsame.when,
    hsame.scheduled⟩

theorem Sorted.serviceOne (h : s.Sorted bins) (hlegal : s.Legal .serviceOne) :
    s.Goes bins .serviceOne := by
  cases bins with
  | nil => exact absurd h.holds.chain hlegal
  | cons first bins =>
    have hmem : first.1 ∈ members (first :: bins) := top_mem_members mem_cons_self
    obtain ⟨f, tick, hservice, hf, htick⟩ := serviceOne_cases h.holds.chain.1
    obtain ⟨bins', hcontents, hmembers, hfirst, hwhen, hscheduled⟩ := h.popHead
    have hnotin : first.1 ∉ members bins' := (nodup_cons.mp (hmembers ▸ h.nodup)).1
    have hlater : ∀ a ∈ members bins', a ∈ members (first :: bins) :=
      fun a ha => hmembers ▸ mem_cons_of_mem first.1 ha
    -- the time of the first event has not passed for the others
    have hfuture : ∀ a ∈ members bins', tick ≤ (s.queue.events a).when := by
      intro a ha
      rcases htick with rfl | rfl
      · exact h.future a (hlater a ha)
      · rcases hfirst a ha with hlt | ⟨heq, _⟩
        · rcases Prod.Lex.toLex_lt_toLex.mp hlt with hlt | ⟨heq, _⟩
          · exact le_of_lt hlt
          · exact le_of_eq heq
        · exact le_of_eq (congrArg (fun k => (ofLex k).1) heq)
    have hflags := hcontents.congr
      (q := { (s.queue.popHead first.1).modify first.1 f with curTick := tick }) rfl
      (fun a _ => EventQueue.modify_kept core (fun x => (hf x).1) a) fun a ha =>
        (hwhen a).symm ▸ hfuture a ha
    refine ⟨_, bins', ?_, ⟨hflags, fun a => ?_⟩, ?_, first.1, hservice, hmembers, hfirst⟩
    · simp only [step, hservice, sim_ok_bind, sim_pure]
    · rw [EventQueue.events_modify]
      by_cases ha : a = first.1
      · rw [if_pos ha, (hf _).2]
        exact iff_of_false (fun hmem => hnotin (ha ▸ hmem)) Bool.false_ne_true
      · rw [if_neg ha, hscheduled a, ← h.exact a, hmembers, mem_cons]
        exact (or_iff_right ha).symm
    · rcases htick with rfl | rfl
      · exact le_rfl
      · exact h.future first.1 hmem

theorem Sorted.squash (h : s.Sorted bins) : s.Goes bins (.squash e) := by
  have hflags := h.congr (q := s.queue.squash e) rfl
    (fun a _ => EventQueue.modify_kept core (by exact fun _ => rfl) a) h.future
  refine ⟨_, bins, rfl, ⟨hflags, fun a => ?_⟩, le_rfl, rfl⟩
  have hsame : ((s.queue.squash e).events a).scheduled = (s.queue.events a).scheduled :=
    EventQueue.modify_kept Event.scheduled (by exact fun _ => rfl) a
  rw [h.exact a, ← hsame]

theorem Sorted.step {op : EventOp n} (h : s.Sorted bins) (hlegal : s.Legal op) :
    s.Goes bins op := by
  cases op with
  | schedule e when => exact h.schedule hlegal
  | deschedule e => exact h.deschedule hlegal
  | reschedule e when always => exact h.reschedule hlegal
  | serviceOne => exact h.serviceOne hlegal
  | squash e => exact h.squash

end EventRun

end Gem5.Events
