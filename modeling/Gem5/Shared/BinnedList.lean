import Gem5.Shared.LinkedList
import Mathlib.Data.List.Pairwise
import Mathlib.Algebra.Order.Ring.Nat

/-!
# Lists of piles

A linked list of bins, each a linked stack under its top element. Only the top of a bin
has a meaningful pointer to the next bin. Bins are in ascending order of a key, and the
members of a bin share it; within a bin the latest member is on top.
-/

namespace Gem5.BinnedList

open List LinkedList

variable {α κ : Type}

def members (bins : List (α × List α)) : List α := bins.flatMap fun b => b.1 :: b.2

/-- The pointers `nextBin` and `nextInBin` hold the bins from `p` on. -/
structure Binned (nextBin nextInBin : α → Option α) (p : Option α)
    (bins : List (α × List α)) : Prop where
  chain : Seg nextBin p (bins.map Prod.fst) none
  piles : ∀ b ∈ bins, Seg nextInBin (nextInBin b.1) b.2 none

@[simp] theorem members_cons (b : α × List α) (bins : List (α × List α)) :
    members (b :: bins) = b.1 :: b.2 ++ members bins := flatMap_cons

@[simp] theorem members_append (bins bins' : List (α × List α)) :
    members (bins ++ bins') = members bins ++ members bins' := flatMap_append

variable {bins bins' pre post : List (α × List α)} {b : α × List α} {e t u : α} {r : List α}
  {p p' : Option α} {nextBin nextInBin nextBin' nextInBin' : α → Option α}

theorem top_mem_members (h : b ∈ bins) : b.1 ∈ members bins :=
  mem_flatMap.mpr ⟨b, h, mem_cons_self⟩

theorem rest_mem_members (h : b ∈ bins) (he : e ∈ b.2) : e ∈ members bins :=
  mem_flatMap.mpr ⟨b, h, mem_cons_of_mem b.1 he⟩

theorem tops_length_le : (bins.map Prod.fst).length ≤ (members bins).length := by
  induction bins with
  | nil => exact le_rfl
  | cons b bins ih =>
    rw [members_cons, map_cons, length_cons, cons_append, length_cons, length_append]
    omega

namespace Binned

theorem congr (h : Binned nextBin nextInBin p bins)
    (hbin : ∀ a ∈ members bins, nextBin' a = nextBin a)
    (hin : ∀ a ∈ members bins, nextInBin' a = nextInBin a) : Binned nextBin' nextInBin' p bins := by
  constructor
  · apply h.chain.congr
    intro a ha
    obtain ⟨b, hb, rfl⟩ := mem_map.mp ha
    exact hbin b.1 (top_mem_members hb)
  · intro b hb
    rw [hin b.1 (top_mem_members hb)]
    exact (h.piles b hb).congr fun a ha => hin a (rest_mem_members hb ha)

theorem cons_iff : Binned nextBin nextInBin p (b :: bins) ↔
    p = some b.1 ∧ Seg nextInBin (nextInBin b.1) b.2 none ∧
      Binned nextBin nextInBin (nextBin b.1) bins := by
  constructor
  · intro h
    exact ⟨h.chain.1, h.piles b mem_cons_self, h.chain.2,
      fun c hc => h.piles c (mem_cons_of_mem b hc)⟩
  · rintro ⟨hp, hb, hrest⟩
    refine ⟨⟨hp, hrest.chain⟩, ?_⟩
    intro c hc
    rcases mem_cons.mp hc with rfl | hc
    · exact hb
    · exact hrest.piles c hc

theorem unique (h : Binned nextBin nextInBin p bins) (h' : Binned nextBin nextInBin p bins') :
    bins = bins' := by
  induction bins generalizing p bins' with
  | nil =>
    have htops : [] = bins'.map Prod.fst := h.chain.unique h'.chain
    exact (map_eq_nil_iff.mp htops.symm).symm
  | cons b bins ih =>
    cases bins' with
    | nil => exact nomatch h.chain.unique h'.chain
    | cons c bins' =>
      obtain ⟨hb, hstack, hrest⟩ := cons_iff.mp h
      obtain ⟨hc, hstack', hrest'⟩ := cons_iff.mp h'
      have htop : b.1 = c.1 := Option.mem_unique hb hc
      rw [← htop] at hstack' hrest'
      rw [ih hrest hrest', Prod.ext htop (hstack.unique hstack')]

theorem push_bin (h : Binned nextBin nextInBin p bins) (he : e ∉ members bins)
    (hbin : ∀ a, a ≠ e → nextBin' a = nextBin a) (hin : ∀ a, a ≠ e → nextInBin' a = nextInBin a)
    (hbin' : nextBin' e = p) (hin' : nextInBin' e = none) :
    Binned nextBin' nextInBin' (some e) ((e, []) :: bins) := by
  refine cons_iff.mpr ⟨rfl, hin', ?_⟩
  rw [hbin']
  exact h.congr (fun a ha => hbin a fun heq => he (heq ▸ ha))
    fun a ha => hin a fun heq => he (heq ▸ ha)

theorem push_top (h : Binned nextBin nextInBin p ((t, r) :: bins))
    (he : e ∉ members ((t, r) :: bins))
    (hbin : ∀ a, a ≠ e → nextBin' a = nextBin a) (hin : ∀ a, a ≠ e → nextInBin' a = nextInBin a)
    (hbin' : nextBin' e = nextBin t) (hin' : nextInBin' e = some t) :
    Binned nextBin' nextInBin' (some e) ((e, t :: r) :: bins) := by
  have hnext := h.congr (fun a ha => hbin a fun heq => he (heq ▸ ha))
    fun a ha => hin a fun heq => he (heq ▸ ha)
  obtain ⟨_, hstack, hrest⟩ := cons_iff.mp hnext
  refine cons_iff.mpr ⟨rfl, ⟨hin', hstack⟩, ?_⟩
  have ht : t ≠ e := fun heq => he (heq ▸ top_mem_members (b := (t, r)) mem_cons_self)
  rw [hbin', ← hbin t ht]
  exact hrest

theorem pop_top (h : Binned nextBin nextInBin p ((t, u :: r) :: bins))
    (hu : u ∉ members bins) (hbin : ∀ a, a ≠ u → nextBin' a = nextBin a)
    (hbin' : nextBin' u = nextBin t) : Binned nextBin' nextInBin (some u) ((u, r) :: bins) := by
  obtain ⟨_, hstack, hrest⟩ := cons_iff.mp h
  refine cons_iff.mpr ⟨rfl, hstack.2, ?_⟩
  rw [hbin']
  exact hrest.congr (fun a ha => hbin a fun heq => hu (heq ▸ ha)) fun _ _ => rfl

theorem unlink {c : α} {front back : List α}
    (h : Binned nextBin nextInBin p ((t, front ++ e :: back) :: bins))
    (hnodup : (members ((t, front ++ e :: back) :: bins)).Nodup)
    (hc : c = (t :: front).getLast (List.cons_ne_nil t front))
    (hin : ∀ a, a ≠ c → nextInBin' a = nextInBin a) (hin' : nextInBin' c = nextInBin e) :
    Binned nextBin nextInBin' p ((t, front ++ back) :: bins) := by
  obtain ⟨hp, hstack, hrest⟩ := cons_iff.mp h
  rw [members_cons] at hnodup
  obtain ⟨hbin, _, happart⟩ := nodup_append.mp hnodup
  -- the whole stack with its top, split in front of `e`
  obtain ⟨init, hinit⟩ : ∃ init, t :: front = init ++ [c] :=
    ⟨(t :: front).dropLast, by rw [hc, dropLast_append_getLast]⟩
  have hsplit : t :: (front ++ e :: back) = init ++ [c] ++ e :: back := by
    rw [← cons_append, hinit]
  have hwhole : Seg nextInBin (some t) (init ++ [c] ++ e :: back) none := hsplit ▸ ⟨rfl, hstack⟩
  rw [hsplit] at hbin
  obtain ⟨hfront, _, hback⟩ := nodup_append.mp hbin
  have hcfront : c ∉ init := fun hmem =>
    (nodup_append.mp hfront).2.2 c hmem c (mem_singleton_self c) rfl
  have hcback : c ∉ e :: back := fun hmem =>
    hback c (mem_append_right init (mem_singleton_self c)) c hmem rfl
  obtain ⟨m, hlead, hm, htail⟩ := Seg.append_iff.mp hwhole
  have hnew : Seg nextInBin' (some t) (init ++ [c] ++ back) none := by
    refine Seg.append_iff.mpr ⟨nextInBin e, ?_, ?_⟩
    · apply hlead.set_last _ hin'
      intro a ha
      exact hin a fun heq => hcfront (heq ▸ ha)
    · apply htail.congr
      intro a ha
      exact hin a fun heq => hcback (heq ▸ mem_cons_of_mem e ha)
  rw [← hinit] at hnew
  refine cons_iff.mpr ⟨hp, hnew.2, ?_⟩
  apply hrest.congr (fun _ _ => rfl)
  intro a ha
  apply hin a
  rintro rfl
  have hmem : a ∈ t :: (front ++ e :: back) := by
    rw [hsplit]
    exact mem_append_left _ (mem_append_right init (mem_singleton_self a))
  exact happart a hmem a ha rfl

theorem rest (h : Binned nextBin nextInBin p (pre ++ b :: post)) :
    Binned nextBin nextInBin ((post.head?).map Prod.fst) post := by
  induction pre generalizing p with
  | nil =>
    obtain ⟨_, _, hrest⟩ := cons_iff.mp h
    have hhead := hrest.chain.head_eq
    rw [List.head?_map] at hhead
    rw [← hhead]
    exact hrest
  | cons c pre ih => exact ih (cons_iff.mp h).2.2

theorem set_rest (h : Binned nextBin nextInBin p (pre ++ b :: post))
    (hnew : Binned nextBin' nextInBin' p' bins) (hnodup : (members (pre ++ [b])).Nodup)
    (hbin : ∀ a ∈ members (pre ++ [b]), a ≠ b.1 → nextBin' a = nextBin a)
    (hin : ∀ a ∈ members (pre ++ [b]), nextInBin' a = nextInBin a)
    (hp' : nextBin' b.1 = p') : Binned nextBin' nextInBin' p (pre ++ b :: bins) := by
  rw [members_append] at hnodup
  have hapart := (nodup_append.mp hnodup).2.2
  have hmem : ∀ c ∈ pre ++ [b], c ∈ pre ++ b :: post := by
    intro c hc
    rcases mem_append.mp hc with hc | hc
    · exact mem_append_left _ hc
    · exact mem_append_right _ (mem_singleton.mp hc ▸ mem_cons_self)
  constructor
  · have hchain := h.chain
    rw [map_append, map_cons, append_cons] at hchain ⊢
    obtain ⟨m, hlead, _⟩ := Seg.append_iff.mp hchain
    refine Seg.append_iff.mpr ⟨p', ?_, hnew.chain⟩
    apply hlead.set_last _ hp'
    intro a ha
    obtain ⟨c, hc, rfl⟩ := mem_map.mp ha
    have hcm := top_mem_members hc
    apply hbin c.1
    · rw [members_append]
      exact mem_append_left _ hcm
    · intro heq
      exact hapart c.1 hcm b.1 (top_mem_members (mem_singleton_self b)) heq
  · intro c hc
    rw [append_cons, mem_append] at hc
    rcases hc with hc | hc
    · rw [hin c.1 (top_mem_members hc)]
      exact (h.piles c (hmem c hc)).congr fun a ha => hin a (rest_mem_members hc ha)
    · exact hnew.piles c hc

end Binned

section Operations

variable [LinearOrder κ] (key : α → κ)

def insertBins (e : α) : List (α × List α) → List (α × List α)
  | [] => [(e, [])]
  | b :: bins =>
    if key e < key b.1 then (e, []) :: b :: bins
    else if key e = key b.1 then (e, b.1 :: b.2) :: bins
    else b :: insertBins e bins

def removeBins [DecidableEq α] (e : α) : List (α × List α) → List (α × List α)
  | [] => []
  | b :: bins =>
    if e ∈ b.1 :: b.2 then
      match (b.1 :: b.2).erase e with
      | [] => bins
      | t :: r => (t, r) :: bins
    else b :: removeBins e bins

variable {key} {stamp : α → Nat}

structure Ordered (key : α → κ) (stamp : α → Nat) (bins : List (α × List α)) : Prop where
  level : ∀ b ∈ bins, ∀ a ∈ b.2, key a = key b.1
  ascending : bins.Pairwise fun b c => key b.1 < key c.1
  stacked : ∀ b ∈ bins, (b.1 :: b.2).Pairwise fun a c => stamp c < stamp a

theorem insertBins_append (h : ∀ b ∈ pre, key b.1 < key e) :
    insertBins key e (pre ++ post) = pre ++ insertBins key e post := by
  induction pre with
  | nil => rfl
  | cons b pre ih =>
    have hb := h b mem_cons_self
    rw [cons_append, insertBins, if_neg (not_lt_of_gt hb), if_neg (ne_of_gt hb),
      ih fun c hc => h c (mem_cons_of_mem b hc)]
    rfl

theorem removeBins_append [DecidableEq α] (h : ∀ b ∈ pre, e ∉ b.1 :: b.2) :
    removeBins e (pre ++ post) = pre ++ removeBins e post := by
  induction pre with
  | nil => rfl
  | cons b pre ih =>
    rw [cons_append, removeBins, if_neg (h b mem_cons_self),
      ih fun c hc => h c (mem_cons_of_mem b hc)]
    rfl

theorem members_insertBins_perm : (members (insertBins key e bins)).Perm (e :: members bins) := by
  induction bins with
  | nil => exact List.Perm.refl _
  | cons b bins ih =>
    rw [insertBins]
    split_ifs
    · exact List.Perm.refl _
    · exact List.Perm.refl _
    · exact (ih.append_left _).trans perm_middle

theorem mem_members_insertBins {a : α} :
    a ∈ members (insertBins key e bins) ↔ a = e ∨ a ∈ members bins :=
  members_insertBins_perm.mem_iff.trans mem_cons

theorem erase_members_insertBins [DecidableEq α] (he : e ∉ members bins) :
    (members (insertBins key e bins)).erase e = members bins := by
  induction bins with
  | nil => simp [insertBins]
  | cons b bins ih =>
    rw [members_cons, mem_append, not_or] at he
    rw [insertBins]
    split_ifs
    · simp
    · simp
    · rw [members_cons, erase_append_right _ he.1, ih he.2, members_cons]

theorem members_removeBins [DecidableEq α] (hnodup : (members bins).Nodup) :
    members (removeBins e bins) = (members bins).erase e := by
  induction bins with
  | nil => rfl
  | cons b bins ih =>
    rw [members_cons] at hnodup ⊢
    rw [removeBins]
    split
    · rename_i hmem
      rw [erase_append_left _ hmem]
      split
      · rename_i hnil
        rw [hnil, nil_append]
      · rename_i t r hcons
        rw [hcons, members_cons]
    · rename_i hmem
      rw [erase_append_right _ hmem, members_cons, ih (nodup_append.mp hnodup).2.1]

theorem top_of_mem_insertBins (h : b ∈ insertBins key e bins) :
    b.1 = e ∨ ∃ c ∈ bins, b.1 = c.1 := by
  induction bins with
  | nil =>
    rw [insertBins, mem_singleton] at h
    exact .inl (h ▸ rfl)
  | cons c bins ih =>
    rw [insertBins] at h
    split_ifs at h
    · rcases mem_cons.mp h with rfl | h
      · exact .inl rfl
      · exact .inr ⟨b, h, rfl⟩
    · rcases mem_cons.mp h with rfl | h
      · exact .inl rfl
      · exact .inr ⟨b, mem_cons_of_mem c h, rfl⟩
    · rcases mem_cons.mp h with rfl | h
      · exact .inr ⟨b, mem_cons_self, rfl⟩
      · rcases ih h with he | ⟨d, hd, heq⟩
        · exact .inl he
        · exact .inr ⟨d, mem_cons_of_mem c hd, heq⟩

namespace Ordered

theorem congr {key' : α → κ} {stamp' : α → Nat} (h : Ordered key stamp bins)
    (hkey : ∀ a ∈ members bins, key' a = key a) (hstamp : ∀ a ∈ members bins, stamp' a = stamp a) :
    Ordered key' stamp' bins := by
  have hmem : ∀ b ∈ bins, ∀ a ∈ b.1 :: b.2, a ∈ members bins := fun b hb a ha =>
    mem_flatMap.mpr ⟨b, hb, ha⟩
  refine ⟨?_, ?_, ?_⟩
  · intro b hb a ha
    rw [hkey a (rest_mem_members hb ha), hkey b.1 (top_mem_members hb)]
    exact h.level b hb a ha
  · apply h.ascending.imp_of_mem
    intro b c hb hc hlt
    rwa [hkey b.1 (top_mem_members hb), hkey c.1 (top_mem_members hc)]
  · intro b hb
    apply (h.stacked b hb).imp_of_mem
    intro a c ha hc hlt
    rwa [hstamp a (hmem b hb a ha), hstamp c (hmem b hb c hc)]

theorem cons_iff : Ordered key stamp (b :: bins) ↔ (∀ a ∈ b.2, key a = key b.1) ∧
    ((b.1 :: b.2).Pairwise fun a c => stamp c < stamp a) ∧ (∀ c ∈ bins, key b.1 < key c.1) ∧
      Ordered key stamp bins := by
  constructor
  · intro h
    obtain ⟨hb, hrest⟩ := pairwise_cons.mp h.ascending
    exact ⟨h.level b mem_cons_self, h.stacked b mem_cons_self, hb,
      fun c hc => h.level c (mem_cons_of_mem b hc), hrest,
      fun c hc => h.stacked c (mem_cons_of_mem b hc)⟩
  · rintro ⟨hlevel, hstacked, hb, hrest⟩
    refine ⟨?_, pairwise_cons.mpr ⟨hb, hrest.ascending⟩, ?_⟩
    · intro c hc
      rcases mem_cons.mp hc with rfl | hc
      · exact hlevel
      · exact hrest.level c hc
    · intro c hc
      rcases mem_cons.mp hc with rfl | hc
      · exact hstacked
      · exact hrest.stacked c hc

theorem key_eq {a : α} (h : Ordered key stamp bins) (hb : b ∈ bins) (ha : a ∈ b.1 :: b.2) :
    key a = key b.1 := by
  rcases mem_cons.mp ha with rfl | ha
  · rfl
  · exact h.level b hb a ha

theorem key_le (h : Ordered key stamp (b :: bins)) :
    ∀ a ∈ members (b :: bins), key b.1 ≤ key a := by
  obtain ⟨hlevel, _, hb, hrest⟩ := cons_iff.mp h
  intro a ha
  obtain ⟨c, hc, ha⟩ := mem_flatMap.mp ha
  rw [h.key_eq hc ha]
  rcases mem_cons.mp hc with rfl | hc
  · exact le_refl _
  · exact le_of_lt (hb c hc)

theorem insert (h : Ordered key stamp bins) (hlast : ∀ a ∈ members bins, stamp a < stamp e) :
    Ordered key stamp (insertBins key e bins) := by
  induction bins with
  | nil =>
    exact cons_iff.mpr ⟨forall_mem_nil _, pairwise_singleton _ _, forall_mem_nil _, h⟩
  | cons b bins ih =>
    obtain ⟨hlevel, hstacked, hb, hrest⟩ := cons_iff.mp h
    rw [insertBins]
    split_ifs with hlt heq
    · refine cons_iff.mpr ⟨forall_mem_nil _, pairwise_singleton _ _, ?_, h⟩
      intro c hc
      exact lt_of_lt_of_le hlt (h.key_le c.1 (top_mem_members hc))
    · refine cons_iff.mpr ⟨?_, pairwise_cons.mpr ⟨?_, hstacked⟩, ?_, hrest⟩
      · intro a ha
        rw [heq, h.key_eq mem_cons_self ha]
      · intro a ha
        exact hlast a (mem_flatMap.mpr ⟨b, mem_cons_self, ha⟩)
      · rw [heq]
        exact hb
    · have hbe : key b.1 < key e := lt_of_le_of_ne (not_lt.mp hlt) (Ne.symm heq)
      have hinsert := ih hrest fun a ha => hlast a (by
        exact mem_append_right _ ha)
      refine cons_iff.mpr ⟨hlevel, hstacked, ?_, hinsert⟩
      intro c hc
      rcases top_of_mem_insertBins hc with he | ⟨d, hd, heq⟩
      · rw [he]
        exact hbe
      · rw [heq]
        exact hb d hd

theorem key_of_mem_removeBins [DecidableEq α] (h : Ordered key stamp bins)
    (hb : b ∈ removeBins e bins) : ∃ c ∈ bins, key b.1 = key c.1 := by
  induction bins with
  | nil => cases hb
  | cons c bins ih =>
    obtain ⟨_, _, _, hrest⟩ := cons_iff.mp h
    rw [removeBins] at hb
    split at hb
    · split at hb
      · exact ⟨b, mem_cons_of_mem c hb, rfl⟩
      · rename_i t r hcons
        rcases mem_cons.mp hb with rfl | hb
        · have ht : t ∈ (c.1 :: c.2).erase e := hcons ▸ mem_cons_self
          exact ⟨c, mem_cons_self, h.key_eq mem_cons_self (mem_of_mem_erase ht)⟩
        · exact ⟨b, mem_cons_of_mem c hb, rfl⟩
    · rcases mem_cons.mp hb with rfl | hb
      · exact ⟨b, mem_cons_self, rfl⟩
      · obtain ⟨d, hd, heq⟩ := ih hrest hb
        exact ⟨d, mem_cons_of_mem c hd, heq⟩

theorem remove [DecidableEq α] (h : Ordered key stamp bins) :
    Ordered key stamp (removeBins e bins) := by
  induction bins with
  | nil => exact h
  | cons b bins ih =>
    obtain ⟨hlevel, hstacked, hb, hrest⟩ := cons_iff.mp h
    rw [removeBins]
    split
    · split
      · exact hrest
      · rename_i t r hcons
        have hkey : ∀ a ∈ t :: r, key a = key b.1 := by
          intro a ha
          rw [← hcons] at ha
          exact h.key_eq mem_cons_self (mem_of_mem_erase ha)
        have hsub : (t :: r).Sublist (b.1 :: b.2) := hcons ▸ erase_sublist
        have ht := hkey t mem_cons_self
        refine cons_iff.mpr ⟨?_, hstacked.sublist hsub, ?_, hrest⟩
        · intro a ha
          rw [hkey a (mem_cons_of_mem t ha), ht]
        · rw [ht]
          exact hb
    · refine cons_iff.mpr ⟨hlevel, hstacked, ?_, ih hrest⟩
      intro c hc
      obtain ⟨d, hd, heq⟩ := hrest.key_of_mem_removeBins hc
      rw [heq]
      exact hb d hd

theorem pairwise_members (h : Ordered key stamp bins) : (members bins).Pairwise fun a c =>
    key a < key c ∨ (key a = key c ∧ stamp c < stamp a) := by
  induction bins with
  | nil => exact List.Pairwise.nil
  | cons b bins ih =>
    obtain ⟨_, hstacked, hb, hrest⟩ := cons_iff.mp h
    have hkey : ∀ a ∈ b.1 :: b.2, key a = key b.1 := fun _ => h.key_eq mem_cons_self
    refine pairwise_append.mpr ⟨?_, ih hrest, ?_⟩
    · apply hstacked.imp_of_mem
      intro a c ha hc hlt
      exact .inr ⟨(hkey a ha).trans (hkey c hc).symm, hlt⟩
    · intro a ha c hc
      left
      obtain ⟨d, hd, hcd⟩ := mem_flatMap.mp hc
      rw [hkey a ha, hrest.key_eq hd hcd]
      exact hb d hd

end Ordered

end Operations

end Gem5.BinnedList
