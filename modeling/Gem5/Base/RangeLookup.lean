import Gem5.Base.AddrRangeMap
import Gem5.Shared.Reachability
import Mathlib.Data.List.Pairwise
import Mathlib.Data.List.TakeWhile

/-!
# Lookups in a range map

The search looks at the next entry and at the entries that merge before it. This finds
what a search over all entries would find, as long as the entries do not overlap, except
for interleaved ranges with the same bounds and masks.
-/

namespace Gem5.Base

open List

namespace AddrRange

variable {r s e f : AddrRange}

def Overlap (s r : AddrRange) : Prop := s.start < r.endAddr ∧ r.start < s.endAddr

def Comparable (s r : AddrRange) : Prop :=
  ¬ Overlap s r ∨ (s.interleaved = false ∧ r.interleaved = false) ∨ s.mergesWith r = true

def Precedes (e f : AddrRange) : Prop :=
  e.endAddr ≤ f.start ∨ (e.mergesWith f = true ∧ e.interleaved = true ∧ e.intlvMatch < f.intlvMatch)

instance : Decidable (Overlap s r) := inferInstanceAs (Decidable (_ ∧ _))

instance : Decidable (Comparable s r) := inferInstanceAs (Decidable (_ ∨ _ ∨ _))

theorem mergesWith_iff : s.mergesWith r = true ↔
    r.start = s.start ∧ r.endAddr = s.endAddr ∧ r.masks = s.masks := by
  simp [mergesWith, and_assoc]

theorem interleaved_of_mergesWith (h : s.mergesWith r = true) : r.interleaved = s.interleaved := by
  rw [interleaved, interleaved, (mergesWith_iff.mp h).2.2]

theorem mergesWith_symm (h : s.mergesWith r = true) : r.mergesWith s = true := by
  obtain ⟨h1, h2, h3⟩ := mergesWith_iff.mp h
  exact mergesWith_iff.mpr ⟨h1.symm, h2.symm, h3.symm⟩

theorem mergesWith_trans (h : s.mergesWith r = true) (h' : r.mergesWith e = true) :
    s.mergesWith e = true := by
  obtain ⟨h1, h2, h3⟩ := mergesWith_iff.mp h
  obtain ⟨h4, h5, h6⟩ := mergesWith_iff.mp h'
  exact mergesWith_iff.mpr ⟨h4.trans h1, h5.trans h2, h6.trans h3⟩

theorem lt_iff : s.lt r = true ↔ s.start < r.start ∨ (s.start = r.start ∧ s.interleaved = true ∧
    (r.interleaved = true → s.intlvMatch < r.intlvMatch)) := by
  unfold lt
  split
  · rename_i hne
    rw [decide_eq_true_eq]
    exact ⟨.inl, fun h => h.resolve_right fun h => hne h.1⟩
  · rename_i heq
    have heq := Decidable.not_not.mp heq
    cases hs : s.interleaved <;> cases hr : r.interleaved <;> simp [heq]

theorem start_le_of_lt (h : s.lt r = true) : s.start ≤ r.start := by
  rcases lt_iff.mp h with hlt | ⟨heq, _⟩
  · exact BitVec.le_of_lt hlt
  · exact BitVec.le_of_eq heq

theorem start_le_of_not_lt (h : ¬ s.lt r = true) : r.start ≤ s.start := by
  by_contra hlt
  exact h (lt_iff.mpr (.inl (BitVec.not_le.mp hlt)))

theorem lt_of_precedes (he : e.start < e.endAddr) (h : Precedes e f) (hr : r.lt e = true) :
    r.lt f = true := by
  rcases h with hle | ⟨hmerge, hint, hmatch⟩
  · have hstart := start_le_of_lt hr
    apply lt_iff.mpr
    left
    bv_omega
  · obtain ⟨hstart, _, _⟩ := mergesWith_iff.mp hmerge
    rcases lt_iff.mp hr with hlt | ⟨heq, hrint, hless⟩
    · exact lt_iff.mpr (.inl (hstart ▸ hlt))
    · have hmatch' := hless hint
      refine lt_iff.mpr (.inr ⟨heq.trans hstart.symm, hrint, fun _ => ?_⟩)
      exact BitVec.lt_trans hmatch' hmatch

section Tests

theorem intersects_ok (h : Comparable r e) : ∃ b, r.intersects e = .ok b := by
  unfold intersects
  split
  · exact ⟨_, rfl⟩
  · rename_i hover
    split
    · exact ⟨_, rfl⟩
    · rename_i hint
      split
      · exact ⟨_, rfl⟩
      · split
        · exact ⟨_, rfl⟩
        · rename_i hmerge
          rcases h with hno | hboth | hm
          · exact absurd ⟨BitVec.not_le.mp fun hle => hover (.inl hle),
              BitVec.not_le.mp fun hle => hover (.inr hle)⟩ hno
          · exact absurd hboth hint
          · exact absurd hm hmerge

theorem overlap_of_intersects (h : r.intersects e = .ok true) : Overlap r e := by
  unfold intersects at h
  split at h
  · cases h
  · rename_i hover
    exact ⟨BitVec.not_le.mp fun hle => hover (.inl hle),
      BitVec.not_le.mp fun hle => hover (.inr hle)⟩

theorem intersects_of_plain (hover : Overlap r e) (hr : r.interleaved = false)
    (he : e.interleaved = false) : r.intersects e = .ok true := by
  unfold intersects
  rw [if_neg, if_pos ⟨hr, he⟩]
  · rfl
  · rintro (hle | hle)
    · exact BitVec.not_le.mpr hover.1 hle
    · exact BitVec.not_le.mpr hover.2 hle

theorem intersects_of_merges (hmerge : r.mergesWith e = true) (hint : r.interleaved = true)
    (hne : r.start < r.endAddr) : r.intersects e =
      .ok (if e.size = 1 then r.contains e.start else r.intlvMatch == e.intlvMatch) := by
  obtain ⟨hstart, hend, _⟩ := mergesWith_iff.mp hmerge
  unfold intersects
  rw [if_neg, if_neg]
  · split <;> rfl
  · intro hboth
    rw [hint] at hboth
    cases hboth.1
  · rw [hstart, hend]
    rintro (hle | hle)
    · exact BitVec.not_le.mpr hne hle
    · exact BitVec.not_le.mpr hne hle

theorem bounds_of_isSubset (hne : r.start < r.endAddr) (h : r.isSubset e = .ok true) :
    r.interleaved = false ∧ e.start ≤ r.start ∧ r.start < e.endAddr ∧
      (e.interleaved = true → e.contains r.start = true) := by
  unfold isSubset at h
  split at h
  · cases h
  · rename_i hint
    refine ⟨Bool.eq_false_iff.mpr hint, ?_⟩
    split at h
    · unfold fitsStripe at h
      split at h
      · rename_i hboth
        have hfirst := (Bool.and_eq_true_iff.mp hboth).1
        have hbounds := hfirst
        rw [contains, Bool.and_eq_true, decide_eq_true_eq] at hbounds
        exact ⟨hbounds.1.1, hbounds.1.2, fun _ => hfirst⟩
      · cases h
    · rename_i heint
      have hbounds := of_decide_eq_true (Except.ok.inj h)
      refine ⟨hbounds.1, ?_, fun hint' => absurd hint' heint⟩
      bv_omega

end Tests

end AddrRange

namespace AddrRangeMap

open AddrRange

variable {V : Type} {m m' : AddrRangeMap V} {r : AddrRange} {cond : AddrRange → Sim Bool}
  {e f : Node V} {it : Nat}

structure Sound (m : AddrRangeMap V) : Prop where
  nonempty : ∀ e ∈ m.tree, e.range.start < e.range.endAddr
  apart : m.tree.Pairwise fun e f => Precedes e.range f.range
  ids : m.tree.Pairwise fun e f => e.id ≠ f.id
  fresh : ∀ e ∈ m.tree, e.id < m.nextId
  cached : ∀ it ∈ m.cache, ∃ e ∈ m.tree, e.id = it

def Finds (cond : AddrRange → Sim Bool) (tree : List (Node V)) : Option Nat → Prop
  | some it => ∃ e ∈ tree, e.id = it ∧ cond e.range = .ok true
  | none => ∀ e ∈ tree, cond e.range = .ok false

theorem empty_sound : (empty : AddrRangeMap V).Sound where
  nonempty := forall_mem_nil _
  apart := List.Pairwise.nil
  ids := List.Pairwise.nil
  fresh := forall_mem_nil _
  cached := forall_mem_nil _

section Search

theorem eq_of_id (h : m.Sound) (he : e ∈ m.tree) (hf : f ∈ m.tree) (hid : e.id = f.id) : e = f := by
  have : Std.Symm fun e f : Node V => e.id ≠ f.id := ⟨fun _ _ h => Ne.symm h⟩
  by_contra hne
  exact h.ids.forall he hf hne hid

theorem node_eq (h : m.Sound) (he : e ∈ m.tree) : m.node e.id = .ok e := by
  unfold node
  cases hfind : m.tree.find? fun f => f.id == e.id with
  | none =>
    have hnot := List.find?_eq_none.mp hfind e he
    simp at hnot
  | some f =>
    have hf := mem_of_find?_eq_some hfind
    have hid := List.find?_some hfind
    rw [eq_of_id h hf he (by simpa using hid)]

theorem searchCache_spec (h : m.Sound) (htotal : ∀ e ∈ m.tree, ∃ b, cond e.range = .ok b)
    {cache : List Nat} (hcache : ∀ it ∈ cache, ∃ e ∈ m.tree, e.id = it) :
    m.searchCache cond cache = .ok none ∨ ∃ e ∈ m.tree, e.id ∈ cache ∧ cond e.range = .ok true ∧
      m.searchCache cond cache = .ok (some e.id) := by
  induction cache with
  | nil => exact .inl rfl
  | cons it rest ih =>
    obtain ⟨e, he, rfl⟩ := hcache it mem_cons_self
    obtain ⟨b, hb⟩ := htotal e he
    simp only [searchCache, node_eq h he, hb, sim_ok_bind]
    cases b with
    | true => exact .inr ⟨e, he, mem_cons_self, hb, rfl⟩
    | false =>
      rcases ih fun it hit =>
        hcache it (mem_cons_of_mem e.id hit) with hnone | ⟨f, hf, hmem, htrue, hsome⟩
      · exact .inl hnone
      · exact .inr ⟨f, hf, mem_cons_of_mem e.id hmem, htrue, hsome⟩

theorem searchBack_spec {l : List (Node V)} (htotal : ∀ e ∈ l, ∃ b, cond e.range = .ok b) :
    (∃ e ∈ l, cond e.range = .ok true ∧ searchBack cond l = .ok (some e.id)) ∨
      (searchBack cond l = .ok none ∧ ∀ pre e post, l = pre ++ e :: post →
        (∀ f ∈ pre, f.range.mergesWith e.range = true) → cond e.range = .ok false) := by
  induction l with
  | nil =>
    refine .inr ⟨rfl, fun pre e post hl => ?_⟩
    cases pre <;> cases hl
  | cons i rest ih =>
    obtain ⟨b, hb⟩ := htotal i mem_cons_self
    have hrest := ih fun e he => htotal e (mem_cons_of_mem i he)
    cases b with
    | true =>
      refine .inl ⟨i, mem_cons_self, hb, ?_⟩
      simp only [searchBack, hb, sim_ok_bind, sim_pure]
    | false =>
      -- the first entry is not the one; the rest is searched if it merges
      have hfirst : ∀ pre e post, i :: rest = pre ++ e :: post → (cond e.range = .ok false) ∨
          ∃ pre', pre = i :: pre' ∧ rest = pre' ++ e :: post := by
        intro pre e post hl
        cases pre with
        | nil =>
          obtain ⟨rfl, _⟩ := List.cons.inj hl
          exact .inl hb
        | cons g pre' =>
          obtain ⟨rfl, htail⟩ := List.cons.inj hl
          exact .inr ⟨pre', rfl, htail⟩
      cases rest with
      | nil =>
        refine .inr ⟨by simp only [searchBack, hb, sim_ok_bind, sim_pure], ?_⟩
        intro pre e post hl _
        rcases hfirst pre e post hl with hfalse | ⟨pre', _, hnil⟩
        · exact hfalse
        · cases pre' <;> cases hnil
      | cons next rest =>
        by_cases hmerge : next.range.mergesWith i.range = true
        · have hstep : searchBack cond (i :: next :: rest) = searchBack cond (next :: rest) := by
            rw [searchBack, hb]
            exact if_pos hmerge
          rw [hstep]
          rcases hrest with ⟨e, he, htrue, hsome⟩ | ⟨hnone, hall⟩
          · exact .inl ⟨e, mem_cons_of_mem i he, htrue, hsome⟩
          · refine .inr ⟨hnone, fun pre e post hl hpre => ?_⟩
            rcases hfirst pre e post hl with hfalse | ⟨pre', rfl, hl'⟩
            · exact hfalse
            · exact hall pre' e post hl' fun f hf => hpre f (mem_cons_of_mem i hf)
        · have hstep : searchBack cond (i :: next :: rest) = .ok none := by
            rw [searchBack, hb]
            exact if_neg hmerge
          refine .inr ⟨hstep, fun pre e post hl hpre => ?_⟩
          rcases hfirst pre e post hl with hfalse | ⟨pre', rfl, hl'⟩
          · exact hfalse
          · -- the next entry would have to merge
            exfalso
            apply hmerge
            have hi := hpre i mem_cons_self
            cases pre' with
            | nil =>
              obtain ⟨rfl, _⟩ := List.cons.inj hl'
              exact mergesWith_symm hi
            | cons g pre'' =>
              obtain ⟨rfl, _⟩ := List.cons.inj hl'
              have hnext := hpre next (mem_cons_of_mem i mem_cons_self)
              exact mergesWith_trans hnext (mergesWith_symm hi)

theorem before_append_upperBound : m.before r ++ m.upperBound r = m.tree :=
  takeWhile_append_dropWhile

theorem not_lt_of_mem_before (h : e ∈ m.before r) : ¬ r.lt e.range = true := by
  have hp := mem_takeWhile_imp h
  simpa using hp

theorem lt_of_mem_upperBound (h : m.Sound) (he : e ∈ m.upperBound r) : r.lt e.range = true := by
  have hsub : (m.upperBound r).Sublist m.tree := dropWhile_sublist _
  have happart := h.apart.sublist hsub
  cases hupper : m.upperBound r with
  | nil =>
    rw [hupper] at he
    cases he
  | cons next rest =>
    have hne : m.upperBound r ≠ [] := by
      rw [hupper]
      exact cons_ne_nil _ _
    have hhead : r.lt next.range = true := by
      have hstop := head_dropWhile_not (fun e : Node V => !r.lt e.range) hne
      have hfirst : (m.upperBound r).head hne = next := by
        simp only [hupper, head_cons]
      unfold upperBound at hfirst
      rw [hfirst] at hstop
      simpa using hstop
    rw [hupper] at he happart
    rcases mem_cons.mp he with rfl | he
    · exact hhead
    · have hnext : next ∈ m.tree := hsub.subset (hupper ▸ mem_cons_self)
      exact lt_of_precedes (h.nonempty next hnext) ((pairwise_cons.mp happart).1 e he) hhead

theorem before_split (h : m.Sound) (he : e ∈ m.tree) (hlt : ¬ r.lt e.range = true)
    (hend : r.start < e.range.endAddr) : ∃ pre post, m.before r = pre ++ e :: post ∧
      ∀ f ∈ post, f.range.mergesWith e.range = true := by
  have hmem : e ∈ m.before r := by
    rw [← before_append_upperBound (r := r)] at he
    rcases mem_append.mp he with he | he
    · exact he
    · exact absurd (lt_of_mem_upperBound h he) hlt
  obtain ⟨pre, post, hsplit⟩ := append_of_mem hmem
  refine ⟨pre, post, hsplit, fun f hf => ?_⟩
  have hsub : (m.before r).Sublist m.tree := takeWhile_sublist _
  have happart := h.apart.sublist hsub
  rw [hsplit] at happart
  have hprecedes := (pairwise_cons.mp (pairwise_append.mp happart).2.1).1 f hf
  have hfmem : f ∈ m.before r := by
    rw [hsplit]
    exact mem_append_right pre (mem_cons_of_mem e hf)
  have hstart := start_le_of_not_lt (not_lt_of_mem_before hfmem)
  rcases hprecedes with hle | ⟨hmerge, _⟩
  · exact absurd hend (BitVec.not_lt.mpr (BitVec.le_trans hle hstart))
  · exact mergesWith_symm hmerge

def Visible (cond : AddrRange → Sim Bool) (r : AddrRange) (m : AddrRangeMap V)
    (e : Node V) : Prop :=
  (∃ next rest, m.upperBound r = next :: rest ∧ cond next.range = .ok true) ∨
    ∃ pre post, m.before r = pre ++ e :: post ∧ ∀ f ∈ post, f.range.mergesWith e.range = true

theorem mem_tree_of_before (h : e ∈ m.before r) : e ∈ m.tree :=
  (takeWhile_sublist _).subset h

theorem mem_tree_of_upperBound (h : e ∈ m.upperBound r) : e ∈ m.tree :=
  (dropWhile_sublist _).subset h

theorem searchNext_spec (htotal : ∀ e ∈ m.tree, ∃ b, cond e.range = .ok b) :
    (∃ e ∈ m.tree, cond e.range = .ok true ∧ searchNext cond (m.upperBound r) = .ok (some e.id)) ∨
    (searchNext cond (m.upperBound r) = .ok none ∧
      ∀ next rest, m.upperBound r = next :: rest → cond next.range = .ok false) := by
  cases hupper : m.upperBound r with
  | nil => exact .inr ⟨rfl, fun _ _ h => by cases h⟩
  | cons next rest =>
    have hnext : next ∈ m.tree := mem_tree_of_upperBound (hupper ▸ mem_cons_self)
    obtain ⟨b, hb⟩ := htotal next hnext
    simp only [searchNext, hb, sim_ok_bind]
    cases b with
    | true => exact .inl ⟨next, hnext, hb, rfl⟩
    | false =>
      refine .inr ⟨rfl, fun next' rest' hcons => ?_⟩
      obtain ⟨rfl, _⟩ := List.cons.inj hcons
      exact hb

theorem searchTree_spec (htotal : ∀ e ∈ m.tree, ∃ b, cond e.range = .ok b)
    (hvisible : ∀ e ∈ m.tree, cond e.range = .ok true → Visible cond r m e) :
    ∃ it, m.searchTree cond r = .ok it ∧ Finds cond m.tree it := by
  unfold searchTree
  rcases searchNext_spec (r := r) htotal with ⟨e, he, htrue, hsome⟩ | ⟨hnone, hnext⟩
  · exact ⟨some e.id, by rw [hsome]; rfl, e, he, rfl, htrue⟩
  · rw [hnone]
    have hback : ∀ e ∈ (m.before r).reverse, ∃ b, cond e.range = .ok b := fun e he =>
      htotal e (mem_tree_of_before (mem_reverse.mp he))
    rcases searchBack_spec hback with ⟨e, he, htrue, hsome⟩ | ⟨hnone, hall⟩
    · have hmem := mem_tree_of_before (mem_reverse.mp he)
      exact ⟨some e.id, hsome, e, hmem, rfl, htrue⟩
    · refine ⟨none, hnone, fun e he => ?_⟩
      obtain ⟨b, hb⟩ := htotal e he
      cases b with
      | false => exact hb
      | true =>
        rcases hvisible e he hb with ⟨next, rest, hupper, htrue⟩ | ⟨pre, post, hsplit, hmerge⟩
        · rw [hnext next rest hupper] at htrue
          cases htrue
        · apply hall post.reverse e pre.reverse
          · rw [hsplit]
            simp
          · intro f hf
            exact hmerge f (mem_reverse.mp hf)

theorem mem_addNewEntryToCache {maxCacheSize : Int} {cache : List Nat} {c : Nat}
    (h : c ∈ addNewEntryToCache maxCacheSize it cache) : c = it ∨ c ∈ cache := by
  unfold addNewEntryToCache at h
  split at h
  · split at h
    · split at h
      · rcases mem_cons.mp h with rfl | h
        · exact .inl rfl
        · exact .inr (dropLast_subset _ h)
      · rcases mem_append.mp h with h | h
        · exact .inr (dropLast_subset _ h)
        · exact .inl (mem_singleton.mp h)
    · exact mem_cons.mp h
  · exact .inr h

theorem find_spec (maxCacheSize : Int) (h : m.Sound)
    (htotal : ∀ e ∈ m.tree, ∃ b, cond e.range = .ok b)
    (hvisible : ∀ e ∈ m.tree, cond e.range = .ok true → Visible cond r m e) :
    ∃ it cache, m.find maxCacheSize r cond = .ok (it, { m with cache := cache }) ∧
      Finds cond m.tree it ∧ ∀ c ∈ cache, ∃ e ∈ m.tree, e.id = c := by
  unfold find
  rcases searchCache_spec h htotal h.cached with hnone | ⟨e, he, hmem, htrue, hsome⟩
  · rw [hnone]
    obtain ⟨it, htree, hfinds⟩ := searchTree_spec htotal hvisible
    simp only [htree, sim_ok_bind]
    cases it with
    | none => exact ⟨none, m.cache, rfl, hfinds, h.cached⟩
    | some it =>
      refine ⟨some it, addNewEntryToCache maxCacheSize it m.cache, rfl, hfinds, fun c hc => ?_⟩
      rcases mem_addNewEntryToCache hc with rfl | hc
      · obtain ⟨e, he, hid, _⟩ := hfinds
        exact ⟨e, he, hid⟩
      · exact h.cached c hc
  · rw [hsome]
    refine ⟨some e.id, e.id :: m.cache.erase e.id, rfl, ⟨e, he, rfl, htrue⟩, fun c hc => ?_⟩
    rcases mem_cons.mp hc with rfl | hc
    · exact ⟨e, he, rfl⟩
    · exact h.cached c (mem_of_mem_erase hc)

end Search

section Visibility

theorem visible_of_isSubset (h : m.Sound) (hne : r.start < r.endAddr) (he : e ∈ m.tree)
    (hsub : r.isSubset e.range = .ok true) : Visible (fun r1 => r.isSubset r1) r m e := by
  obtain ⟨hplain, hstart, hend, _⟩ := bounds_of_isSubset hne hsub
  refine .inr (before_split h he ?_ hend)
  intro hlt
  rcases lt_iff.mp hlt with hless | ⟨_, hint, _⟩
  · exact BitVec.not_lt.mpr hstart hless
  · rw [hplain] at hint
    cases hint

theorem next_intersects {next : Node V} (hne : r.start < r.endAddr)
    (hnext : next.range.start < next.range.endAddr) (hcomp : Comparable r next.range)
    (hcomp' : Comparable r e.range) (hlt : r.lt next.range = true)
    (hprecedes : Precedes next.range e.range) (htrue : r.intersects e.range = .ok true) :
    r.intersects next.range = .ok true := by
  have hover := overlap_of_intersects htrue
  have hstart := start_le_of_lt hlt
  rcases hprecedes with hle | ⟨hmerge, hint, hmatch⟩
  · have hover' : Overlap r next.range := by
      have h2 := hover.2
      constructor <;> bv_omega
    rcases hcomp with hno | ⟨hr, hplain⟩ | hgroup
    · exact absurd hover' hno
    · exact intersects_of_plain hover' hr hplain
    · -- the range ends with its group, before the later entry
      have hend := (mergesWith_iff.mp hgroup).2.1
      rw [hend] at hle
      exact absurd hover.2 (BitVec.not_lt.mpr hle)
  · have hgroup : r.mergesWith e.range = true := by
      rcases hcomp' with hno | ⟨_, hplain⟩ | hgroup
      · exact absurd hover hno
      · rw [interleaved_of_mergesWith hmerge, hint] at hplain
        cases hplain
      · exact hgroup
    have hgroup' := mergesWith_trans hgroup (mergesWith_symm hmerge)
    have hr : r.interleaved = true := by
      rw [← interleaved_of_mergesWith hgroup']
      exact hint
    have hsize : e.range.size = next.range.size := by
      obtain ⟨h1, h2, h3⟩ := mergesWith_iff.mp hmerge
      rw [size, size, h1, h2, h3]
    rw [intersects_of_merges hgroup hr hne] at htrue
    rw [intersects_of_merges hgroup' hr hne, ← hsize]
    split at htrue
    · rename_i hone
      rw [if_pos hone, ← (mergesWith_iff.mp hmerge).1]
      exact htrue
    · -- the later entry has a larger match value than the range
      exfalso
      have heq : r.intlvMatch = e.range.intlvMatch := by simpa using htrue
      rcases lt_iff.mp hlt with hless | ⟨_, _, hless⟩
      · rw [(mergesWith_iff.mp hgroup').1] at hless
        exact BitVec.lt_irrefl _ hless
      · have hless := BitVec.lt_trans (hless hint) hmatch
        rw [heq] at hless
        exact BitVec.lt_irrefl _ hless

theorem visible_of_intersects (h : m.Sound) (hne : r.start < r.endAddr)
    (hcomp : ∀ e ∈ m.tree, Comparable r e.range) (he : e ∈ m.tree)
    (htrue : r.intersects e.range = .ok true) : Visible (fun r1 => r.intersects r1) r m e := by
  by_cases hlt : r.lt e.range = true
  · have hupper : e ∈ m.upperBound r := by
      rw [← before_append_upperBound (r := r)] at he
      rcases mem_append.mp he with he | he
      · exact absurd hlt (not_lt_of_mem_before he)
      · exact he
    cases hcons : m.upperBound r with
    | nil =>
      rw [hcons] at hupper
      cases hupper
    | cons next rest =>
      refine .inl ⟨next, rest, hcons, ?_⟩
      rw [hcons] at hupper
      rcases mem_cons.mp hupper with rfl | hrest
      · exact htrue
      · have hmem : next ∈ m.upperBound r := hcons ▸ mem_cons_self
        have hnext := mem_tree_of_upperBound hmem
        have happart := h.apart.sublist (dropWhile_sublist fun e : Node V => !r.lt e.range)
        rw [show m.tree.dropWhile (fun e => !r.lt e.range) = next :: rest from hcons] at happart
        exact next_intersects hne (h.nonempty next hnext) (hcomp next hnext) (hcomp e he)
          (lt_of_mem_upperBound h hmem) ((pairwise_cons.mp happart).1 e hrest) htrue
  · exact .inr (before_split h he hlt (overlap_of_intersects htrue).1)

end Visibility

end AddrRangeMap

end Gem5.Base
