import Gem5.Base.RangeLookup

/-!
# Runs of a range map

The operations keep the order of the entries and the cache, except for the removal of a
range of entries, which leaves all but the first of them in the cache.
-/

namespace Gem5.Base

open List AddrRange Bool

namespace AddrRange

variable {r e f : AddrRange}

theorem lt_self_of_precedes (he : e.start < e.endAddr) (h : Precedes e f) : e.lt f = true := by
  rcases h with hle | ⟨hmerge, hint, hmatch⟩
  · exact lt_iff.mpr (.inl (by bv_omega))
  · exact lt_iff.mpr (.inr ⟨(mergesWith_iff.mp hmerge).1.symm, hint, fun _ => hmatch⟩)

structure Apart (r e : AddrRange) : Prop where
  comparable : Comparable r e
  disjoint : r.intersects e = .ok false

theorem Apart.group (h : Apart r e) (hne : r.start < r.endAddr) (hself : r.intersects r = .ok true)
    (hover : Overlap r e) : r.mergesWith e = true ∧ r.interleaved = true ∧
      r.intlvMatch ≠ e.intlvMatch := by
  have hmerge : r.mergesWith e = true := by
    rcases h.comparable with hno | ⟨hr, he⟩ | hmerge
    · exact absurd hover hno
    · have htrue := intersects_of_plain hover hr he
      rw [h.disjoint] at htrue
      cases htrue
    · exact hmerge
  obtain ⟨hstart, hend, hmasks⟩ := mergesWith_iff.mp hmerge
  have hint : r.interleaved = true := by
    by_contra hplain
    have hplain := eq_false_iff.mpr hplain
    have htrue := intersects_of_plain hover hplain ((interleaved_of_mergesWith hmerge).trans hplain)
    rw [h.disjoint] at htrue
    cases htrue
  refine ⟨hmerge, hint, fun hmatch => ?_⟩
  have hfalse := h.disjoint
  have hsize : e.size = r.size := by rw [size, size, hstart, hend, hmasks]
  rw [intersects_of_merges hmerge hint hne, hsize, hstart, ← hmatch] at hfalse
  rw [intersects_of_merges (mergesWith_iff.mpr ⟨rfl, rfl, rfl⟩) hint hne, hfalse] at hself
  cases hself

theorem Apart.precedes (h : Apart r e) (hne : r.start < r.endAddr)
    (hself : r.intersects r = .ok true)
    (hlt : ¬ r.lt e = true) : Precedes e r := by
  by_cases hend : e.endAddr ≤ r.start
  · exact .inl hend
  · have hstart := start_le_of_not_lt hlt
    have hover : Overlap r e := ⟨BitVec.not_le.mp hend, by bv_omega⟩
    obtain ⟨hmerge, hint, hmatch⟩ := h.group hne hself hover
    refine .inr ⟨mergesWith_symm hmerge, (interleaved_of_mergesWith hmerge).trans hint, ?_⟩
    by_contra hge
    have hless : r.intlvMatch < e.intlvMatch := by bv_omega
    exact hlt (lt_iff.mpr (.inr ⟨(mergesWith_iff.mp hmerge).1.symm, hint, fun _ => hless⟩))

theorem Apart.follows (h : Apart r e) (hne : r.start < r.endAddr) (hne' : e.start < e.endAddr)
    (hself : r.intersects r = .ok true) (hlt : r.lt e = true) : Precedes r e := by
  by_cases hend : r.endAddr ≤ e.start
  · exact .inl hend
  · have hstart := start_le_of_lt hlt
    have hover : Overlap r e := ⟨by bv_omega, BitVec.not_le.mp hend⟩
    obtain ⟨hmerge, hint, _⟩ := h.group hne hself hover
    refine .inr ⟨hmerge, hint, ?_⟩
    rcases lt_iff.mp hlt with hless | ⟨_, _, hless⟩
    · rw [(mergesWith_iff.mp hmerge).1] at hless
      exact absurd hless (BitVec.lt_irrefl _)
    · exact hless ((interleaved_of_mergesWith hmerge).trans hint)

theorem not_precedes_of_isSubset (hne : r.start < r.endAddr) (he : r.isSubset e = .ok true)
    (hf : r.isSubset f = .ok true) : ¬ Precedes e f := by
  obtain ⟨_, _, hend, hin⟩ := bounds_of_isSubset hne he
  obtain ⟨_, hstart, _, hin'⟩ := bounds_of_isSubset hne hf
  rintro (hle | ⟨hmerge, hint, hmatch⟩)
  · bv_omega
  · have hsel : ∀ s : AddrRange, s.contains r.start = true →
        s.sel r.start = s.intlvMatch.toNat := by
      intro s hs
      rw [contains, and_eq_true, beq_iff_eq] at hs
      exact hs.2
    have h1 := hsel e (hin hint)
    have h2 := hsel f (hin' ((interleaved_of_mergesWith hmerge).trans hint))
    have hsame : f.sel r.start = e.sel r.start := by rw [sel, sel, (mergesWith_iff.mp hmerge).2.2]
    have heq : f.intlvMatch = e.intlvMatch := BitVec.eq_of_toNat_eq (by omega)
    rw [heq] at hmatch
    exact BitVec.lt_irrefl _ hmatch

end AddrRange

inductive MapOp (V : Type) where
  | insert (r : AddrRange) (d : V)
  | erase (p : Nat)
  | eraseRange (p q : Option Nat)
  | clear
  | contains (r : AddrRange)
  | intersects (r : AddrRange)

namespace AddrRangeMap

variable {V : Type} {m m' : AddrRangeMap V} {r : AddrRange} {d : V} {e f : Node V} {it : Nat}
  {maxCacheSize : Int}

def step (maxCacheSize : Int) (m : AddrRangeMap V) : MapOp V → Sim (AddrRangeMap V)
  | .insert r d => (·.2) <$> m.insert maxCacheSize r d
  | .erase p => m.erase p
  | .eraseRange p q => m.eraseRange p q
  | .clear => .ok m.clear
  | .contains r => (·.2) <$> m.contains maxCacheSize r
  | .intersects r => (·.2) <$> m.intersects maxCacheSize r

def Safe (m : AddrRangeMap V) : MapOp V → Prop
  | .insert r _ => r.start < r.endAddr ∧ r.intersects r = .ok true ∧
      ∀ e ∈ m.tree, Comparable r e.range
  | .eraseRange p q => ∀ range, m.between p q = .ok range →
      ∀ e ∈ range, some e.id ≠ p → e.id ∉ m.cache
  | .contains r => r.start < r.endAddr ∧ ∀ e ∈ m.tree, ∃ b, r.isSubset e.range = .ok b
  | .intersects r => r.start < r.endAddr ∧ ∀ e ∈ m.tree, Comparable r e.range
  | .erase _ => True
  | .clear => True

def returns {α : Type} (x : Sim α) : Bool := okAnd x fun _ => true

theorem returns_iff {α : Type} {x : Sim α} : returns x = true ↔ ∃ a, x = .ok a := by
  simp [returns, okAnd_iff]

instance (m : AddrRangeMap V) : (a : MapOp V) → Decidable (m.Safe a)
  | .insert _ _ => inferInstanceAs (Decidable (_ ∧ _ ∧ _))
  | .eraseRange p q =>
    match h : m.between p q with
    | .ok range => decidable_of_iff (∀ e ∈ range, some e.id ≠ p → e.id ∉ m.cache)
        ⟨fun hall _ hrange => Except.ok.inj (h.symm.trans hrange) ▸ hall, fun hall => hall range h⟩
    | .error _ => .isTrue fun _ hrange => nomatch h.symm.trans hrange
  | .contains r => decidable_of_iff
      (r.start < r.endAddr ∧ ∀ e ∈ m.tree, returns (r.isSubset e.range) = true)
      (by simp only [returns_iff, Safe])
  | .intersects _ => inferInstanceAs (Decidable (_ ∧ _))
  | .erase _ => .isTrue trivial
  | .clear => .isTrue trivial

def CacheOf (m : AddrRangeMap V) (cache : List Nat) : Prop := ∀ it ∈ cache, ∃ e ∈ m.tree, e.id = it

structure LikeLinearSearch (maxCacheSize : Int) (m : AddrRangeMap V) : Prop where
  cached : m.CacheOf m.cache
  contains : ∀ r, m.Safe (.contains r) → ∃ it, Finds (fun r1 => r.isSubset r1) m.tree it ∧
    ∀ cache, m.CacheOf cache → ∃ m',
      { m with cache := cache }.contains maxCacheSize r = .ok (it, m')
  intersects : ∀ r, m.Safe (.intersects r) → ∀ cache, m.CacheOf cache → ∃ it m',
    { m with cache := cache }.intersects maxCacheSize r = .ok (it, m') ∧
      Finds (fun r1 => r.intersects r1) m.tree it
  insert : ∀ r d, m.Safe (.insert r d) → ∀ cache, m.CacheOf cache → ∃ it m',
    { m with cache := cache }.insert maxCacheSize r d = .ok (it, m') ∧
      (it ≠ none ↔ ∀ e ∈ m.tree, r.intersects e.range = .ok false) ∧
      (∀ i, it = some i → ∀ e, e ∈ m'.tree ↔ e ∈ m.tree ∨ e = ⟨i, r, d⟩) ∧
      (it = none → m'.tree = m.tree)

section Lookups

theorem Sound.with_cache (h : m.Sound) {cache : List Nat} (hcache : m.CacheOf cache) :
    { m with cache := cache }.Sound := { h with cached := hcache }

theorem contains_spec (maxCacheSize : Int) (h : m.Sound) (hsafe : m.Safe (.contains r)) :
    ∃ it cache,
    m.contains maxCacheSize r = .ok (it, { m with cache := cache }) ∧
      Finds (fun r1 => r.isSubset r1) m.tree it ∧ m.CacheOf cache :=
  find_spec maxCacheSize h hsafe.2 fun _ he hsub => visible_of_isSubset h hsafe.1 he hsub

theorem intersects_spec (maxCacheSize : Int) (h : m.Sound) (hne : r.start < r.endAddr)
    (hcomp : ∀ e ∈ m.tree, Comparable r e.range) : ∃ it cache,
    m.intersects maxCacheSize r = .ok (it, { m with cache := cache }) ∧
      Finds (fun r1 => r.intersects r1) m.tree it ∧ m.CacheOf cache :=
  find_spec maxCacheSize h (fun e he => intersects_ok (hcomp e he))
    fun _ he htrue => visible_of_intersects h hne hcomp he htrue

theorem finds_unique (h : m.Sound) (hne : r.start < r.endAddr) {it it' : Option Nat}
    (hit : Finds (fun r1 => r.isSubset r1) m.tree it)
    (hit' : Finds (fun r1 => r.isSubset r1) m.tree it') : it = it' := by
  cases it with
  | none =>
    cases it' with
    | none => rfl
    | some i =>
      obtain ⟨e, he, _, htrue⟩ := hit'
      exact absurd ((hit e he).symm.trans htrue) (by simp)
  | some i =>
    obtain ⟨e, he, rfl, htrue⟩ := hit
    cases it' with
    | none => exact absurd ((hit' e he).symm.trans htrue) (by simp)
    | some j =>
      obtain ⟨f, hf, rfl, htrue'⟩ := hit'
      -- of two different entries one precedes the other
      by_contra hdiff
      have hne' : e ≠ f := fun heq => hdiff (by rw [heq])
      have : Std.Symm fun a b : Node V => Precedes a.range b.range ∨ Precedes b.range a.range :=
        ⟨fun _ _ => Or.symm⟩
      have hpair :=
        h.apart.imp (S := fun a b : Node V => Precedes a.range b.range ∨ Precedes b.range a.range)
        fun hab => .inl hab
      rcases hpair.forall he hf hne' with hef | hfe
      · exact not_precedes_of_isSubset hne htrue htrue' hef
      · exact not_precedes_of_isSubset hne htrue' htrue hfe

end Lookups

section Updates

def grow (r : AddrRange) (d : V) (m : AddrRangeMap V) : AddrRangeMap V :=
  { m with tree := m.before r ++ ⟨m.nextId, r, d⟩ :: m.upperBound r, nextId := m.nextId + 1 }

theorem mem_grow : e ∈ (m.grow r d).tree ↔ e ∈ m.tree ∨ e = ⟨m.nextId, r, d⟩ := by
  have htree : e ∈ m.tree ↔ e ∈ m.before r ∨ e ∈ m.upperBound r := by
    rw [← mem_append, before_append_upperBound]
  rw [grow, mem_append, mem_cons]
  tauto

theorem pairwise_grow {R : Node V → Node V → Prop} (h : m.tree.Pairwise R)
    (hbefore : ∀ e ∈ m.before r, R e ⟨m.nextId, r, d⟩)
    (hupper : ∀ e ∈ m.upperBound r, R ⟨m.nextId, r, d⟩ e) : (m.grow r d).tree.Pairwise R := by
  rw [← before_append_upperBound (r := r), pairwise_append] at h
  obtain ⟨h1, h2, h3⟩ := h
  refine pairwise_append.mpr ⟨h1, pairwise_cons.mpr ⟨hupper, h2⟩, ?_⟩
  intro e he f hf
  rcases mem_cons.mp hf with rfl | hf
  · exact hbefore e he
  · exact h3 e he f hf

theorem grow_sound (h : m.Sound) (hne : r.start < r.endAddr) (hself : r.intersects r = .ok true)
    (hapart : ∀ e ∈ m.tree, Apart r e.range) : (m.grow r d).Sound where
  nonempty e he := by
    rcases mem_grow.mp he with he | rfl
    · exact h.nonempty e he
    · exact hne
  apart := by
    apply pairwise_grow h.apart
    · intro e he
      exact (hapart e (mem_tree_of_before he)).precedes hne hself (not_lt_of_mem_before he)
    · intro e he
      have hmem := mem_tree_of_upperBound he
      exact (hapart e hmem).follows hne (h.nonempty e hmem) hself (lt_of_mem_upperBound h he)
  ids := by
    apply pairwise_grow h.ids
    · intro e he
      exact ne_of_lt (h.fresh e (mem_tree_of_before he))
    · intro e he
      exact ne_of_gt (h.fresh e (mem_tree_of_upperBound he))
  fresh e he := by
    rcases mem_grow.mp he with he | rfl
    · exact Nat.lt_succ_of_lt (h.fresh e he)
    · exact Nat.lt_succ_self m.nextId
  cached it hit := by
    obtain ⟨e, he, hid⟩ := h.cached it hit
    exact ⟨e, mem_grow.mpr (.inl he), hid⟩

theorem insertTree_eq (h : m.Sound) (hne : r.start < r.endAddr) (hself : r.intersects r = .ok true)
    (hapart : ∀ e ∈ m.tree, Apart r e.range) : m.insertTree r d = (m.nextId, m.grow r d) := by
  have hnone : m.tree.find? (fun e => !r.lt e.range && !e.range.lt r) = none := by
    apply List.find?_eq_none.mpr
    intro e he heq
    rw [and_eq_true, not_eq_true', not_eq_true'] at heq
    have hlt : ¬ r.lt e.range = true := by simp [heq.1]
    have hless := lt_self_of_precedes (h.nonempty e he) ((hapart e he).precedes hne hself hlt)
    rw [heq.2] at hless
    cases hless
  unfold insertTree
  rw [hnone]
  rfl

theorem insert_spec (maxCacheSize : Int) (h : m.Sound) (hsafe : m.Safe (.insert r d)) :
    ∃ it cache, m.CacheOf cache ∧
    (Finds (fun r1 => r.intersects r1) m.tree it) ∧
    ((∃ i, it = some i ∧ m.insert maxCacheSize r d = .ok (none, { m with cache := cache })) ∨
      (it = none ∧ (∀ e ∈ m.tree, Apart r e.range) ∧
        m.insert maxCacheSize r d = .ok (some m.nextId, { m with cache := cache }.grow r d))) := by
  obtain ⟨hne, hself, hcomp⟩ := hsafe
  obtain ⟨it, cache, hcall, hfinds, hcache⟩ :=
    intersects_spec maxCacheSize h hne hcomp
  refine ⟨it, cache, hcache, hfinds, ?_⟩
  unfold insert
  rw [hcall, sim_ok_bind]
  cases it with
  | some i => exact .inl ⟨i, rfl, rfl⟩
  | none =>
    have hapart : ∀ e ∈ m.tree, Apart r e.range := fun e he => ⟨hcomp e he, hfinds e he⟩
    have htree :
        { m with cache := cache }.insertTree r d = (m.nextId, { m with cache := cache }.grow r d) :=
      insertTree_eq (h.with_cache hcache) hne hself hapart
    refine .inr ⟨rfl, hapart, ?_⟩
    simp only [htree]
    rfl

theorem Sound.shrink (h : m.Sound) {tree : List (Node V)} {cache : List Nat}
    (hsub : tree.Sublist m.tree) (hcache : ∀ it ∈ cache, ∃ e ∈ tree, e.id = it) :
    { m with tree := tree, cache := cache }.Sound where
  nonempty e he := h.nonempty e (hsub.subset he)
  apart := h.apart.sublist hsub
  ids := h.ids.sublist hsub
  fresh e he := h.fresh e (hsub.subset he)
  cached := hcache

theorem erase_sound (h : m.Sound) {p : Nat} (hs : m.erase p = .ok m') : m'.Sound := by
  obtain ⟨_, _, rfl⟩ := map_eq_ok.mp hs
  refine h.shrink filter_sublist fun it hit => ?_
  obtain ⟨hmem, hne⟩ := mem_filter.mp hit
  obtain ⟨e, he, rfl⟩ := h.cached it hmem
  exact ⟨e, mem_filter.mpr ⟨he, hne⟩, rfl⟩

theorem mem_foldl_filter {p : Option Nat} {range : List (Node V)} {cache : List Nat}
    (h : it ∈ range.foldl (fun cache _ => cache.filter fun it => some it ≠ p) cache) :
    it ∈ cache ∧ (range ≠ [] → some it ≠ p) := by
  induction range generalizing cache with
  | nil => exact ⟨h, fun hne => absurd rfl hne⟩
  | cons e rest ih =>
    obtain ⟨hmem, hne⟩ := mem_filter.mp (ih h).1
    exact ⟨hmem, fun _ => of_decide_eq_true hne⟩

theorem eraseRange_sound (h : m.Sound) {p q : Option Nat} (hsafe : m.Safe (.eraseRange p q))
    (hs : m.eraseRange p q = .ok m') : m'.Sound := by
  obtain ⟨range, hrange, rfl⟩ := map_eq_ok.mp hs
  refine h.shrink filter_sublist fun it hit => ?_
  obtain ⟨hmem, hfirst⟩ := mem_foldl_filter hit
  obtain ⟨e, he, rfl⟩ := h.cached it hmem
  refine ⟨e, mem_filter.mpr ⟨he, ?_⟩, rfl⟩
  rw [decide_eq_true_eq]
  intro hin
  obtain ⟨f, hf, hid⟩ := mem_map.mp hin
  have hne : some f.id ≠ p := hid ▸ hfirst (ne_nil_of_mem hf)
  exact hsafe range hrange f hf hne (hid ▸ hmem)

end Updates

theorem step_sound {a : MapOp V} (h : m.Sound) (hsafe : m.Safe a)
    (hs : step maxCacheSize m a = .ok m') : m'.Sound := by
  cases a with
  | insert r d =>
    obtain ⟨it, cache, hcache, _, hcases⟩ := insert_spec maxCacheSize h hsafe
    rcases hcases with ⟨i, _, hcall⟩ | ⟨_, hapart, hcall⟩
    · rw [step, hcall] at hs
      cases hs
      exact h.with_cache hcache
    · rw [step, hcall] at hs
      cases hs
      exact grow_sound (h.with_cache hcache) hsafe.1 hsafe.2.1 hapart
  | erase p => exact erase_sound h hs
  | eraseRange p q => exact eraseRange_sound h hsafe hs
  | clear =>
    cases hs
    exact h.shrink (nil_sublist _) (forall_mem_nil _)
  | contains r =>
    obtain ⟨it, cache, hcall, _, hcache⟩ := contains_spec maxCacheSize h hsafe
    rw [step, hcall] at hs
    cases hs
    exact h.with_cache hcache
  | intersects r =>
    obtain ⟨it, cache, hcall, _, hcache⟩ :=
      intersects_spec maxCacheSize h hsafe.1 hsafe.2
    rw [step, hcall] at hs
    cases hs
    exact h.with_cache hcache

theorem Sound.likeLinearSearch (h : m.Sound) : m.LikeLinearSearch maxCacheSize where
  cached := h.cached
  contains r hsafe := by
    obtain ⟨it, _, _, hfinds, _⟩ := contains_spec maxCacheSize h hsafe
    refine ⟨it, hfinds, fun cache hcache => ?_⟩
    obtain ⟨it', _, hcall, hfinds', _⟩ :=
      contains_spec maxCacheSize (h.with_cache hcache) hsafe
    rw [finds_unique h hsafe.1 hfinds hfinds']
    exact ⟨_, hcall⟩
  intersects r hsafe cache hcache := by
    obtain ⟨it, _, hcall, hfinds, _⟩ :=
      intersects_spec maxCacheSize (h.with_cache hcache) hsafe.1 hsafe.2
    exact ⟨it, _, hcall, hfinds⟩
  insert r d hsafe cache hcache := by
    obtain ⟨it, _, _, hfinds, hcases⟩ :=
      insert_spec maxCacheSize (h.with_cache hcache) hsafe
    rcases hcases with ⟨i, rfl, hcall⟩ | ⟨_, hapart, hcall⟩
    · refine ⟨none, _, hcall, ?_, (fun _ hi => nomatch hi), fun _ => rfl⟩
      obtain ⟨e, he, _, htrue⟩ := hfinds
      refine ⟨fun hnone => absurd rfl hnone, fun hall => ?_⟩
      exact absurd ((hall e he).symm.trans htrue) (by simp)
    · refine ⟨some m.nextId, _, hcall,
        ⟨fun _ e he => (hapart e he).disjoint, fun _ hi => nomatch hi⟩,
        ?_, fun hi => nomatch hi⟩
      intro i hi e
      cases hi
      exact mem_grow

/-- In every run whose operations are safe the cache holds entries of the map only, and every
safe lookup and insertion returns as a search over all entries does, for every content of the
cache. -/
theorem lookups_agree (maxCacheSize : Int)
    (h : Reach (step maxCacheSize) Safe (empty : AddrRangeMap V) m) :
    m.LikeLinearSearch maxCacheSize := by
  have hsound : m.Sound :=
    h.invariant (P := Sound) empty_sound fun hs ha hstep => step_sound hs ha hstep
  exact hsound.likeLinearSearch

theorem lookups_agree_two_entries : ∃ m : AddrRangeMap Unit, Reach (step 2) Safe empty m ∧
    m.tree.length = 2 ∧ m.cache = [1] ∧ m.LikeLinearSearch 2 := by
  obtain ⟨m, hrun, hend⟩ := Reach.exists_of_runFrom (step 2) Safe (empty : AddrRangeMap Unit)
    [.insert (RangeEx 0 16) (), .insert (RangeEx 16 32) (), .contains (RangeEx 16 17)]
    (fun m => m.tree.length = 2 ∧ m.cache = [1]) (by decide +kernel)
  exact ⟨m, hrun, hend.1, hend.2, lookups_agree 2 hrun⟩

/-- The second of two erased entries stays in the cache and is read by the next lookup. -/
theorem erased_entry_stays_cached : ∃ m : AddrRangeMap Unit,
    runFrom (step 2) (fun _ _ => True) empty [.insert (RangeEx 0 16) (), .insert (RangeEx 16 32) (),
      .contains (RangeEx 16 17), .eraseRange (some 0) none] = some m ∧
    m.tree = [] ∧ m.cache = [1] ∧ m.contains 2 (RangeEx 16 17) = .error .outOfBounds :=
  ⟨⟨[], [1], 2⟩, by decide +kernel, rfl, rfl, by decide +kernel⟩

end AddrRangeMap

end Gem5.Base
