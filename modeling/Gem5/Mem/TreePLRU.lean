import Gem5.Shared.PathBits
import Mathlib.Tactic.Ring

/-!
# Tree pseudo-LRU replacement

The tree is an array of bits, with the children of node `i` at `2 * i + 1` and `2 * i + 2`; a bit
says that the next victim is on the right. Entry `e` of the set is the leaf with index
`e + numLeaves - 1`. A node is also named by the path to it, so that the array gives the bits of
`PathBits`.
-/

namespace Gem5.Mem.TreePLRU

open Function

open List PathBits

def parentIndex (index : Nat) : Nat := (index - 1) / 2

def leftSubtreeIndex (index : Nat) : Nat := 2 * index + 1

def rightSubtreeIndex (index : Nat) : Nat := 2 * index + 2

def isRightSubtree (index : Nat) : Bool := index % 2 == 0

/-- The loop of `invalidate` and `touch`; `value` is what the parent of a right or left node
gets. -/
def update (value : Bool → Bool) (treeIndex : Nat) (tree : List Bool) : List Bool :=
  let right := isRightSubtree treeIndex
  let parent := parentIndex treeIndex
  let tree := tree.set parent (value right)
  if parent ≠ 0 then update value parent tree else tree
termination_by treeIndex
decreasing_by
  rename_i h
  change parentIndex treeIndex ≠ 0 at h
  unfold parentIndex at *
  omega

/-- The walk of `getVictim`. -/
def walk (tree : List Bool) (treeIndex : Nat) : Nat :=
  if h : treeIndex < tree.length then
    walk tree (if tree[treeIndex] then rightSubtreeIndex treeIndex else leftSubtreeIndex treeIndex)
  else treeIndex
termination_by tree.length - treeIndex
decreasing_by
  unfold rightSubtreeIndex leftSubtreeIndex
  split <;> omega

variable (numLeaves : Nat)

/-- The index of entry `e`, as `instantiateEntry` gives it. -/
def leafIndex (e : Nat) : Nat := e + (numLeaves - 1)

def instantiate : List Bool := List.replicate (numLeaves - 1) false

def invalidate (e : Nat) (tree : List Bool) : List Bool := update id (leafIndex numLeaves e) tree

def touch (e : Nat) (tree : List Bool) : List Bool := update not (leafIndex numLeaves e) tree

def reset (e : Nat) (tree : List Bool) : List Bool := touch numLeaves e tree

def getVictim (tree : List Bool) : Nat := walk tree 0 - (numLeaves - 1)

inductive Op where
  | touch (e : Nat)
  | reset (e : Nat)
  | invalidate (e : Nat)
  | getVictim

def Op.Valid : Op → Prop
  | .touch e | .reset e | .invalidate e => e < numLeaves
  | .getVictim => True

def apply (tree : List Bool) : Op → List Bool
  | .touch e => touch numLeaves e tree
  | .reset e => reset numLeaves e tree
  | .invalidate e => invalidate numLeaves e tree
  | .getVictim => tree

def run (ops : List Op) (tree : List Bool) : List Bool := ops.foldl (apply numLeaves) tree

/-- The victims of `n` rounds of taking the victim and resetting it. -/
def victims : Nat → List Bool → List Nat
  | 0, _ => []
  | n + 1, tree =>
    let e := getVictim numLeaves tree
    e :: victims n (reset numLeaves e tree)

def touched (ops : List Op) : List Nat :=
  ops.filterMap fun op =>
    match op with
    | .touch e | .reset e => some e
    | .invalidate _ | .getVictim => none

/-- Entry `e` is one of the last `k` that were touched or reset. -/
def AmongLast (k e : Nat) (ops : List Op) : Prop :=
  ∃ before after, touched ops = before ++ e :: after ∧ e ∉ after ∧ after.toFinset.card < k

section Nodes

variable {p q : List Bool} {d : Bool} {i k : Nat}

/-- The index of the node that path `p` leads to. -/
def node (p : List Bool) : Nat :=
  p.foldl (fun i d => if d then rightSubtreeIndex i else leftSubtreeIndex i) 0

theorem node_snoc (p : List Bool) (d : Bool) :
    node (p ++ [d]) = if d then rightSubtreeIndex (node p) else leftSubtreeIndex (node p) := by
  unfold node
  rw [foldl_append]
  rfl

theorem parentIndex_node (p : List Bool) (d : Bool) : parentIndex (node (p ++ [d])) = node p := by
  rw [node_snoc]
  unfold parentIndex rightSubtreeIndex leftSubtreeIndex
  split <;> omega

theorem isRightSubtree_node (p : List Bool) (d : Bool) : isRightSubtree (node (p ++ [d])) = d := by
  rw [node_snoc]
  unfold isRightSubtree rightSubtreeIndex leftSubtreeIndex
  cases d <;> simp

theorem node_eq_zero : node p = 0 ↔ p = [] := by
  cases p using List.reverseRecOn with
  | nil => exact ⟨fun _ => rfl, fun _ => rfl⟩
  | append_singleton p d =>
    rw [node_snoc]
    unfold rightSubtreeIndex leftSubtreeIndex
    constructor
    · split <;> omega
    · intro h
      exact absurd h (append_ne_nil_of_right_ne_nil _ (cons_ne_nil _ _))

theorem node_inj : ∀ {p q : List Bool}, node p = node q → p = q := by
  intro p
  induction p using List.reverseRecOn with
  | nil => exact fun h => (node_eq_zero.mp h.symm).symm
  | append_singleton p d ih =>
    intro q h
    cases q using List.reverseRecOn with
    | nil => exact node_eq_zero.mp h
    | append_singleton q e =>
      have hd : d = e := by rw [← isRightSubtree_node p d, h, isRightSubtree_node]
      have hp : p = q := ih (by rw [← parentIndex_node p d, h, parentIndex_node])
      rw [hp, hd]

def leafNumber (p : List Bool) : Nat := p.foldl (fun n d => 2 * n + d.toNat) 0

theorem leafNumber_snoc (p : List Bool) (d : Bool) :
    leafNumber (p ++ [d]) = 2 * leafNumber p + d.toNat := by
  unfold leafNumber
  rw [foldl_append]
  rfl

theorem node_add_one (p : List Bool) : node p + 1 = 2 ^ p.length + leafNumber p := by
  induction p using List.reverseRecOn with
  | nil => rfl
  | append_singleton p d ih =>
    rw [node_snoc, leafNumber_snoc]
    unfold rightSubtreeIndex leftSubtreeIndex
    cases d
    · simp
      omega
    · simp
      omega

theorem leafNumber_lt (p : List Bool) : leafNumber p < 2 ^ p.length := by
  induction p using List.reverseRecOn with
  | nil => exact Nat.zero_lt_one
  | append_singleton p d ih =>
    rw [leafNumber_snoc]
    cases d
    · simp
      omega
    · simp
      omega

theorem leafNumber_cons (d : Bool) (p : List Bool) :
    leafNumber (d :: p) = d.toNat * 2 ^ p.length + leafNumber p := by
  induction p using List.reverseRecOn with
  | nil => cases d <;> rfl
  | append_singleton p e ih =>
    rw [← cons_append, leafNumber_snoc, ih, leafNumber_snoc, length_append,
      length_singleton]
    ring

theorem length_of_mem_paths : ∀ {k : Nat} {p : List Bool}, p ∈ paths k → p.length = k := by
  intro k
  induction k with
  | zero =>
    intro p hp
    rw [mem_singleton.mp hp]
    rfl
  | succ k ih =>
    intro p hp
    rcases mem_append.mp hp with hleft | hright
    · obtain ⟨q, hq, rfl⟩ := mem_map.mp hleft
      rw [length_cons, ih hq]
    · obtain ⟨q, hq, rfl⟩ := mem_map.mp hright
      rw [length_cons, ih hq]

theorem map_leafNumber_paths (k : Nat) : (paths k).map leafNumber = List.range (2 ^ k) := by
  induction k with
  | zero => rfl
  | succ k ih =>
    have hleft : (paths k).map (leafNumber ∘ List.cons false) = (paths k).map leafNumber :=
      map_congr_left fun p _ => by
        rw [comp_apply, leafNumber_cons]
        simp
    have hright : (paths k).map (leafNumber ∘ List.cons true) =
        ((paths k).map leafNumber).map (2 ^ k + ·) := by
      rw [map_map]
      refine map_congr_left fun p hp => ?_
      rw [comp_apply, leafNumber_cons, length_of_mem_paths hp]
      simp
    rw [paths, map_append, map_map, map_map, hleft, hright, ih, Nat.pow_succ,
      Nat.mul_two, range_add]

/-- The path to entry `e`. -/
def pathTo : Nat → Nat → List Bool
  | 0, _ => []
  | k + 1, e => pathTo k (e / 2) ++ [decide (e % 2 = 1)]

theorem pathTo_length : ∀ {k e : Nat}, (pathTo k e).length = k := by
  intro k
  induction k with
  | zero => exact rfl
  | succ k ih =>
    intro e
    rw [pathTo, length_append, ih]
    rfl

theorem leafNumber_pathTo : ∀ {k e : Nat}, e < 2 ^ k → leafNumber (pathTo k e) = e := by
  intro k
  induction k with
  | zero =>
    intro e he
    rw [Nat.lt_one_iff.mp he]
    rfl
  | succ k ih =>
    intro e he
    rw [pathTo, leafNumber_snoc, ih (by rw [Nat.pow_succ] at he; omega)]
    by_cases hodd : e % 2 = 1
    · rw [decide_eq_true hodd, Bool.toNat_true]
      omega
    · rw [decide_eq_false hodd, Bool.toNat_false]
      omega

theorem leafIndex_eq {e : Nat} (he : e < 2 ^ k) : leafIndex (2 ^ k) e = node (pathTo k e) := by
  have hnode := node_add_one (pathTo k e)
  rw [pathTo_length, leafNumber_pathTo he] at hnode
  unfold leafIndex
  omega

theorem leafNumber_inj (hlen : p.length = q.length) (h : leafNumber p = leafNumber q) : p = q := by
  apply node_inj
  have hp := node_add_one p
  have hq := node_add_one q
  rw [hlen] at hp
  omega

theorem pathTo_leafNumber (hp : p.length = k) : pathTo k (leafNumber p) = p := by
  apply leafNumber_inj (pathTo_length.trans hp.symm)
  exact leafNumber_pathTo (hp ▸ leafNumber_lt p)

theorem node_lt_iff (k : Nat) : node p < 2 ^ k - 1 ↔ p.length < k := by
  have hnode := node_add_one p
  have hnumber := leafNumber_lt p
  constructor
  · intro hlt
    by_contra hle
    have hpow : 2 ^ k ≤ 2 ^ p.length := Nat.pow_le_pow_right Nat.two_pos (not_lt.mp hle)
    omega
  · intro hlt
    have hpow : 2 ^ (p.length + 1) ≤ 2 ^ k := Nat.pow_le_pow_right Nat.two_pos hlt
    omega

end Nodes

section Bits

variable {p q : List Bool} {d : Bool} {tree : List Bool} {i k : Nat} {value : Bool → Bool}

def bitsOf (tree : List Bool) (p : List Bool) : Bool := (tree[node p]?).getD false

theorem bitsOf_set {v : Bool} (hlt : node p < tree.length) :
    bitsOf (tree.set (node p) v) = Function.update (bitsOf tree) p v := by
  funext q
  unfold bitsOf
  by_cases hq : q = p
  · rw [hq, update_self, List.getElem?_set_self hlt]
    rfl
  · rw [update_of_ne hq, List.getElem?_set_ne fun heq => hq (node_inj heq).symm]

theorem turn_snoc : ∀ {p : List Bool} {bits : List Bool → Bool},
    turn value (p ++ [d]) bits = turn value p (Function.update bits p (value d)) := by
  intro p
  induction p with
  | nil =>
    intro bits
    funext q
    cases q with
    | nil => exact (update_self (f := bits) [] (value d)).symm
    | cons e q =>
      rw [turn, update_of_ne (cons_ne_nil e q)]
      by_cases hed : e = d
      · rw [nil_append, turn, if_pos hed, hed]
        rfl
      · rw [nil_append, turn, if_neg hed]
  | cons c p ih =>
    intro bits
    funext q
    cases q with
    | nil => rfl
    | cons e q =>
      rw [cons_append, turn, turn, ih]
      by_cases hec : e = c
      · subst hec
        rw [if_pos rfl, if_pos rfl]
        congr 1
        funext r
        unfold sub
        by_cases hr : r = p
        · rw [hr, update_self, update_self]
        · rw [update_of_ne hr, update_of_ne fun h => hr (List.cons.inj h).2]
      · rw [if_neg hec, if_neg hec, update_of_ne fun h => hec (List.cons.inj h).1]

theorem bitsOf_update : ∀ {p : List Bool} {tree : List Bool}, p ≠ [] → p.length ≤ k →
    tree.length = 2 ^ k - 1 → bitsOf (update value (node p) tree) = turn value p (bitsOf tree) ∧
      (update value (node p) tree).length = 2 ^ k - 1 := by
  intro p
  induction p using List.reverseRecOn with
  | nil => exact fun h => absurd rfl h
  | append_singleton p d ih =>
    intro tree _ hlen hsize
    rw [length_append] at hlen
    have hlt : node p < tree.length := by
      rw [hsize]
      exact (node_lt_iff k).mpr hlen
    have hset := bitsOf_set (v := value d) hlt
    have hsize' : (tree.set (node p) (value d)).length = 2 ^ k - 1 := by
      rw [length_set, hsize]
    rw [update, parentIndex_node, isRightSubtree_node, turn_snoc]
    by_cases hroot : p = []
    · rw [if_neg (not_not.mpr (node_eq_zero.mpr hroot)), hset, hroot]
      exact ⟨rfl, by rw [← hroot]; exact hsize'⟩
    · rw [if_pos fun h => hroot (node_eq_zero.mp h), ← hset]
      exact ih hroot (Nat.le_of_succ_le hlen) hsize'

theorem walk_node {m : Nat} : ∀ {p : List Bool}, p.length + m = k → tree.length = 2 ^ k - 1 →
    walk tree (node p) = node (p ++ follow m fun q => bitsOf tree (p ++ q)) := by
  induction m with
  | zero =>
    intro p hlen hsize
    have hnot : ¬ node p < tree.length := by
      rw [hsize, node_lt_iff]
      omega
    rw [walk, dif_neg hnot, follow, append_nil]
  | succ m ih =>
    intro p hlen hsize
    have hlt : node p < tree.length := by
      rw [hsize, node_lt_iff]
      omega
    have hbit : tree[node p] = bitsOf tree (p ++ []) := by
      unfold bitsOf
      rw [append_nil, List.getElem?_eq_getElem hlt]
      rfl
    rw [walk, dif_pos hlt, hbit, ← node_snoc, ih (by rw [length_append, length_singleton]; omega)
      hsize, follow, append_assoc]
    congr 2
    unfold sub
    simp only [append_assoc, singleton_append]

theorem getVictim_eq (hsize : tree.length = 2 ^ k - 1) :
    getVictim (2 ^ k) tree = leafNumber (follow k (bitsOf tree)) := by
  have hwalk : walk tree 0 = node (follow k (bitsOf tree)) := walk_node (p := []) (by simp) hsize
  have hnode := node_add_one (follow k (bitsOf tree))
  rw [follow_length] at hnode
  have hpos := Nat.two_pow_pos k
  unfold getVictim
  omega

theorem getVictim_lt (hsize : tree.length = 2 ^ k - 1) : getVictim (2 ^ k) tree < 2 ^ k := by
  have hlt := leafNumber_lt (follow k (bitsOf tree))
  rw [follow_length] at hlt
  rwa [getVictim_eq hsize]

end Bits

section Runs

variable {tree : List Bool} {k e : Nat} {ops : List Op}

theorem update_leaf {value : Bool → Bool} (hk : 1 ≤ k) (he : e < 2 ^ k)
    (hsize : tree.length = 2 ^ k - 1) :
    bitsOf (update value (leafIndex (2 ^ k) e) tree) = turn value (pathTo k e) (bitsOf tree) ∧
      (update value (leafIndex (2 ^ k) e) tree).length = 2 ^ k - 1 := by
  have hne : pathTo k e ≠ [] := by
    intro hnil
    have hlen := pathTo_length (k := k) (e := e)
    rw [hnil, length_nil] at hlen
    omega
  rw [leafIndex_eq he]
  exact bitsOf_update hne (le_of_eq pathTo_length) hsize

theorem apply_length (hk : 1 ≤ k) {op : Op} (hop : op.Valid (2 ^ k))
    (hsize : tree.length = 2 ^ k - 1) : (apply (2 ^ k) tree op).length = 2 ^ k - 1 := by
  cases op with
  | touch e | reset e | invalidate e => exact (update_leaf hk hop hsize).2
  | getVictim => exact hsize

theorem run_length (hk : 1 ≤ k) : ∀ {ops : List Op} {tree : List Bool},
    (∀ op ∈ ops, op.Valid (2 ^ k)) → tree.length = 2 ^ k - 1 →
    (run (2 ^ k) ops tree).length = 2 ^ k - 1 := by
  intro ops
  induction ops with
  | nil => exact fun _ h => h
  | cons op ops ih =>
    intro tree hops hsize
    rw [forall_mem_cons] at hops
    exact ih hops.2 (apply_length hk hops.1 hsize)

theorem bitsOf_run (hk : 1 ≤ k) : ∀ {ops : List Op} {tree : List Bool},
    (∀ op ∈ ops, op.Valid (2 ^ k)) → (∀ e, Op.invalidate e ∉ ops) → tree.length = 2 ^ k - 1 →
    bitsOf (run (2 ^ k) ops tree) = turnAll ((touched ops).map (pathTo k)) (bitsOf tree) := by
  intro ops
  induction ops with
  | nil => exact fun _ _ _ => rfl
  | cons op ops ih =>
    intro tree hops hnone hsize
    rw [forall_mem_cons] at hops
    have hrest := ih hops.2 (fun e he => hnone e (mem_cons_of_mem op he))
      (apply_length hk hops.1 hsize)
    change bitsOf (run (2 ^ k) ops (apply (2 ^ k) tree op)) = _
    rw [hrest]
    cases op with
    | touch e =>
      change turnAll _ (bitsOf (update not _ tree)) = _
      rw [(update_leaf hk hops.1 hsize).1]
      rfl
    | reset e =>
      change turnAll _ (bitsOf (update not _ tree)) = _
      rw [(update_leaf hk hops.1 hsize).1]
      rfl
    | invalidate e => exact absurd mem_cons_self (hnone e)
    | getVictim => rfl

theorem mem_touched_lt (hops : ∀ op ∈ ops, op.Valid (2 ^ k)) : ∀ e ∈ touched ops, e < 2 ^ k := by
  intro e he
  obtain ⟨op, hop, heq⟩ := mem_filterMap.mp he
  cases op with
  | touch e' | reset e' =>
    obtain rfl := Option.some.inj heq
    exact hops _ hop
  | invalidate e' | getVictim => cases heq

theorem getVictim_invalidate (hk : 1 ≤ k) (he : e < 2 ^ k) (hsize : tree.length = 2 ^ k - 1) :
    getVictim (2 ^ k) (invalidate (2 ^ k) e tree) = e := by
  obtain ⟨hbits, hsize'⟩ : bitsOf (invalidate (2 ^ k) e tree) = turn id (pathTo k e) (bitsOf tree) ∧
      (invalidate (2 ^ k) e tree).length = 2 ^ k - 1 := update_leaf hk he hsize
  have hfollow : follow (pathTo k e).length (turn id (pathTo k e) (bitsOf tree)) = pathTo k e :=
    follow_turn_id
  rw [pathTo_length] at hfollow
  rw [getVictim_eq hsize', hbits, hfollow, leafNumber_pathTo he]

theorem getVictim_ne_of_amongLast (hk : 1 ≤ k) (hops : ∀ op ∈ ops, op.Valid (2 ^ k))
    (hnone : ∀ e, Op.invalidate e ∉ ops) (hsize : tree.length = 2 ^ k - 1)
    (hlast : AmongLast k e ops) : getVictim (2 ^ k) (run (2 ^ k) ops tree) ≠ e := by
  obtain ⟨before, after, htouched, hnot, hcard⟩ := hlast
  have hlt := mem_touched_lt hops
  rw [htouched] at hlt
  have he : e < 2 ^ k := hlt e (mem_append_right _ mem_cons_self)
  have hafter : ∀ x ∈ after, x < 2 ^ k := fun x hx =>
    hlt x (mem_append_right _ (mem_cons_of_mem e hx))
  rw [getVictim_eq (run_length hk hops hsize), bitsOf_run hk hops hnone hsize, htouched]
  have hsplit : turnAll ((before ++ e :: after).map (pathTo k)) (bitsOf tree) =
      turnAll (after.map (pathTo k))
        (turn not (pathTo k e) (turnAll (before.map (pathTo k)) (bitsOf tree))) := by
    unfold turnAll
    rw [map_append, foldl_append, map_cons, foldl_cons]
  rw [hsplit]
  intro heq
  refine follow_turnAll_ne pathTo_length (fun p hp => ?_) (fun hin => ?_) ?_
    (leafNumber_inj (follow_length.trans pathTo_length.symm)
    (heq.trans (leafNumber_pathTo he).symm))
  · obtain ⟨x, _, rfl⟩ := mem_map.mp hp
    exact pathTo_length
  · obtain ⟨x, hx, hpath⟩ := mem_map.mp hin
    have hxe : x = e := by
      rw [← leafNumber_pathTo (hafter x hx), hpath, leafNumber_pathTo he]
    exact hnot (hxe ▸ hx)
  · refine lt_of_le_of_lt ?_ hcard
    have himage : (after.map (pathTo k)).toFinset = after.toFinset.image (pathTo k) := by
      ext p
      simp
    rw [himage]
    exact Finset.card_image_le

theorem victims_eq (hk : 1 ≤ k) : ∀ {n : Nat} {tree : List Bool}, tree.length = 2 ^ k - 1 →
    victims (2 ^ k) n tree = (rounds k n (bitsOf tree)).map leafNumber := by
  intro n
  induction n with
  | zero => exact fun _ => rfl
  | succ n ih =>
    intro tree hsize
    obtain ⟨hbits, hsize'⟩ :
        bitsOf (update not (leafIndex (2 ^ k) (getVictim (2 ^ k) tree)) tree) = _ ∧ _ :=
      update_leaf hk (getVictim_lt hsize) hsize
    have hpath : pathTo k (getVictim (2 ^ k) tree) = follow k (bitsOf tree) := by
      rw [getVictim_eq hsize, pathTo_leafNumber follow_length]
    rw [hpath] at hbits
    change getVictim (2 ^ k) tree :: victims (2 ^ k) n (update not _ tree) =
      leafNumber (follow k (bitsOf tree)) :: (rounds k n (round k (bitsOf tree))).map leafNumber
    rw [ih hsize', hbits, getVictim_eq hsize]
    rfl

/-- In every state of a tree of `2 ^ k` leaves, the victim after an invalidation is the invalidated
entry, no entry among the last `k` that were touched is the victim, and as many rounds as there are
leaves replace each of them once. -/
theorem tree_plru_protects (k : Nat) (hk : 1 ≤ k) (ops : List Op)
    (hops : ∀ op ∈ ops, op.Valid (2 ^ k)) :
    (∀ e < 2 ^ k, getVictim (2 ^ k)
        (run (2 ^ k) (ops ++ [.invalidate e]) (instantiate (2 ^ k))) = e) ∧
      (∀ recent : List Op, (∀ op ∈ recent, op.Valid (2 ^ k)) → (∀ e, Op.invalidate e ∉ recent) →
        ∀ e, AmongLast k e recent →
          getVictim (2 ^ k) (run (2 ^ k) (ops ++ recent) (instantiate (2 ^ k))) ≠ e) ∧
      (victims (2 ^ k) (2 ^ k) (run (2 ^ k) ops (instantiate (2 ^ k)))).Perm
        (List.range (2 ^ k)) := by
  have hstart : (instantiate (2 ^ k)).length = 2 ^ k - 1 := length_replicate
  have hsize := run_length hk hops hstart
  have hrun : ∀ more, run (2 ^ k) (ops ++ more) (instantiate (2 ^ k)) =
      run (2 ^ k) more (run (2 ^ k) ops (instantiate (2 ^ k))) := fun more =>
    foldl_append
  refine ⟨fun e he => ?_, fun recent hrecent hnone e hlast => ?_, ?_⟩
  · rw [hrun]
    exact getVictim_invalidate hk he hsize
  · rw [hrun]
    exact getVictim_ne_of_amongLast hk hrecent hnone hsize hlast
  · rw [victims_eq hk hsize, ← map_leafNumber_paths]
    exact rounds_paths.map leafNumber

theorem tree_plru_protects_four :
    getVictim 4 (run 4 ([.invalidate 1] ++ [.touch 0, .reset 3]) (instantiate 4)) ≠ 0 := by
  refine (tree_plru_protects 2 (by decide) [.invalidate 1] ?_).2.1 [.touch 0, .reset 3] ?_ ?_ 0
    ⟨[], [3], rfl, by decide, by decide⟩
  · exact forall_mem_singleton.mpr (by decide : 1 < 4)
  · exact forall_mem_cons.mpr ⟨(by decide : 0 < 4), forall_mem_singleton.mpr (by decide : 3 < 4)⟩
  · intro e he
    cases he with
    | tail _ he =>
      cases he with
      | tail _ he => cases he

end Runs

end Gem5.Mem.TreePLRU
