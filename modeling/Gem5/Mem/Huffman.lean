import Gem5.Shared.Sim
import Mathlib.Algebra.Order.Ring.Nat
import Mathlib.Data.List.Induction
import Mathlib.Data.List.Nodup
import Mathlib.Tactic.Ring

/-!
# Huffman codes

The samples are merged to a tree, and each leaf gets the path to it as its code word. Words are
stored as numbers beside their lengths; `decode` is given only the number.
-/

namespace Gem5.Mem.Huffman

open List

inductive Node where
  | leaf (value frequency : Nat)
  | node (left right : Node)

def Node.frequency : Node → Nat
  | .leaf _ frequency => frequency
  | .node left right => (left.frequency + right.frequency) % 2 ^ 64

/-- `buildTree`, for any order in which the priority queue gives out nodes of equal frequency. -/
inductive Builds : List Node → Node → Prop
  | single (t : Node) : Builds [t] t
  | merge {trees rest : List Node} {left right t : Node} (pops : trees.Perm (left :: right :: rest))
      (least : ∀ n ∈ right :: rest, left.frequency ≤ n.frequency)
      (next : ∀ n ∈ rest, right.frequency ≤ n.frequency)
      (parent : Builds (.node left right :: rest) t) : Builds trees t

structure Code where
  code : Nat
  length : Nat
  deriving DecidableEq

structure CodeMaps where
  valueToCode : Nat → Option Code
  codeToValue : Nat → Option Nat

namespace CodeMaps

def empty : CodeMaps := ⟨fun _ => none, fun _ => none⟩

def store (m : CodeMaps) (value : Nat) (c : Code) : CodeMaps :=
  ⟨Function.update m.valueToCode value (some c), Function.update m.codeToValue c.code (some value)⟩

def encode (m : CodeMaps) (value : Nat) : Code := (m.valueToCode value).getD ⟨0, 65⟩

def decode (m : CodeMaps) (code : Nat) : Sim Nat := simSome (m.codeToValue code)

end CodeMaps

def Code.right (c : Code) : Code := ⟨(c.code * 2 + 1) % 2 ^ 64, c.length + 1⟩

def Code.left (c : Code) : Code := ⟨c.code * 2 % 2 ^ 64, c.length + 1⟩

def generateCodes (maxCodeLength : Nat) : Node → Code → CodeMaps → CodeMaps
  | .leaf value _, c, m => if c.length > maxCodeLength then m else m.store value c
  | .node left right, c, m =>
    if c.length > maxCodeLength then m
    else generateCodes maxCodeLength left c.left (generateCodes maxCodeLength right c.right m)

def generateCodeMaps (maxCodeLength : Nat) (t : Node) : CodeMaps :=
  generateCodes maxCodeLength t ⟨0, 0⟩ .empty

def Code.Starts (c d : Code) : Prop :=
  c.length ≤ d.length ∧ d.code / 2 ^ (d.length - c.length) = c.code

/-- The value of the leaf that the turns lead to; `true` is to the right. -/
def Node.leafAt : Node → List Bool → Option Nat
  | .leaf value _, [] => some value
  | .node left right, turn :: path => if turn then right.leafAt path else left.leafAt path
  | _, _ => none

/-- No path to a leaf that gets a word is the path to another leaf with left turns in front. -/
def Node.Separate (maxCodeLength : Nat) (t : Node) : Prop :=
  ∀ k path v w, t.leafAt path = some v → t.leafAt (replicate (k + 1) false ++ path) = some w →
    maxCodeLength < k + 1 + path.length

/-- The word of a path as a number. -/
def number : List Bool → Nat
  | [] => 0
  | turn :: path => turn.toNat * 2 ^ path.length + number path

def sampled (samples : List (Nat × Nat)) : List Node :=
  (samples.filter fun p => p.2 ≠ 0).map fun p => .leaf p.1 p.2

def Node.values : Node → List Nat
  | .leaf value _ => [value]
  | .node left right => right.values ++ left.values

def words (maxCodeLength : Nat) : Node → Code → List (Nat × Code)
  | .leaf value _, c => if c.length > maxCodeLength then [] else [(value, c)]
  | .node left right, c =>
    if c.length > maxCodeLength then []
    else words maxCodeLength right c.right ++ words maxCodeLength left c.left

def stored (l : List (Nat × Code)) (m : CodeMaps) : CodeMaps :=
  l.foldl (fun m p => m.store p.1 p.2) m

variable {n v w : Nat} {t : Node} {c : Code} {l : List (Nat × Code)} {p q : List Bool}

section Words

theorem generateCodes_eq (n : Nat) (t : Node) (c : Code) (m : CodeMaps) :
    generateCodes n t c m = stored (words n t c) m := by
  induction t generalizing c m with
  | leaf value frequency =>
    rw [generateCodes, words]
    split <;> rfl
  | node left right hleft hright =>
    rw [generateCodes, words]
    split
    · rfl
    · rw [hleft, hright, stored, stored, stored, foldl_append]

theorem number_lt : ∀ p : List Bool, number p < 2 ^ p.length
  | [] => Nat.one_pos
  | true :: p | false :: p => by
    have hlt := number_lt p
    simp only [number, length_cons, Nat.pow_succ, Bool.toNat_true, Bool.toNat_false]
    omega

theorem number_append : number (p ++ q) = number p * 2 ^ q.length + number q := by
  induction p with
  | nil => simp [number]
  | cons turn p ih =>
    rw [cons_append, number, number, ih, length_append, Nat.pow_add]
    ring

theorem number_lefts {k : Nat} : number (replicate k false ++ p) = number p := by
  induction k with
  | zero => rfl
  | succ k ih =>
    rw [replicate_succ, cons_append, number, ih, Bool.toNat_false, Nat.zero_mul, Nat.zero_add]

theorem number_inj (hlen : p.length = q.length) (h : number p = number q) : p = q := by
  induction p generalizing q with
  | nil => exact (length_eq_zero_iff.mp hlen.symm).symm
  | cons a p ih =>
    cases q with
    | nil => cases hlen
    | cons b q =>
      replace hlen := Nat.succ.inj hlen
      have hp := number_lt p
      have hq := number_lt q
      rw [number, number, hlen] at h
      rw [hlen] at hp
      cases a <;> cases b <;> simp only [Bool.toNat_true, Bool.toNat_false] at h
      · rw [ih hlen (by omega)]
      · omega
      · omega
      · rw [ih hlen (by omega)]

theorem Code.right_length : c.right.length = c.length + 1 := rfl

theorem Code.left_length : c.left.length = c.length + 1 := rfl

/-- The code of a path, behind that of the node it begins at. -/
def Code.behind (c : Code) (p : List Bool) : Code :=
  ⟨c.code * 2 ^ p.length + number p, c.length + p.length⟩

theorem Code.behind_cons (hc : c.code < 2 ^ c.length) (hlen : c.length < 64) :
    c.behind (true :: p) = c.right.behind p ∧ c.behind (false :: p) = c.left.behind p := by
  have hpow : 2 ^ (c.length + 1) ≤ 2 ^ 64 := Nat.pow_le_pow_right Nat.two_pos hlen
  rw [Nat.pow_succ] at hpow
  have hleft : c.left.code = c.code * 2 := Nat.mod_eq_of_lt (by omega)
  have hright : c.right.code = c.code * 2 + 1 := Nat.mod_eq_of_lt (by omega)
  simp only [behind, hleft, hright, number, length_cons, Bool.toNat_true, Bool.toNat_false,
    Code.mk.injEq, right_length, left_length]
  exact ⟨⟨by ring, by omega⟩, by ring, by omega⟩

theorem Code.behind_root : Code.behind ⟨0, 0⟩ p = ⟨number p, p.length⟩ := by
  simp [behind]

/-- The words are those of the paths of at most `n` turns. -/
theorem mem_words (hn : n ≤ 64) (hc : c.code < 2 ^ c.length) {d : Code} :
    (v, d) ∈ words n t c ↔ ∃ p, t.leafAt p = some v ∧ c.length + p.length ≤ n ∧
      d = c.behind p := by
  induction t generalizing c with
  | leaf value frequency =>
    rw [words]
    constructor
    · intro hm
      split at hm
      · cases hm
      · cases mem_singleton.mp hm
        exact ⟨[], rfl, not_lt.mp ‹_›, by simp [Code.behind, number]⟩
    · rintro ⟨p, hp, hlen, rfl⟩
      cases p with
      | nil =>
        cases hp
        rw [if_neg (not_lt.mpr hlen : ¬c.length > n)]
        simp [Code.behind, number]
      | cons turn p => cases hp
  | node left right hleft hright =>
    have hl : c.left.code < 2 ^ (c.length + 1) :=
      (Nat.mod_le _ _).trans_lt (by rw [Nat.pow_succ]; omega)
    have hr : c.right.code < 2 ^ (c.length + 1) :=
      (Nat.mod_le _ _).trans_lt (by rw [Nat.pow_succ]; omega)
    rw [words]
    split
    · refine iff_of_false not_mem_nil ?_
      rintro ⟨p, _, hlen, _⟩
      omega
    · rw [mem_append, hright hr, hleft hl]
      constructor
      · rintro (⟨p, hp, hlen, rfl⟩ | ⟨p, hp, hlen, rfl⟩)
        · rw [Code.right_length] at hlen
          exact ⟨true :: p, hp, by rw [length_cons]; omega,
            (Code.behind_cons hc (by omega)).1.symm⟩
        · rw [Code.left_length] at hlen
          exact ⟨false :: p, hp, by rw [length_cons]; omega,
            (Code.behind_cons hc (by omega)).2.symm⟩
      · rintro ⟨p, hp, hlen, rfl⟩
        cases p with
        | nil => cases hp
        | cons turn p =>
          rw [length_cons] at hlen
          cases turn with
          | true =>
            exact .inl ⟨p, hp, by rw [Code.right_length]; omega, (Code.behind_cons hc (by omega)).1⟩
          | false =>
            exact .inr ⟨p, hp, by rw [Code.left_length]; omega, (Code.behind_cons hc (by omega)).2⟩

theorem leafAt_append (h : t.leafAt p = some v) (hq : t.leafAt (p ++ q) = some w) : q = [] := by
  induction p generalizing t with
  | nil =>
    cases t with
    | leaf value frequency =>
      cases q with
      | nil => rfl
      | cons turn q => cases hq
    | node left right => cases h
  | cons turn p ih =>
    cases t with
    | leaf value frequency => cases h
    | node left right =>
      cases turn with
      | true | false => exact ih h hq

theorem starts_path (h : Code.Starts ⟨number p, p.length⟩ ⟨number q, q.length⟩) : p <+: q := by
  obtain ⟨hlen, hdiv⟩ := h
  change number q / 2 ^ (q.length - p.length) = number p at hdiv
  have hsplit := number_append (p := q.take p.length) (q := q.drop p.length)
  rw [take_append_drop, length_drop] at hsplit
  have hrest := number_lt (q.drop p.length)
  rw [length_drop] at hrest
  have hsame : p = q.take p.length := by
    refine number_inj (length_take_of_le hlen).symm ?_
    rw [← hdiv, hsplit, Nat.mul_comm, Nat.mul_add_div (Nat.two_pow_pos _),
      Nat.div_eq_of_lt hrest, Nat.add_zero]
  exact hsame ▸ take_prefix _ _

theorem words_values (n : Nat) (t : Node) (c : Code) :
    ((words n t c).map Prod.fst).Sublist t.values := by
  induction t generalizing c with
  | leaf value frequency =>
    rw [words]
    split
    · exact nil_sublist _
    · exact List.Sublist.refl _
  | node left right hleft hright =>
    rw [words]
    split
    · exact nil_sublist _
    · rw [map_append]
      exact (hright c.right).append (hleft c.left)

end Words

section Maps

theorem stored_value (h : (l.map Prod.fst).Nodup) :
    (stored l .empty).valueToCode v = some c ↔ (v, c) ∈ l := by
  induction l using List.reverseRecOn with
  | nil => exact iff_of_false (by simp [stored, CodeMaps.empty]) not_mem_nil
  | append_singleton l p ih =>
    rw [map_append, nodup_append] at h
    obtain ⟨hl, -, hnew⟩ := h
    rw [stored, foldl_append]
    change Function.update (stored l .empty).valueToCode p.1 (some p.2) v = some c ↔ _
    have hnot : ∀ c, (p.1, c) ∉ l :=
      fun c hin => hnew _ (mem_map_of_mem hin) _ (by simp) rfl
    grind

theorem stored_code (hm : (v, c) ∈ l) :
    ∃ w d, (w, d) ∈ l ∧ d.code = c.code ∧ (stored l .empty).codeToValue c.code = some w := by
  induction l using List.reverseRecOn with
  | nil => cases hm
  | append_singleton l p ih =>
    rw [stored, foldl_append]
    change ∃ w d, (w, d) ∈ l ++ [p] ∧ d.code = c.code ∧
      Function.update (stored l .empty).codeToValue p.2.code (some p.1) c.code = some w
    rw [Function.update_apply]
    split
    · exact ⟨p.1, p.2, by simp, by grind, rfl⟩
    · obtain ⟨w, d, hw, hd, hfound⟩ := ih (by grind)
      exact ⟨w, d, mem_append_left [p] hw, hd, hfound⟩

end Maps

theorem builds_values {trees : List Node} (h : Builds trees t) :
    t.values.Perm (trees.flatMap Node.values) := by
  induction h with
  | single t => rw [flatMap_singleton]
  | @merge trees rest left right t pops _ _ _ ih =>
    refine ih.trans (List.Perm.trans ?_ (pops.flatMap_right Node.values).symm)
    rw [flatMap_cons, flatMap_cons, flatMap_cons, ← append_assoc]
    exact perm_append_comm.append_right _

theorem exists_least (t : Node) (trees : List Node) :
    ∃ left rest, (t :: trees).Perm (left :: rest) ∧
    ∀ n ∈ rest, left.frequency ≤ n.frequency := by
  induction trees generalizing t with
  | nil => exact ⟨t, [], .refl _, fun n hn => nomatch hn⟩
  | cons u us ih =>
    obtain ⟨m, rest, hperm, hleast⟩ := ih u
    rcases Nat.le_total t.frequency m.frequency with hle | hle
    · exact ⟨t, u :: us, .refl _, by grind⟩
    · exact ⟨m, t :: rest, (hperm.cons t).trans (.swap m t rest), by grind⟩

theorem builds_exists {trees : List Node} (h : trees ≠ []) : ∃ t, Builds trees t := by
  generalize hk : trees.length = k
  induction k using Nat.strongRecOn generalizing trees with
  | _ k ih =>
    match trees, h with
    | [t], _ => exact ⟨t, .single t⟩
    | t :: u :: us, _ =>
      obtain ⟨left, queue, hperm, hleast⟩ := exists_least t (u :: us)
      have hlen := hperm.length_eq
      match queue with
      | [] => cases hlen
      | x :: xs =>
        obtain ⟨right, rest, hrest, hnext⟩ := exists_least x xs
        have hlen' := hrest.length_eq
        simp only [length_cons] at hk hlen hlen'
        obtain ⟨parent, hparent⟩ := ih (rest.length + 1) (by omega)
          (cons_ne_nil (.node left right) rest) rfl
        exact ⟨parent, .merge (hperm.trans (hrest.cons left))
          (fun n hn => hleast n (hrest.mem_iff.mpr hn)) hnext hparent⟩

section Samples

variable {samples : List (Nat × Nat)}

theorem sampled_eq (hfreq : ∀ p ∈ samples, 0 < p.2) :
    sampled samples = samples.map fun p => .leaf p.1 p.2 := by
  rw [sampled, filter_eq_self.mpr fun p hp => decide_eq_true (ne_of_gt (hfreq p hp))]

theorem words_nodup (hfreq : ∀ p ∈ samples, 0 < p.2) (hdistinct : (samples.map Prod.fst).Nodup)
    (ht : Builds (sampled samples) t) : ((words n t ⟨0, 0⟩).map Prod.fst).Nodup := by
  refine List.Nodup.sublist (words_values n t ⟨0, 0⟩) ((builds_values ht).nodup_iff.mpr ?_)
  rw [sampled_eq hfreq, flatMap_map]
  change (samples.flatMap fun p => [p.1]).Nodup
  rwa [← map_eq_flatMap]

end Samples

section Codes

variable (hn : n ≤ 64) (hvalues : ((words n t ⟨0, 0⟩).map Prod.fst).Nodup)
include hn hvalues

theorem valueToCode_iff : (generateCodeMaps n t).valueToCode v = some c ↔
    ∃ p, t.leafAt p = some v ∧ p.length ≤ n ∧ c = ⟨number p, p.length⟩ := by
  rw [generateCodeMaps, generateCodes_eq, stored_value hvalues, mem_words hn Nat.one_pos]
  simp only [Code.behind_root, Nat.zero_add]

theorem encode_leafAt (h : t.leafAt p = some v) (hlen : p.length ≤ n) :
    (generateCodeMaps n t).encode v = ⟨number p, p.length⟩ := by
  rw [CodeMaps.encode, (valueToCode_iff hn hvalues).mpr ⟨p, h, hlen, rfl⟩, Option.getD_some]

theorem leafAt_encode (hv : ((generateCodeMaps n t).encode v).length ≤ n) :
    ∃ p, t.leafAt p = some v ∧ p.length ≤ n := by
  rw [CodeMaps.encode] at hv
  cases hc : (generateCodeMaps n t).valueToCode v with
  | none =>
    rw [hc] at hv
    exact absurd hv (Nat.not_le_of_lt (by omega : n < 65))
  | some c =>
    obtain ⟨p, hp, hlen, _⟩ := (valueToCode_iff hn hvalues).mp hc
    exact ⟨p, hp, hlen⟩

theorem encode_length_iff :
    ((generateCodeMaps n t).encode v).length = 65 ↔
      (generateCodeMaps n t).valueToCode v = none := by
  rw [CodeMaps.encode]
  cases hc : (generateCodeMaps n t).valueToCode v with
  | none => exact iff_of_true rfl rfl
  | some c =>
    obtain ⟨p, _, hlen, rfl⟩ := (valueToCode_iff hn hvalues).mp hc
    refine iff_of_false (fun h => ?_) nofun
    change p.length = 65 at h
    omega

end Codes

theorem Node.Separate.eq (h : t.Separate n) (hp : t.leafAt p = some v) (hq : t.leafAt q = some w)
    (hle : p.length ≤ q.length) (hlen : q.length ≤ n) (hnumber : number p = number q) : p = q := by
  obtain ⟨k, hk⟩ := Nat.exists_eq_add_of_le' hle
  have hsame : replicate k false ++ p = q :=
    number_inj (by rw [length_append, length_replicate, hk])
      (number_lefts.trans hnumber)
  cases k with
  | zero => exact hsame
  | succ k =>
    have hdeep := h k p v w hp (hsame ▸ hq)
    omega

/-- For samples of distinct values a tree is built, and the words of its maps are not parts of
each other; decoding gives back every value exactly if the leaves are separate. -/
theorem huffman_codes (n : Nat) (hn : n ≤ 64) (samples : List (Nat × Nat)) (hne : samples ≠ [])
    (hfreq : ∀ p ∈ samples, 0 < p.2) (hdistinct : (samples.map Prod.fst).Nodup) :
    (∃ t, Builds (sampled samples) t) ∧ ∀ t, Builds (sampled samples) t →
      let m := generateCodeMaps n t
      (∀ v w, v ≠ w → (m.encode v).length ≤ n → (m.encode w).length ≤ n →
        ¬(m.encode v).Starts (m.encode w)) ∧
      (∀ v, (m.encode v).length = 65 ↔ m.valueToCode v = none) ∧
      ((∀ v, (m.encode v).length ≤ n → m.decode (m.encode v).code = .ok v) ↔ t.Separate n) := by
  refine ⟨builds_exists ?_, fun t ht => ?_⟩
  · rwa [sampled_eq hfreq, ne_eq, map_eq_nil_iff]
  have hvalues := words_nodup (n := n) hfreq hdistinct ht
  intro m
  refine ⟨fun v w hvw hv hw hstarts => ?_, fun v => encode_length_iff hn hvalues,
    fun hdec k p v w hp hq => ?_, fun hsep v hv => ?_⟩
  · obtain ⟨p, hp, hplen⟩ := leafAt_encode hn hvalues hv
    obtain ⟨q, hq, hqlen⟩ := leafAt_encode hn hvalues hw
    rw [encode_leafAt hn hvalues hp hplen, encode_leafAt hn hvalues hq hqlen] at hstarts
    obtain ⟨r, rfl⟩ := starts_path hstarts
    obtain rfl := leafAt_append hp hq
    rw [append_nil, hp] at hq
    exact hvw (Option.some.inj hq)
  · by_contra hlen
    have hplen : p.length ≤ n := by omega
    have hqlen : (replicate (k + 1) false ++ p).length ≤ n := by
      rw [length_append, length_replicate]
      omega
    have hv := encode_leafAt hn hvalues hp hplen
    have hw := encode_leafAt hn hvalues hq hqlen
    have hdecv := hdec v (by rw [hv]; exact hplen)
    have hdecw := hdec w (by rw [hw]; exact hqlen)
    rw [hv] at hdecv
    rw [hw, number_lefts] at hdecw
    obtain rfl := Except.ok.inj (hdecv.symm.trans hdecw)
    have hsame := congrArg Code.length (hv.symm.trans hw)
    simp at hsame
  · obtain ⟨p, hp, hlen⟩ := leafAt_encode hn hvalues hv
    have hcode := encode_leafAt hn hvalues hp hlen
    have hmem : (v, m.encode v) ∈ words n t ⟨0, 0⟩ :=
      (mem_words hn Nat.one_pos).mpr ⟨p, hp, by rwa [Nat.zero_add], by rw [hcode, Code.behind_root]⟩
    obtain ⟨w, d, hw, hd, hfound⟩ := stored_code hmem
    obtain ⟨q, hq, hqlen, rfl⟩ := (mem_words hn Nat.one_pos).mp hw
    rw [Nat.zero_add] at hqlen
    rw [Code.behind_root, hcode] at hd
    have hpq : p = q := by
      rcases Nat.le_total p.length q.length with hle | hle
      · exact hsep.eq hp hq hle hqlen hd.symm
      · exact (hsep.eq hq hp hle hlen hd).symm
    rw [← hpq, hp] at hq
    rw [← generateCodes_eq n t ⟨0, 0⟩ .empty] at hfound
    exact (congrArg simSome hfound).trans (congrArg Except.ok (Option.some.inj hq).symm)

theorem huffman_codes_three : ∃ t, Builds (sampled [(10, 1), (11, 1), (12, 2)]) t ∧
    (generateCodeMaps 8 t).encode 11 = ⟨3, 2⟩ ∧ ∀ v ∈ [10, 11, 12],
      (generateCodeMaps 8 t).decode ((generateCodeMaps 8 t).encode v).code = .ok v := by
  have ht : Builds (sampled [(10, 1), (11, 1), (12, 2)])
      (.node (.leaf 12 2) (.node (.leaf 10 1) (.leaf 11 1))) := by
    refine .merge (.refl _) (by decide) (by decide)
      (.merge (.swap ..) (by decide) nofun (.single _))
  obtain ⟨-, hcodes⟩ := huffman_codes 8 (by decide) [(10, 1), (11, 1), (12, 2)] (by decide)
    (by decide) (by decide)
  refine ⟨_, ht, rfl, fun v hv => (hcodes _ ht).2.2.mpr ?_ v ?_⟩
  · intro k p v w hp hq
    cases p with
    | nil => cases hp
    | cons turn p => cases k <;> cases hq
  · revert v
    decide

/-- The words `1` of the frequent value and `01` of another are one number. -/
theorem frequent_value_lost : ∃ t, Builds (sampled [(10, 1), (11, 1), (12, 3)]) t ∧
    (generateCodeMaps 64 t).encode 12 = ⟨1, 1⟩ ∧ (generateCodeMaps 64 t).decode 1 = .ok 11 := by
  refine ⟨.node (.node (.leaf 10 1) (.leaf 11 1)) (.leaf 12 3), ?_, rfl, rfl⟩
  refine .merge (.refl _) (by decide) (by decide) (.merge (.refl _) (by decide) ?_ (.single _))
  intro n hn
  cases hn

end Gem5.Mem.Huffman
