import Gem5.Base.AddrRange

/-!
# Maps from address ranges

A sorted map whose keys are ranges, with a short list of the entries found last. An
iterator is the number of its node; nodes are numbered as they are made. Reading through
an iterator whose node is gone is `outOfBounds`.
-/

namespace Gem5.Base

structure Node (V : Type) where
  id : Nat
  range : AddrRange
  value : V
  deriving DecidableEq

structure AddrRangeMap (V : Type) where
  tree : List (Node V)
  cache : List Nat
  nextId : Nat
  deriving DecidableEq

namespace AddrRangeMap

variable {V : Type}

def empty : AddrRangeMap V := ⟨[], [], 0⟩

def node (it : Nat) (m : AddrRangeMap V) : Sim (Node V) :=
  match m.tree.find? fun e => e.id == it with
  | some e => .ok e
  | none => .error .outOfBounds

def searchCache (cond : AddrRange → Sim Bool) (m : AddrRangeMap V) : List Nat → Sim (Option Nat)
  | [] => pure none
  | it :: rest => do
    let e ← m.node it
    match ← cond e.range with
    | true => pure (some it)
    | false => searchCache cond m rest

def searchBack (cond : AddrRange → Sim Bool) : List (Node V) → Sim (Option Nat)
  | [] => pure none
  | i :: rest => do
    match ← cond i.range with
    | true => pure (some i.id)
    | false =>
      match rest with
      | [] => pure none
      | next :: _ => if next.range.mergesWith i.range then searchBack cond rest else pure none

def before (r : AddrRange) (m : AddrRangeMap V) : List (Node V) :=
  m.tree.takeWhile fun e => !r.lt e.range

def upperBound (r : AddrRange) (m : AddrRangeMap V) : List (Node V) :=
  m.tree.dropWhile fun e => !r.lt e.range

def searchNext (cond : AddrRange → Sim Bool) : List (Node V) → Sim (Option Nat)
  | [] => pure none
  | next :: _ => do
    match ← cond next.range with
    | true => pure (some next.id)
    | false => pure none

def searchTree (cond : AddrRange → Sim Bool) (r : AddrRange) (m : AddrRangeMap V) :
    Sim (Option Nat) := do
  match ← searchNext cond (m.upperBound r) with
  | some it => pure (some it)
  | none => searchBack cond (m.before r).reverse

/-- The size of the list is compared as an unsigned number. -/
def addNewEntryToCache (maxCacheSize : Int) (it : Nat) (cache : List Nat) : List Nat :=
  if maxCacheSize ≠ 0 then
    if maxCacheSize % 2 ^ 64 ≤ cache.length then
      if 1 < maxCacheSize then it :: cache.dropLast else cache.dropLast ++ [it]
    else it :: cache
  else cache

def find (maxCacheSize : Int) (r : AddrRange) (cond : AddrRange → Sim Bool) (m : AddrRangeMap V) :
    Sim (Option Nat × AddrRangeMap V) := do
  match ← m.searchCache cond m.cache with
  | some it => pure (some it, { m with cache := it :: m.cache.erase it })
  | none =>
    match ← m.searchTree cond r with
    | some it => pure (some it, { m with cache := addNewEntryToCache maxCacheSize it m.cache })
    | none => pure (none, m)

def contains (maxCacheSize : Int) (r : AddrRange) (m : AddrRangeMap V) :
    Sim (Option Nat × AddrRangeMap V) :=
  m.find maxCacheSize r fun r1 => r.isSubset r1

def intersects (maxCacheSize : Int) (r : AddrRange) (m : AddrRangeMap V) :
    Sim (Option Nat × AddrRangeMap V) :=
  m.find maxCacheSize r fun r1 => r.intersects r1

def insertTree (r : AddrRange) (d : V) (m : AddrRangeMap V) : Nat × AddrRangeMap V :=
  match m.tree.find? fun e => !r.lt e.range && !e.range.lt r with
  | some e => (e.id, m)
  | none => (m.nextId, { m with
      tree := m.before r ++ ⟨m.nextId, r, d⟩ :: m.upperBound r, nextId := m.nextId + 1 })

/-- `none` is the iterator behind the last entry. -/
def insert (maxCacheSize : Int) (r : AddrRange) (d : V) (m : AddrRangeMap V) :
    Sim (Option Nat × AddrRangeMap V) := do
  match ← m.intersects maxCacheSize r with
  | (some _, m) => pure (none, m)
  | (none, m) =>
    let (it, m) := m.insertTree r d
    pure (some it, m)

def erase (p : Nat) (m : AddrRangeMap V) : Sim (AddrRangeMap V) := do
  let _ ← m.node p
  pure { m with cache := m.cache.filter (· ≠ p), tree := m.tree.filter fun e => e.id ≠ p }

def between (p q : Option Nat) (m : AddrRangeMap V) : Sim (List (Node V)) :=
  let rest := m.tree.dropWhile fun e => some e.id ≠ p
  let range := rest.takeWhile fun e => some e.id ≠ q
  if p.isSome ∧ rest.isEmpty ∨ q.isSome ∧ range.length = rest.length then .error .outOfBounds
  else pure range

def eraseRange (p q : Option Nat) (m : AddrRangeMap V) : Sim (AddrRangeMap V) := do
  let range ← m.between p q
  pure { m with
    cache := range.foldl (fun cache _ => cache.filter fun it => some it ≠ p) m.cache
    tree := m.tree.filter fun e => e.id ∉ range.map Node.id }

def clear (m : AddrRangeMap V) : AddrRangeMap V := { m with tree := [], cache := [] }

end AddrRangeMap

end Gem5.Base
