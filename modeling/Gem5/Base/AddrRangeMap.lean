import Gem5.Base.AddrRange
import Gem5.Lib.System

/-!
# Gem5.Base.AddrRangeMap

**The map from address ranges** (`src/base/addr_range_map.hh`): an ordered tree of ranges with a list
of the entries used last. A lookup first tries the cached entries, and then the entry after the place
of the range in the tree, the entry before it, and the entries before that as long as they merge with
it.

An iterator is the number of its entry, `none` for `end()`. Numbers are not used twice, so that the
cache can hold an iterator to an entry that was erased; its use is the fault `dangling`.
-/

namespace Gem5.Base

open Gem5.Lib

/-- What an operation of the map can end with: the fault of a range, or the use of an iterator to no
entry. -/
inductive MapFault
  | range (f : RangeFault)
  | dangling
  deriving DecidableEq

structure Entry (V : Type) where
  id : Nat
  range : AddrRange
  val : V

/-- `AddrRangeMap`, with the number of the next entry. -/
structure AddrRangeMap (V : Type) where
  tree : List (Entry V) := []
  cache : List Nat := []
  nextId : Nat := 0

namespace AddrRangeMap

variable {V : Type}

/-! ### Lookup -/

/-- A condition on ranges, which may fail. -/
abbrev Cond := AddrRange → Except RangeFault Bool

variable (maxCacheSize : Int) (tree : List (Entry V))

def deref (id : Nat) : Option (Entry V) :=
  tree.find? (·.id == id)

/-- The loop of `find` over the cache. -/
def findCached (tree : List (Entry V)) (cond : Cond) : List Nat → Except MapFault (Option Nat)
  | [] => .ok none
  | c :: cache =>
    match deref tree c with
    | none => .error .dangling
    | some e =>
      match cond e.range with
      | .error f => .error (.range f)
      | .ok true => .ok (some c)
      | .ok false => findCached tree cond cache

/-- The loop of `find` over the entries before the place of the range, the nearest first. -/
def findBefore (cond : Cond) : List (Entry V) → Except MapFault (Option Nat)
  | [] => .ok none
  | i :: before =>
    match cond i.range with
    | .error f => .error (.range f)
    | .ok true => .ok (some i.id)
    | .ok false =>
      match before with
      | [] => .ok none
      | next :: _ => if next.range.mergesWith i.range then findBefore cond before else .ok none

variable (m : AddrRangeMap V) (r : AddrRange)

/-- The entries up to `upper_bound(r)`. -/
def upTo : List (Entry V) :=
  tree.takeWhile fun e => !r.lt e.range

/-- The entries from `upper_bound(r)` on. -/
def beyond : List (Entry V) :=
  tree.dropWhile fun e => !r.lt e.range

/-- The part of `find` that searches the tree. -/
def findTree (cond : Cond) : Except MapFault (Option Nat) :=
  match beyond tree r with
  | [] => findBefore cond (upTo tree r).reverse
  | next :: _ =>
    match cond next.range with
    | .error f => .error (.range f)
    | .ok true => .ok (some next.id)
    | .ok false => findBefore cond (upTo tree r).reverse

/-- `addNewEntryToCache`. The size of the cache is compared with the maximum as an unsigned number. -/
def addNewEntryToCache (cache : List Nat) (it : Nat) : List Nat :=
  if maxCacheSize ≠ 0 then
    if (maxCacheSize % 2 ^ 64).toNat ≤ cache.length then it :: cache.dropLast else it :: cache
  else cache

def find (cond : Cond) : Except MapFault (Option Nat × AddrRangeMap V) :=
  match findCached m.tree cond m.cache with
  | .error f => .error f
  | .ok (some c) => .ok (some c, { m with cache := c :: m.cache.erase c })
  | .ok none =>
    match findTree m.tree r cond with
    | .error f => .error f
    | .ok none => .ok (none, m)
    | .ok (some e) => .ok (some e, { m with cache := addNewEntryToCache maxCacheSize m.cache e })

/-! ### Operations -/

/-- `contains`, for an address. -/
def contains (a : Addr) : Except MapFault (Option Nat × AddrRangeMap V) :=
  m.find maxCacheSize (AddrRange.rangeSize a 1) (AddrRange.rangeSize a 1).isSubset

def intersects : Except MapFault (Option Nat × AddrRangeMap V) :=
  m.find maxCacheSize r r.intersects

/-- The insertion into the tree: an entry with an equivalent range is kept. -/
def insertTree (d : V) : Option Nat × AddrRangeMap V :=
  match (upTo m.tree r).getLast? with
  | some e =>
    if e.range.lt r then
      (some m.nextId, { m with tree := upTo m.tree r ++ ⟨m.nextId, r, d⟩ :: beyond m.tree r,
                               nextId := m.nextId + 1 })
    else (some e.id, m)
  | none => (some m.nextId, { m with tree := upTo m.tree r ++ ⟨m.nextId, r, d⟩ :: beyond m.tree r,
                                     nextId := m.nextId + 1 })

def insert (d : V) : Except MapFault (Option Nat × AddrRangeMap V) :=
  match m.intersects maxCacheSize r with
  | .error f => .error f
  | .ok (some _, m) => .ok (none, m)
  | .ok (none, m) => .ok (m.insertTree r d)

/-- `erase`, for one iterator. -/
def erase (p : Nat) : AddrRangeMap V :=
  { m with cache := m.cache.filter (· ≠ p), tree := m.tree.filter (·.id ≠ p) }

/-- The entries from the iterator `p` up to `q`. -/
def between (p q : Option Nat) : List (Entry V) :=
  (tree.dropWhile (some ·.id ≠ p)).takeWhile (some ·.id ≠ q)

/-- `erase`, for a range of iterators. The loop over the range removes the first one each time. -/
def eraseRange (p q : Option Nat) : AddrRangeMap V :=
  { m with cache := if p ≠ q then m.cache.filter (some · ≠ p) else m.cache,
           tree := m.tree.filter fun e => e.id ∉ (between m.tree p q).map (·.id) }

def clear : AddrRangeMap V :=
  { m with cache := [], tree := [] }

/-! ### Runs -/

inductive Call (V : Type)
  | insert (r : AddrRange) (d : V)
  | erase (p : Nat)
  | eraseRange (p q : Option Nat)
  | clear
  | contains (a : Addr)
  | intersects (r : AddrRange)

/-- One call: the iterator it returns, if it returns one, and the map after it. -/
def call :
    Call V → Except MapFault (Option Nat × AddrRangeMap V)
  | .insert r d => m.insert maxCacheSize r d
  | .erase p => .ok (none, m.erase p)
  | .eraseRange p q => .ok (none, m.eraseRange p q)
  | .clear => .ok (none, m.clear)
  | .contains a => m.contains maxCacheSize a
  | .intersects r => m.intersects maxCacheSize r

/-- The iterators given to a call are valid, and a range of iterators is in order. -/
def Valid : Call V → Prop
  | .erase p => p ∈ m.tree.map (·.id)
  | .eraseRange p q => p = q ∨ q = none ∧ p ∈ m.tree.map (some ·.id) ∨
      ∃ e f, [e, f].Sublist m.tree ∧ p = some e.id ∧ q = some f.id
  | _ => True

def calls (maxCacheSize : Int) : AddrRangeMap V → List (Call V) →
    Except MapFault (List (Option Nat) × AddrRangeMap V)
  | m, [] => .ok ([], m)
  | m, c :: cs => do
    let r ← m.call maxCacheSize c
    let rest ← calls maxCacheSize r.2 cs
    .ok (r.1 :: rest.1, rest.2)

end AddrRangeMap

end Gem5.Base
