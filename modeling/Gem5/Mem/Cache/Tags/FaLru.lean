import Gem5.Base.Bitfield
import Gem5.Lib.LinkedList
import Gem5.Lib.System

/-!
# Gem5.Mem.Cache.Tags.FaLru

**The fully associative LRU tag store** (`src/mem/cache/tags/fa_lru.{hh,cc}`). The blocks form a
doubly linked list, the most recently used first. `CacheTracking` counts the hits that smaller caches
would have: every block holds a mask of the tracked sizes it is within, and `boundaries` points to the
last block within each size. Both are updated before the list is relinked.

Pointers are optional block numbers, and a call that follows a null pointer faults. The hash table
is the function it implements.
-/

namespace Gem5.Mem

open Gem5.Base Gem5.Lib

/-! ### Parameters -/

/-- The parameters of `FALRU`, with the checks of its constructor. Sizes are `unsigned`. -/
structure FALRUParams where
  blkSize : Nat
  minTrackedSize : Nat
  size : Nat
  isPowerOf2_blkSize : isPowerOf2 blkSize
  isPowerOf2_minTrackedSize : isPowerOf2 minTrackedSize
  isPowerOf2_size : isPowerOf2 size
  size_lt : size < 2 ^ 32
  blkSize_le : blkSize ≤ minTrackedSize
  minTrackedSize_lt : minTrackedSize < size

namespace FALRUParams

variable (p : FALRUParams)

def numBlocks : Nat := p.size / p.blkSize

def numTrackedCaches : Nat :=
  if p.size > p.minTrackedSize then floorLog2 p.size - floorLog2 p.minTrackedSize else 0

/-- `inAllCachesMask`, a `CachesMask`. -/
def inAllCachesMask : BitVec 32 := (mask p.numTrackedCaches).setWidth 32

end FALRUParams

/-! ### State -/

/-- What a call can violate: a null pointer, or an assertion of the source. -/
inductive FALRUFault
  | nullPointer
  | tagMismatch
  | numErased
  | notValid
  | isValid
  | inCachesMask
  | link
  deriving Repr, DecidableEq

structure FALRUBlk (n : Nat) where
  prev : Option (Fin n) := none
  next : Option (Fin n) := none
  inCachesMask : BitVec 32 := 0
  valid : Bool := false
  tag : Addr := BitVec.allOnes 64
  secure : Bool := false
  deriving DecidableEq

/-- `FALRU`, with its `CacheTracking`. -/
structure FALRU (p : FALRUParams) where
  blks : Fin p.numBlocks → FALRUBlk p.numBlocks
  head : Fin p.numBlocks
  tail : Fin p.numBlocks
  tagHash : Addr × Bool → Option (Fin p.numBlocks) := fun _ => none
  boundaries : Nat → Option (Fin p.numBlocks) := fun _ => none
  hits : Nat → Nat := fun _ => 0
  misses : Nat → Nat := fun _ => 0
  accesses : Nat := 0

def deref {α : Type} : Option α → Except FALRUFault α
  | some x => .ok x
  | none => .error .nullPointer

namespace FALRU

variable {p : FALRUParams}

variable (s : FALRU p) (blk : Fin p.numBlocks) (b : Fin p.numBlocks)

def modify (f : FALRUBlk p.numBlocks → FALRUBlk p.numBlocks) : FALRU p :=
  { s with blks := Function.update s.blks b (f (s.blks b)) }

def setNext (next : Option (Fin p.numBlocks)) : FALRU p :=
  s.modify b fun blk => { blk with next := next }

def setPrev (prev : Option (Fin p.numBlocks)) : FALRU p :=
  s.modify b fun blk => { blk with prev := prev }

def setMask (mask : BitVec 32) : FALRU p :=
  s.modify b fun blk => { blk with inCachesMask := mask }

def setBoundary (i : Nat) (b : Option (Fin p.numBlocks)) : FALRU p :=
  { s with boundaries := Function.update s.boundaries i b }

def setTag (valid : Bool) (tag : Addr) (secure : Bool) : FALRU p :=
  s.modify b fun blk => { blk with valid := valid, tag := tag, secure := secure }

def setHash (k : Addr × Bool) (b : Option (Fin p.numBlocks)) : FALRU p :=
  { s with tagHash := Function.update s.tagHash k b }

def keyOf : Addr × Bool :=
  ((s.blks b).tag, (s.blks b).secure)

def order : List (Fin p.numBlocks) :=
  follow (fun b => (s.blks b).next) p.numBlocks (some s.head)

/-! ### `CacheTracking` -/

/-- One iteration of `CacheTracking::init` for a block that is not null. -/
def trackInit (s : FALRU p) : Nat → Option (Fin p.numBlocks) → Nat → Nat → BitVec 32 → Nat → FALRU p
  | 0, _, _, _, _, _ => s
  | _ + 1, none, _, _, _, _ => s
  | fuel + 1, some blk, currSize, trackedCacheSize, inCachesMask, j =>
    let s := s.setMask blk inCachesMask
    let currSize := currSize + p.blkSize
    if currSize = trackedCacheSize ∧ blk ≠ s.tail then
      let s := s.setBoundary j (some blk)
      s.trackInit fuel (s.blks blk).next currSize (trackedCacheSize <<< 1)
        (inCachesMask &&& ~~~ (1#32 <<< j)) (j + 1)
    else
      s.trackInit fuel (s.blks blk).next currSize trackedCacheSize inCachesMask j

def init : FALRU p :=
  s.trackInit p.numBlocks (if p.numTrackedCaches = 0 then none else some s.head) 0 p.minTrackedSize
    p.inAllCachesMask 0

/-- One iteration of `CacheTracking::moveBlockToHead`. -/
def boundaryToHead (updateCachesMask : BitVec 32) (blk : Fin p.numBlocks) (s : FALRU p) (i : Nat) :
    Except FALRUFault (FALRU p) :=
  let currentCacheMask := 1#32 <<< i
  if currentCacheMask &&& updateCachesMask ≠ 0 then do
    let b ← deref (s.boundaries i)
    .ok ((s.setMask b ((s.blks b).inCachesMask &&& ~~~ currentCacheMask)).setBoundary i
      (s.blks b).prev)
  else if s.boundaries i = some blk then .ok (s.setBoundary i (s.blks blk).prev)
  else .ok s

def moveBlockToHead : Except FALRUFault (FALRU p) := do
  let updateCachesMask := p.inAllCachesMask ^^^ (s.blks blk).inCachesMask
  let s ← (List.range p.numTrackedCaches).foldlM (boundaryToHead updateCachesMask blk) s
  .ok (s.setMask blk p.inAllCachesMask)

/-- One iteration of `CacheTracking::moveBlockToTail`. -/
def boundaryToTail (updateCachesMask : BitVec 32) (blk : Fin p.numBlocks) (s : FALRU p) (i : Nat) :
    Except FALRUFault (FALRU p) :=
  let currentCacheMask := 1#32 <<< i
  if currentCacheMask &&& updateCachesMask ≠ 0 then do
    let b ← deref (s.boundaries i)
    let next := if (s.blks b).next = some blk then (s.blks blk).next else (s.blks b).next
    let s := s.setBoundary i next
    let b ← deref next
    .ok (s.setMask b ((s.blks b).inCachesMask ||| currentCacheMask))
  else .ok s

def moveBlockToTail : Except FALRUFault (FALRU p) := do
  let updateCachesMask := (s.blks blk).inCachesMask
  let s ← (List.range p.numTrackedCaches).foldlM (boundaryToTail updateCachesMask blk) s
  .ok (s.setMask blk 0)

def recordAccess (blk : Option (Fin p.numBlocks)) : FALRU p :=
  let within (i : Nat) : Bool :=
    match blk with
    | some b => if i < p.numTrackedCaches then (1#32 <<< i) &&& (s.blks b).inCachesMask != 0
        else (s.blks b).valid
    | none => false
  { s with
    hits := fun i => if i ≤ p.numTrackedCaches ∧ within i then s.hits i + 1 else s.hits i
    misses := fun i => if i ≤ p.numTrackedCaches ∧ ¬ within i then s.misses i + 1 else s.misses i
    accesses := s.accesses + 1 }

/-! ### The list -/

/-- The blocks the constructor made, linked in the order of the array. -/
def linkBlks (h : 0 < p.numBlocks) : FALRU p where
  blks b :=
    { prev := if _ : 0 < b.val then some ⟨b.val - 1, by omega⟩ else none
      next := if hb : b.val + 1 < p.numBlocks then some ⟨b.val + 1, hb⟩ else none }
  head := ⟨0, h⟩
  tail := ⟨p.numBlocks - 1, by omega⟩

def tagsInit (h : 0 < p.numBlocks) : FALRU p :=
  (linkBlks h).init

/-- The block leaves its place for the head: the block before it becomes the tail, or its neighbours
are linked. -/
def unlinkToHead : Except FALRUFault (FALRU p) :=
  if blk = s.tail then
    if (s.blks blk).next ≠ none then .error .link
    else do
      let t ← deref (s.blks blk).prev
      .ok { s.setNext t none with tail := t }
  else do
    let before ← deref (s.blks blk).prev
    let s := s.setNext before (s.blks blk).next
    let after ← deref (s.blks blk).next
    .ok (s.setPrev after (s.blks blk).prev)

def linkHead : FALRU p :=
  { ((s.setNext blk (some s.head)).setPrev blk none).setPrev s.head (some blk) with head := blk }

def moveToHead : Except FALRUFault (FALRU p) :=
  if blk = s.head then .ok s
  else do
    let s ← s.moveBlockToHead blk
    let s ← s.unlinkToHead blk
    .ok (s.linkHead blk)

/-- The block leaves its place for the tail: the block after it becomes the head, or its neighbours
are linked. -/
def unlinkToTail : Except FALRUFault (FALRU p) :=
  if blk = s.head then
    if (s.blks blk).prev ≠ none then .error .link
    else do
      let h ← deref (s.blks blk).next
      .ok { s.setPrev h none with head := h }
  else do
    let before ← deref (s.blks blk).prev
    let s := s.setNext before (s.blks blk).next
    let after ← deref (s.blks blk).next
    .ok (s.setPrev after (s.blks blk).prev)

def linkTail : FALRU p :=
  { ((s.setPrev blk (some s.tail)).setNext blk none).setNext s.tail (some blk) with tail := blk }

def moveToTail : Except FALRUFault (FALRU p) :=
  if blk = s.tail then .ok s
  else do
    let s ← s.moveBlockToTail blk
    let s ← s.unlinkToTail blk
    .ok (s.linkTail blk)

/-! ### The tag store -/

def extractTag (p : FALRUParams) (addr : Addr) : Addr :=
  addr &&& ~~~ BitVec.ofNat 64 (p.blkSize - 1)

def key (p : FALRUParams) (addr : Addr) (secure : Bool) : Addr × Bool :=
  (extractTag p addr, secure)

variable (addr : Addr) (secure : Bool)

def findBlock : Except FALRUFault (Option (Fin p.numBlocks)) :=
  match s.tagHash (key p addr secure) with
  | none => .ok none
  | some b =>
    if (s.blks b).valid ∧ s.keyOf b ≠ key p addr secure then .error .tagMismatch
    else .ok (some b)

def accessBlock :
    Except FALRUFault (FALRU p × Option (Fin p.numBlocks)) := do
  let blk ← s.findBlock addr secure
  let s ← match blk with
    | some b => if (s.blks b).valid then s.moveToHead b else .ok s
    | none => .ok s
  .ok (s.recordAccess blk, blk)

def invalidate : Except FALRUFault (FALRU p) :=
  if s.tagHash (s.keyOf blk) = none then .error .numErased
  else if ¬ (s.blks blk).valid then .error .notValid
  else
    ((s.setHash (s.keyOf blk) none).setTag blk false (BitVec.allOnes 64) false).moveToTail blk

def findVictim : Fin p.numBlocks := s.tail

def insertBlock (blk : Fin p.numBlocks) : Except FALRUFault (FALRU p) :=
  if (s.blks blk).inCachesMask ≠ 0 then .error .inCachesMask
  else if (s.blks blk).valid then .error .isValid
  else do
    let s := s.setTag blk true (extractTag p addr) ((s.blks blk).secure || secure)
    let s ← s.moveToHead blk
    .ok (s.setHash (s.keyOf blk) (some blk))

/-- A miss is filled: the victim is invalidated if it is valid and the new block takes its place. -/
def fill : Except FALRUFault (FALRU p) := do
  let victim := s.findVictim
  let s ← if (s.blks victim).valid then s.invalidate victim else .ok s
  s.insertBlock addr secure victim

/-! ### Runs -/

inductive Call (p : FALRUParams)
  | access (addr : Addr) (secure : Bool)
  | fill (addr : Addr) (secure : Bool)
  | invalidate (blk : Fin p.numBlocks)

def step : Call p → Except FALRUFault (FALRU p)
  | .access addr secure => do
    let r ← s.accessBlock addr secure
    .ok r.1
  | .fill addr secure => s.fill addr secure
  | .invalidate blk => s.invalidate blk

/-- Blocks are filled that are not present, and invalidated when they are valid. -/
def Allowed : Call p → Prop
  | .access _ _ => True
  | .fill addr secure => s.tagHash (key p addr secure) = none
  | .invalidate blk => (s.blks blk).valid

instance (s : FALRU p) (c : Call p) : Decidable (s.Allowed c) := by
  cases c <;> dsimp only [Allowed] <;> infer_instance

/-- The tag store with its callers. -/
abbrev system (p : FALRUParams) : System (FALRU p) (Call p) FALRUFault where
  init s := ∃ h, s = tagsInit h
  step := step
  pre := Allowed

/-- An access of a trace: a miss is filled at once. -/
def serve (a : Addr × Bool) : Except FALRUFault (FALRU p) := do
  let r ← s.accessBlock a.1 a.2
  match r.2 with
  | some _ => .ok r.1
  | none => r.1.fill a.1 a.2

end FALRU

end Gem5.Mem
