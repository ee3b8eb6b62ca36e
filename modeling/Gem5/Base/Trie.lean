import Gem5.Lib.System
import Gem5.Lib.BitPrefix

/-!
# Gem5.Base.Trie

The **path-compressed trie** of `base/trie.hh`. The trie is a set of `Node`s in
memory that point at each other: a node names its parent and up to two kids, and
the root `head` is a member of the trie itself. Keys are the unsigned words of
the template's `Key` type, `w` bits wide (`MaxBits`); a node stands for the
prefix of its `key` that its `mask` selects, and carries a value unless it is
there only because two longer prefixes part below it.

The memory is modelled **field by field**: each field of `Node` is a function of
the pointer, and an assignment `p->f = v` changes one function at one pointer.
`new` takes a pointer that was never used before and `delete` takes it out of
use, so that a stale pointer is caught when it is followed. `NULL` is `none`, for
pointers and for values alike. The loops of the source and the recursion of
`remove` run on fuel, `MaxBits + 2` rounds, and running out of it is a fault of
its own: where no call faults, every loop ends by itself.
-/

namespace Gem5.Base

open Lib.BitPrefix

abbrev Handle := Nat

inductive TrieFault
  /-- A deleted node is accessed. -/
  | dangling
  /-- A loop does not end. -/
  | loop
  /-- `assert(!node->value)` in `insert`. -/
  | nodeHasValue
  /-- `panic("Reached the end of the Trie insert function!\n")`. -/
  | endOfInsert
  /-- `assert(node->value)` in `remove`. -/
  | nodeHasNoValue
  /-- `panic("Trie: Can't remove root node.\n")`. -/
  | removesRoot
  /-- `panic("Trie: Inconsistent parent/kid relationship.\n")`. -/
  | inconsistent
  deriving DecidableEq, Repr

/-- The trie: the nodes in memory, field by field, and the next pointer `new`
returns. -/
structure Trie (w : Nat) (V : Type) where
  allocated : Handle → Bool
  key : Handle → BitVec w
  mask : Handle → BitVec w
  value : Handle → Option V
  parent : Handle → Option Handle
  kids : Handle → Bool → Option Handle
  next : Handle

namespace Trie

variable {w : Nat} {V : Type}

/-! ### The memory -/

/-- The root, the one node that `new` does not return. -/
def head : Handle := 0

/-- `Trie::Trie`: a root without key, value or kids. -/
def empty : Trie w V where
  allocated := fun p => p == head
  key := fun _ => 0#w
  mask := fun _ => 0#w
  value := fun _ => none
  parent := fun _ => none
  kids := fun _ _ => none
  next := 1

variable (t : Trie w V) (p : Handle)

/-- The node at `p` is accessed. -/
def access : Except TrieFault Unit :=
  if t.allocated p then .ok () else .error .dangling

def setValue (val : Option V) : Trie w V :=
  { t with value := fun q => if q = p then val else t.value q }

def setParent (parent : Option Handle) : Trie w V :=
  { t with parent := fun q => if q = p then parent else t.parent q }

def setKid (i : Bool) (kid : Option Handle) : Trie w V :=
  { t with kids := fun q j => if q = p ∧ j = i then kid else t.kids q j }

/-- `new Node(key, mask, val)`; the pointer it returns is `t.next`. -/
def new (key mask : BitVec w) (val : Option V) : Trie w V where
  allocated := fun q => if q = t.next then true else t.allocated q
  key := fun q => if q = t.next then key &&& mask else t.key q
  mask := fun q => if q = t.next then mask else t.mask q
  value := fun q => if q = t.next then val else t.value q
  parent := fun q => if q = t.next then none else t.parent q
  kids := fun q i => if q = t.next then none else t.kids q i
  next := t.next + 1

/-- `delete p`. -/
def delete : Trie w V :=
  { t with allocated := fun q => if q = p then false else t.allocated q }

/-! ### Looking up -/

def «matches» (test : BitVec w) (node : Handle) : Bool :=
  test &&& t.mask node == t.key node

/-- `kid && …`: the kid is there and passes the test. -/
def kidPasses (test : Handle → Bool) :
    Option Handle → Except TrieFault Bool
  | none => .ok false
  | some kid => do
    t.access kid
    return test kid

def nextKid (test : Handle → Bool) (node : Handle) :
    Except TrieFault (Option Handle) := do
  if ← t.kidPasses test (t.kids node false) then
    return t.kids node false
  else if ← t.kidPasses test (t.kids node true) then
    return t.kids node true
  else
    return none

/-- The loop of `lookupHandle`. -/
def lookupFrom (t : Trie w V) (key : BitVec w) : Nat → Handle → Except TrieFault (Option Handle)
  | 0, _ => .error .loop
  | fuel + 1, node =>
    if (t.value node).isSome then
      .ok (some node)
    else do
      match ← t.nextKid (t.matches key) node with
      | some kid => lookupFrom t key fuel kid
      | none => return none

variable (key : BitVec w)

def lookupHandle : Except TrieFault (Option Handle) :=
  t.lookupFrom key (w + 2) head

def lookup : Except TrieFault (Option V) := do
  match ← t.lookupHandle key with
  | some node => return t.value node
  | none => return none

/-! ### Inserting -/

/-- `Trie::extendMask`: one more bit towards the least significant one. -/
def extendMask (orig : BitVec w) : BitVec w :=
  orig ||| (orig >>> 1) ||| (1#w <<< (w - 1))

/-- `Trie::goesAfter`: the new node lies beyond the kid. -/
def goesAfter (key newMask : BitVec w) (kid : Handle) : Bool :=
  t.matches key kid && t.mask kid &&& newMask == t.mask kid

def walk (t : Trie w V) (key newMask : BitVec w) : Nat → Handle → Except TrieFault Handle
  | 0, _ => .error .loop
  | fuel + 1, node => do
    match ← t.nextKid (t.goesAfter key newMask) node with
    | some kid => walk t key newMask fuel kid
    | none => return node

/-- Walk down a leg until something does not match or the bits run out: the last
mask under which the key and the kid's key are the same. -/
def legMask (key kidKey newMask : BitVec w) : Nat → BitVec w → Except TrieFault (BitVec w)
  | 0, _ => .error .loop
  | fuel + 1, lastMask =>
    let curMask := extendMask lastMask
    if key &&& curMask ≠ kidKey &&& curMask ∨ lastMask = newMask then
      .ok lastMask
    else
      legMask key kidKey newMask fuel curMask

/-- A new node under `node`, with the value. -/
def addLeaf (key newMask : BitVec w) (val : V) (node : Handle) (i : Bool) : Trie w V :=
  let newNode := t.next
  (((t.new key newMask (some val)).setParent newNode (some node)).setKid node i (some newNode))

/-- A new node between `node` and its kid, without a value. -/
def splitLeg (key curMask : BitVec w) (node : Handle) (i : Bool) (kid : Handle) : Trie w V :=
  let newNode := t.next
  ((((t.new key curMask none).setParent newNode (some node)).setParent kid
    (some newNode)).setKid newNode false (some kid)).setKid node i (some newNode)

/-- One round of the `for` loop of `insert`, over the kid `i` of `node`; `none`
when this is not the right leg to go down. -/
def insertLeg (key newMask : BitVec w) (val : V) (node : Handle) (i : Bool) :
    Except TrieFault (Option (Handle × Trie w V)) :=
  match t.kids node i with
  | none => .ok (some (t.next, t.addLeaf key newMask val node i))
  | some kid => do
    t.access kid
    let curMask ← legMask key (t.key kid) newMask (w + 2) (t.mask node)
    if curMask = t.mask node then
      return none
    else
      let newNode := t.next
      let t := t.splitLeg key curMask node i kid
      if curMask = newMask then
        -- we ran out of bits: the value goes right here
        return some (newNode, t.setValue newNode (some val))
      else
        return some (t.next, t.addLeaf key newMask val newNode true)

/-- The mask `insert` builds for a width. -/
def widthMask (w width : Nat) : BitVec w :=
  if width < w then BitVec.allOnes w <<< (w - width) else BitVec.allOnes w

/-- `Trie::insert`, for a value that is not `NULL`. -/
def insert (width : Nat) (val : V) :
    Except TrieFault (Handle × Trie w V) := do
  let newMask := widthMask w width
  let key := key &&& newMask
  let node ← t.walk key newMask (w + 2) head
  if t.mask node = newMask then
    if (t.value node).isSome then
      .error .nodeHasValue
    else
      return (node, t.setValue node (some val))
  else
    match ← t.insertLeg key newMask val node false with
    | some r => return r
    | none =>
      match ← t.insertLeg key newMask val node true with
      | some r => return r
      | none => .error .endOfInsert

/-! ### Removing -/

def fixParent (parent : Handle) : Option Handle → Except TrieFault (Trie w V)
  | none => .ok t
  | some kid => do
    t.access kid
    return t.setParent kid (some parent)

/-- Figure out which kid `node` is, and update the parent's pointers. -/
def replaceKid (parent node : Handle) (kid : Option Handle) : Except TrieFault (Trie w V) :=
  if t.kids parent false = some node then .ok (t.setKid parent false kid)
  else if t.kids parent true = some node then .ok (t.setKid parent true kid)
  else .error .inconsistent

def fillFirst (parent : Handle) : Trie w V :=
  if (t.kids parent true).isSome && (t.kids parent false).isNone then
    (t.setKid parent false (t.kids parent true)).setKid parent true none
  else t

/-- The parent's pointers after its kid `node` is taken out. -/
def takeOut (node parent : Handle) : Except TrieFault (Trie w V) := do
  t.access parent
  let t ← t.fixParent parent (t.kids node false)
  let t ← t.replaceKid parent node (t.kids node false)
  return t.fillFirst parent

/-- The node has less than two kids and no cargo and isn't the root. -/
def needless : Bool :=
  (t.kids p true).isNone && (t.value p).isNone && (t.parent p).isSome

/-- `Trie::remove(Handle)`, with the value that was stored there. -/
def removeFrom : Nat → Trie w V → Handle → Except TrieFault (Option V × Trie w V)
  | 0, _, _ => .error .loop
  | fuel + 1, t, node => do
    t.access node
    let val := t.value node
    if (t.kids node true).isSome then
      if val.isNone then
        .error .nodeHasNoValue
      else
        return (val, t.setValue node none)
    else
      match t.parent node with
      | none => .error .removesRoot
      | some parent =>
        let t ← t.takeOut node parent
        if t.needless parent then
          let (_, t) ← removeFrom fuel t parent
          return (val, t.delete node)
        else
          return (val, t.delete node)

def remove (handle : Handle) : Except TrieFault (Option V × Trie w V) :=
  removeFrom (w + 2) t handle

def removeKey : Except TrieFault (Option V × Trie w V) := do
  match ← t.lookupHandle key with
  | some handle => t.remove handle
  | none => return (none, t)

end Trie

end Gem5.Base
