import Gem5.Lib.Assign
import Gem5.Lib.BitStrings
import Gem5.Lib.PriorityQueue

/-!
# Gem5.Mem.Cache.Compressors.Huffman

**The Huffman encoder of the compressors** (`src/mem/cache/compressors/encoders/huffman.{hh,cc}`).

The samples are merged into a tree through a priority queue, and the code of a value is the path to
its leaf: a one for the right subtree, a zero for the left one. The paths are prefix-free
(`HuffmanNode.paths_isPrefix`), so codes with their lengths are too.

`decode` gets the code without its length. Paths that differ only in zeros at the start are then the
same number, and the tree can have such leaves (`sampled_not_round_trip`). It has none when no left
subtree is deeper than the right one beside it, and that is so when each frequency is less than the
sum of any two others (`Huffman.Balanced.merge`): the trees in the queue then differ by one level.
Otherwise three of the samples are enough for the encoder to fail (`Huffman.not_roundTrips`).
-/

namespace Gem5.Mem.Compressors

open Gem5.Lib List

/-! ### The encoder -/

inductive HuffmanNode
  | leaf (value frequency : Nat)
  | node (frequency : Nat) (left right : HuffmanNode)
  deriving Repr, DecidableEq

namespace HuffmanNode

/-- `getFrequency`. -/
def frequency : HuffmanNode → Nat
  | leaf _ f => f
  | node f _ _ => f

/-- `Node(left, right)`: the frequencies are added in 64 bits. -/
def merge (left right : HuffmanNode) : HuffmanNode :=
  node ((left.frequency + right.frequency) % 2 ^ 64) left right

end HuffmanNode

structure Code where
  code : Nat := 0
  length : Nat := 0
  deriving Repr, DecidableEq

/-- `valueToCode` and `codeToValue`. -/
structure CodeMaps where
  valueToCode : Nat → Option Code := fun _ => none
  codeToValue : Nat → Option Nat := fun _ => none

def CodeMaps.insert (m : CodeMaps) (value : Nat) (code : Code) : CodeMaps where
  valueToCode := Function.update m.valueToCode value (some code)
  codeToValue := Function.update m.codeToValue code.code (some value)

/-- `Huffman`. `trees` is a `std::priority_queue`, which may break ties as it likes. -/
structure Huffman where
  maxCodeLength : Nat
  /-- "Code length cannot surpass its underlying container" -/
  maxCodeLength_le : maxCodeLength ≤ 64
  trees : List HuffmanNode := []
  maps : CodeMaps := {}

/-- The queue of the trees gives the least frequency first. -/
abbrev TreeQueue := PriorityQueue HuffmanNode HuffmanNode.frequency

namespace Huffman

variable (q : TreeQueue) (h : Huffman)

def sample (value frequency : Nat) : Huffman :=
  if frequency ≠ 0 then { h with trees := q.push (.leaf value frequency) h.trees } else h

def sampleAll (samples : List (Nat × Nat)) : Huffman :=
  samples.foldl (fun h s => h.sample q s.1 s.2) h

/-- The loop of `buildTree`, which merges two trees each time round. -/
def mergeTrees : Nat → List HuffmanNode → List HuffmanNode
  | 0, trees => trees
  | n + 1, trees =>
    if trees.length > 1 then
      match q.pop trees with
      | none => trees
      | some (left, trees) =>
        match q.pop trees with
        | none => trees
        | some (right, trees) => mergeTrees n (q.push (left.merge right) trees)
    else trees

/-- `Huffman::buildTree`. There is no tree without samples. -/
def buildTree (trees : List HuffmanNode) : Option (HuffmanNode × List HuffmanNode) :=
  q.pop (mergeTrees q trees.length trees)

def generateCodes (maxCodeLength : Nat) : HuffmanNode → Code → CodeMaps → CodeMaps
  | .leaf value _, current, m =>
    if current.length > maxCodeLength then m else m.insert value current
  | .node _ left right, current, m =>
    if current.length > maxCodeLength then m
    else
      let rightCode : Code := ⟨((current.code <<< 1) % 2 ^ 64 + 1) % 2 ^ 64, current.length + 1⟩
      let leftCode : Code := ⟨(current.code <<< 1) % 2 ^ 64, current.length + 1⟩
      generateCodes maxCodeLength left leftCode (generateCodes maxCodeLength right rightCode m)

def generateCodeMaps : Option Huffman :=
  (buildTree q h.trees).map fun r =>
    { h with trees := r.2, maps := generateCodes h.maxCodeLength r.1 {} {} }

def encode (value : Nat) : Code := (h.maps.valueToCode value).getD ⟨0, 65⟩

def decode (code : Nat) : Option Nat := h.maps.codeToValue code

end Huffman

/-! ### Paths to leaves -/

namespace HuffmanNode

/-- The leaves in the order in which `generateCodes` visits them, with their paths. -/
def leaves : HuffmanNode → List (List Bool × Nat)
  | leaf value _ => [([], value)]
  | node _ left right =>
    right.leaves.map (fun e => (true :: e.1, e.2)) ++ left.leaves.map fun e => (false :: e.1, e.2)

def values (t : HuffmanNode) : List Nat := t.leaves.map (·.2)

theorem values_node (f : Nat) (l r : HuffmanNode) : (node f l r).values = r.values ++ l.values := by
  simp [values, leaves, Function.comp_def]

theorem paths_isPrefix (t : HuffmanNode) : ∀ e ∈ t.leaves, ∀ e' ∈ t.leaves, e.1 <+: e'.1 → e = e' := by
  induction t with
  | leaf value f => simp [leaves]
  | node f left right ihl ihr =>
    intro e he e' he' hp
    rcases mem_append.mp he with he | he <;> obtain ⟨d, hd, rfl⟩ := mem_map.mp he <;>
      rcases mem_append.mp he' with he' | he' <;> obtain ⟨d', hd', rfl⟩ := mem_map.mp he'
    · rw [ihr d hd d' hd' (by simpa using hp)]
    · simp at hp
    · simp at hp
    · rw [ihl d hd d' hd' (by simpa using hp)]

theorem path_unique {t : HuffmanNode} (ht : t.values.Nodup) {p p' : List Bool} {v : Nat}
    (h : (p, v) ∈ t.leaves) (h' : (p', v) ∈ t.leaves) : p = p' :=
  congrArg Prod.fst (inj_on_of_nodup_map ht h h' rfl)

/-- **No leaf is reached by the path of another with more or fewer left turns at the start**, among
those that are not too deep for a code. -/
def Apart (maxCodeLength : Nat) (t : HuffmanNode) : Prop :=
  ∀ e ∈ t.leaves, ∀ e' ∈ t.leaves, e.1.length ≤ maxCodeLength → e'.1.length ≤ maxCodeLength →
    e.1.dropWhile (!·) = e'.1.dropWhile (!·) → e = e'

def minDepth : HuffmanNode → Nat
  | leaf .. => 0
  | node _ left right => min left.minDepth right.minDepth + 1

def maxDepth : HuffmanNode → Nat
  | leaf .. => 0
  | node _ left right => max left.maxDepth right.maxDepth + 1

def LeftShallow : HuffmanNode → Prop
  | leaf .. => True
  | node _ left right => left.maxDepth ≤ right.minDepth ∧ left.LeftShallow ∧ right.LeftShallow

theorem depth_of_mem {t : HuffmanNode} {e : List Bool × Nat} (he : e ∈ t.leaves) :
    t.minDepth ≤ e.1.length ∧ e.1.length ≤ t.maxDepth := by
  induction t generalizing e with
  | leaf value f =>
    obtain rfl := mem_singleton.mp he
    exact ⟨le_rfl, le_rfl⟩
  | node f left right ihl ihr =>
    rw [minDepth, maxDepth]
    rcases mem_append.mp he with he | he <;> obtain ⟨d, hd, rfl⟩ := mem_map.mp he
    · have := ihr hd
      simp only [length_cons]
      omega
    · have := ihl hd
      simp only [length_cons]
      omega

theorem minDepth_le_maxDepth (t : HuffmanNode) : t.minDepth ≤ t.maxDepth := by
  induction t with
  | leaf value f => exact le_rfl
  | node f left right ihl ihr =>
    rw [minDepth, maxDepth]
    omega

/-- **The leaves are then apart**: a path to the left that is one to the right after its left turns
would be the longer one. -/
theorem LeftShallow.apart {t : HuffmanNode} (h : t.LeftShallow) (maxCodeLength : Nat) :
    t.Apart maxCodeLength := by
  suffices hs : ∀ e ∈ t.leaves, ∀ e' ∈ t.leaves, e.1.dropWhile (!·) = e'.1.dropWhile (!·) → e = e' from
    fun e he e' he' _ _ => hs e he e' he'
  induction t with
  | leaf value f => simp [leaves]
  | node f left right ihl ihr =>
    obtain ⟨hle, hl, hr⟩ := h
    -- A path to the right has all its bits: one to the left must be longer to agree with it.
    have hlr : ∀ d ∈ left.leaves, ∀ d' ∈ right.leaves,
        (false :: d.1).dropWhile (!·) ≠ (true :: d'.1).dropWhile (!·) := by
      intro d hd d' hd' heq
      have hlen := (dropWhile_sublist (!·) (l := d.1)).length_le
      rw [show d.1.dropWhile (!·) = true :: d'.1 from heq, length_cons] at hlen
      have := (depth_of_mem hd).2
      have := (depth_of_mem hd').1
      omega
    intro e he e' he' heq
    rcases mem_append.mp he with he | he <;> obtain ⟨d, hd, rfl⟩ := mem_map.mp he <;>
      rcases mem_append.mp he' with he' | he' <;> obtain ⟨d', hd', rfl⟩ := mem_map.mp he'
    · obtain rfl := right.paths_isPrefix d hd d' hd' (by
        rw [(cons.inj heq).2])
      rfl
    · exact absurd heq.symm (hlr d' hd' d hd)
    · exact absurd heq (hlr d hd d' hd')
    · obtain rfl := ihl hl d hd d' hd' heq
      rfl

/-- Codes of one bit are told apart without their lengths. -/
theorem apart_of_short {maxCodeLength : Nat} (t : HuffmanNode) (h : maxCodeLength ≤ 1) :
    t.Apart maxCodeLength := by
  have hshort : ∀ {p : List Bool}, p.length ≤ maxCodeLength → p = [] ∨ ∃ b, p = [b] := fun hp =>
    (Nat.le_one_iff_eq_zero_or_eq_one.mp (hp.trans h)).imp length_eq_zero_iff.mp length_eq_one_iff.mp
  intro e he e' he' hl hl' heq
  have hp : e.1 <+: e'.1 ∨ e'.1 <+: e.1 := by
    obtain hp | ⟨b, hp⟩ := hshort hl
    · exact .inl (hp ▸ nil_prefix)
    obtain hp' | ⟨b', hp'⟩ := hshort hl'
    · exact .inr (hp' ▸ nil_prefix)
    · rw [hp, hp'] at heq ⊢
      cases b <;> cases b' <;> simp_all
  obtain hp | hp := hp
  · exact t.paths_isPrefix e he e' he' hp
  · exact (t.paths_isPrefix e' he' e he hp).symm

end HuffmanNode

/-! ### What `generateCodes` stores -/

def Code.ofPath (p : List Bool) : Code := ⟨bitsToNat p, p.length⟩

def CodeMaps.addLeaf (maxCodeLength : Nat) (p : List Bool) (m : CodeMaps) (e : List Bool × Nat) :
    CodeMaps :=
  if (p ++ e.1).length > maxCodeLength then m else m.insert e.2 (Code.ofPath (p ++ e.1))

variable {maxCodeLength : Nat} {t : HuffmanNode} {m : CodeMaps} {p : List Bool}

theorem foldl_addLeaf_of_long {l : List (List Bool × Nat)} (h : maxCodeLength < p.length) :
    l.foldl (CodeMaps.addLeaf maxCodeLength p) m = m := by
  induction l with
  | nil => rfl
  | cons e l ih =>
    have hlo : (p ++ e.1).length > maxCodeLength := by
      rw [length_append]
      omega
    rw [foldl_cons, CodeMaps.addLeaf, if_pos hlo, ih]

theorem addLeaf_cons (b : Bool) (e : List Bool × Nat) :
    CodeMaps.addLeaf maxCodeLength p m (b :: e.1, e.2) =
      CodeMaps.addLeaf maxCodeLength (p ++ [b]) m e := by
  rw [CodeMaps.addLeaf, CodeMaps.addLeaf, append_assoc]
  rfl

namespace Huffman

theorem generateCodes_of_long {current : Code} (h : maxCodeLength < current.length) :
    generateCodes maxCodeLength t current m = m := by
  cases t <;> rw [generateCodes, if_pos h]

section

variable (hmax : maxCodeLength ≤ 64)
include hmax

theorem bitsToNat_concat_lt (hp : (p ++ [true]).length ≤ maxCodeLength) :
    2 * bitsToNat p + 1 < 2 ^ 64 := by
  have hlt := bitsToNat_lt (p ++ [true])
  have hpow := Nat.pow_le_pow_right Nat.two_pos (hp.trans hmax)
  rw [bitsToNat_concat] at hlt
  omega

theorem generateCodes_child {b : Bool} (code : Nat)
    (ih : ∀ p m, generateCodes maxCodeLength t (Code.ofPath p) m =
      t.leaves.foldl (CodeMaps.addLeaf maxCodeLength p) m)
    (hco : 2 * bitsToNat p + 1 < 2 ^ 64 → code = bitsToNat (p ++ [b])) :
    generateCodes maxCodeLength t ⟨code, p.length + 1⟩ m =
      (t.leaves.map fun e => (b :: e.1, e.2)).foldl (CodeMaps.addLeaf maxCodeLength p) m := by
  simp only [foldl_map, addLeaf_cons]
  by_cases hl : p.length + 1 > maxCodeLength
  · rw [generateCodes_of_long hl]
    exact (foldl_addLeaf_of_long (by simpa using hl)).symm
  · rw [hco (bitsToNat_concat_lt hmax (by simpa using hl))]
    have := ih (p ++ [b]) m
    rwa [Code.ofPath, length_append] at this

/-- **`generateCodes` gives each leaf the code of its path.** -/
theorem generateCodes_eq (t : HuffmanNode) (p : List Bool) (m : CodeMaps) :
    generateCodes maxCodeLength t (Code.ofPath p) m =
      t.leaves.foldl (CodeMaps.addLeaf maxCodeLength p) m := by
  induction t generalizing p m with
  | leaf value f => simp [generateCodes, HuffmanNode.leaves, CodeMaps.addLeaf, Code.ofPath]
  | node f left right ihl ihr =>
    by_cases hp : p.length > maxCodeLength
    · rw [generateCodes_of_long hp, foldl_addLeaf_of_long hp]
    have hshi : (Code.ofPath p).code <<< 1 = 2 * bitsToNat p := by
      rw [Nat.shiftLeft_eq, Code.ofPath, Nat.mul_comm]
    rw [generateCodes, if_neg (show ¬(Code.ofPath p).length > maxCodeLength from hp)]
    dsimp only [HuffmanNode.leaves]
    rw [foldl_append]
    rw [← generateCodes_child hmax ((2 * bitsToNat p % 2 ^ 64 + 1) % 2 ^ 64) ihr]
    · refine generateCodes_child hmax _ ihl fun hlt => ?_
      rw [bitsToNat_concat, Bool.toNat_false]
      omega
    · intro hlt
      rw [bitsToNat_concat, Bool.toNat_true]
      omega

end

end Huffman

def HuffmanNode.coded (maxCodeLength : Nat) (t : HuffmanNode) : List (List Bool × Nat) :=
  t.leaves.filter fun e => e.1.length ≤ maxCodeLength

theorem HuffmanNode.mem_coded {e : List Bool × Nat} :
    e ∈ t.coded maxCodeLength ↔ e ∈ t.leaves ∧ e.1.length ≤ maxCodeLength := by
  simp [coded]

theorem foldl_addLeaf (l : List (List Bool × Nat)) (m : CodeMaps) :
    l.foldl (CodeMaps.addLeaf maxCodeLength []) m =
      ⟨assignAll ((l.filter fun e => e.1.length ≤ maxCodeLength).map
          fun e => (e.2, Code.ofPath e.1)) m.valueToCode,
        assignAll ((l.filter fun e => e.1.length ≤ maxCodeLength).map
          fun e => (bitsToNat e.1, e.2)) m.codeToValue⟩ := by
  induction l generalizing m with
  | nil => rfl
  | cons e l ih =>
    rw [foldl_cons, ih, filter_cons]
    by_cases hl : e.1.length ≤ maxCodeLength
    · rw [if_pos (by simpa using hl), CodeMaps.addLeaf, if_neg (by simpa using hl)]
      rfl
    · rw [if_neg (by simpa using hl), CodeMaps.addLeaf, if_pos (by simpa using hl)]

namespace Huffman

open HuffmanNode (frequency leaf leaves mem_coded path_unique)

def codesOf (maxCodeLength : Nat) (t : HuffmanNode) : CodeMaps := generateCodes maxCodeLength t {} {}

theorem codesOf_eq (hmax : maxCodeLength ≤ 64) : codesOf maxCodeLength t =
    ⟨assignAll ((t.coded maxCodeLength).map fun e => (e.2, Code.ofPath e.1)) fun _ => none,
      assignAll ((t.coded maxCodeLength).map fun e => (bitsToNat e.1, e.2)) fun _ => none⟩ :=
  (generateCodes_eq hmax t [] {}).trans (foldl_addLeaf t.leaves {})

variable {v : Nat}

section

variable (hmax : maxCodeLength ≤ 64)
include hmax

theorem valueToCode_eq_some (ht : t.values.Nodup) {c : Code} :
    (codesOf maxCodeLength t).valueToCode v = some c ↔
      ∃ p, (p, v) ∈ t.coded maxCodeLength ∧ c = Code.ofPath p := by
  have hm : ∀ {c}, (codesOf maxCodeLength t).valueToCode v = some c →
      ∃ p, (p, v) ∈ t.coded maxCodeLength ∧ c = Code.ofPath p := by
    intro c h
    rw [codesOf_eq hmax] at h
    rcases mem_of_assignAll h with h | h
    · obtain ⟨⟨p, w⟩, hp, heq⟩ := mem_map.mp h
      cases heq
      exact ⟨p, hp, rfl⟩
    · cases h
  refine ⟨hm, ?_⟩
  rintro ⟨p, hp, rfl⟩
  obtain ⟨c, hc⟩ : ∃ c, (codesOf maxCodeLength t).valueToCode v = some c := by
    rw [codesOf_eq hmax]
    exact exists_assignAll (mem_map.mpr ⟨(p, v), hp, rfl⟩)
  obtain ⟨p', hp', rfl⟩ := hm hc
  rw [hc, path_unique ht (mem_coded.mp hp').1 (mem_coded.mp hp).1]

/-- **Codes with their lengths are prefix-free**: the first bits of a code are not another code. -/
theorem codesOf_prefixFree (ht : t.values.Nodup) {w : Nat} {c d : Code}
    (hv : (codesOf maxCodeLength t).valueToCode v = some c)
    (hw : (codesOf maxCodeLength t).valueToCode w = some d) (hn : v ≠ w) :
    ¬(c.length ≤ d.length ∧ d.code >>> (d.length - c.length) = c.code) := by
  obtain ⟨p, hp, rfl⟩ := (valueToCode_eq_some hmax ht).mp hv
  obtain ⟨p', hp', rfl⟩ := (valueToCode_eq_some hmax ht).mp hw
  intro hpr
  have hsa := t.paths_isPrefix _ (mem_coded.mp hp).1 _ (mem_coded.mp hp').1 (isPrefix_iff.mpr hpr)
  exact hn (congrArg Prod.snd hsa)

/-- **Codes without their lengths are read back exactly when the leaves are apart.** -/
theorem codesOf_round_trip (ht : t.values.Nodup) :
    (∀ v c, (codesOf maxCodeLength t).valueToCode v = some c →
      (codesOf maxCodeLength t).codeToValue c.code = some v) ↔ t.Apart maxCodeLength := by
  have hrd : (∀ v c, (codesOf maxCodeLength t).valueToCode v = some c →
      (codesOf maxCodeLength t).codeToValue c.code = some v) ↔
      ∀ e ∈ (t.coded maxCodeLength).map fun e => (bitsToNat e.1, e.2),
        (codesOf maxCodeLength t).codeToValue e.1 = some e.2 := by
    simp only [valueToCode_eq_some hmax ht, forall_mem_map]
    constructor
    · rintro h ⟨p, v⟩ hp
      exact h v _ ⟨p, hp, rfl⟩
    · rintro h v c ⟨p, hp, rfl⟩
      exact h (p, v) hp
  rw [hrd, codesOf_eq hmax, assignAll_eq_iff]
  simp only [forall_mem_map, bitsToNat_eq_iff]
  constructor
  · rintro h ⟨p, v⟩ hp ⟨p', v'⟩ hp' hl hl' hs
    obtain rfl : v = v' := h _ (mem_coded.mpr ⟨hp, hl⟩) _ (mem_coded.mpr ⟨hp', hl'⟩) hs
    rw [path_unique ht hp hp']
  · intro h e he e' he' hs
    obtain ⟨hp, hl⟩ := mem_coded.mp he
    obtain ⟨hp', hl'⟩ := mem_coded.mp he'
    rw [h e hp e' hp' hl hl' hs]

end

/-! ### The tree of the samples -/

def valuesOf (trees : List HuffmanNode) : List Nat := trees.flatMap HuffmanNode.values

variable {q : TreeQueue} {trees : List HuffmanNode}

theorem valuesOf_merge (left right : HuffmanNode) (rest : List HuffmanNode) :
    (valuesOf (left.merge right :: rest)).Perm (valuesOf (left :: right :: rest)) := by
  simp only [valuesOf, flatMap_cons, HuffmanNode.merge, HuffmanNode.values_node, ← append_assoc]
  exact perm_append_comm.append_right _

/-- **The loop ends with one tree**, which has what every merge of the two least frequent trees
keeps. -/
theorem mergeTrees_induct {I : List HuffmanNode → Prop} (hperm : ∀ l l', l.Perm l' → I l → I l')
    (hmerge : ∀ a b rest, (∀ t ∈ b :: rest, a.frequency ≤ t.frequency) →
      (∀ t ∈ rest, b.frequency ≤ t.frequency) → I (a :: b :: rest) → I (a.merge b :: rest))
    (n : Nat) (hne : trees ≠ []) (hn : trees.length ≤ n + 1) (h : I trees) :
    ∃ t, mergeTrees q n trees = [t] ∧ I [t] := by
  have hlast : ∀ l : List HuffmanNode, l ≠ [] → l.length ≤ 1 → I l → ∃ t, l = [t] ∧ I [t] := by
    intro l hl hle hi
    obtain ⟨t, rfl⟩ := length_eq_one_iff.mp (le_antisymm hle (length_pos_iff.mpr hl))
    exact ⟨t, rfl, hi⟩
  induction n generalizing trees with
  | zero => exact hlast trees hne (by omega) h
  | succ n ih =>
    rw [mergeTrees]
    split
    · rename_i hlo
      obtain ⟨left, rest, hpo, hp⟩ := q.exists_pop hne
      have hr : rest ≠ [] := by
        rintro rfl
        simp [hp.length_eq] at hlo
      obtain ⟨right, rest', hpo', hp'⟩ := q.exists_pop hr
      rw [hpo]
      dsimp only
      rw [hpo']
      -- What remains to merge: the new tree and the rest of the queue.
      have hal : trees.Perm (left :: right :: rest') := hp.trans (hp'.cons left)
      have hpu := q.push_perm (left.merge right) rest'
      have hle := hal.length_eq
      refine ih (fun h => by simp [h] at hpu) (by simp [hpu.length_eq] at hle ⊢; omega) ?_
      refine hperm _ _ hpu.symm (hmerge _ _ _ (fun t ht => ?_) (q.pop_le _ _ _ hpo')
        (hperm _ _ hal h))
      exact q.pop_le _ _ _ hpo t (hp'.mem_iff.mpr ht)
    · exact hlast trees hne (by omega) h

/-! ### Balanced queues -/

/-- **The trees of the queue are about equally frequent and equally deep**: a less frequent tree is
not deeper, no tree is deeper than another by more than one level, and none is more frequent than two
others together. -/
structure Balanced (trees : List HuffmanNode) : Prop where
  values : (valuesOf trees).Nodup
  sum : (trees.map frequency).sum < 2 ^ 64
  pos : ∀ t ∈ trees, 0 < t.frequency
  shallow : ∀ t ∈ trees, t.LeftShallow
  deeper : ∀ t ∈ trees, ∀ t' ∈ trees, t ≠ t' → t.frequency ≤ t'.frequency → t.maxDepth ≤ t'.minDepth
  level : ∀ t ∈ trees, ∀ t' ∈ trees, t.maxDepth ≤ t'.minDepth + 1
  light : ∀ t ∈ trees, ∀ a ∈ trees, ∀ b ∈ trees, a ≠ b → t ≠ a → t ≠ b →
    t.frequency ≤ a.frequency + b.frequency ∧
      (t.minDepth ≤ b.maxDepth → t.frequency < a.frequency + b.frequency)

theorem nodup_of_valuesOf (h : (valuesOf trees).Nodup) : trees.Nodup := by
  have hne : ∀ t : HuffmanNode, t.values ≠ [] := by
    intro t
    induction t with
    | leaf value f => simp [HuffmanNode.values, leaves]
    | node f left right ihl ihr => simp [HuffmanNode.values_node, ihl]
  refine (nodup_flatMap.mp h).2.imp fun {a b} hd hab => ?_
  subst hab
  obtain ⟨v, hv⟩ := exists_mem_of_ne_nil _ (hne a)
  exact hd hv hv

namespace Balanced

theorem perm {trees' : List HuffmanNode} (hp : trees.Perm trees') (h : Balanced trees) :
    Balanced trees' where
  values := (hp.flatMap_right _).nodup_iff.mp h.values
  sum := (hp.map frequency).sum_eq ▸ h.sum
  pos t ht := h.pos t (hp.mem_iff.mpr ht)
  shallow t ht := h.shallow t (hp.mem_iff.mpr ht)
  deeper t ht t' ht' := h.deeper t (hp.mem_iff.mpr ht) t' (hp.mem_iff.mpr ht')
  level t ht t' ht' := h.level t (hp.mem_iff.mpr ht) t' (hp.mem_iff.mpr ht')
  light t ht a ha b hb := h.light t (hp.mem_iff.mpr ht) a (hp.mem_iff.mpr ha) b (hp.mem_iff.mpr hb)

/-- **A merge of the two least frequent trees keeps the balance.** -/
theorem merge {a b : HuffmanNode} {rest : List HuffmanNode} (h : Balanced (a :: b :: rest))
    (ha : ∀ t ∈ b :: rest, a.frequency ≤ t.frequency) (hb : ∀ t ∈ rest, b.frequency ≤ t.frequency) :
    Balanced (a.merge b :: rest) := by
  have hma : a ∈ a :: b :: rest := mem_cons_self
  have hmb : b ∈ a :: b :: rest := mem_cons_of_mem _ mem_cons_self
  have hmr : ∀ t ∈ rest, t ∈ a :: b :: rest := fun t ht => mem_cons_of_mem _ (mem_cons_of_mem _ ht)
  obtain ⟨hna, hnb⟩ := nodup_cons.mp (nodup_of_valuesOf h.values)
  have hab : a ≠ b := fun heq => hna (heq ▸ mem_cons_self)
  have hsum := h.sum
  simp only [map_cons, sum_cons] at hsum
  have hf : (a.merge b).frequency = a.frequency + b.frequency := Nat.mod_eq_of_lt (by omega)
  have hfa := ha b mem_cons_self
  have hd := h.deeper a hma b hmb hab hfa
  have hmin : (a.merge b).minDepth = min a.minDepth b.minDepth + 1 := rfl
  have hmax : (a.merge b).maxDepth = max a.maxDepth b.maxDepth + 1 := rfl
  have hba := a.minDepth_le_maxDepth
  have hbb := b.minDepth_le_maxDepth
  have hbl := h.level b hmb a hma
  have hpa := h.pos a hma
  have hpb := h.pos b hmb
  -- How another tree compares with the two.
  have hr : ∀ t ∈ rest, t ≠ a ∧ b.frequency ≤ t.frequency ∧ b.maxDepth ≤ t.minDepth ∧
      t.maxDepth ≤ a.minDepth + 1 ∧ t.frequency ≤ a.frequency + b.frequency ∧
      (t.minDepth ≤ b.maxDepth → t.frequency < a.frequency + b.frequency) := by
    intro t ht
    have hta : t ≠ a := fun heq => hna (heq ▸ mem_cons_of_mem _ ht)
    have htb : t ≠ b := fun heq => (nodup_cons.mp hnb).1 (heq ▸ ht)
    obtain ⟨hl, hl'⟩ := h.light t (hmr t ht) a hma b hmb hab hta htb
    exact ⟨hta, hb t ht, h.deeper b hmb t (hmr t ht) htb.symm (hb t ht),
      h.level t (hmr t ht) a hma, hl, hl'⟩
  refine ⟨?_, ?_, ?_, ?_, ?_, ?_, ?_⟩
  · exact (valuesOf_merge a b rest).nodup_iff.mpr h.values
  · simp only [map_cons, sum_cons, hf]
    omega
  · rintro t (_ | ⟨_, ht⟩)
    · omega
    · exact h.pos t (hmr t ht)
  · rintro t (_ | ⟨_, ht⟩)
    · exact ⟨hd, h.shallow a hma, h.shallow b hmb⟩
    · exact h.shallow t (hmr t ht)
  · rintro t (_ | ⟨_, ht⟩) t' (_ | ⟨_, ht'⟩) hn hle
    · exact absurd rfl hn
    · have := hr t' ht'
      omega
    · have := hr t ht
      omega
    · exact h.deeper t (hmr t ht) t' (hmr t' ht') hn hle
  · rintro t (_ | ⟨_, ht⟩) t' (_ | ⟨_, ht'⟩)
    · omega
    · have := hr t' ht'
      omega
    · have := hr t ht
      omega
    · exact h.level t (hmr t ht) t' (hmr t' ht')
  · rintro t (_ | ⟨_, ht⟩) u (_ | ⟨_, hu⟩) v (_ | ⟨_, hv⟩) huv htu htv
    all_goals first | exact absurd rfl huv | exact absurd rfl htu | exact absurd rfl htv | skip
    · -- The new tree and two others: with equal frequencies none of them is deeper.
      have hru := hr u hu
      have hrv := hr v hv
      refine ⟨by omega, fun hdp => ?_⟩
      by_contra hlt
      have := h.deeper v (hmr v hv) a hma hrv.1 (by omega)
      omega
    · have := hr t ht
      have := hr v hv
      omega
    · have := hr t ht
      have := hr u hu
      omega
    · exact h.light t (hmr t ht) u (hmr u hu) v (hmr v hv) huv htu htv

end Balanced

/-- **`buildTree` returns a tree with the values of the queue**, and empties the queue. From a balanced
queue no left subtree is deeper than the right one. -/
theorem buildTree_spec (hn : trees ≠ []) :
    ∃ t, buildTree q trees = some (t, []) ∧ t.values.Perm (valuesOf trees) ∧
      (Balanced trees → t.LeftShallow) := by
  obtain ⟨root, hr, hv, hb⟩ := mergeTrees_induct (q := q)
    (I := fun l => (valuesOf l).Perm (valuesOf trees) ∧ (Balanced trees → Balanced l))
    (fun l l' hp h => ⟨(hp.flatMap_right _).symm.trans h.1, fun hb => (h.2 hb).perm hp⟩)
    (fun a b rest ha hb h => ⟨(valuesOf_merge a b rest).trans h.1, fun hbt => (h.2 hbt).merge ha hb⟩)
    trees.length hn (Nat.le_succ _) ⟨.refl _, id⟩
  obtain ⟨t, rest, hpo, hpe⟩ := q.exists_pop (cons_ne_nil _ _)
  obtain ⟨rfl, rfl⟩ : t = root ∧ rest = [] := by
    have h := perm_singleton.mp hpe.symm
    simpa using h
  refine ⟨t, by rw [buildTree, hr, hpo], by simpa [valuesOf] using hv, fun h => ?_⟩
  exact (hb h).shallow t mem_cons_self

def occurring (samples : List (Nat × Nat)) : List (Nat × Nat) := samples.filter (·.2 ≠ 0)

theorem trees_sampleAll (samples : List (Nat × Nat)) (h : Huffman) :
    (h.sampleAll q samples).trees.Perm
      ((occurring samples).map (fun s => .leaf s.1 s.2) ++ h.trees) := by
  induction samples generalizing h with
  | nil => exact .refl _
  | cons s samples ih =>
    refine (ih (h.sample q s.1 s.2)).trans ?_
    by_cases hs : s.2 = 0
    · simp [sample, occurring, hs]
    · have hoc : occurring (s :: samples) = s :: occurring samples :=
        filter_cons_of_pos (by simpa using hs)
      rw [sample, if_pos hs, hoc]
      exact ((q.push_perm _ _).append_left _).trans perm_middle

/-- **The frequencies are close to each other**: each of them is less than the sum of any two
others. -/
def Close (samples : List (Nat × Nat)) : Prop :=
  ∀ s ∈ occurring samples, ∀ a ∈ occurring samples, ∀ b ∈ occurring samples,
    a ≠ b → s ≠ a → s ≠ b → s.2 < a.2 + b.2

instance (samples : List (Nat × Nat)) : Decidable (Close samples) :=
  inferInstanceAs (Decidable (∀ _ ∈ _, _))

theorem Close.subperm {part samples : List (Nat × Nat)} (h : Close samples) (hp : part <+~ samples) :
    Close part := by
  have hoc : occurring part ⊆ occurring samples := (hp.filter _).subset
  exact fun s hs a ha b hb => h s (hoc hs) a (hoc ha) b (hoc hb)

theorem valuesOf_leaves (samples : List (Nat × Nat)) :
    valuesOf (samples.map fun s => .leaf s.1 s.2) = samples.map (·.1) := by
  rw [valuesOf, flatMap_map, map_eq_flatMap]
  rfl

theorem Close.balanced {samples : List (Nat × Nat)} (h : Close samples)
    (hv : (samples.map (·.1)).Nodup) (hsum : (samples.map (·.2)).sum < 2 ^ 64) :
    Balanced ((occurring samples).map fun s => .leaf s.1 s.2) where
  values := by
    rw [valuesOf_leaves]
    exact (filter_sublist.map _).nodup hv
  sum := by
    rw [map_map]
    exact ((filter_sublist.map _).sum_le_sum (by simp)).trans_lt hsum
  pos := forall_mem_map.mpr fun s hs => Nat.pos_of_ne_zero (of_decide_eq_true (mem_filter.mp hs).2)
  shallow := forall_mem_map.mpr fun _ _ => trivial
  deeper := forall_mem_map.mpr fun _ _ => forall_mem_map.mpr fun _ _ _ _ => le_rfl
  level := forall_mem_map.mpr fun _ _ => forall_mem_map.mpr fun _ _ => Nat.zero_le _
  light := by
    simp only [forall_mem_map]
    intro s hs a ha b hb hab hsa hsb
    have hlt := h s hs a ha b hb (fun heq => hab (heq ▸ rfl)) (fun heq => hsa (heq ▸ rfl))
      fun heq => hsb (heq ▸ rfl)
    exact ⟨hlt.le, fun _ => hlt⟩

@[simp] theorem maxCodeLength_sampleAll (samples : List (Nat × Nat)) (h : Huffman) :
    (h.sampleAll q samples).maxCodeLength = h.maxCodeLength := by
  induction samples generalizing h with
  | nil => rfl
  | cons s samples ih =>
    refine (ih (h.sample q s.1 s.2)).trans ?_
    unfold sample
    split <;> rfl

theorem encode_length_le {h : Huffman} (hma : h.maps = codesOf maxCodeLength t)
    (hmax : maxCodeLength ≤ 64) (ht : t.values.Nodup) :
    (h.encode v).length ≤ maxCodeLength ↔ h.maps.valueToCode v = some (h.encode v) := by
  cases hc : h.maps.valueToCode v with
  | none =>
    rw [encode, hc]
    exact ⟨fun hl => absurd (hl.trans hmax) (by decide), fun hso => (by cases hso)⟩
  | some c =>
    rw [encode, hc]
    rw [hma] at hc
    obtain ⟨p, hp, rfl⟩ := (valueToCode_eq_some hmax ht).mp hc
    exact ⟨fun _ => rfl, fun _ => (mem_coded.mp hp).2⟩

def new (maxCodeLength : Nat) (hmax : maxCodeLength ≤ 64) : Huffman := ⟨maxCodeLength, hmax, [], {}⟩

/-- Every value that has a code is decoded from it. -/
def RoundTrips (q : TreeQueue) (hmax : maxCodeLength ≤ 64) (samples : List (Nat × Nat)) : Prop :=
  ∃ h, ((new maxCodeLength hmax).sampleAll q samples).generateCodeMaps q = some h ∧
    ∀ v, (h.encode v).length ≤ maxCodeLength → h.decode (h.encode v).code = some v

section

variable {hmax : maxCodeLength ≤ 64} {samples : List (Nat × Nat)}

theorem exists_tree (q : TreeQueue) (hmax : maxCodeLength ≤ 64) (hvalues : (samples.map (·.1)).Nodup)
    (hoccurs : ∃ s ∈ samples, s.2 ≠ 0) (hsum : (samples.map (·.2)).sum < 2 ^ 64) :
    ∃ t, buildTree q ((new maxCodeLength hmax).sampleAll q samples).trees = some (t, []) ∧
      t.values.Nodup ∧ (Close samples → t.LeftShallow) := by
  have hp := trees_sampleAll (q := q) samples (new maxCodeLength hmax)
  rw [show (new maxCodeLength hmax).trees = [] from rfl, append_nil] at hp
  have hn : ((new maxCodeLength hmax).sampleAll q samples).trees ≠ [] := by
    intro hem
    obtain ⟨s, hs, hpo⟩ := hoccurs
    have hme : leaf s.1 s.2 ∈ (occurring samples).map fun s => .leaf s.1 s.2 :=
      mem_map_of_mem (mem_filter.mpr ⟨hs, by simpa using hpo⟩)
    rw [← hp.mem_iff, hem] at hme
    cases hme
  obtain ⟨t, htr, hle, hsh⟩ := buildTree_spec (q := q) hn
  have hva : t.values.Perm ((occurring samples).map (·.1)) :=
    valuesOf_leaves _ ▸ hle.trans (hp.flatMap_right HuffmanNode.values)
  exact ⟨t, htr, hva.nodup_iff.mpr ((filter_sublist.map _).nodup hvalues),
    fun hc => hsh ((hc.balanced hvalues hsum).perm hp.symm)⟩

section

variable (hbu : buildTree q ((new maxCodeLength hmax).sampleAll q samples).trees = some (t, []))
include hbu

theorem generateCodeMaps_spec : ∃ h,
    ((new maxCodeLength hmax).sampleAll q samples).generateCodeMaps q = some h ∧
      h.maps = codesOf maxCodeLength t := by
  refine ⟨_, by rw [generateCodeMaps, hbu]; rfl, ?_⟩
  show generateCodes _ t {} {} = _
  rw [maxCodeLength_sampleAll]
  rfl

theorem roundTrips_iff (ht : t.values.Nodup) : RoundTrips q hmax samples ↔ t.Apart maxCodeLength := by
  obtain ⟨h, hge, hm⟩ := generateCodeMaps_spec hbu
  have hl := fun v => encode_length_le (v := v) hm hmax ht
  rw [← codesOf_round_trip hmax ht, ← hm]
  constructor
  · rintro ⟨h', hge', hr⟩ v c hc
    obtain rfl : h = h' := Option.some.inj (hge.symm.trans hge')
    have hen : h.encode v = c := by rw [encode, hc, Option.getD_some]
    exact hen ▸ hr v ((hl v).mpr (hen ▸ hc))
  · exact fun hr => ⟨h, hge, fun v hv => hr v _ ((hl v).mp hv)⟩

end

section

variable {s a b : Nat × Nat}

/-- A queue that takes the newest tree first has the two less frequent samples on the left. -/
theorem buildTree_three (hab : a.2 ≤ b.2) (hle : a.2 + b.2 ≤ s.2) (ha : a.2 ≠ 0) :
    buildTree (.newestFirst _)
        ((new maxCodeLength hmax).sampleAll (.newestFirst _) [b, a, s]).trees =
      some (((leaf a.1 a.2).merge (leaf b.1 b.2)).merge (leaf s.1 s.2), []) := by
  have hb : b.2 ≠ 0 := by omega
  have hs : s.2 ≠ 0 := by omega
  have hsa : ¬s.2 ≤ a.2 := by omega
  have hsb : ¬s.2 ≤ b.2 := by omega
  have hmo : ∀ m, (a.2 + b.2) % m ≤ s.2 := fun m => (Nat.mod_le _ m).trans hle
  simp [sampleAll, sample, new, buildTree, mergeTrees, PriorityQueue.newestFirst,
    PriorityQueue.oldestFirst, PriorityQueue.popFirst, HuffmanNode.merge, frequency, ha, hb, hs, hab,
    hsa, hsb, hmo]

/-- **Three samples are enough to fail**: the code of the most frequent one is that of another. -/
theorem not_roundTrips (h2 : 2 ≤ maxCodeLength) (hab : a.2 ≤ b.2) (hle : a.2 + b.2 ≤ s.2)
    (ha : a.2 ≠ 0) (hn : ([b, a, s].map (·.1)).Nodup) :
    ¬RoundTrips (.newestFirst _) hmax [b, a, s] := by
  have hv : [s.1, b.1, a.1].Nodup := by simpa [eq_comm, and_comm, and_assoc] using hn
  rw [roundTrips_iff (buildTree_three hab hle ha) hv]
  intro hap
  have heq := hap ([true], s.1) (by simp [leaves, HuffmanNode.merge])
    ([false, true], b.1) (by simp [leaves, HuffmanNode.merge]) (Nat.le_of_succ_le h2) h2 rfl
  cases heq

end

end

end Huffman

end Gem5.Mem.Compressors
