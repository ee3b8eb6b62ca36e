import Gem5.Base.TrieShape

/-!
# Gem5.Base.TrieSound

**Insertions and removals are edits of a tree.** They are made of four edits of
the nodes in memory: a value is set, a leaf is added, a leg is split by a new
node, and a node with at most one kid is taken out. Each edit keeps the shape;
what it does to the branching nodes and to the stored entries is read off the
fields it assigns. From the edits follow the specifications of `insert`
(`Inv.insert_spec`) and of `remove` (`Inv.remove_spec`).
-/

namespace Gem5.Base.Trie

open Lib Lib.BitPrefix Function Nat Trie

variable {w width : Nat} {V : Type} {t : Trie w V} {p : Handle}

/-! ### Edits of the nodes in memory -/

/-- What a node stores: its key and mask, and its value if it has one. -/
def entry (t : Trie w V) (p : Handle) : Option (BitVec w × BitVec w × V) :=
  if t.allocated p then (t.value p).map fun v => (t.key p, t.mask p, v) else none

theorem Shape.setValue (h : t.Shape) {val : Option V} (hp : p = head → val = none) :
    (t.setValue p val).Shape := by
  obtain ⟨hroo, hfr, hpr, hpa, hki, hfi, hpt⟩ := h
  refine ⟨?_, hfr, hpr, hpa, hki, hfi, hpt⟩
  simp only [Trie.setValue]
  grind

theorem entry_setValue (hp : t.allocated p) (val : V) :
    (t.setValue p (some val)).entry = update t.entry p (some (t.key p, t.mask p, val)) := by
  funext q
  simp only [entry, setValue, update_apply]
  grind

theorem entry_clearValue (p : Handle) : (t.setValue p none).entry = update t.entry p none := by
  funext q
  simp only [entry, setValue, update_apply]
  grind

section Leaf

variable {node : Handle} {i : Bool} {key mask : BitVec w} {val : V}

/-- **Adding a leaf** in an empty slot of a node that its prefix lies beyond, on
another side than the kid that may be there. -/
theorem Shape.addLeaf (h : t.Shape) (hnod : t.allocated node) (hslo : t.kids node i = none)
    (hmsk : mask = prefixMask w (length mask)) (hdep : t.depth node < length mask)
    (hagr : Agree (t.depth node) (t.key node) (key &&& mask))
    (hpar : i = true → ∃ a, t.kids node false = some a ∧
      ¬Agree (t.depth node + 1) (t.key a) (key &&& mask)) :
    (t.addLeaf key mask val node i).Shape := by
  have hfre := h.fresh
  constructor
  case parent =>
    intro p hp hn
    simp only [Trie.addLeaf, new, setParent, setKid] at hp ⊢
    by_cases hpn : p = t.next
    · exact ⟨node, i, by grind⟩
    · obtain ⟨q, j, hq⟩ := h.parent p (by grind) hn
      exact ⟨q, j, by grind⟩
  all_goals simp only [Trie.addLeaf, new, setParent, setKid, depth] at *
  case root => grind [h.root]
  case fresh => grind
  case proper =>
    have := h.proper
    grind [depth]
  case kid =>
    have := h.kid
    grind [depth]
  case filled =>
    have := h.filled
    grind
  case parts =>
    have := h.kid
    have := h.filled
    have := h.parts
    grind [depth]

theorem BranchesBut.addLeaf {x : Handle} (h : t.BranchesBut x) :
    (t.addLeaf key mask val node i).BranchesBut x := by
  simp only [BranchesBut, Trie.addLeaf, new, setParent, setKid] at *
  grind

theorem BranchesBut.addSecond (h : t.BranchesBut node) :
    (t.addLeaf key mask val node true).BranchesBut head := by
  simp only [BranchesBut, Trie.addLeaf, new, setParent, setKid] at *
  grind

theorem entry_addLeaf :
    (t.addLeaf key mask val node i).entry =
      update t.entry t.next (some (key &&& mask, mask, val)) := by
  funext q
  simp only [entry, addLeaf, new, setParent, setKid, update_apply]
  grind

variable {kid : Handle}

/-- **Splitting a leg** at a prefix between those of the node and of its kid. -/
theorem Shape.splitLeg (h : t.Shape) (hn : t.allocated node)
    (hk : t.kids node i = some kid) (hmsk : mask = prefixMask w (length mask))
    (hl : t.depth node < length mask) (hhig : length mask < t.depth kid)
    (har : Agree (length mask) (key &&& mask) (t.key kid)) :
    (t.splitLeg key mask node i kid).Shape := by
  have hfre := h.fresh
  obtain ⟨hkdl, hkdP, -, hkd⟩ := h.kid node i kid hn hk
  have hag : Agree (t.depth node) (t.key node) (key &&& mask) := hkd.trans (har.mono hl.le).symm
  have honl : ∀ p j, t.allocated p → t.kids p j = some kid → p = node ∧ j = i := fun p j hp hj =>
    h.slot_unique hp hn hj hk
  constructor
  case parent =>
    intro p hp hne
    simp only [Trie.splitLeg, new, setParent, setKid] at hp ⊢
    by_cases hpn : p = t.next
    · exact ⟨node, i, by grind⟩
    · by_cases hpk : p = kid
      · exact ⟨t.next, false, by grind⟩
      · obtain ⟨q, j, hq⟩ := h.parent p (by grind) hne
        exact ⟨q, j, by grind⟩
  all_goals simp only [Trie.splitLeg, new, setParent, setKid, depth] at *
  case root => grind [h.root]
  case fresh => grind
  case proper =>
    have := h.proper
    grind [depth]
  case kid =>
    have := h.kid
    grind [depth]
  case filled =>
    have := h.filled
    grind
  case parts =>
    -- the new node is on the same side of the node as the kid
    have hsid : ∀ b, Agree (length (t.mask node) + 1) (key &&& mask) b ↔
        Agree (length (t.mask node) + 1) (t.key kid) b := fun b =>
      ⟨fun hb => (har.mono hl).symm.trans hb, fun hb => (har.mono hl).trans hb⟩
    have := h.kid
    have := h.parts
    grind [depth, Agree.symm]

theorem BranchesBut.splitLeg (h : t.BranchesBut head) :
    (t.splitLeg key mask node i kid).BranchesBut t.next := by
  simp only [BranchesBut, Trie.splitLeg, new, setParent, setKid] at *
  grind

theorem entry_splitLeg (hfre : ∀ p, t.allocated p → p < t.next) :
    (t.splitLeg key mask node i kid).entry = t.entry := by
  funext q
  simp only [entry, splitLeg, new, setParent, setKid]
  grind

end Leaf

section Splice

variable {node parent : Handle} {i : Bool}

variable (t)

/-- The nodes in memory after `node`, the kid `i` of `parent`, is taken out and its
only kid, if any, put in its place. -/
def splice (node parent : Handle) (i : Bool) : Trie w V :=
  let fixed := match t.kids node false with
    | none => t
    | some kid => t.setParent kid (some parent)
  (fixed.setKid parent i (t.kids node false)).fillFirst parent

@[simp] theorem fillFirst_parent (p : Handle) : (t.fillFirst p).parent = t.parent := by
  unfold fillFirst; split <;> rfl

theorem fillFirst_kids (p q : Handle) (j : Bool) :
    (t.fillFirst p).kids q j =
      if q = p ∧ t.kids p false = none then
        if j = false then t.kids p true else none
      else t.kids q j := by
  unfold fillFirst
  cases h0 : t.kids p false with
  | some a => simp
  | none =>
    cases h1 : t.kids p true with
    | some b => cases j <;> simp [setKid]
    | none => cases j <;> simp <;> grind

theorem fillFirst_frame (p : Handle) :
    (t.fillFirst p).allocated = t.allocated ∧ (t.fillFirst p).key = t.key ∧
      (t.fillFirst p).mask = t.mask ∧ (t.fillFirst p).value = t.value ∧
      (t.fillFirst p).next = t.next := by
  unfold fillFirst
  split <;> exact ⟨rfl, rfl, rfl, rfl, rfl⟩

theorem splice_frame (node parent : Handle) (i : Bool) :
    (t.splice node parent i).allocated = t.allocated ∧ (t.splice node parent i).key = t.key ∧
      (t.splice node parent i).mask = t.mask ∧ (t.splice node parent i).value = t.value ∧
      (t.splice node parent i).next = t.next := by
  unfold splice
  cases t.kids node false with
  | none => exact fillFirst_frame _ _
  | some kid => exact fillFirst_frame _ _

theorem splice_parent (node parent : Handle) (i : Bool) (q : Handle) :
    (t.splice node parent i).parent q =
      if t.kids node false = some q then some parent else t.parent q := by
  unfold splice
  cases t.kids node false with
  | none => simp [setKid]
  | some kid => simp [setKid, setParent, eq_comm]

variable {t}

/-- **The kids of the parent** afterwards: the kid of the node in its place, or, when
the first slot became free, the second kid in the first slot. -/
theorem splice_kids (hkid : t.kids parent i = some node)
    (hfil : t.kids parent false = none → t.kids parent true = none) (q : Handle) (j : Bool) :
    (t.splice node parent i).kids q j =
      if q = parent then
        if i = false ∧ t.kids node false = none then
          if j = false then t.kids parent true else none
        else if j = i then t.kids node false else t.kids parent j
      else t.kids q j := by
  unfold splice
  cases hc : t.kids node false with
  | none =>
    simp only [fillFirst_kids, setKid]
    cases i <;> grind
  | some kid =>
    simp only [fillFirst_kids, setKid, setParent]
    cases i <;> grind

/-- **Taking out a node** that has at most one kid. -/
theorem Shape.splice (h : t.Shape) (hno : t.allocated node) (hpr : t.allocated parent)
    (hki : t.kids parent i = some node) (hsec : t.kids node true = none) :
    ((t.splice node parent i).delete node).Shape := by
  obtain ⟨-, hndP, hd, har⟩ := h.kid parent i node hpr hki
  have honl : ∀ p j, t.allocated p → t.kids p j = some node → p = parent ∧ j = i :=
    fun p j hp hj => h.slot_unique hp hpr hj hki
  -- the kid of the node is on the same side of the parent as the node
  have hgra : ∀ c, t.kids node false = some c →
      t.allocated c ∧ t.depth parent < t.depth c ∧ c ≠ node ∧
        Agree (t.depth parent) (t.key parent) (t.key c) ∧
        ∀ b, Agree (t.depth parent + 1) (t.key c) b ↔ Agree (t.depth parent + 1) (t.key node) b := by
    intro c hc
    obtain ⟨hca, -, hlt, hag⟩ := h.kid node false c hno hc
    have hs := hag.mono hd
    exact ⟨hca, hd.trans hlt, fun he => by simp [he] at hlt, har.trans (hag.mono hd.le),
      fun b => ⟨hs.trans, hs.symm.trans⟩⟩
  obtain ⟨ha, hk, hm, hv, hn⟩ := t.splice_frame node parent i
  have hp' := t.splice_parent node parent i
  have hk' := splice_kids hki (h.filled parent hpr)
  constructor
  case parent =>
    intro p hp hne
    simp only [delete, ha, hk'] at hp ⊢
    obtain ⟨q, j, hq⟩ := h.parent p (by grind) hne
    by_cases hc : t.kids node false = some p
    · exact ⟨parent, i, by grind⟩
    · have hqn : q ≠ node := by
        rintro rfl
        cases j <;> grind
      by_cases hqp : q = parent
      · by_cases hfre : i = false ∧ t.kids node false = none
        · exact ⟨q, false, by grind⟩
        · exact ⟨q, j, by grind⟩
      · exact ⟨q, j, by grind⟩
  all_goals simp only [delete, depth, ha, hk, hm, hv, hn, hp', hk'] at *
  case root =>
    have := h.kid node false head
    grind [h.root]
  case fresh =>
    intro p hp
    have := h.fresh p
    grind
  case proper =>
    have := h.proper
    grind [depth]
  case kid =>
    intro p j c hp hpc
    have := h.kid p j c
    by_cases hpp : p = parent
    · have := h.kid parent true c
      cases i <;> cases j <;> grind [depth]
    · have : t.allocated p → t.kids node false = some c → t.kids p j = some c → p = node :=
        fun hp hc hj => (h.slot_unique hp hno hj hc).1
      grind [depth]
  case filled =>
    intro p hp
    have := h.filled p
    cases i <;> grind
  case parts =>
    intro p a b hp hpa hpb
    have := h.parts p
    by_cases hpp : p = parent
    · cases i <;> grind [depth, Agree.symm]
    · grind [depth]

theorem BranchesBut.splice (h : t.BranchesBut node) (hki : t.kids parent i = some node)
    (hfi : t.kids parent false = none → t.kids parent true = none) :
    ((t.splice node parent i).delete node).BranchesBut parent := by
  obtain ⟨ha, -, -, hv, -⟩ := t.splice_frame node parent i
  intro p hp hhd hpa hva
  simp only [delete, ha, hv, splice_kids hki hfi, hpa] at hp hva ⊢
  exact h p (by grind) hhd (by grind) hva

theorem entry_splice : ((t.splice node parent i).delete node).entry = update t.entry node none := by
  obtain ⟨ha, hk, hm, hv, -⟩ := t.splice_frame node parent i
  funext q
  simp only [entry, delete, hk, hm, hv, update_apply]
  grind

end Splice

/-! ### Inserting -/

theorem widthMask_eq (h : width ≤ w) : widthMask w width = prefixMask w width := by
  unfold widthMask
  split
  · rfl
  · obtain rfl : width = w := by omega
    simp

theorem Shape.entry_next (h : t.Shape) : t.entry t.next = none :=
  if_neg fun hn => lt_irrefl _ (h.fresh _ hn)

section InsertLeg

variable {key : BitVec w} {width : Nat} {val : V} {node : Handle} {i : Bool}

/-- The trie `t'` is `t` with one more entry, stored at `p`. -/
def Adds (t : Trie w V) (key : BitVec w) (width : Nat) (val : V) (p : Handle) (t' : Trie w V) :
    Prop :=
  t'.Inv ∧ t.entry p = none ∧
    t'.entry = update t.entry p (some (key &&& prefixMask w width, prefixMask w width, val))

theorem Inv.adds_leaf (h : t.Inv) (hno : t.allocated node) (hsl : t.kids node i = none)
    (hw : width ≤ w) (hd : t.depth node < width) (har : Agree (t.depth node) (t.key node) key)
    (hpa : i = true → ∃ a, t.kids node false = some a ∧ ¬Agree (t.depth node + 1) (t.key a) key) :
    t.Adds key width val t.next (t.addLeaf key (prefixMask w width) val node i) := by
  have hl : length (prefixMask w width) = width := length_prefixMask hw
  refine ⟨⟨h.shape.addLeaf hno hsl (by rw [hl]) (by rw [hl]; exact hd)
    (har.trans (agree_and_prefixMask hd.le).symm) ?_, h.branches.addLeaf⟩,
    h.shape.entry_next, entry_addLeaf⟩
  intro hi
  obtain ⟨a, ha, hpr⟩ := hpa hi
  exact ⟨a, ha, fun hag => hpr (hag.trans (agree_and_prefixMask hd))⟩

variable {kid : Handle}

theorem splitLeg_newNode (t : Trie w V) (key mask : BitVec w)
    (hnod : node < t.next) (hkid : kid < t.next) :
    let u := t.splitLeg key mask node i kid
    u.allocated t.next ∧ u.key t.next = key &&& mask ∧ u.mask t.next = mask ∧
      u.kids t.next false = some kid ∧ u.kids t.next true = none ∧ u.key kid = t.key kid := by
  simp only [splitLeg, new, setParent, setKid]
  grind

/-- A leg is split **where the new prefix ends**, and the new node takes the value. -/
theorem Inv.adds_middle (h : t.Inv) (hnd : t.allocated node)
    (hk : t.kids node i = some kid) (hw : width ≤ w) (hlo : t.depth node < width)
    (hhi : width < t.depth kid) (hag : Agree width key (t.key kid)) :
    t.Adds key width val t.next
      ((t.splitLeg key (prefixMask w width) node i kid).setValue t.next (some val)) := by
  have hl : length (prefixMask w width) = width := length_prefixMask hw
  have hlt := h.shape.fresh node hnd
  have hkd := h.shape.fresh kid (h.shape.kid node i kid hnd hk).1
  have hsh : (t.splitLeg key (prefixMask w width) node i kid).Shape :=
    h.shape.splitLeg hnd hk (by rw [hl]) (by rw [hl]; exact hlo) (by rw [hl]; exact hhi)
      (by rw [hl]; exact (agree_and_prefixMask le_rfl).trans hag)
  have hbr : (t.splitLeg key (prefixMask w width) node i kid).BranchesBut t.next :=
    h.branches.splitLeg
  obtain ⟨hal, hke, hms, -⟩ := t.splitLeg_newNode key (prefixMask w width) hlt hkd
  refine ⟨⟨hsh.setValue fun he => absurd (he ▸ hlt) (not_lt_zero _), ?_⟩, h.shape.entry_next, ?_⟩
  · intro p hp hne _ hn
    by_cases hpn : p = t.next
    · simp [setValue, hpn] at hn
    · exact hbr p hp hne hpn (by simpa [setValue, hpn] using hn)
  · rw [entry_setValue hal, entry_splitLeg h.shape.fresh, hke, hms]

/-- A leg is split **where the new prefix parts** from that of the kid, and the new node
branches to a leaf. -/
theorem Inv.adds_branch (h : t.Inv) {m : Nat} (hno : t.allocated node)
    (hk : t.kids node i = some kid) (hw : width ≤ w) (hlo : t.depth node < m)
    (hhi : m < t.depth kid) (hm : m < width) (har : Agree m key (t.key kid))
    (hpa : ¬Agree (m + 1) key (t.key kid)) :
    t.Adds key width val (t.next + 1)
      ((t.splitLeg key (prefixMask w m) node i kid).addLeaf key (prefixMask w width) val
        t.next true) := by
  have hl : length (prefixMask w m) = m := length_prefixMask (hm.le.trans hw)
  have hl' : length (prefixMask w width) = width := length_prefixMask hw
  have hlt := h.shape.fresh node hno
  have hkd := h.shape.fresh kid (h.shape.kid node i kid hno hk).1
  have hsh : (t.splitLeg key (prefixMask w m) node i kid).Shape :=
    h.shape.splitLeg hno hk (by rw [hl]) (by rw [hl]; exact hlo) (by rw [hl]; exact hhi)
      (by rw [hl]; exact (agree_and_prefixMask le_rfl).trans har)
  have hbr : (t.splitLeg key (prefixMask w m) node i kid).BranchesBut t.next := h.branches.splitLeg
  obtain ⟨hal, hke, hms, hk0, hk1, hkk⟩ := t.splitLeg_newNode key (prefixMask w m) hlt hkd
  have hd : (t.splitLeg key (prefixMask w m) node i kid).depth t.next = m := by
    rw [depth, hms, hl]
  refine ⟨⟨hsh.addLeaf hal hk1 (by rw [hl']) (by rw [hd, hl']; exact hm) ?_ ?_,
    hbr.addSecond⟩, if_neg fun hn => ?_, ?_⟩
  · rw [hd, hke]
    exact (agree_and_prefixMask le_rfl).trans (agree_and_prefixMask hm.le).symm
  · refine fun _ => ⟨kid, hk0, ?_⟩
    rw [hd, hkk]
    exact fun hag => hpa ((agree_and_prefixMask hm).symm.trans hag.symm)
  · exact absurd (h.shape.fresh _ hn) (Nat.not_lt_of_le (le_succ _))
  · rw [entry_addLeaf, entry_splitLeg h.shape.fresh]
    rfl

/-- **One leg**: it is not the right one, since the kid parts from the key right after the
node, or the entry is added. -/
theorem Inv.insertLeg_spec (h : t.Inv) (val : V) (i : Bool) (hn : t.allocated node)
    (hw : width ≤ w) (hd : t.depth node < width) (har : Agree (t.depth node) (t.key node) key)
    (hpa : ∀ i c, t.kids node i = some c → Agree (t.depth c) (t.key c) key → width < t.depth c)
    (hpr : i = true → ∃ a, t.kids node false = some a ∧ ¬Agree (t.depth node + 1) (t.key a) key) :
    (t.insertLeg key (prefixMask w width) val node i = .ok none ∧
      ∃ kid, t.kids node i = some kid ∧ ¬Agree (t.depth node + 1) (t.key kid) key) ∨
    ∃ p t', t.insertLeg key (prefixMask w width) val node i = .ok (some (p, t')) ∧
      t.Adds key width val p t' := by
  unfold insertLeg
  cases hk : t.kids node i with
  | none =>
    exact .inr ⟨_, _, rfl, h.adds_leaf hn hk hw hd har hpr⟩
  | some kid =>
    obtain ⟨hkdl, -, -, hkd⟩ := h.shape.kid node i kid hn hk
    obtain ⟨m, hle, hl, hh, hc, he⟩ := legMask_spec hw (w + 2) (t.depth node)
      hd.le (har.symm.trans hkd) (by omega)
    simp only [h.shape.access_kid hn hk, (h.shape.proper node hn).1, hle, ok_bind, pure_eq_ok]
    have hms : prefixMask w m = prefixMask w (t.depth node) ↔ m = t.depth node :=
      prefixMask_inj (hh.trans hw) (t.depth_le node)
    -- the common prefix ends before the kid's: otherwise the walk would have passed the kid
    have hsh : m < t.depth kid := by
      by_contra hg
      have := hpa i kid hk (hc.mono (Nat.le_of_not_lt hg)).symm
      omega
    rcases hl.eq_or_lt with heq | hl
    · refine .inl ⟨if_pos (hms.mpr heq.symm), kid, rfl, fun hag => ?_⟩
      rcases he with he | he
      · omega
      · exact he (heq ▸ hag.symm)
    · rw [if_neg (mt hms.mp hl.ne')]
      rcases hh.eq_or_lt with rfl | hlt
      · exact .inr ⟨_, _, if_pos rfl, h.adds_middle hn hk hw hl hsh hc⟩
      · refine .inr ⟨_, _, if_neg (mt (prefixMask_inj (hh.trans hw) hw).mp hlt.ne),
          h.adds_branch hn hk hw hl hsh hlt hc (he.resolve_left hlt.ne)⟩

end InsertLeg

/-- **Inserting a new prefix** adds its entry and nothing else. -/
theorem Inv.insert_spec (h : t.Inv) (key : BitVec w) (hpos : 1 ≤ width) (hw : width ≤ w) (val : V)
    (hfr : ∀ p v, t.entry p ≠ some (key &&& prefixMask w width, prefixMask w width, v)) :
    ∃ p t', t.insert key width val = .ok (p, t') ∧ t.Adds key width val p t' := by
  set key' := key &&& prefixMask w width with hk'
  have hro := h.shape.root.1
  obtain ⟨node, hwa, hn, hg, hle, hpa⟩ := h.shape.walk_spec key' width (w + 2) head hro
    (by simp [h.shape]) (by simp [h.shape]) (by omega)
  have has : ∀ p t', t.Adds key' width val p t' → t.Adds key width val p t' := by
    rintro p t' ⟨hin, ho, hen⟩
    refine ⟨hin, ho, ?_⟩
    rw [hen, and_prefixMask_idem]
  simp only [insert, widthMask_eq hw, ← hk', hwa, ok_bind]
  have hpr := h.shape.proper node hn
  rcases hle.eq_or_lt with heq | hlt
  · have hm : t.mask node = prefixMask w width := heq ▸ hpr.1
    have hk : t.key node = key' := calc
      t.key node = t.key node &&& prefixMask w width := by rw [← hm, hpr.2]
      _ = key' &&& prefixMask w width := (and_prefixMask_eq_iff hw).mpr (heq ▸ hg)
      _ = key' := and_prefixMask_idem
    have ho : t.value node = none := by
      cases hv : t.value node with
      | none => rfl
      | some v => exact absurd (by simp [entry, hn, hv, hk, hm]) (hfr node v)
    have hhd : node ≠ head := by
      rintro rfl
      rw [h.shape.depth_head] at heq
      omega
    refine ⟨node, t.setValue node (some val), ?_, ⟨h.shape.setValue fun he => absurd he hhd, ?_⟩,
      by simp [entry, ho], ?_⟩
    · simp [hm, ho]
    · intro p hp hne hx hva
      by_cases hpn : p = node
      · simp [setValue, hpn] at hva
      · exact h.branches p hp hne hx (by simpa [setValue, hpn] using hva)
    · rw [entry_setValue hn, hk, hm]
  · have hm : t.mask node ≠ prefixMask w width := by
      rw [hpr.1, Ne, prefixMask_inj (t.depth_le node) hw]
      exact hlt.ne
    rw [if_neg hm]
    rcases h.insertLeg_spec val false hn hw hlt hg hpa (by simp) with
      ⟨hl, a, ha, hna⟩ | ⟨p, t', hl, had⟩
    · simp only [hl]
      rcases h.insertLeg_spec val true hn hw hlt hg hpa
          (fun _ => ⟨a, ha, hna⟩) with ⟨-, b, hb, hnb⟩ | ⟨p, t', hl', had⟩
      · -- the two kids part right after the node, so one of them is on the side of the key
        have hpar := h.shape.parts node a b hn ha hb
        have hka := (h.shape.kid node false a hn ha).2.2.2
        have hkb := (h.shape.kid node true b hn hb).2.2.2
        rcases agree_succ_or (hka.symm.trans hkb) hpar (hg.symm.trans hka) with hag | hag
        · exact absurd hag.symm hna
        · exact absurd hag.symm hnb
      · exact ⟨p, t', by simp only [hl']; rfl, has p t' had⟩
    · exact ⟨p, t', by simp only [hl]; rfl, has p t' had⟩

/-! ### Removing -/

section Delete

variable {x p q : Handle}

theorem access_of_delete (h : (t.delete x).access p = .ok ()) : t.access p = .ok () := by
  unfold access at *
  simp only [delete] at h
  grind

variable {u' : Trie w V} {kid : Option Handle}

theorem fixParent_of_delete (h : (t.delete x).fixParent p kid = .ok u') :
    ∃ u, t.fixParent p kid = .ok u ∧ u.delete x = u' := by
  cases kid with
  | none => exact ⟨t, rfl, Except.ok.inj h⟩
  | some k =>
    obtain ⟨_, hac, hu⟩ := bind_eq_ok.mp h
    refine ⟨t.setParent k (some p), ?_, Except.ok.inj hu⟩
    simp [fixParent, access_of_delete hac]

theorem replaceKid_of_delete (h : (t.delete x).replaceKid p q kid = .ok u') :
    ∃ u, t.replaceKid p q kid = .ok u ∧ u.delete x = u' := by
  have hki : (t.delete x).kids = t.kids := rfl
  unfold replaceKid at h ⊢
  rw [hki] at h
  by_cases h0 : t.kids p false = some q
  · rw [if_pos h0] at h ⊢
    exact ⟨_, rfl, Except.ok.inj h⟩
  · rw [if_neg h0] at h ⊢
    by_cases h1 : t.kids p true = some q
    · rw [if_pos h1] at h ⊢
      exact ⟨_, rfl, Except.ok.inj h⟩
    · rw [if_neg h1] at h
      cases h

theorem delete_fillFirst : (t.delete x).fillFirst p = (t.fillFirst p).delete x := by
  have hki : (t.delete x).kids = t.kids := rfl
  unfold fillFirst
  rw [hki]
  split <;> rfl

theorem delete_comm : (t.delete x).delete p = (t.delete p).delete x := by
  simp only [delete]
  grind

theorem takeOut_of_delete (h : (t.delete x).takeOut p q = .ok u') :
    ∃ u, t.takeOut p q = .ok u ∧ u.delete x = u' := by
  obtain ⟨_, hac, h⟩ := bind_eq_ok.mp h
  obtain ⟨_, hf, h⟩ := bind_eq_ok.mp h
  obtain ⟨u1, hf', rfl⟩ := fixParent_of_delete hf
  obtain ⟨_, hr, h⟩ := bind_eq_ok.mp h
  obtain ⟨u2, hr', rfl⟩ := replaceKid_of_delete hr
  cases h
  refine ⟨u2.fillFirst q, ?_, delete_fillFirst.symm⟩
  exact bind_eq_ok.mpr ⟨_, access_of_delete hac, bind_eq_ok.mpr ⟨u1, hf',
    bind_eq_ok.mpr ⟨u2, hr', rfl⟩⟩⟩

/-- **A node that is not looked at can be deleted before or after** a removal. -/
theorem removeFrom_of_delete (fuel : Nat) : ∀ {t : Trie w V} {p : Handle} {v t'},
    removeFrom fuel (t.delete x) p = .ok (v, t') →
      ∃ u, removeFrom fuel t p = .ok (v, u) ∧ u.delete x = t' := by
  induction fuel with
  | zero =>
    intro t p v t' h
    cases h
  | succ fuel ih =>
    intro t p v t' h
    obtain ⟨_, hac, h⟩ := bind_eq_ok.mp h
    have hki : (t.delete x).kids = t.kids := rfl
    have hpa : (t.delete x).parent = t.parent := rfl
    rw [hki, hpa] at h
    simp only [removeFrom, access_of_delete hac, ok_bind]
    by_cases hs : (t.kids p true).isSome
    · rw [if_pos hs] at h ⊢
      obtain ⟨hva, h⟩ := guard_eq_ok.mp h
      cases h
      exact ⟨_, if_neg hva, rfl⟩
    · rw [if_neg hs] at h ⊢
      cases hq : t.parent p with
      | none =>
        rw [hq] at h
        cases h
      | some q =>
        simp only [hq] at h ⊢
        obtain ⟨_, ho, h⟩ := bind_eq_ok.mp h
        obtain ⟨u, ho', rfl⟩ := takeOut_of_delete ho
        have hne : (u.delete x).needless q = u.needless q := rfl
        rw [hne] at h
        simp only [ho', ok_bind]
        by_cases hn : u.needless q
        · rw [if_pos hn] at h ⊢
          obtain ⟨⟨_, _⟩, hr, h⟩ := bind_eq_ok.mp h
          obtain ⟨u', hr', rfl⟩ := ih hr
          cases h
          exact ⟨u'.delete p, by rw [hr']; rfl, delete_comm⟩
        · rw [if_neg hn] at h ⊢
          cases h
          exact ⟨u.delete p, rfl, delete_comm⟩

end Delete

theorem Shape.takeOut_eq (h : t.Shape) {node parent : Handle} {i : Bool}
    (hno : t.allocated node) (hp : t.allocated parent)
    (hk : t.kids parent i = some node) : t.takeOut node parent = .ok (t.splice node parent i) := by
  have hfi : t.fixParent parent (t.kids node false) = .ok (match t.kids node false with
      | none => t
      | some kid => t.setParent kid (some parent)) := by
    cases hc : t.kids node false with
    | none => rfl
    | some kid => simp [fixParent, h.access_kid hno hc]
  -- of the two slots of the parent, the node is in the slot `i`
  have hsl : ∀ j, t.kids parent j = some node ↔ j = i := fun j =>
    ⟨fun hj => (h.slot_unique hp hp hj hk).2, fun hj => hj ▸ hk⟩
  have hr : ∀ u : Trie w V, u.kids = t.kids →
      u.replaceKid parent node (t.kids node false) =
        .ok (u.setKid parent i (t.kids node false)) := by
    intro u hu
    unfold replaceKid
    rw [hu]
    cases i <;> simp [hsl]
  refine bind_eq_ok.mpr ⟨(), if_pos hp, bind_eq_ok.mpr ⟨_, hfi, ?_⟩⟩
  unfold Trie.splice
  cases hc : t.kids node false with
  | none => exact bind_eq_ok.mpr ⟨_, hr t rfl, by rw [hc]; rfl⟩
  | some kid => exact bind_eq_ok.mpr ⟨_, hr (t.setParent kid (some parent)) rfl, by rw [hc]; rfl⟩

/-- **Removing a node** that may be removed: it has a value, or it has less than two
kids. Its entry goes, and every other node that has lost its reason to be there goes
with it. -/
theorem Shape.removeFrom_spec (fuel : Nat) : ∀ {t : Trie w V} {node : Handle}, t.Shape →
    t.BranchesBut node → t.allocated node → node ≠ head →
    (t.kids node true = none ∨ t.value node ≠ none) → t.depth node < fuel →
    ∃ t', removeFrom fuel t node = .ok (t.value node, t') ∧ t'.Inv ∧
      t'.entry = update t.entry node none := by
  induction fuel with
  | zero =>
    intro t node _ _ _ _ _ hf
    exact absurd hf (not_lt_zero _)
  | succ fuel ih =>
    intro t node h hbr ho hhd hma hf
    have hac : t.access node = .ok () := if_pos ho
    cases hs : t.kids node true with
    | some second =>
      have hva : ¬(t.value node).isNone := by
        simpa [hs] using hma
      refine ⟨t.setValue node none, ?_, ⟨h.setValue fun _ => rfl, ?_⟩, entry_clearValue node⟩
      · simp [removeFrom, hac, hs, hva]
      · intro p hp hne _ hn
        by_cases hpn : p = node
        · subst hpn
          simp [Trie.setValue, hs]
        · exact hbr p hp hne hpn (by simpa [Trie.setValue, hpn] using hn)
    | none =>
      obtain ⟨parent, i, hpr, hpa, hk⟩ := h.parent node ho hhd
      have hlt := (h.kid parent i node hpa hk).2.2.1
      have hh := h.splice ho hpa hk hs
      have hb := hbr.splice hk (h.filled parent hpa)
      obtain ⟨ha, -, hm, hv, -⟩ := t.splice_frame node parent i
      have hne : parent ≠ node := fun he => by simp [he] at hlt
      have hen : ((t.splice node parent i).delete node).entry =
        update t.entry node none := entry_splice
      have hou := h.takeOut_eq ho hpa hk
      by_cases hnee : (t.splice node parent i).needless parent
      · -- the parent is left with one kid and no value: it goes too
        simp only [needless, Bool.and_eq_true, Option.isNone_iff_eq_none] at hnee
        obtain ⟨⟨hk1, hv1⟩, hp1⟩ := hnee
        have hph : parent ≠ head := by
          intro he
          have hro : (t.splice node parent i).parent head = none := hh.root.2.2.2
          rw [← he] at hro
          simp [hro] at hp1
        obtain ⟨t', hr, hin, het⟩ := ih hh hb (by simp [delete, ha, hpa, hne]) hph (.inl hk1)
          (by simp only [depth, delete, hm]; exact lt_of_lt_of_le hlt (le_of_lt_succ hf))
        obtain ⟨u, hr', rfl⟩ := removeFrom_of_delete fuel hr
        refine ⟨u.delete node, ?_, hin, ?_⟩
        · simp [removeFrom, hac, hs, hpr, hou, needless, hk1, hv1, hp1, hr']
        · rw [het, hen]
          have hn : t.entry parent = none := by simp [entry, ← hv, hv1]
          funext q
          grind
      · refine ⟨_, ?_, ⟨hh, ?_⟩, hen⟩
        · simp [removeFrom, hac, hs, hpr, hou, hnee]
        · intro p hp hph _ hn
          by_cases hpp : p = parent
          · subst hpp
            simp only [needless, Bool.and_eq_true, Option.isNone_iff_eq_none] at hnee
            obtain ⟨q, j, hq, -⟩ := hh.parent p hp hph
            intro hk1
            exact hnee ⟨⟨hk1, hn⟩, by rw [show (t.splice node p i).parent p = some q from hq]; rfl⟩
          · exact hb p hp hph hpp hn

/-- **Removing an entry** by its handle. -/
theorem Inv.remove_spec (h : t.Inv) (hp : t.allocated p) (hv : t.value p ≠ none) :
    ∃ t', t.remove p = .ok (t.value p, t') ∧ t'.Inv ∧ t'.entry = update t.entry p none := by
  have hhd : p ≠ head := fun he => hv (he ▸ h.shape.root.2.2.1)
  refine Shape.removeFrom_spec (w + 2) h.shape ?_ hp hhd (.inr hv) ?_
  · intro q hq hn _ hno
    exact h.branches q hq hn hn hno
  · have := t.depth_le p
    omega

end Gem5.Base.Trie
