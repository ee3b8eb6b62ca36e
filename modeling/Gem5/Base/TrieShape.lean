import Gem5.Base.Trie

/-!
# Gem5.Base.TrieShape

**The nodes of the trie form a tree of prefixes.** `Shape` says so locally, one
node and its neighbours at a time, so that an assignment to one field only
touches the conditions that mention it. From the shape follows what the three
loops of the source do: the way down that `lookup` takes leads to every node that
starts the key (`Shape.lookupFrom_spec`), the walk of `insert` ends where no kid
can be passed any more (`Shape.walk_spec`), and a leg is followed to the longest
common prefix (`legMask_spec`). Path compression is the second half of the
invariant: a node without a value is there to branch (`BranchesBut`).
-/

namespace Gem5.Base.Trie

open Lib Lib.BitPrefix BitVec Bool Nat Option

variable {w : Nat} {V : Type} {t : Trie w V}

/-! ### The shape of the nodes in memory -/

def depth (t : Trie w V) (p : Handle) : Nat :=
  length (t.mask p)

theorem depth_le (t : Trie w V) (p : Handle) : t.depth p ≤ w := length_le _

/-- The nodes form a tree of prefixes, in which kids are longer than their parent
and start with it, the first slot for a kid is filled first, and two kids of a
node part right after the node's prefix. -/
structure Shape (t : Trie w V) : Prop where
  root : t.allocated head ∧ t.mask head = 0#w ∧ t.value head = none ∧ t.parent head = none
  fresh : ∀ p, t.allocated p → p < t.next
  proper : ∀ p, t.allocated p → t.mask p = prefixMask w (t.depth p) ∧ t.key p &&& t.mask p = t.key p
  parent : ∀ p, t.allocated p → p ≠ head →
    ∃ q i, t.parent p = some q ∧ t.allocated q ∧ t.kids q i = some p
  kid : ∀ p i c, t.allocated p → t.kids p i = some c →
    t.allocated c ∧ t.parent c = some p ∧ t.depth p < t.depth c ∧
      Agree (t.depth p) (t.key p) (t.key c)
  filled : ∀ p, t.allocated p → t.kids p false = none → t.kids p true = none
  parts : ∀ p a b, t.allocated p → t.kids p false = some a → t.kids p true = some b →
    ¬Agree (t.depth p + 1) (t.key a) (t.key b)

/-- Every node has a value or two kids, except the root and possibly `x`. -/
def BranchesBut (x : Handle) (t : Trie w V) : Prop :=
  ∀ p, t.allocated p → p ≠ head → p ≠ x → t.value p = none → t.kids p true ≠ none

/-- **The invariant of the trie.** -/
structure Inv (t : Trie w V) : Prop where
  shape : t.Shape
  branches : t.BranchesBut head

theorem empty_inv : (empty : Trie w V).Inv where
  shape := by
    constructor <;> simp +contextual [empty, depth, head]
  branches := by
    intro p hp hn
    simp [empty] at hp
    exact absurd hp hn

@[simp] theorem Shape.depth_head (h : t.Shape) : t.depth head = 0 := by
  rw [depth, h.root.2.1, length_zero]

variable {p q c : Handle} {key : BitVec w} {i j : Bool} {width : Nat}

theorem Shape.matches_iff (h : t.Shape) (hp : t.allocated p) :
    t.matches key p = true ↔ Agree (t.depth p) (t.key p) key := by
  obtain ⟨hms, hke⟩ := h.proper p hp
  rw [Trie.matches, beq_iff_eq]
  conv_lhs => rw [← hke, hms]
  rw [and_prefixMask_eq_iff (t.depth_le p)]
  exact ⟨Agree.symm, Agree.symm⟩

theorem Shape.goesAfter_iff (h : t.Shape) (hp : t.allocated p) :
    t.goesAfter key (prefixMask w width) p = true ↔
      Agree (t.depth p) (t.key p) key ∧ t.depth p ≤ width := by
  rw [goesAfter, and_eq_true, h.matches_iff hp, beq_iff_eq, (h.proper p hp).1,
    prefixMask_and_eq_iff (t.depth_le p)]

theorem Shape.kid_unique (h : t.Shape) {a b : Handle} (hp : t.allocated p)
    (ha : t.kids p i = some a) (hb : t.kids p j = some b) (hk : Agree (t.depth a) (t.key a) key)
    (hkb : Agree (t.depth b) (t.key b) key) : a = b := by
  obtain ⟨-, -, hd, -⟩ := h.kid p i a hp ha
  obtain ⟨-, -, hdb, -⟩ := h.kid p j b hp hb
  have hag : Agree (t.depth p + 1) (t.key a) (t.key b) := (hk.mono hd).trans (hkb.mono hdb).symm
  cases i with
  | false =>
    cases j with
    | false => exact some.inj (ha.symm.trans hb)
    | true => exact absurd hag (h.parts p a b hp ha hb)
  | true =>
    cases j with
    | false => exact absurd hag.symm (h.parts p b a hp hb ha)
    | true => exact some.inj (ha.symm.trans hb)

theorem Shape.slot_unique (h : t.Shape) (hp : t.allocated p) (hq : t.allocated q)
    (hpc : t.kids p i = some c) (hqc : t.kids q j = some c) : p = q ∧ i = j := by
  have hpa := (h.kid p i c hp hpc).2.1
  rw [(h.kid q j c hq hqc).2.1] at hpa
  obtain rfl := some.inj hpa
  refine ⟨rfl, ?_⟩
  cases i <;> cases j <;> try rfl
  · exact absurd .refl (h.parts q c c hq hpc hqc)
  · exact absurd .refl (h.parts q c c hq hqc hpc)

/-! ### The way down -/

/-- `q` is `p` or below it. -/
def Under (t : Trie w V) : Handle → Handle → Prop :=
  Relation.ReflTransGen fun p q => ∃ i, t.kids p i = some q

section

variable (h : t.Shape)

include h

section

variable (hp : t.allocated p)
include hp

theorem Shape.under_spec (hpq : t.Under p q) :
    t.allocated q ∧ t.depth p ≤ t.depth q ∧ Agree (t.depth p) (t.key p) (t.key q) := by
  induction hpq with
  | refl => exact ⟨hp, le_rfl, .refl⟩
  | tail _ hk ih =>
    obtain ⟨i, hk⟩ := hk
    obtain ⟨hq, hl, har⟩ := ih
    obtain ⟨hc, -, hlt, hag⟩ := h.kid _ i _ hq hk
    exact ⟨hc, hl.trans hlt.le, har.trans (hag.mono hl)⟩

theorem Shape.under_eq (hpq : t.Under p q) (hle : t.depth q ≤ t.depth p) : p = q := by
  rcases hpq.cases_head with rfl | ⟨c, ⟨i, hc⟩, hcq⟩
  · rfl
  · obtain ⟨hca, -, hlt, -⟩ := h.kid p i c hp hc
    have := (h.under_spec hca hcq).2.1
    omega

omit hp in
/-- **Every node is below the root**: the parents of a node get shorter. -/
theorem Shape.under_head (hq : t.allocated q) : t.Under head q := by
  induction hd : t.depth q using Nat.strong_induction_on generalizing q with
  | _ d ih =>
    by_cases hn : q = head
    · subst hn
      exact .refl
    · obtain ⟨p, i, -, hp, hk⟩ := h.parent q hq hn
      have hlt := (h.kid p i q hp hk).2.2.1
      exact (ih _ (hd ▸ hlt) hp rfl).tail ⟨i, hk⟩

theorem Shape.access_kid (hc : t.kids p i = some c) : t.access c = .ok () :=
  if_pos (h.kid p i c hp hc).1

theorem Shape.kidPasses_eq (test : Handle → Bool) :
    t.kidPasses test (t.kids p i) = .ok ((t.kids p i).any test) := by
  cases hk : t.kids p i with
  | none => rfl
  | some c => simp [kidPasses, h.access_kid hp hk]

theorem Shape.nextKid_spec (test : Handle → Bool) :
    (∃ i c, t.nextKid test p = .ok (some c) ∧ t.kids p i = some c ∧ test c = true) ∨
      (t.nextKid test p = .ok none ∧ ∀ i c, t.kids p i = some c → test c = false) := by
  simp only [nextKid, h.kidPasses_eq hp, ok_bind, pure_eq_ok]
  cases h0 : (t.kids p false).any test with
  | true =>
    obtain ⟨c, hc, ht⟩ := (any_eq_true _ _).mp h0
    exact .inl ⟨false, c, by simp [hc], hc, ht⟩
  | false =>
    cases h1 : (t.kids p true).any test with
    | true =>
      obtain ⟨c, hc, ht⟩ := (any_eq_true _ _).mp h1
      exact .inl ⟨true, c, by simp [hc], hc, ht⟩
    | false =>
      refine .inr ⟨by simp, fun i c hc => ?_⟩
      cases i with
      | false => simpa [hc] using h0
      | true => simpa [hc] using h1

end

/-- **Looking up from a node** finds the first node with a value on the way down
to every node that starts the key, and finds none only if there is none. -/
theorem Shape.lookupFrom_spec (key : BitVec w) (fuel : Nat) :
    ∀ p, t.allocated p → Agree (t.depth p) (t.key p) key → w < t.depth p + fuel →
      ∃ r, t.lookupFrom key fuel p = .ok r ∧
        (∀ q, t.Under p q → t.value q ≠ none → Agree (t.depth q) (t.key q) key →
          ∃ c, r = some c ∧ t.Under c q) ∧
        ∀ c, r = some c → t.allocated c ∧ t.value c ≠ none ∧ Agree (t.depth c) (t.key c) key := by
  induction fuel with
  | zero =>
    intro p _ _ hf
    exact absurd (t.depth_le p) (not_le.mpr hf)
  | succ fuel ih =>
    intro p hp har hf
    by_cases ha : (t.value p).isSome
    · refine ⟨some p, if_pos ha, fun q hq _ _ => ⟨p, rfl, hq⟩, ?_⟩
      rintro c ⟨⟩
      exact ⟨hp, isSome_iff_ne_none.mp ha, har⟩
    -- a node with a value below `p` is below the kid on the way to it, which starts the key
    have hbe : ∀ q, t.Under p q → t.value q ≠ none → Agree (t.depth q) (t.key q) key →
        ∃ j b, t.kids p j = some b ∧ t.Under b q ∧ Agree (t.depth b) (t.key b) key := by
      intro q hq hv hk
      rcases hq.cases_head with rfl | ⟨b, ⟨j, hb⟩, hbq⟩
      · exact absurd (isSome_iff_ne_none.mpr hv) ha
      · obtain ⟨-, hl, hag⟩ := h.under_spec (h.kid p j b hp hb).1 hbq
        exact ⟨j, b, hb, hbq, hag.trans (hk.mono hl)⟩
    rcases h.nextKid_spec hp (t.matches key) with ⟨i, c, hnx, hc, hte⟩ | ⟨hnx, hn⟩
    · obtain ⟨hca, -, hlt, -⟩ := h.kid p i c hp hc
      have hck := (h.matches_iff hca).mp hte
      obtain ⟨r, hr, hfi, hso⟩ := ih c hca hck (by omega)
      refine ⟨r, ?_, fun q hq hv hk => ?_, hso⟩
      · simp [lookupFrom, ha, hnx, hr]
      · obtain ⟨j, b, hb, hbq, hbk⟩ := hbe q hq hv hk
        obtain rfl := h.kid_unique hp hc hb hck hbk
        exact hfi q hbq hv hk
    · refine ⟨none, ?_, fun q hq hv hk => ?_, fun c hc => nomatch hc⟩
      · simp [lookupFrom, ha, hnx]
      · obtain ⟨j, b, hb, -, hbk⟩ := hbe q hq hv hk
        have := (h.matches_iff (h.kid p j b hp hb).1).mpr hbk
        rw [hn j b hb] at this
        exact absurd this false_ne_true

/-- **The walk of `insert`** ends at a node that starts the key and has no kid that
the new node lies beyond. -/
theorem Shape.walk_spec (key : BitVec w) (width fuel : Nat) :
    ∀ p, t.allocated p → Agree (t.depth p) (t.key p) key → t.depth p ≤ width →
      w < t.depth p + fuel →
      ∃ r, t.walk key (prefixMask w width) fuel p = .ok r ∧ t.allocated r ∧
        Agree (t.depth r) (t.key r) key ∧ t.depth r ≤ width ∧
        ∀ i c, t.kids r i = some c → Agree (t.depth c) (t.key c) key → width < t.depth c := by
  induction fuel with
  | zero =>
    intro p _ _ _ hf
    exact absurd (t.depth_le p) (not_le.mpr hf)
  | succ fuel ih =>
    intro p hp hag hl hf
    rcases h.nextKid_spec hp (t.goesAfter key (prefixMask w width)) with
      ⟨i, c, hnx, hc, hte⟩ | ⟨hnx, hn⟩
    · obtain ⟨hca, -, hlt, -⟩ := h.kid p i c hp hc
      obtain ⟨hck, hcw⟩ := (h.goesAfter_iff hca).mp hte
      obtain ⟨r, hr, hsp⟩ := ih c hca hck hcw (by omega)
      exact ⟨r, by simp [walk, hnx, hr], hsp⟩
    · refine ⟨p, by simp [walk, hnx], hp, hag, hl, fun i c hc hck => ?_⟩
      by_contra hcw
      have := (h.goesAfter_iff (h.kid p i c hp hc).1).mpr ⟨hck, Nat.le_of_not_lt hcw⟩
      rw [hn i c hc] at this
      exact absurd this false_ne_true

end

/-! ### Walking down a leg -/

theorem extendMask_prefixMask (d : Nat) : extendMask (prefixMask w d) = prefixMask w (d + 1) := by
  refine eq_of_getMsbD_eq fun j hj => ?_
  simp only [extendMask, getMsbD_or, getMsbD_prefixMask, getMsbD_ushiftRight, getMsbD_shiftLeft]
  by_cases h0 : j = 0
  · subst h0
    simp [hj]
  · by_cases hd : j < d
    · simp [hj, hd]
      omega
    · by_cases hd' : j < d + 1
      · simp [hj, hd', h0]
        omega
      · simp [hj, hd', h0]
        omega

/-- **The leg is walked to the longest common prefix**, or to the end of the new
prefix. -/
theorem legMask_spec {kidKey : BitVec w} (hw : width ≤ w) (fuel : Nat) :
    ∀ d, d ≤ width → Agree d key kidKey → width < d + fuel →
      ∃ m, legMask key kidKey (prefixMask w width) fuel (prefixMask w d) = .ok (prefixMask w m) ∧
        d ≤ m ∧ m ≤ width ∧ Agree m key kidKey ∧ (m = width ∨ ¬Agree (m + 1) key kidKey) := by
  induction fuel with
  | zero =>
    intro d hd _ hfu
    omega
  | succ fuel ih =>
    intro d hd hag hfu
    rcases hd.eq_or_lt with rfl | hlt
    · exact ⟨d, if_pos (.inr rfl), le_rfl, le_rfl, hag, .inl rfl⟩
    have hne : prefixMask w d ≠ prefixMask w width := by
      rw [Ne, prefixMask_inj (hd.trans hw) hw]
      exact hlt.ne
    have hdw : d < w := hlt.trans_le hw
    by_cases hn : Agree (d + 1) key kidKey
    · obtain ⟨m, hm, hl, hr⟩ := ih (d + 1) hlt hn (by omega)
      refine ⟨m, ?_, (le_succ d).trans hl, hr⟩
      rw [legMask, extendMask_prefixMask, if_neg]
      · exact hm
      · simpa [hne] using (and_prefixMask_eq_iff hdw).mpr hn
    · refine ⟨d, ?_, le_rfl, hd, hag, .inr hn⟩
      rw [legMask, extendMask_prefixMask, if_pos]
      exact .inl fun heq => hn ((and_prefixMask_eq_iff hdw).mp heq)

end Gem5.Base.Trie
