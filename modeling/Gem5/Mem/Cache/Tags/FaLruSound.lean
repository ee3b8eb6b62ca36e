import Gem5.Mem.Cache.Tags.FaLruMoves
import Gem5.Lib.LruStack

/-!
# Gem5.Mem.Cache.Tags.FaLruSound

**The tag store tracks smaller caches**, when the smallest tracked size is larger than a block. Every
call then keeps the list, the masks and the boundaries right.

The hits are not those of the smaller caches. `accessBlock` moves the block to the head before
`recordAccess` reads its mask, and the block is then within every size. Each counter counts the hits
of the whole store.
-/

namespace Gem5.Mem

open Gem5.Base Gem5.Lib Function List Nat Option

namespace FALRU

variable {p : FALRUParams} {s t : FALRU p} {l : List (Fin p.numBlocks)} {blk : Fin p.numBlocks}
  {masks : Fin p.numBlocks → BitVec 32} {boundaries : Nat → Option (Fin p.numBlocks)}
  {stack : List (Addr × Bool)}

/-! ### The tag store -/

def entry (s : FALRU p) (b : Fin p.numBlocks) : Option (Addr × Bool) :=
  if (s.blks b).valid then some (s.keyOf b) else none

structure Indexed (s : FALRU p) (l : List (Fin p.numBlocks)) : Prop where
  listed : Listed s l
  masked : Masked s l
  hashed : ∀ key b, s.tagHash key = some b ↔ s.entry b = some key
  clear : ∀ b, (s.blks b).valid = false → (s.blks b).secure = false

theorem SameTags.entry (h : SameTags s t) (b : Fin p.numBlocks) : t.entry b = s.entry b := by
  simp only [FALRU.entry, keyOf, h.valid, h.tag, h.secure]

theorem SameTags.hashed (h : SameTags s t) (hs : ∀ key b, s.tagHash key = some b ↔ s.entry b = some key)
    (key : Addr × Bool) (b : Fin p.numBlocks) : t.tagHash key = some b ↔ t.entry b = some key := by
  rw [h.tagHash, h.entry, hs]

theorem SameTags.clear (h : SameTags s t)
    (hs : ∀ b, (s.blks b).valid = false → (s.blks b).secure = false) (b : Fin p.numBlocks)
    (hb : (t.blks b).valid = false) : (t.blks b).secure = false := by
  rw [h.secure]
  exact hs b (by rw [← h.valid, hb])

theorem entry_eq_some_iff {b : Fin p.numBlocks} {key : Addr × Bool} :
    s.entry b = some key ↔ (s.blks b).valid ∧ s.keyOf b = key := by
  unfold entry
  split
  next h => simp [h]
  next h => simp [h]

theorem Listed.exists_index (hl : Listed s l) (b : Fin p.numBlocks) :
    ∃ r : Nat, l[r]? = some b := by
  have hun : l.toFinset = Finset.univ := Finset.eq_univ_of_card _ (by
    rw [toFinset_card_of_nodup hl.linked.nodup, hl.length, Fintype.card_fin])
  have hme : b ∈ l := mem_toFinset.mp (hun ▸ Finset.mem_univ b)
  exact mem_iff_getElem?.mp hme

variable {r : Nat} {addr : Addr} {k : Addr × Bool} {secure : Bool}

/-- **`moveToHead`** once every tracked size has two blocks. -/
theorem moveToHead_tidy (hca : p.blkSize < p.minTrackedSize) (h : Indexed s l) (hb : Bounded s l)
    (hr : l[r]? = some blk) : ∃ t, s.moveToHead blk = .ok t ∧
      Indexed t (blk :: l.eraseIdx r) ∧ Bounded t (blk :: l.eraseIdx r) ∧ SameTags s t := by
  obtain ⟨t, ht, hli, hma, hs, hbo⟩ := moveToHead_spec h.listed h.masked hb hr
  refine ⟨t, ht, ⟨hli, hma, hs.hashed h.hashed, hs.clear h.clear⟩, fun i hi => ?_, hs⟩
  have htwo := p.two_le_cap hca i
  rw [hbo i hi, show p.cap i - 1 = p.cap i - 2 + 1 by omega, getElem?_cons_succ]
  split
  next h0 =>
    rw [hb i hi, h0, getElem?_eraseIdx]
    congr 1
    omega
  next => rw [headBoundary, if_neg (by omega)]

theorem findBlock_eq (h : Indexed s l) (addr : Addr) (secure : Bool) :
    s.findBlock addr secure = .ok (s.tagHash (key p addr secure)) := by
  unfold findBlock
  split
  next hn => rw [hn]
  next b hb =>
    have hke := (entry_eq_some_iff.mp ((h.hashed _ _).mp hb)).2
    rw [if_neg fun hba => hba.2 hke, hb]

theorem Indexed.recordAccess (h : Indexed s l) (b : Option (Fin p.numBlocks)) :
    Indexed (s.recordAccess b) l :=
  ⟨⟨h.listed.linked, h.listed.length, h.listed.head, h.listed.tail⟩, h.masked, h.hashed, h.clear⟩

theorem accessBlock_miss (h : Indexed s l) (hmi : s.tagHash (key p addr secure) = none) :
    s.accessBlock addr secure = .ok (s.recordAccess none, none) := by
  rw [accessBlock, findBlock_eq h, hmi]
  rfl

theorem accessBlock_hit (hca : p.blkSize < p.minTrackedSize) (h : Indexed s l) (hb : Bounded s l)
    (hh : s.tagHash (key p addr secure) = some blk) (hr : l[r]? = some blk) :
    ∃ t, s.accessBlock addr secure = .ok (t, some blk) ∧
      Indexed t (blk :: l.eraseIdx r) ∧ Bounded t (blk :: l.eraseIdx r) ∧
      (∀ b, t.entry b = s.entry b) ∧ ∀ i ≤ p.numTrackedCaches, t.hits i = s.hits i + 1 := by
  have hv := (entry_eq_some_iff.mp ((h.hashed _ _).mp hh)).1
  obtain ⟨t, ht, hin, hbo, hs⟩ := moveToHead_tidy hca h hb hr
  refine ⟨t.recordAccess (some blk), ?_, hin.recordAccess _, hbo, hs.entry, fun i hi => ?_⟩
  · rw [accessBlock, findBlock_eq h, hh]
    simp only [hv, if_true, ht, ok_bind]
  · -- the mask is read after the move
    have hms := hin.masked 0 blk rfl i
    simp only [FALRU.recordAccess, hs.hits]
    rw [if_pos]
    refine ⟨hi, ?_⟩
    split
    next hlt =>
      rw [bne_iff_ne, one_shiftLeft_and_ne_zero, hms]
      exact decide_eq_true ⟨hlt, p.cap_pos i⟩
    next => rw [hs.valid, hv]

/-! Changing the tag fields of a block keeps the list. -/

section Tags

variable {valid secure : Bool} {tag : Addr}

theorem Listed.setTag (h : Listed s l) : Listed (s.setTag blk valid tag secure) l := by
  refine ⟨?_, h.length, h.head, h.tail⟩
  convert h.linked using 1
  all_goals
    funext x
    simp only [FALRU.setTag, blks_modify]
    split <;> simp_all

theorem Masked.setTag (h : Masked s l) : Masked (s.setTag blk valid tag secure) l := by
  intro q b hq i
  rw [← h q b hq i]
  simp only [FALRU.setTag, blks_modify]
  split <;> simp_all

theorem entry_setTag (b : Fin p.numBlocks) : (s.setTag blk valid tag secure).entry b =
    if b = blk then if valid then some (tag, secure) else none else s.entry b := by
  simp only [entry, keyOf, FALRU.setTag]
  by_cases hb : b = blk
  · simp [hb]
  · simp [hb]

theorem clear_setTag (h : ∀ b, (s.blks b).valid = false → (s.blks b).secure = false)
    (hne : valid = false → secure = false) (b : Fin p.numBlocks)
    (hb : ((s.setTag blk valid tag secure).blks b).valid = false) :
    ((s.setTag blk valid tag secure).blks b).secure = false := by
  simp only [FALRU.setTag, blks_modify] at hb ⊢
  by_cases hn : b = blk
  · rw [if_pos hn] at hb ⊢
    exact hne hb
  · rw [if_neg hn] at hb ⊢
    exact h b hb

theorem Listed.setHash (h : Listed s l) (k : Addr × Bool) (b : Option (Fin p.numBlocks)) :
    Listed (s.setHash k b) l :=
  ⟨h.linked, h.length, h.head, h.tail⟩

end Tags

theorem invalidate_spec (h : Indexed s l) (hb : Bounded s l) (hr : l[r]? = some blk)
    (hv : (s.blks blk).valid) : ∃ t, s.invalidate blk = .ok t ∧
      Indexed t (l.eraseIdx r ++ [blk]) ∧ Bounded t (l.eraseIdx r ++ [blk]) ∧ t.tail = blk ∧
      (∀ b, t.entry b = if b = blk then none else s.entry b) ∧
      t.tagHash = update s.tagHash (s.keyOf blk) none ∧ t.hits = s.hits := by
  have hh : s.tagHash (s.keyOf blk) = some blk :=
    (h.hashed _ _).mpr (entry_eq_some_iff.mpr ⟨hv, rfl⟩)
  have hcl : Listed ((s.setHash (s.keyOf blk) none).setTag blk false (BitVec.allOnes 64) false) l :=
    (h.listed.setHash _ _).setTag
  obtain ⟨t, ht, hli, hma, hbo, hs, hti⟩ := moveToTail_spec hcl (Masked.setTag h.masked) hb hr
  have hen : ∀ b, t.entry b = if b = blk then none else s.entry b := fun b =>
    (hs.entry b).trans (entry_setTag b)
  have hta : t.tagHash = update s.tagHash (s.keyOf blk) none := hs.tagHash
  refine ⟨t, ?_, ⟨hli, hma, fun k b => ?_,
    hs.clear (clear_setTag h.clear fun _ => rfl)⟩, hbo, hti, hen, hta, hs.hits⟩
  · rw [invalidate, if_neg (by rw [hh]; simp), if_neg (not_not.mpr hv), ht]
  · -- the erased key was the key of the block, and of no other
    rw [hta, hen]
    by_cases hk : k = s.keyOf blk
    · rw [hk]
      refine iff_of_false (by simp) fun hb' => ?_
      split at hb'
      · cases hb'
      next hn =>
        rw [← h.hashed, hh] at hb'
        exact hn (some.inj hb').symm
    · rw [update_of_ne hk, h.hashed]
      split
      next hn =>
        refine iff_of_false (fun hb' => hk ?_) (by simp)
        rw [hn] at hb'
        exact (entry_eq_some_iff.mp hb').2.symm
      next => exact Iff.rfl

theorem insertBlock_spec (h : Indexed s l) (hb : Bounded s l) (hr : l[r]? = some blk) (hr0 : r ≠ 0)
    (hou : ∀ i < p.numTrackedCaches, p.cap i ≤ r) (hnv : (s.blks blk).valid = false)
    (hmi : s.tagHash (key p addr secure) = none) :
    ∃ t, s.insertBlock addr secure blk = .ok t ∧ Indexed t (blk :: l.eraseIdx r) ∧
      (∀ i < p.numTrackedCaches, t.boundaries i = headBoundary p l r i) ∧
      (∀ b, t.entry b = if b = blk then some (key p addr secure) else s.entry b) ∧
      t.hits = s.hits := by
  have hms : (s.blks blk).inCachesMask = 0 := by
    refine BitVec.eq_of_getLsbD_eq fun i _ => ?_
    rw [h.masked r blk hr]
    refine (decide_eq_false fun hin => ?_).trans BitVec.getLsbD_zero.symm
    have := hou i hin.1
    omega
  have hsc := h.clear blk hnv
  have hta : Listed (s.setTag blk true (extractTag p addr) secure) l := h.listed.setTag
  obtain ⟨t, ht, hli, hma, hs, hbo⟩ := moveToHead_spec hta (Masked.setTag h.masked) hb hr
  have he : ∀ b, t.entry b = if b = blk then some (key p addr secure) else s.entry b := fun b =>
    (hs.entry b).trans (entry_setTag b)
  have hke : t.keyOf blk = key p addr secure := by
    have hse := he blk
    rw [if_pos rfl] at hse
    exact (entry_eq_some_iff.mp hse).2
  refine ⟨t.setHash (key p addr secure) (some blk), ?_, ⟨hli.setHash _ _, hma, fun k b => ?_,
    hs.clear (clear_setTag h.clear nofun)⟩, fun i hi => ?_, he, hs.hits⟩
  · rw [insertBlock, if_neg (not_not.mpr hms), if_neg (by simp [hnv]), hsc]
    refine bind_eq_ok.mpr ⟨t, ht, ?_⟩
    rw [hke]
  · have htg : (t.setHash (key p addr secure) (some blk)).tagHash =
        update s.tagHash (key p addr secure) (some blk) :=
      congrArg (update · _ _) hs.tagHash
    have he' : (t.setHash (key p addr secure) (some blk)).entry b =
        if b = blk then some (key p addr secure) else s.entry b := he b
    rw [htg, he']
    by_cases hk : k = key p addr secure
    · rw [hk, update_self]
      by_cases hn : b = blk
      · simp [hn]
      · rw [if_neg hn, ← h.hashed, hmi]
        refine iff_of_false (fun hb' => hn (some.inj hb').symm) nofun
    · rw [update_of_ne hk, h.hashed]
      by_cases hn : b = blk
      · rw [if_pos hn, hn, entry, hnv]
        refine iff_of_false nofun fun hb' => hk (some.inj hb').symm
      · rw [if_neg hn]
  · exact (hbo i hi).trans (if_neg hr0)

/-- **A fill** gives the tail the new key and makes it the head. -/
theorem fill_spec (h : Indexed s l) (hb : Bounded s l) (hm : s.tagHash (key p addr secure) = none) :
    ∃ t, s.fill addr secure = .ok t ∧ Indexed t (s.tail :: l.eraseIdx (p.numBlocks - 1)) ∧
      (∀ i < p.numTrackedCaches, t.boundaries i = headBoundary p l (p.numBlocks - 1) i) ∧
      (∀ b, t.entry b = if b = s.tail then some (key p addr secure) else s.entry b) ∧
      t.hits = s.hits := by
  have htwo := p.two_le_numBlocks
  have ho : ∀ i < p.numTrackedCaches, p.cap i ≤ p.numBlocks - 1 := fun i hi => by
    have := p.cap_lt hi
    omega
  by_cases hv : (s.blks s.tail).valid
  · obtain ⟨s', hs', hn, hbn, htai, he, hta, hh⟩ := invalidate_spec h hb h.listed.tail hv
    rw [eraseIdx_append_tail h.listed] at hn hbn
    have hnv : (s'.blks s.tail).valid = false := by
      have hno := he s.tail
      rw [if_pos rfl, entry] at hno
      by_contra hne
      rw [if_pos (Bool.eq_true_of_not_eq_false hne)] at hno
      cases hno
    have hm' : s'.tagHash (key p addr secure) = none := by
      rw [hta, update_apply]
      split
      · rfl
      · exact hm
    obtain ⟨t, ht, hn', hbo, he', hh'⟩ := insertBlock_spec hn hbn
      h.listed.tail (by omega) ho hnv hm'
    refine ⟨t, ?_, hn', hbo, fun b => ?_, hh'.trans hh⟩
    · rw [fill, findVictim, if_pos hv, hs']
      exact ht
    · rw [he', he]
      split <;> rfl
  · obtain ⟨t, ht, hn', hbo, he', hh'⟩ := insertBlock_spec h hb h.listed.tail
      (by omega) ho (Bool.eq_false_of_not_eq_true hv) hm
    refine ⟨t, ?_, hn', hbo, he', hh'⟩
    rw [fill, findVictim, if_neg hv]
    exact ht

theorem bounded_of_fill (hca : p.blkSize < p.minTrackedSize)
    (hbo : ∀ i < p.numTrackedCaches, t.boundaries i = headBoundary p l (p.numBlocks - 1) i)
    (b : Fin p.numBlocks) : Bounded t (b :: l.eraseIdx (p.numBlocks - 1)) := by
  intro i hi
  have htwo := p.two_le_cap hca i
  rw [hbo i hi, headBoundary, if_neg (by omega), show p.cap i - 1 = p.cap i - 2 + 1 by omega,
    getElem?_cons_succ]

/-! ### The initial state -/

/-- The masks and boundaries that the loop of `init` leaves when it starts at position `q`, with the
sizes below `j` behind it. -/
structure InitLoop (l : List (Fin p.numBlocks)) (q j : Nat)
    (masks masks' : Fin p.numBlocks → BitVec 32)
    (boundaries boundaries' : Nat → Option (Fin p.numBlocks)) : Prop where
  masks : ∀ q' b, l[q']? = some b → ∀ i, (masks' b).getLsbD i =
    if q ≤ q' then decide (i < p.numTrackedCaches ∧ q' < p.cap i) else (masks b).getLsbD i
  boundaries : ∀ i < p.numTrackedCaches,
    boundaries' i = if j ≤ i then l[p.cap i - 1]? else boundaries i

theorem InitLoop.masks_cons (hl : Listed s l) {q j : Nat} {inCachesMask : BitVec 32}
    {masks' : Fin p.numBlocks → BitVec 32} {boundaries' : Nat → Option (Fin p.numBlocks)}
    (hbl : l[q]? = some blk)
    (hse : ∀ i, inCachesMask.getLsbD i = decide (i < p.numTrackedCaches ∧ q < p.cap i))
    (h : InitLoop l (q + 1) j (update masks blk inCachesMask) masks' boundaries boundaries')
    (q' : Nat) (b : Fin p.numBlocks) (hb : l[q']? = some b) (i : Nat) : (masks' b).getLsbD i =
      if q ≤ q' then decide (i < p.numTrackedCaches ∧ q' < p.cap i) else (masks b).getLsbD i := by
  rw [h.masks q' b hb i]
  by_cases hqq : q' = q
  · obtain rfl : blk = b := by
      rw [hqq, hbl] at hb
      exact some.inj hb
    rw [if_neg (by omega), update_self, if_pos (by omega), hse, hqq]
  · rw [update_of_ne (hl.linked.index_ne hb hbl hqq)]
    by_cases hle : q ≤ q'
    · rw [if_pos (by omega), if_pos hle]
    · rw [if_neg (by omega), if_neg hle]

theorem trackInit_spec (hl : Listed s l) (fuel : Nat) : ∀ {q j : Nat} {inCachesMask : BitVec 32}
    (masks : Fin p.numBlocks → BitVec 32) (boundaries : Nat → Option (Fin p.numBlocks)),
    q + fuel = p.numBlocks → (∀ i < p.numTrackedCaches, p.cap i ≤ q ↔ i < j) →
    (∀ i, inCachesMask.getLsbD i = decide (i < p.numTrackedCaches ∧ j ≤ i)) →
    ∃ masks' boundaries', (s.retrack masks boundaries).trackInit fuel l[q]? (q * p.blkSize)
        (p.minTrackedSize <<< j) inCachesMask j = s.retrack masks' boundaries' ∧
      InitLoop l q j masks masks' boundaries boundaries' := by
  induction fuel with
  | zero =>
    intro q j inCachesMask masks boundaries hq hs hm
    refine ⟨masks, boundaries, rfl, fun q' b hq' i => ?_, fun i hi => ?_⟩
    · have := hl.index_lt hq'
      rw [if_neg (by omega)]
    · have hlt := p.cap_lt hi
      have hj := (hs i hi).mp (by omega)
      rw [if_neg (by omega)]
  | succ fuel ih =>
    intro q j inCachesMask masks boundaries hq hs hm
    obtain ⟨blk, hb⟩ := hl.exists_getElem (q := q) (by omega)
    have hsz : q * p.blkSize + p.blkSize = (q + 1) * p.blkSize := (succ_mul q p.blkSize).symm
    have hco : (q * p.blkSize + p.blkSize = p.minTrackedSize <<< j ∧ blk ≠ s.tail) ↔
        q + 1 = p.cap j ∧ q ≠ p.numBlocks - 1 := by
      rw [hsz, p.mul_blkSize_eq, Nat.mul_left_inj p.blkSize_pos.ne']
      refine and_congr_right fun _ => not_congr ⟨fun h => ?_, fun h => ?_⟩
      · exact index_unique hl.linked.nodup (h ▸ hb) hl.tail
      · exact some.inj (((h ▸ hb).symm).trans hl.tail)
    have hse : ∀ i, inCachesMask.getLsbD i = decide (i < p.numTrackedCaches ∧ q < p.cap i) := by
      intro i
      rw [hm]
      refine decide_eq_decide.mpr (and_congr_right fun hi => ?_)
      have := hs i hi
      omega
    rw [hb, trackInit, setMask_retrack]
    by_cases ha : q + 1 = p.cap j ∧ q ≠ p.numBlocks - 1
    · -- the block is the last one within the `j`-th size
      have hs' : ∀ i < p.numTrackedCaches, p.cap i ≤ q + 1 ↔ i < j + 1 := fun i hi => by
        have := p.cap_lt_iff (i := j) (j := i)
        omega
      have hm' : ∀ i, (inCachesMask &&& ~~~ (1#32 <<< j)).getLsbD i =
          decide (i < p.numTrackedCaches ∧ j + 1 ≤ i) := fun i => by
        grind
      obtain ⟨masks', boundaries', he, h⟩ := ih (update masks blk inCachesMask)
        (update boundaries j (some blk)) (by omega) hs' hm'
      refine ⟨masks', boundaries', ?_, h.masks_cons hl hb hse, fun i hi => ?_⟩
      · rw [← hl.next_eq hb, ← hsz, shiftLeft_add] at he
        exact (if_pos (hco.mpr ha)).trans he
      · rw [h.boundaries i hi]
        by_cases hj : i = j
        · rw [if_neg (by omega), if_pos (by omega), hj, update_self, ← ha.1, Nat.add_sub_cancel, hb]
        · rw [update_of_ne hj]
          by_cases hle : j ≤ i
          · rw [if_pos (by omega), if_pos hle]
          · rw [if_neg (by omega), if_neg hle]
    · have hs' : ∀ i < p.numTrackedCaches, p.cap i ≤ q + 1 ↔ i < j := fun i hi => by
        refine ⟨fun hle => ?_, fun hj => ((hs i hi).mpr hj).trans (le_succ q)⟩
        by_contra hge
        -- a size that ends at `q` is not before `j`, and the `j`-th does not end there
        have hq1 : p.cap i = q + 1 := by
          have := hs i hi
          omega
        have hlt := p.cap_lt hi
        by_cases hj : i = j
        · rw [hj] at hq1 hlt
          exact ha ⟨hq1.symm, by omega⟩
        · have hlt' := p.cap_lt_cap (i := j) (j := i) (by omega)
          have := hs j (by omega)
          omega
      obtain ⟨masks', boundaries', he, h⟩ := ih (update masks blk inCachesMask) boundaries
        (by omega) hs' hm
      refine ⟨masks', boundaries', ?_, h.masks_cons hl hb hse, h.boundaries⟩
      rw [← hl.next_eq hb, ← hsz] at he
      exact (if_neg fun hc => ha (hco.mp hc)).trans he

theorem linked_finRange (n : Nat) : Linked
    (fun b : Fin n => if hb : b.val + 1 < n then some ⟨b.val + 1, hb⟩ else none)
    (fun b : Fin n => if _ : 0 < b.val then some ⟨b.val - 1, by omega⟩ else none)
    (List.finRange n) := by
  have hg : ∀ {k : Nat} {x : Fin n}, (finRange n)[k]? = some x ↔ k = x.val := by
    intro k x
    rw [getElem?_eq_some_iff]
    constructor
    · rintro ⟨hk, rfl⟩
      simp
    · rintro rfl
      exact ⟨by simp, by simp⟩
  refine ⟨nodup_finRange n, ?_, ?_, ?_⟩
  · intro k x hx
    obtain rfl := hg.mp hx
    split
    next h => exact (hg.mpr rfl).symm
    next h => exact (getElem?_eq_none (by simpa using h)).symm
  · intro x hx
    have := hg.mp hx
    exact dif_neg (by omega)
  · intro k x hx
    have := hg.mp hx
    rw [dif_pos (by omega)]
    exact (hg.mpr (by simp; omega)).symm

theorem listed_linkBlks (h : 0 < p.numBlocks) :
    Listed (linkBlks h) (List.finRange p.numBlocks) := by
  refine ⟨linked_finRange p.numBlocks, length_finRange, ?_, ?_⟩
  all_goals
    rw [getElem?_eq_some_iff]
    exact ⟨by simp; omega, by simp [linkBlks]⟩

/-- **The initial state** is right, and empty. -/
theorem tagsInit_spec (h : 0 < p.numBlocks) : Indexed (tagsInit h) (List.finRange p.numBlocks) ∧
    Bounded (tagsInit h) (List.finRange p.numBlocks) ∧ (∀ b, (tagsInit h).entry b = none) ∧
    (tagsInit h).hits = fun _ => 0 := by
  have hl := listed_linkBlks h
  have hsi : ∀ i < p.numTrackedCaches, p.cap i ≤ 0 ↔ i < 0 := fun i _ => by
    have := p.cap_pos i
    omega
  have hms : ∀ i, p.inAllCachesMask.getLsbD i = decide (i < p.numTrackedCaches ∧ 0 ≤ i) :=
    fun i => by simp
  obtain ⟨masks, boundaries, heq, hlo⟩ := trackInit_spec hl p.numBlocks
    (fun b => ((linkBlks h).blks b).inCachesMask) (linkBlks h).boundaries (zero_add _) hsi hms
  have hta : tagsInit h = (linkBlks h).retrack masks boundaries := by
    rw [← heq, tagsInit, init, if_neg p.numTrackedCaches_pos.ne', zero_mul, hl.head]
    rfl
  rw [hta]
  refine ⟨⟨hl.retrack, fun q b hq i => ?_, fun k b => ?_, fun b _ => rfl⟩, fun i hi => ?_,
    fun b => rfl, rfl⟩
  · exact (hlo.masks q b hq i).trans (if_pos (zero_le q))
  · exact iff_of_false nofun nofun
  · exact (hlo.boundaries i hi).trans (if_pos (zero_le i))

/-! ### Runs -/

/-- **The tracking is right.** From head to tail the list is a permutation of the blocks, the mask of
a block says which sizes its position is within, and each boundary is the last block within its
size. -/
structure Tracks (s : FALRU p) : Prop where
  perm : s.order.Perm (List.finRange p.numBlocks)
  head : s.order.head? = some s.head
  tail : s.order.getLast? = some s.tail
  inCachesMask : ∀ q b, s.order[q]? = some b → ∀ i < p.numTrackedCaches,
    (s.blks b).inCachesMask.getLsbD i = true ↔ q * p.blkSize < p.minTrackedSize <<< i
  boundaries : ∀ i < p.numTrackedCaches, ∃ q b, s.boundaries i = some b ∧ s.order[q]? = some b ∧
    q * p.blkSize < p.minTrackedSize <<< i ∧ p.minTrackedSize <<< i ≤ (q + 1) * p.blkSize

theorem Listed.order_eq (h : Listed s l) : s.order = l := by
  rw [order, ← h.head, h.linked.follow_eq p.numBlocks 0 (by rw [h.length]; omega), drop_zero]

theorem tracks_of_bounded (h : Indexed s l) (hb : Bounded s l) : Tracks s := by
  have ho := h.listed.order_eq
  refine ⟨?_, ?_, ?_, fun q b hq i hi => ?_, fun i hi => ?_⟩
  · rw [ho]
    refine (perm_ext_iff_of_nodup h.listed.linked.nodup (nodup_finRange _)).mpr fun b => ?_
    exact iff_of_true (mem_iff_getElem?.mpr (h.listed.exists_index b)) (mem_finRange b)
  · rw [ho, head?_eq_getElem?, h.listed.head]
  · rw [ho, getLast?_eq_getElem?, h.listed.length, h.listed.tail]
  · rw [ho] at hq
    rw [h.masked q b hq i, p.mul_blkSize_lt_iff]
    simp [hi]
  · have hpo := p.cap_pos i
    obtain ⟨b, hl⟩ := h.listed.exists_getElem (q := p.cap i - 1) (by have := p.cap_lt hi; omega)
    refine ⟨p.cap i - 1, b, (hb i hi).trans hl, ho ▸ hl, ?_, ?_⟩
    · rw [p.mul_blkSize_lt_iff]
      omega
    · rw [p.mul_blkSize_eq, Nat.sub_add_cancel hpo]

theorem step_spec (hca : p.blkSize < p.minTrackedSize) {c : Call p} (h : Indexed s l)
    (hb : Bounded s l) (hc : s.Allowed c) :
    ∃ t l', s.step c = .ok t ∧ Indexed t l' ∧ Bounded t l' := by
  cases c with
  | access addr secure =>
    cases hf : s.tagHash (key p addr secure) with
    | none =>
      refine ⟨s.recordAccess none, l, ?_, h.recordAccess _, hb⟩
      rw [step, accessBlock_miss h hf]
      rfl
    | some b =>
      obtain ⟨r, hr⟩ := h.listed.exists_index b
      obtain ⟨t, ht, hi, hbo, -, -⟩ := accessBlock_hit hca h hb hf hr
      refine ⟨t, _, ?_, hi, hbo⟩
      rw [step, ht]
      rfl
  | fill addr secure =>
    obtain ⟨t, ht, hi, hbn, -, -⟩ := fill_spec h hb hc
    exact ⟨t, _, ht, hi, bounded_of_fill hca hbn _⟩
  | invalidate blk =>
    obtain ⟨r, hr⟩ := h.listed.exists_index blk
    obtain ⟨t, ht, hi, hbo, -, -, -, -⟩ := invalidate_spec h hb hr hc
    exact ⟨t, _, ht, hi, hbo⟩

theorem reachable_inv (hca : p.blkSize < p.minTrackedSize) (hs : (system p).Reachable s) :
    ∃ l, Indexed s l ∧ Bounded s l := by
  refine hs.invariant (fun s => ∃ l, Indexed s l ∧ Bounded s l) ?_ ?_
  · rintro _ ⟨h, rfl⟩
    obtain ⟨hi, hb, -, -⟩ := tagsInit_spec h
    exact ⟨_, hi, hb⟩
  · rintro s c s' ⟨l, hi, hb⟩ hc hst
    obtain ⟨t, l', ht, hi', hb'⟩ := step_spec hca hi hb hc
    obtain rfl : t = s' := Except.ok.inj (ht.symm.trans hst)
    exact ⟨l', hi', hb'⟩

/-! ### Traces -/

/-- The keys in the order of the list are the stack, and the blocks after them are invalid. -/
def Stacked (s : FALRU p) (l : List (Fin p.numBlocks)) (stack : List (Addr × Bool)) : Prop :=
  ∀ q : Nat, stack[q]? = l[q]?.bind s.entry

section

variable (h : Stacked s l stack)

include h

theorem Stacked.length_le (hl : Listed s l) : stack.length ≤ p.numBlocks := by
  have hn := h p.numBlocks
  rw [getElem?_eq_none hl.length.le] at hn
  exact getElem?_eq_none_iff.mp hn

theorem Stacked.mem_iff (hs : Indexed s l) : k ∈ stack ↔ s.tagHash k ≠ none := by
  rw [mem_iff_getElem?]
  constructor
  · rintro ⟨q, hq⟩
    rw [h q, bind_eq_some_iff] at hq
    obtain ⟨b, -, hb⟩ := hq
    rw [(hs.hashed k b).mpr hb]
    exact nofun
  · intro hn
    obtain ⟨b, hb⟩ := ne_none_iff_exists'.mp hn
    obtain ⟨q, hq⟩ := hs.listed.exists_index b
    exact ⟨q, by rw [h q, hq]; exact (hs.hashed k b).mp hb⟩

theorem Stacked.nodup (hs : Indexed s l) : stack.Nodup := by
  refine nodup_iff_getElem?_ne_getElem?.mpr fun i j hij hj heq => ?_
  have hk := getElem?_eq_getElem hj
  obtain ⟨b, hb, hbk⟩ := bind_eq_some_iff.mp ((h i).symm.trans (heq.trans hk))
  obtain ⟨c, hc, hck⟩ := bind_eq_some_iff.mp ((h j).symm.trans hk)
  -- one key has one block
  have hbc : b = c := some.inj (((hs.hashed _ b).mpr hbk).symm.trans ((hs.hashed _ c).mpr hck))
  have := index_unique hs.listed.linked.nodup (hbc ▸ hb) hc
  omega

theorem Stacked.recordAccess (b : Option (Fin p.numBlocks)) :
    Stacked (s.recordAccess b) l stack := h

theorem Stacked.hit (hs : Indexed s l) (hr : l[r]? = some blk) (hk : s.entry blk = some k)
    (ht : ∀ b, t.entry b = s.entry b) :
    Stacked t (blk :: l.eraseIdx r) (lruAccess p.numBlocks stack k) := by
  have hrk : stack[r]? = some k := by rw [h r, hr]; exact hk
  intro q
  rw [lruAccess_of_getElem? (h.nodup hs) (h.length_le hs.listed) hrk]
  cases q with
  | zero => exact (hk.symm.trans (ht blk).symm)
  | succ q =>
    rw [getElem?_cons_succ, getElem?_cons_succ, getElem?_eraseIdx, getElem?_eraseIdx]
    simp only [funext ht]
    split
    · exact h q
    · exact h (q + 1)

theorem Stacked.miss (hs : Indexed s l) (hk : k ∉ stack)
    (ht : ∀ b, t.entry b = if b = s.tail then some k else s.entry b) :
    Stacked t (s.tail :: l.eraseIdx (p.numBlocks - 1)) (lruAccess p.numBlocks stack k) := by
  have htwo := p.two_le_numBlocks
  intro q
  rw [lruAccess_of_notMem hk, getElem?_take]
  cases q with
  | zero =>
    rw [if_pos (by omega)]
    exact ((ht s.tail).trans (if_pos rfl)).symm
  | succ q =>
    rw [getElem?_cons_succ, getElem?_cons_succ, getElem?_eraseIdx]
    by_cases hq : q < p.numBlocks - 1
    · obtain ⟨b, hb⟩ := hs.listed.exists_getElem (q := q) (by omega)
      have hn : b ≠ s.tail := hs.listed.linked.index_ne hb hs.listed.tail (by omega)
      rw [if_pos (by omega), if_pos hq, h q, hb]
      exact ((ht b).trans (if_neg hn)).symm
    · rw [if_neg (by omega), if_neg hq, getElem?_eq_none (by rw [hs.listed.length]; omega)]
      rfl

end

/-- **One access of a trace** does to the keys what a cache of `numBlocks` blocks does. Each counter
counts it as that cache does. -/
theorem serve_spec (hc : p.blkSize < p.minTrackedSize) (h : Indexed s l) (hb : Bounded s l)
    (hst : Stacked s l stack) (a : Addr × Bool) : ∃ t l', s.serve a = .ok t ∧ Indexed t l' ∧
      Bounded t l' ∧ Stacked t l' (lruAccess p.numBlocks stack (key p a.1 a.2)) ∧
      ∀ i ≤ p.numTrackedCaches, t.hits i = s.hits i + lruHit stack (key p a.1 a.2) := by
  have hm := hst.mem_iff h (k := key p a.1 a.2)
  cases hf : s.tagHash (key p a.1 a.2) with
  | none =>
    have hn : key p a.1 a.2 ∉ stack := fun hin => hm.mp hin hf
    obtain ⟨t, ht, hid, hbo, hen, hh⟩ := fill_spec (h.recordAccess none) hb hf
    refine ⟨t, _, ?_, hid, bounded_of_fill hc hbo _,
      (hst.recordAccess none).miss (h.recordAccess none) hn hen, fun i hi => ?_⟩
    · rw [serve, accessBlock_miss h hf]
      exact ht
    · rw [hh, lruHit_of_notMem hn]
      simp [FALRU.recordAccess]
  | some b =>
    have hin : key p a.1 a.2 ∈ stack := hm.mpr (by rw [hf]; exact nofun)
    obtain ⟨r, hr⟩ := h.listed.exists_index b
    obtain ⟨t, ht, hid, hbn, hen, hh⟩ := accessBlock_hit hc h hb hf hr
    refine ⟨t, _, ?_, hid, hbn, hst.hit h hr ((h.hashed _ _).mp hf) hen, fun i hi => ?_⟩
    · rw [serve, ht]
      rfl
    · rw [hh i hi, lruHit_of_mem hin]

/-- **A trace**: every counter counts the hits of the whole store. -/
theorem serve_run (hca : p.blkSize < p.minTrackedSize) (trace : List (Addr × Bool)) :
    ∀ {s : FALRU p} {l : List (Fin p.numBlocks)} {stack : List (Addr × Bool)}, Indexed s l →
      Bounded s l → Stacked s l stack → ∃ t, trace.foldlM serve s = .ok t ∧
        ∀ i ≤ p.numTrackedCaches, t.hits i =
          s.hits i + lruHits p.numBlocks stack (trace.map fun a => key p a.1 a.2) := by
  induction trace with
  | nil =>
    intro s l stack _ _ _
    exact ⟨s, rfl, fun i _ => rfl⟩
  | cons a trace ih =>
    intro s l stack h hb hst
    obtain ⟨s', l', hse, h', hb', hst', hhi⟩ := serve_spec hca h hb hst a
    obtain ⟨t, ht, hr⟩ := ih h' hb' hst'
    refine ⟨t, ?_, fun i hi => ?_⟩
    · rw [foldlM_cons, hse]
      exact ht
    · rw [hr i hi, hhi i hi, map_cons, lruHits, add_assoc]

/-! ### When the store tracks smaller caches -/

/-- With a smallest size of one block, the first fill loses its boundary. -/
theorem exists_not_tracks (hca : ¬ p.blkSize < p.minTrackedSize) :
    ∃ s, (system p).Reachable s ∧ ¬ Tracks s := by
  have hp : 0 < p.numBlocks := by have := p.two_le_numBlocks; omega
  obtain ⟨h, hb, hem, -⟩ := tagsInit_spec hp
  have hm : (tagsInit hp).tagHash (key p 0 false) = none := by
    refine eq_none_iff_forall_ne_some.mpr fun b hb => ?_
    rw [h.hashed, hem] at hb
    cases hb
  obtain ⟨t, ht, -, hbo, -, -⟩ := fill_spec h hb hm
  refine ⟨t, .next (a := .fill 0 false) (.start ⟨hp, rfl⟩) hm ht, fun htr => ?_⟩
  obtain ⟨q, b, hb, -⟩ := htr.boundaries 0 p.numTrackedCaches_pos
  rw [hbo 0 p.numTrackedCaches_pos, headBoundary, if_pos (p.cap_zero_of_eq hca)] at hb
  cases hb

/-- **The tag store and smaller caches.** The tracking is right in every reachable state exactly when
the smallest tracked size is larger than a block, and then no call faults. On a trace of accesses, the
counter of a tracked size counts the hits of a cache of that size exactly when every hit of the store
is within the size. -/
theorem falru_tracks_smaller_caches (p : FALRUParams) :
    ((∀ s, (system p).Reachable s → Tracks s) ↔ p.blkSize < p.minTrackedSize) ∧
    (p.blkSize < p.minTrackedSize → (system p).FaultFree ∧
      ∀ (h : 0 < p.numBlocks) (trace : List (Addr × Bool)),
        ∃ s, trace.foldlM serve (tagsInit h) = .ok s ∧ ∀ i ≤ p.numTrackedCaches,
          (s.hits i = lruHits (p.cap i) [] (trace.map fun a => key p a.1 a.2) ↔
            ReuseWithin (p.cap i) p.numBlocks [] (trace.map fun a => key p a.1 a.2))) := by
  refine ⟨⟨fun hal => ?_, fun ha s hs => ?_⟩, fun ha => ⟨fun s c hs hc => ?_, fun h trace => ?_⟩⟩
  · by_contra ha
    obtain ⟨s, hs, hno⟩ := exists_not_tracks ha
    exact hno (hal s hs)
  · obtain ⟨l, hn, hb⟩ := reachable_inv ha hs
    exact tracks_of_bounded hn hb
  · obtain ⟨l, hn, hb⟩ := reachable_inv ha hs
    obtain ⟨t, -, ht, -, -⟩ := step_spec ha hn hb hc
    exact ⟨t, ht⟩
  · obtain ⟨hn, hb, hem, hz⟩ := tagsInit_spec h
    have hst : Stacked (tagsInit h) (finRange p.numBlocks) [] := fun q => by
      rw [funext hem]
      cases (finRange p.numBlocks)[q]? <;> rfl
    obtain ⟨s, hs, hhi⟩ := serve_run ha trace hn hb hst
    refine ⟨s, hs, fun i hi => ?_⟩
    have hl : p.cap i ≤ p.numBlocks := by
      rw [← p.cap_numTrackedCaches]
      obtain rfl | hlt := hi.eq_or_lt
      · exact le_rfl
      · exact (p.cap_lt_cap hlt).le
    rw [hhi i hi, hz, zero_add, ← lruHits_take_eq_iff hl, take_nil]
    exact eq_comm

def fourBlocks (min : Nat) (hmin : isPowerOf2 min := by decide) (hle : 64 ≤ min := by decide)
    (hlt : min < 256 := by decide) : FALRUParams where
  blkSize := 64
  minTrackedSize := min
  size := 256
  isPowerOf2_blkSize := by decide
  isPowerOf2_minTrackedSize := hmin
  isPowerOf2_size := by decide
  size_lt := by decide
  blkSize_le := hle
  minTrackedSize_lt := hlt

/-- The first of three blocks is used again: a cache of two blocks misses it and the counter of that
size is incremented. With a smallest size of one block, the first fill sets its boundary to null and
the second follows it. -/
theorem falru_miscounts_and_loses_boundary :
    Succeeds (fun s => s.hits 0 = 1)
      ([(0, false), (64, false), (128, false), (0, false)].foldlM serve
        (tagsInit (p := fourBlocks 128) (by decide))) ∧
    lruHits ((fourBlocks 128).cap 0) []
      ([(0, false), (64, false), (128, false), (0, false)].map fun a =>
        key (fourBlocks 128) a.1 a.2) = 0 ∧
    ∃ s : FALRU (fourBlocks 64), (system (fourBlocks 64)).Reachable s ∧ s.boundaries 0 = none ∧
      Faults .nullPointer (s.fill 64 false) := by
  refine ⟨by decide +kernel, by decide +kernel, ?_⟩
  exact System.Reachable.exists_of_leads [.fill 0 false] (.start ⟨by decide, rfl⟩)
    (by decide +kernel)

/-- The first of two blocks is used again, which a cache of two blocks counts too. -/
theorem falru_tracks_smaller_caches_two :
    (∀ s, (system (fourBlocks 128)).Reachable s → Tracks s) ∧
    (system (fourBlocks 128)).FaultFree ∧
    ∃ s : FALRU (fourBlocks 128), [(0, false), (64, false), (0, false)].foldlM serve
        (tagsInit (by decide)) = .ok s ∧ s.hits 0 = 1 := by
  obtain ⟨htr, hfa⟩ := falru_tracks_smaller_caches (fourBlocks 128)
  obtain ⟨hff, hhi⟩ := hfa (by decide)
  obtain ⟨s, hs, hco⟩ := hhi (by decide) [(0, false), (64, false), (0, false)]
  have hre : ReuseWithin ((fourBlocks 128).cap 0) (fourBlocks 128).numBlocks []
      ([(0, false), (64, false), (0, false)].map fun a => key (fourBlocks 128) a.1 a.2) :=
    And.intro (by decide +kernel) <| And.intro (by decide +kernel) <|
      And.intro (by decide +kernel) trivial
  refine ⟨htr.mpr (by decide), hff, s, hs, ?_⟩
  rw [(hco 0 (zero_le _)).mpr hre]
  decide +kernel

/-- **A lookup is exact**: it never fails, and finds the one valid block that has the line. -/
theorem findBlock_exact (ha : p.blkSize < p.minTrackedSize) (hs : (system p).Reachable s)
    (addr : Addr) (secure : Bool) :
    ∃ r, s.findBlock addr secure = .ok r ∧
      ∀ b, (s.blks b).valid ∧ s.keyOf b = key p addr secure ↔ r = some b := by
  obtain ⟨l, hn, -⟩ := reachable_inv ha hs
  refine ⟨_, findBlock_eq hn addr secure, fun b => ?_⟩
  rw [hn.hashed, entry]
  split <;> simp [*]

theorem findBlock_exact_filled :
    ∃ s : FALRU (fourBlocks 128), (system (fourBlocks 128)).Reachable s ∧
      Succeeds (·.isSome) (s.findBlock 0 false) ∧ ∃ r, s.findBlock 0 false = .ok r ∧
        ∀ b, (s.blks b).valid ∧ s.keyOf b = key (fourBlocks 128) 0 false ↔ r = some b :=
  System.Reachable.exists_and_of_leads [.fill 0 false] (.start ⟨by decide, rfl⟩)
    (by decide +kernel) fun _ hs => findBlock_exact (by decide) hs 0 false

end FALRU

end Gem5.Mem
