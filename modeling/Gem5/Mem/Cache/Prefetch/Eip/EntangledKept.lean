import Gem5.Mem.Cache.Prefetch.Eip.EntangledSound

/-!
# Gem5.Mem.Cache.Prefetch.Eip.EntangledKept

**What an insertion keeps.** A destination is added to the way of its line without
touching what the other slots name, except for the ones evicted, one by one, to make
room (`add_entangled_keeps`). A line without a way takes the one at the replacement
pointer, whose entry is copied first over one that is worth less, so that nothing
useful is lost while there is such an entry (`relocation_keeps`).
-/

namespace Gem5.Eip

open Gem5.Lib EntangledEntry EntangledSet Function

variable {t : EntangledTable}

/-! ### Finding what was added -/

namespace EntangledSet

variable {s : EntangledSet}

def entryOf (s : EntangledSet) (tag : Nat) : EntangledEntry :=
  if s.findWay tag = l1iEtWays then .fresh tag else s.ways (s.findWay tag)

/-- **The way of a tag** is found again after it was allocated and rewritten. -/
theorem entryOf_findOrAllocWay (hf : s.fifo < l1iEtWays) (tag : Nat) :
    let r := s.findOrAllocWay tag
    r.1.ways r.2 = s.entryOf tag ∧ ∀ e, e.tag = (r.1.ways r.2).tag →
      (r.1.setWay r.2 e).findWay tag = r.2 := by
  intro r
  have hfo : r.1.findWay tag = r.2 ∧ r.1.ways r.2 = s.entryOf tag := by
    unfold r findOrAllocWay entryOf
    dsimp only
    split
    · rename_i hmi
      have hab := tag_ne_realocate hf (tag_ne_of_findWay hmi)
      rw [l1iTryRealocateEvicted_fifo]
      simp only [findWay, setWay_ways, if_pos]
      refine ⟨firstBelow_eq hf (by simp [fresh]) fun i hi ht => ?_, trivial⟩
      by_contra hn
      rw [if_neg hn] at ht
      exact hab i hi (of_decide_eq_true ht)
    · exact ⟨rfl, rfl⟩
  refine ⟨hfo.2, fun e ht => ?_⟩
  refine (congrArg (firstBelow l1iEtWays) (funext fun i => ?_)).trans hfo.1
  rw [setWay_ways]
  split
  · rename_i hi; rw [hi, ht]
  · rfl

end EntangledSet

/-- **Adding a destination loses nothing but what it evicts.** Afterwards the line
has a way, one of whose slots holds the destination with full confidence and is
read back as the destination; the destinations of its other slots are as before;
and a slot loses its confidence only in a chain of evictions of destinations of
minimal confidence, each while the smallest format has no room. -/
theorem add_entangled_keeps (ht : TableInv t) {lineAddr entangledAddr : Nat}
    (hl : lineAddr < 2 ^ 58) (he : entangledAddr < 2 ^ 58) :
    ∃ t' k, l1iAddEntangledTable t lineAddr entangledAddr = .ok t' ∧
      l1iGetWayEntangledTable t' lineAddr < l1iEtWays ∧
      (l1iGetEntangledAddrEntangledTable t' lineAddr k).1 = entangledAddr ∧
      EntangledEntry.Stored ((t (entangledSet lineAddr)).entryOf (entangledTag lineAddr))
        ((t' (entangledSet lineAddr)).entryOf (entangledTag lineAddr)) lineAddr entangledAddr k := by
  have hs := ht _ (entangledSet_lt lineAddr)
  obtain ⟨hs', hw⟩ := hs.findOrAllocWay (entangledTag lineAddr)
  obtain ⟨hen, hf⟩ := entryOf_findOrAllocWay hs.fifo_lt (entangledTag lineAddr)
  obtain ⟨e', hok, -, hta, k, hst⟩ := addEntangled_spec (hs'.entry _ hw) hl he
  have hva : e'.Valid k := by rw [EntangledEntry.Valid, hst.conf]; decide
  refine ⟨_, k, l1iAddEntangledTable_eq_ok.mpr ⟨e', hok, rfl⟩, ?_⟩
  simp only [l1iGetEntangledAddrEntangledTable, l1iGetWayEntangledTable, entryOf,
    update_self, hf e' hta, if_neg (Nat.ne_of_lt hw), setWay_ways]
  refine ⟨hw, ?_, hen ▸ hst⟩
  rw [if_pos ⟨hw, hva⟩]
  exact hst.dest

/-- What the slots of line 5 name after the destinations were added. -/
def destinationsOf (adds : List Nat) : Except Fault (List Nat) := do
  let t ← adds.foldlM (l1iAddEntangledTable · 5) l1iInitEntangledTable
  return (List.finRange l1iMaxEntangledPerLine).map fun k =>
    (l1iGetEntangledAddrEntangledTable t 5 k).1

/-- Line 5 has two destinations of full confidence. A far one needs the format with room for
two: it takes the slot of the first, and the second keeps its own. -/
theorem add_entangled_keeps_evicts :
    (∃ t t' k, [7, 6].foldlM (l1iAddEntangledTable · 5) l1iInitEntangledTable = .ok t ∧
      l1iAddEntangledTable t 5 (2 ^ 25) = .ok t' ∧
      (l1iGetEntangledAddrEntangledTable t' 5 k).1 = 2 ^ 25 ∧
      EntangledEntry.Stored ((t (entangledSet 5)).entryOf (entangledTag 5))
        ((t' (entangledSet 5)).entryOf (entangledTag 5)) 5 (2 ^ 25) k) ∧
      destinationsOf [7, 6] = .ok [7, 6, 0, 0, 0, 0] ∧
      destinationsOf [7, 6, 2 ^ 25] = .ok [2 ^ 25, 6, 0, 0, 0, 0] := by
  have h5 : 5 < 2 ^ 58 := by decide
  obtain ⟨t₁, hok₁, ht₁⟩ := tableInv_init.l1iAddEntangledTable h5 (by decide : 7 < 2 ^ 58)
  obtain ⟨t, hok, ht⟩ := ht₁.l1iAddEntangledTable h5 (by decide : 6 < 2 ^ 58)
  obtain ⟨t', k, hok', -, hge, hst⟩ := add_entangled_keeps ht h5 (by decide : 2 ^ 25 < 2 ^ 58)
  have hall : [7, 6].foldlM (l1iAddEntangledTable · 5) l1iInitEntangledTable = .ok t :=
    bind_eq_ok.mpr ⟨t₁, hok₁, bind_eq_ok.mpr ⟨t, hok, rfl⟩⟩
  exact ⟨⟨t, t', k, hall, hok', hge, hst⟩, by decide +kernel, by decide +kernel⟩

/-! ### Relocation -/

namespace EntangledSet

variable {s : EntangledSet}

/-- **A miss** overwrites the way at the replacement pointer after the relocation. -/
theorem findOrAllocWay_of_miss {tag : Nat} (hmi : s.findWay tag = l1iEtWays) :
    (s.findOrAllocWay tag).2 = s.fifo ∧ ∀ j, j ≠ s.fifo →
      (s.findOrAllocWay tag).1.ways j = s.l1iTryRealocateEvicted.ways j := by
  unfold findOrAllocWay
  dsimp only
  rw [if_pos hmi, l1iTryRealocateEvicted_fifo]
  exact ⟨rfl, fun j hj => by rw [setWay_ways, if_neg hj]⟩

theorem exists_realocated (h : s.fifo < l1iEtWays)
    (hfl : ¬((s.ways s.fifo).destFree ∧ (s.ways s.fifo).bbSize = 0))
    {i : Nat} (hi : i < l1iEtWays) (hn : i ≠ s.fifo) (hsp : Spare (s.ways s.fifo) (s.ways i))
    {j : Nat} (hj : j < l1iEtWays) (hke : ¬Spare (s.ways s.fifo) (s.ways j)) :
    ∃ j' < l1iEtWays, j' ≠ s.fifo ∧ s.l1iTryRealocateEvicted.ways j' = s.ways j := by
  rcases l1iTryRealocateEvicted_spec s h with ⟨-, hem | hno⟩ | ⟨w, hw, hwn, hsp', hco⟩
  · exact absurd hem hfl
  · exact absurd hsp (hno i hi hn)
  · rw [hco]
    by_cases hjf : j = s.fifo
    · exact ⟨w, hw, hwn, by rw [setWay_ways, if_pos rfl, hjf]⟩
    · refine ⟨j, hj, hjf, ?_⟩
      rw [setWay_ways, if_neg]
      rintro rfl
      exact hke hsp'

end EntangledSet

/-- An insertion for the line: of a destination or of a basic-block size. -/
def Inserts (t t' : EntangledTable) (lineAddr : Nat) : Prop :=
  (∃ entangledAddr, l1iAddEntangledTable t lineAddr entangledAddr = .ok t') ∨
    ∃ bbSize, l1iAddBbsizeTable t lineAddr bbSize = .ok t'

theorem Inserts.exists_setWay {t' : EntangledTable} {lineAddr : Nat} (h : Inserts t t' lineAddr) :
    let r := (t (entangledSet lineAddr)).findOrAllocWay (entangledTag lineAddr)
    ∃ e, t' (entangledSet lineAddr) = r.1.setWay r.2 e := by
  rcases h with ⟨a, ho⟩ | ⟨bb, ho⟩
  · obtain ⟨e, -, rfl⟩ := l1iAddEntangledTable_eq_ok.mp ho
    exact ⟨e, update_self _ _ _⟩
  · unfold l1iAddBbsizeTable at ho
    split at ho
    · cases ho
      exact ⟨_, update_self _ _ _⟩
    · cases ho

/-- **Relocation loses no useful entry needlessly.** An insertion for a line
without a way keeps, in some way, every entry with a destination if the victim
has one and some way has none, and every entry with a basic-block size if the
victim has only that and some way has nothing. -/
theorem relocation_keeps {t' : EntangledTable} {lineAddr : Nat}
    (hfifo : (t (entangledSet lineAddr)).fifo < l1iEtWays)
    (hmiss : l1iGetWayEntangledTable t lineAddr = l1iEtWays) (hins : Inserts t t' lineAddr) :
    let s := t (entangledSet lineAddr)
    let s' := t' (entangledSet lineAddr)
    let victim := s.ways s.fifo
    ((∃ k, victim.Valid k) → (∃ i < l1iEtWays, ∀ k, ¬(s.ways i).Valid k) →
      ∀ i < l1iEtWays, (∃ k, (s.ways i).Valid k) → ∃ j < l1iEtWays, s'.ways j = s.ways i) ∧
    ((∀ k, ¬victim.Valid k) → victim.bbSize ≠ 0 →
      (∃ i < l1iEtWays, (∀ k, ¬(s.ways i).Valid k) ∧ (s.ways i).bbSize = 0) →
      ∀ i < l1iEtWays, (s.ways i).bbSize ≠ 0 → ∃ j < l1iEtWays, s'.ways j = s.ways i) := by
  intro s s' victim
  obtain ⟨hwa, hr⟩ := findOrAllocWay_of_miss hmiss
  obtain ⟨e, hse⟩ := hins.exists_setWay
  have hke : ∀ i, (∃ j < l1iEtWays, j ≠ s.fifo ∧ s.l1iTryRealocateEvicted.ways j = s.ways i) →
      ∃ j < l1iEtWays, s'.ways j = s.ways i := by
    rintro i ⟨j, hj, hn, heq⟩
    refine ⟨j, hj, ?_⟩
    rw [show s' = _ from hse, setWay_ways, if_neg (hwa ▸ hn), hr j hn, heq]
  refine ⟨fun ⟨k, hk⟩ ⟨i₀, hi₀, hf⟩ i hi ⟨k', hk'⟩ => hke i ?_,
    fun hde hsz ⟨i₀, hi₀, hf, hz⟩ i hi hbb => hke i ?_⟩
  · have hv : victim.destFree ≠ true := fun h => destFree_iff.mp h k hk
    refine exists_realocated hfifo (fun h => hv h.1) hi₀ ?_
      ⟨destFree_iff.mpr hf, fun h => absurd h hv⟩ hi
      fun h => destFree_iff.mp h.1 k' hk'
    rintro rfl
    exact hf k hk
  · refine exists_realocated hfifo (fun h => hsz h.2) hi₀ ?_ ⟨destFree_iff.mpr hf, fun _ => hz⟩ hi
      fun h => hbb (h.2 (destFree_iff.mpr hde))
    rintro rfl
    exact hsz hz

/-- A set whose victim has a destination, while the other ways have none. -/
def trainedSet : EntangledSet where
  ways i := { EntangledEntry.fresh (i + 1) with entangledConf := fun _ => if i = 0 then 1 else 0 }
  fifo := 0

/-- The victim moves when a basic block of line 5 is added. -/
theorem relocation_keeps_victim :
    ∃ t', l1iAddBbsizeTable (fun _ => trainedSet) 5 3 = .ok t' ∧
      ∃ j < l1iEtWays, (t' (entangledSet 5)).ways j = trainedSet.ways 0 :=
  ⟨_, rfl, (relocation_keeps (by decide) (by decide) (.inr ⟨3, rfl⟩)).1
    ⟨0, by decide⟩ ⟨1, by decide, by decide⟩ 0 (by decide) ⟨0, by decide⟩⟩

end Gem5.Eip
