import Gem5.Mem.Cache.ReplacementPolicies.Opt

/-!
# Gem5.Mem.Cache.ReplacementPolicies.OptSound

**The oracle policy against the clairvoyant one.** The one misses of a set are nested, and the one at
position `i` always has two blocks more than the `i` evictions made before it (`Pending`). The scan
keeps this (`Scan.Scanning`): it never erases a one miss from inside the evicts check, and what it
finds is what the optimal policy evicted (`OptSet.Kept.scan_chosen`).

The blocks of `in_cache` are then those that the optimal policy keeps for some future, and a touch
finds its block exactly when the optimal policy hits (`OptSet.founds_eq`), up to the assertion on the
number of these blocks.
-/

namespace Gem5.Mem

open Gem5.Base Gem5.Lib List Nat Scan Function

/-! ### One misses -/

/-- The one misses of a set: each has the blocks of those before it, and leaves a choice. -/
structure Pending (oms : List (List Addr)) : Prop where
  nodup : ∀ {i : Nat} {om}, oms[i]? = some om → om.Nodup
  nested : ∀ {i j : Nat} {om om'}, i ≤ j → oms[i]? = some om → oms[j]? = some om' → om ⊆ om'
  slack : ∀ {i : Nat} {om}, oms[i]? = some om → i + 2 ≤ om.length

theorem Pending.snoc {oms : List (List Addr)} {om : List Addr} (h : Pending oms) (hnd : om.Nodup)
    (hsu : ∀ om' ∈ oms, om' ⊆ om) (hsl : oms.length + 2 ≤ om.length) :
    Pending (oms ++ [om]) := by
  have hg : ∀ {i om'}, (oms ++ [om])[i]? = some om' →
      oms[i]? = some om' ∨ i = oms.length ∧ om' = om := fun {i om'} hi => by
    rw [getElem?_append] at hi
    split at hi
    next => exact .inl hi
    next hlen =>
      have hlt := (List.getElem?_eq_some_iff.mp hi).1
      rw [length_singleton] at hlt
      obtain rfl : i = oms.length := by omega
      exact .inr ⟨rfl, by simpa using hi.symm⟩
  refine ⟨fun hi => ?_, fun {i j om₁ om₂} hij hi hj => ?_, fun hi => ?_⟩
  · obtain hi | ⟨rfl, rfl⟩ := hg hi
    · exact h.nodup hi
    · exact hnd
  · obtain hj | ⟨rfl, rfl⟩ := hg hj
    · have hlt := (List.getElem?_eq_some_iff.mp hj).1
      rw [getElem?_append_left (by omega)] at hi
      exact h.nested hij hi hj
    · obtain hi | ⟨rfl, rfl⟩ := hg hi
      · exact hsu _ (mem_of_getElem? hi)
      · exact List.Subset.refl _
  · obtain hi | ⟨rfl, rfl⟩ := hg hi
    · exact h.slack hi
    · exact hsl

def strip (a : Addr) (evicts om : List Addr) : List Addr :=
  (om.filter (· ≠ a)).filter (· ∉ evicts)

theorem mem_strip {a b : Addr} {evicts om : List Addr} :
    b ∈ strip a evicts om ↔ b ∈ om ∧ b ≠ a ∧ b ∉ evicts := by
  simp only [strip, mem_filter, decide_eq_true_eq, and_assoc]

theorem nodup_strip {a : Addr} {evicts om : List Addr} (hom : om.Nodup) :
    (strip a evicts om).Nodup :=
  (hom.filter _).filter _

theorem strip_of_notMem {a : Addr} {om : List Addr} (h : a ∉ om) : strip a [] om = om := by
  rw [strip, filter_eq_self.mpr (by simp), filter_eq_self.mpr]
  intro b hb
  simpa using ne_of_mem_of_not_mem hb h

theorem erase_filter_eq_strip (a : Addr) (evicts : List Addr) {om : List Addr} (hom : om.Nodup) :
    (om.filter (· ∉ evicts)).erase a = strip a evicts om := by
  rw [(hom.filter _).erase_eq_filter, strip, filter_filter, filter_filter]
  refine filter_congr fun b _ => ?_
  by_cases hb : b = a
  · simp [hb]
  · simp [hb]

theorem length_filter_notMem {om evicts : List Addr} (hom : om.Nodup) (hev : evicts.Nodup)
    (hsu : evicts ⊆ om) : (om.filter (· ∉ evicts)).length + evicts.length = om.length := by
  have hpe : (om.filter (· ∈ evicts)).Perm evicts :=
    (perm_ext_iff_of_nodup (hom.filter _) hev).mpr fun b => by
      simpa using fun hb : b ∈ evicts => hsu hb
  rw [← hpe.length_eq, add_comm]
  have := length_eq_length_filter_add (l := om) (· ∈ evicts)
  simpa using this.symm

theorem foldl_erase_eq_filter {l evicts : List Addr} (h : l.Nodup) :
    evicts.foldl List.erase l = l.filter (· ∉ evicts) := by
  rw [← diff_eq_foldl, h.sdiff_eq_filter]

namespace Scan

/-! ### The evicts check -/

theorem evictsCheck_eq : ∀ {evicts om : List Addr} {possibleEvicts lastSize : Int}, om.Nodup →
    evicts.Nodup → evicts ⊆ om → evicts.length + 2 ≤ om.length →
    evictsCheck om possibleEvicts lastSize evicts = (om.filter (· ∉ evicts),
      possibleEvicts - evicts.length, lastSize - evicts.length, false) := by
  intro evicts
  induction evicts with
  | nil => intro om possibleEvicts lastSize _ _ _ _; simp [evictsCheck]
  | cons e es ih =>
    intro om possibleEvicts lastSize hom hev hs hle
    rw [nodup_cons] at hev
    rw [length_cons] at hle
    have he : e ∈ om := hs mem_cons_self
    have hera := length_erase_of_mem he
    have hre : es ⊆ om.erase e := fun b hb =>
      (mem_erase_of_ne (ne_of_mem_of_not_mem hb hev.1)).mpr (hs (mem_cons_of_mem _ hb))
    have hfl : (om.erase e).filter (· ∉ es) = om.filter (· ∉ e :: es) := by
      rw [hom.erase_eq_filter, filter_filter]
      refine filter_congr fun b _ => ?_
      by_cases hb : b = e
      · simp [hb]
      · simp [hb]
    have hcn : ∀ n : Int, n - 1 - es.length = n - (e :: es).length := fun n => by
      rw [length_cons]
      omega
    rw [evictsCheck, if_pos he, if_neg (by omega), ih (hom.erase e) hev.2 hre (by omega), hfl,
      hcn, hcn]

/-! ### The loop -/

variable {a : Addr} {oms : List (List Addr)} {c : Nat} {s r : Scan} {om : List Addr}

/-- The evictions found when `c` of the one misses are resolved: the blocks of the last of these but
the touched one. -/
structure Evicted (a : Addr) (oms : List (List Addr)) (c : Nat) (evicts : List Addr) : Prop where
  le : c ≤ oms.length
  nodup : evicts.Nodup
  length : evicts.length = c
  mem_iff : ∀ {i om}, c = i + 1 → oms[i]? = some om → ∀ b, b ∈ evicts ↔ b ∈ om ∧ b ≠ a

namespace Evicted

variable {evicts : List Addr}

section

variable (h : Evicted a oms c evicts)
include h

theorem exists_of_mem {b : Addr} (hb : b ∈ evicts) :
    ∃ i om, c = i + 1 ∧ oms[i]? = some om ∧ b ∈ om ∧ b ≠ a := by
  have hpo := length_pos_of_mem hb
  rw [h.length] at hpo
  obtain ⟨i, rfl⟩ : ∃ i, c = i + 1 := ⟨c - 1, by omega⟩
  have hom := getElem?_eq_getElem (lt_of_succ_le h.le)
  exact ⟨i, _, rfl, hom, (h.mem_iff rfl hom b).mp hb⟩

theorem touched_notMem : a ∉ evicts := fun ha => by
  obtain ⟨-, -, -, -, -, hn⟩ := h.exists_of_mem ha
  exact hn rfl

theorem subset (hp : Pending oms) {j : Nat} (hom : oms[c + j]? = some om) : evicts ⊆ om := by
  intro b hb
  obtain ⟨i, om', hc, hom', hme, -⟩ := h.exists_of_mem hb
  exact hp.nested (by omega) hom' hom hme

end

end Evicted

/-- The scan, with `c` of the one misses `oms` resolved. Those before `m` are stripped of the touched
block and of the evictions; those from `m` on are as they were. -/
structure Scanning (a : Addr) (oms : List (List Addr)) (c : Nat) (s : Scan) : Prop where
  m_le : s.m ≤ s.oneMisses.length
  left : c + s.oneMisses.length = oms.length
  evicted : Evicted a oms c s.newEvicts
  stripped : ∀ j < s.m, s.oneMisses[j]? = (oms[c + j]?).map (strip a s.newEvicts)
  rest : ∀ j, s.m ≤ j → s.oneMisses[j]? = oms[c + j]?
  slack : ∀ j < s.m, ∀ om, s.oneMisses[j]? = some om → j + 2 ≤ om.length
  first : s.m = 0 → s.possibleEvicts = 1 ∧ s.lastSize = 0
  counted : ∀ j, s.m = j + 1 → ∀ om, s.oneMisses[j]? = some om →
    s.possibleEvicts = om.length - j ∧ s.lastSize = om.length

section

variable (h : Scanning a oms c s)

include h

theorem Scanning.possibleEvicts_eq :
    s.possibleEvicts - 1 + (om.length - s.lastSize) = om.length - s.m := by
  cases hm : s.m with
  | zero =>
    obtain ⟨hpo, hl⟩ := h.first hm
    omega
  | succ j =>
    have hlt : j < s.oneMisses.length := by have := h.m_le; omega
    obtain ⟨hpo, hl⟩ := h.counted j hm _ (getElem?_eq_getElem hlt)
    omega

theorem Scanning.strip_next (ho : s.oneMisses[s.m]? = some om)
    (hsl : s.m + 2 ≤ (strip a s.newEvicts om).length) :
    Scanning a oms c { oneMisses := s.oneMisses.set s.m (strip a s.newEvicts om), m := s.m + 1,
                       possibleEvicts := (strip a s.newEvicts om).length - s.m,
                       lastSize := (strip a s.newEvicts om).length, newEvicts := s.newEvicts } := by
  have hlt := (List.getElem?_eq_some_iff.mp ho).1
  have hs := getElem?_set_self (a := strip a s.newEvicts om) hlt
  have hot : ∀ j ≠ s.m, (s.oneMisses.set s.m (strip a s.newEvicts om))[j]? = s.oneMisses[j]? :=
    fun j hj => getElem?_set_ne (hj.symm)
  refine ⟨by simpa using succ_le_of_lt hlt, by simpa using h.left, h.evicted, fun j hj => ?_,
    fun j hj => ?_, fun j hj om' ho' => ?_, fun hm => absurd hm (succ_ne_zero _),
    fun j hj om' ho' => ?_⟩
  · by_cases hjm : j = s.m
    · subst hjm
      rw [hs, ← h.rest _ le_rfl, ho]
      rfl
    · rw [hot j hjm]
      exact h.stripped j (by dsimp only at hj; omega)
  · dsimp only at hj
    rw [hot j (by omega)]
    exact h.rest j (by omega)
  · by_cases hjm : j = s.m
    · subst hjm
      rw [hs] at ho'
      cases ho'
      exact hsl
    · rw [hot j hjm] at ho'
      exact h.slack j (by dsimp only at hj; omega) om' ho'
  · obtain rfl : s.m = j := by simpa using hj
    rw [hs] at ho'
    cases ho'
    exact ⟨rfl, rfl⟩

theorem Scanning.resolve (hp : Pending oms) (ho : s.oneMisses[s.m]? = some om)
    (htig : (strip a s.newEvicts om).length = s.m + 1) :
    Scanning a oms (c + s.m + 1)
      { oneMisses := s.oneMisses.drop (s.m + 1), m := 0, possibleEvicts := 1, lastSize := 0,
        newEvicts := s.newEvicts ++ strip a s.newEvicts om } := by
  have hat : oms[c + s.m]? = some om := (h.rest s.m le_rfl).symm.trans ho
  have hlt := (List.getElem?_eq_some_iff.mp ho).1
  have hlef := h.left
  have han := h.evicted.touched_notMem
  refine ⟨zero_le _, ?_, ⟨by omega, ?_, ?_, fun {i om'} hi ho' b => ?_⟩,
    fun j hj => absurd hj (not_lt_zero j), fun j _ => ?_,
    fun j hj => absurd hj (not_lt_zero j), fun _ => ⟨rfl, rfl⟩, fun j hj => nomatch hj⟩
  · rw [length_drop]
    omega
  · exact h.evicted.nodup.append (nodup_strip (hp.nodup hat))
      fun b hb hb' => (mem_strip.mp hb').2.2 hb
  · rw [length_append, h.evicted.length]
    omega
  · obtain rfl : c + s.m = i := by omega
    obtain rfl : om = om' := Option.some.inj (hat.symm.trans ho')
    have hsub : b ∈ s.newEvicts → b ∈ om := fun hb => h.evicted.subset hp hat hb
    have hne : b ∈ s.newEvicts → b ≠ a := fun hb => ne_of_mem_of_not_mem hb han
    rw [mem_append, mem_strip]
    tauto
  · rw [getElem?_drop, h.rest _ (by omega)]
    congr 1
    omega

/-- **One iteration.** -/
theorem Scanning.step (hp : Pending oms) (ho : s.oneMisses[s.m]? = some om) :
    ∃ t c', body a s om = .ok t ∧ Scanning a oms c' t := by
  have hlt := (List.getElem?_eq_some_iff.mp ho).1
  have hat : oms[c + s.m]? = some om := (h.rest s.m le_rfl).symm.trans ho
  have hnd := hp.nodup hat
  have hsla := hp.slack hat
  have hs := h.evicted.subset hp hat
  have hev := h.evicted.length
  have han := h.evicted.touched_notMem
  have hle := length_filter_notMem hnd h.evicted.nodup hs
  have hbo : body a s om = crossOutCheck a
      { oneMisses := s.oneMisses.set s.m (om.filter (· ∉ s.newEvicts)), m := s.m,
        possibleEvicts := om.length - s.m - s.newEvicts.length,
        lastSize := om.length - s.newEvicts.length, newEvicts := s.newEvicts } := by
    simp only [body]
    rw [h.possibleEvicts_eq, evictsCheck_eq hnd h.evicted.nodup hs (by omega)]
    rfl
  have hse : (s.oneMisses.set s.m (om.filter (· ∉ s.newEvicts)))[s.m]? =
      some (om.filter (· ∉ s.newEvicts)) := getElem?_set_self hlt
  have hm : a ∈ om.filter (· ∉ s.newEvicts) ↔ a ∈ om := by simp [han]
  have hst := erase_filter_eq_strip a s.newEvicts hnd
  rw [hbo, crossOutCheck]
  simp only [hse, hm, hst, set_set, drop_set_of_lt (lt_succ_self s.m)]
  by_cases ha : a ∈ om
  · have her := length_erase_of_mem (hm.mpr ha)
    rw [hst] at her
    rw [if_pos ha]
    by_cases ht : (om.length : Int) - s.m - s.newEvicts.length - 1 = 1
    · rw [if_pos ht]
      exact ⟨_, _, rfl, h.resolve hp ho (by omega)⟩
    · rw [if_neg ht]
      have hnx := h.strip_next ho (by omega)
      refine ⟨_, c, rfl, ?_⟩
      convert hnx using 2 <;> omega
  · have hke : om.filter (· ∉ s.newEvicts) = strip a s.newEvicts om := by
      rw [← hst, erase_of_not_mem (mt hm.mp ha)]
    rw [if_neg ha]
    rw [hke] at hle ⊢
    have hnx := h.strip_next ho (by omega)
    refine ⟨_, c, rfl, ?_⟩
    convert hnx using 2 <;> omega

end

/-- What a scan over the one misses `oms` leaves when it has resolved `c` of them. -/
structure Resolved (a : Addr) (oms : List (List Addr)) (c : Nat) (r : Scan) : Prop where
  evicted : Evicted a oms c r.newEvicts
  oneMisses : r.oneMisses = (oms.drop c).map (strip a r.newEvicts)
  slack : ∀ j om, r.oneMisses[j]? = some om → j + 2 ≤ om.length

theorem Scanning.resolved (h : Scanning a oms c s) (hm : s.m = s.oneMisses.length) :
    Resolved a oms c s := by
  have hlef := h.left
  refine ⟨h.evicted, ext_getElem? fun j => ?_, fun j om hom => ?_⟩
  · rw [getElem?_map, getElem?_drop]
    by_cases hj : j < s.m
    · exact h.stripped j hj
    · rw [getElem?_eq_none (by omega), getElem?_eq_none (by omega)]
      rfl
  · have hj := (List.getElem?_eq_some_iff.mp hom).1
    exact h.slack j (by omega) om hom

/-- **The whole scan.** -/
theorem Scanning.run (hp : Pending oms) : ∀ {c : Nat} {s : Scan}, Scanning a oms c s →
    ∃ r c', Scan.run a s = .ok r ∧ Resolved a oms c' r := by
  intro c s
  fun_induction Scan.run a s generalizing c with
  | case1 s ho =>
    intro h
    exact ⟨s, c, rfl, h.resolved (le_antisymm h.m_le (getElem?_eq_none_iff.mp ho))⟩
  | case2 s om ho e hb =>
    intro h
    obtain ⟨t, c', ht, -⟩ := h.step hp ho
    rw [hb] at ht
    cases ht
  | case3 s om ho t hb ih =>
    intro h
    obtain ⟨t', c', ht, h'⟩ := h.step hp ho
    rw [hb] at ht
    cases ht
    exact ih h'

theorem exists_resolved (hp : Pending oms) (a : Addr) :
    ∃ r c, Scan.run a { oneMisses := oms } = .ok r ∧ Resolved a oms c r := by
  refine Scanning.run hp ⟨zero_le _, zero_add _,
    ⟨zero_le _, nodup_nil, rfl, fun h => absurd h (succ_ne_zero _).symm⟩,
    fun j hj => absurd hj (not_lt_zero j), fun j _ => ?_,
    fun j hj => absurd hj (not_lt_zero j), fun _ => ⟨rfl, rfl⟩, fun j hj => nomatch hj⟩
  rw [zero_add]

theorem Resolved.evicts_eq_nil (h : Resolved a oms c r) (hp : Pending oms) (ha : ∀ om ∈ oms, a ∉ om) :
    c = 0 ∧ r.newEvicts = [] ∧ r.oneMisses = oms := by
  have hle := h.evicted.length
  cases c with
  | zero =>
    have hn := length_eq_zero_iff.mp hle
    refine ⟨rfl, hn, ?_⟩
    rw [h.oneMisses]
    refine (map_congr_left fun om ho => ?_).trans (map_id _)
    rw [hn]
    exact strip_of_notMem (ha om ho)
  | succ i =>
    have hlt := lt_of_succ_le h.evicted.le
    have ho := getElem?_eq_getElem hlt
    have hsl := hp.slack ho
    have han := ha _ (mem_of_getElem? ho)
    have hpe : r.newEvicts.Perm oms[i] :=
      (perm_ext_iff_of_nodup h.evicted.nodup (hp.nodup ho)).mpr fun b => by
        rw [h.evicted.mem_iff rfl ho b]
        exact ⟨fun hb => hb.1, fun hb => ⟨hb, ne_of_mem_of_not_mem hb han⟩⟩
    rw [← hpe.length_eq] at hsl
    omega

theorem Resolved.pending (h : Resolved a oms c r) (hp : Pending oms) : Pending r.oneMisses := by
  have hg : ∀ {i om}, r.oneMisses[i]? = some om →
      ∃ om', oms[c + i]? = some om' ∧ strip a r.newEvicts om' = om := fun {i om} ho => by
    rw [h.oneMisses, getElem?_map, getElem?_drop, Option.map_eq_some_iff] at ho
    exact ho
  refine ⟨fun ho => ?_, fun {i j om om'} hij ho ho' => ?_, fun ho => h.slack _ _ ho⟩
  · obtain ⟨om', ho', rfl⟩ := hg ho
    exact nodup_strip (hp.nodup ho')
  · obtain ⟨om₁, ho₁, rfl⟩ := hg ho
    obtain ⟨om₂, ho₂, rfl⟩ := hg ho'
    intro b hb
    rw [mem_strip] at hb ⊢
    exact ⟨hp.nested (by omega) ho₁ ho₂ hb.1, hb.2⟩

end Scan

/-! ### The entries of a set -/

namespace OptSet

/-- **The invariant.** There is one block more than the ways for each one miss. -/
structure Kept (s : OptSet) : Prop where
  pending : Pending s.oneMisses
  nodup : s.inCache.Nodup
  subset : ∀ om ∈ s.oneMisses, om ⊆ s.inCache
  length_le : s.inCache.length ≤ numWays + s.oneMisses.length
  full : 0 < s.oneMisses.length → s.inCache.length = numWays + s.oneMisses.length

/-- The entries after a touch, with no assertion. -/
def next (s : OptSet) (a : Addr) : OptSet :=
  match Scan.run a { oneMisses := s.oneMisses } with
  | .error _ => s
  | .ok r =>
    if a ∈ s.inCache then
      { oneMisses := r.oneMisses, inCache := (s.inCache.filter (· ∉ r.newEvicts)).erase a ++ [a] }
    else
      { oneMisses := if s.inCache.length + 1 > numWays then r.oneMisses ++ [s.inCache] else r.oneMisses,
        inCache := s.inCache ++ [a] }

variable {s : OptSet} {a : Addr}

variable {r : Scan} {c : Nat}

section

variable (hr : Scan.run a { oneMisses := s.oneMisses } = .ok r)
include hr

theorem next_of_mem (ha : a ∈ s.inCache) :
    s.next a = { oneMisses := r.oneMisses,
                 inCache := (s.inCache.filter (· ∉ r.newEvicts)).erase a ++ [a] } := by
  rw [next, hr]
  exact if_pos ha

theorem next_of_notMem (ha : a ∉ s.inCache) :
    s.next a = { oneMisses := if s.inCache.length + 1 > numWays then r.oneMisses ++ [s.inCache]
                              else r.oneMisses,
                 inCache := s.inCache ++ [a] } := by
  rw [next, hr]
  exact if_neg ha

end

theorem Kept.notMem_oneMisses (h : Kept s) (ha : a ∉ s.inCache) : ∀ om ∈ s.oneMisses, a ∉ om :=
  fun om hom hme => ha (h.subset om hom hme)

/-- **A touch** finds the block exactly if it is in `in_cache` before, and fails exactly if more than
256 blocks are there after it. -/
theorem Kept.touch_eq (h : Kept s) (a : Addr) :
    s.touch a = if (s.next a).inCache.length > 256 then .error .assertion
      else .ok (s.next a, decide (a ∈ s.inCache)) := by
  obtain ⟨r, c, hr, hre⟩ := exists_resolved h.pending a
  have hme : a ∈ s.inCache.filter (· ∉ r.newEvicts) ↔ a ∈ s.inCache := by
    simp [hre.evicted.touched_notMem]
  simp only [touch, hr, foldl_erase_eq_filter h.nodup, hme, ok_bind]
  by_cases ha : a ∈ s.inCache
  · rw [next_of_mem hr ha]
    simp only [ha, decide_true, Bool.not_true, if_true]
    rfl
  · obtain ⟨rfl, hni, -⟩ := hre.evicts_eq_nil h.pending (h.notMem_oneMisses ha)
    rw [next_of_notMem hr ha]
    simp [ha, hni]

theorem perm_of_mem (hre : Scan.Resolved a s.oneMisses c r) (ha : a ∈ s.inCache) :
    ((s.inCache.filter (· ∉ r.newEvicts)).erase a ++ [a]).Perm
      (s.inCache.filter (· ∉ r.newEvicts)) := by
  have hme : a ∈ s.inCache.filter (· ∉ r.newEvicts) := by
    simpa [hre.evicted.touched_notMem] using ha
  exact perm_append_comm.trans (perm_cons_erase hme).symm

theorem Kept.next (h : Kept s) (a : Addr) : Kept (s.next a) := by
  obtain ⟨r, c, hr, he⟩ := exists_resolved h.pending a
  have hpn := he.pending h.pending
  have hlf : r.oneMisses.length = s.oneMisses.length - c := by
    rw [he.oneMisses, length_map, length_drop]
  have hle := h.length_le
  by_cases ha : a ∈ s.inCache
  · have hpe := perm_of_mem he ha
    have hln := length_filter_notMem h.nodup he.evicted.nodup fun b hb => by
      obtain ⟨i, om, -, ho, hme, -⟩ := he.evicted.exists_of_mem hb
      exact h.subset om (mem_of_getElem? ho) hme
    rw [he.evicted.length] at hln
    rw [next_of_mem hr ha]
    refine ⟨hpn, hpe.nodup_iff.mpr (h.nodup.filter _), fun om ho => ?_, ?_, fun hn => ?_⟩
    · rw [he.oneMisses, mem_map] at ho
      obtain ⟨om', ho', rfl⟩ := ho
      intro b hb
      obtain ⟨hb, -, hne⟩ := mem_strip.mp hb
      have hin := h.subset om' (mem_of_mem_drop ho') hb
      exact hpe.mem_iff.mpr (mem_filter.mpr ⟨hin, by simpa using hne⟩)
    · rw [hpe.length_eq, hlf]
      omega
    · have hfl := h.full (by dsimp only at hn; omega)
      dsimp only at hn ⊢
      rw [hpe.length_eq]
      omega
  · obtain ⟨rfl, -, hsa⟩ := he.evicts_eq_nil h.pending (h.notMem_oneMisses ha)
    have hnd : (s.inCache ++ [a]).Nodup := h.nodup.append (nodup_singleton a) (by simpa using ha)
    rw [next_of_notMem hr ha, hsa]
    by_cases hfl : s.inCache.length + 1 > numWays
    · simp only [if_pos hfl]
      have hln : s.inCache.length = numWays + s.oneMisses.length := by
        by_cases hp : 0 < s.oneMisses.length
        · exact h.full hp
        · omega
      refine ⟨h.pending.snoc h.nodup h.subset (by rw [hln]; simp only [numWays]; omega), hnd,
        fun om ho => ?_, ?_, fun _ => ?_⟩
      · obtain ho | ho := mem_append.mp ho
        · exact fun b hb => mem_append_left _ (h.subset om ho hb)
        · obtain rfl := mem_singleton.mp ho
          exact subset_append_left _ _
      · simp only [length_append, length_singleton]
        omega
      · simp only [length_append, length_singleton]
        omega
    · simp only [if_neg hfl]
      have hz : ¬ 0 < s.oneMisses.length := fun hp => by have := h.full hp; omega
      refine ⟨h.pending, hnd, fun om ho => ?_, ?_, fun hp => absurd hp hz⟩
      · exact fun b hb => mem_append_left _ (h.subset om ho hb)
      · simp only [length_append, length_singleton]
        omega

theorem kept_empty : Kept {} where
  pending := ⟨(nomatch ·), nofun, (nomatch ·)⟩
  nodup := nodup_nil
  subset _ h := nomatch h
  length_le := zero_le _
  full h := absurd h (lt_irrefl 0)

/-! ### Following the optimal policy -/

/-- **The simulation relation.** The blocks of the cache are those of `in_cache` without the evictions
that are chosen from the one misses. -/
def Follows (s : OptSet) (cache future : List Addr) : Prop :=
  cache.Nodup ∧ ∃ es, Chosen future [] s.oneMisses es ∧ ∀ b, b ∈ cache ↔ b ∈ s.inCache ∧ b ∉ es

variable {cache future es l : List Addr} {b : Addr}

section

variable (h : Kept s)

include h

theorem Kept.touch_chosen (hes : Chosen (a :: future) [] s.oneMisses es) :
    a ∉ es ∧ Chosen future [] (s.oneMisses.map (·.filter (· ≠ a))) es :=
  hes.touch fun i om hom _ => ⟨h.pending.nodup hom, by
    rw [length_nil, zero_add]
    exact h.pending.slack hom⟩

/-- **What a scan finds is what was evicted.** -/
theorem Kept.scan_chosen (he : Scan.Resolved a s.oneMisses c r)
    (hs : Chosen (a :: future) [] s.oneMisses es) :
    (∀ b, b ∈ r.newEvicts ↔ b ∈ es.take c) ∧ Chosen future [] r.oneMisses (es.drop c) := by
  obtain ⟨han, hcr⟩ := h.touch_chosen hs
  have hlen := hs.length_eq
  have hsu : es.take c ⊆ r.newEvicts := fun b hb => by
    obtain ⟨i, hi⟩ := mem_iff_getElem?.mp hb
    rw [getElem?_take] at hi
    split at hi
    next hic =>
      obtain ⟨-, om, hom, hbo⟩ := hs.getElem? hi
      obtain ⟨k, rfl⟩ : ∃ k, c = k + 1 := ⟨c - 1, by omega⟩
      have hk := getElem?_eq_getElem (lt_of_succ_le he.evicted.le)
      refine (he.evicted.mem_iff rfl hk b).mpr ⟨h.pending.nested (by omega) hom hk hbo, ?_⟩
      exact ne_of_mem_of_not_mem (mem_of_getElem? hi) han
    next => cases hi
  have hta : (es.take c).Perm r.newEvicts := by
    refine (subperm_of_subset (hs.nodup.sublist (take_sublist c es)) hsu).perm_of_length_le ?_
    rw [he.evicted.length, length_take]
    have := he.evicted.le
    omega
  have hm : ∀ b, b ∈ r.newEvicts ↔ b ∈ es.take c := fun b => hta.mem_iff.symm
  refine ⟨hm, ?_⟩
  have hrs := hcr.resolve hm
  rw [← map_drop, map_map] at hrs
  rw [he.oneMisses]
  exact hrs

section

variable (hf : Follows s cache (a :: future))
include hf

theorem Follows.mem_iff : a ∈ cache ↔ a ∈ s.inCache := by
  obtain ⟨-, es, hes, hme⟩ := hf
  rw [hme]
  exact and_iff_left (h.touch_chosen hes).1

theorem Follows.hit (ha : a ∈ s.inCache) : Follows (s.next a) cache future := by
  obtain ⟨hnd, es, hes, hme⟩ := hf
  obtain ⟨r, c, hr, hre⟩ := exists_resolved h.pending a
  obtain ⟨hev, hch⟩ := h.scan_chosen hre hes
  rw [next_of_mem hr ha]
  refine ⟨hnd, es.drop c, hch, fun b => ?_⟩
  have hspl : b ∈ es ↔ b ∈ es.take c ∨ b ∈ es.drop c := by
    rw [← mem_append, take_append_drop]
  rw [hme, (perm_of_mem hre ha).mem_iff, mem_filter, decide_eq_true_eq, hev]
  tauto

omit hf in
theorem Kept.length_lt_iff (hnd : cache.Nodup) (hes : Chosen future [] s.oneMisses es)
    (hm : ∀ b, b ∈ cache ↔ b ∈ s.inCache ∧ b ∉ es) :
    cache.length < numWays ↔ s.inCache.length < numWays := by
  have hpe : cache.Perm (s.inCache.filter (· ∉ es)) :=
    (perm_ext_iff_of_nodup hnd (h.nodup.filter _)).mpr fun b => by
      rw [hm, mem_filter, decide_eq_true_eq]
  have hle := length_filter_notMem h.nodup hes.nodup fun b hb => by
    obtain ⟨i, hi⟩ := mem_iff_getElem?.mp hb
    obtain ⟨-, om, hom, hm⟩ := hes.getElem? hi
    exact h.subset om (mem_of_getElem? hom) hm
  rw [← hpe.length_eq, ← hes.length_eq] at hle
  have hfl := h.full
  omega

theorem Follows.room (ha : a ∉ s.inCache) (hro : cache.length < numWays) :
    Follows (s.next a) (a :: cache) future := by
  have hnw := mt (hf.mem_iff h).mp ha
  obtain ⟨hnd, es, hes, hm⟩ := hf
  obtain ⟨r, c, hr, hre⟩ := exists_resolved h.pending a
  obtain ⟨rfl, -, -⟩ := hre.evicts_eq_nil h.pending (h.notMem_oneMisses ha)
  obtain ⟨-, hch⟩ := h.scan_chosen hre hes
  have han := (h.touch_chosen hes).1
  have hlt := (h.length_lt_iff hnd hes hm).mp hro
  rw [next_of_notMem hr ha, if_neg (by omega)]
  refine ⟨nodup_cons.mpr ⟨hnw, hnd⟩, es, hch, fun b => ?_⟩
  have hne : b = a → b ∉ es := fun hb => hb ▸ han
  rw [mem_cons, mem_append, mem_singleton, hm]
  tauto

/-- A miss in a full set: the victim is chosen from the blocks of `in_cache`. -/
theorem Follows.evict {v : Addr} (ha : a ∉ s.inCache) (hfl : numWays ≤ cache.length)
    (hv : IsFarthest future cache v) : Follows (s.next a) (a :: cache.erase v) future := by
  have hnw := mt (hf.mem_iff h).mp ha
  obtain ⟨hnd, es, hes, hm⟩ := hf
  obtain ⟨r, c, hr, hre⟩ := exists_resolved h.pending a
  obtain ⟨rfl, -, -⟩ := hre.evicts_eq_nil h.pending (h.notMem_oneMisses ha)
  obtain ⟨-, hch⟩ := h.scan_chosen hre hes
  have han := (h.touch_chosen hes).1
  have hlt := h.length_lt_iff hnd hes hm
  have hva : v ≠ a := ne_of_mem_of_not_mem hv.1 hnw
  have hfa : IsFarthest future (s.inCache.filter (· ∉ es)) v := by
    have hm' : ∀ b, b ∈ s.inCache.filter (· ∉ es) ↔ b ∈ cache := fun b => by
      rw [hm, mem_filter, decide_eq_true_eq]
    exact ⟨(hm' v).mpr hv.1, fun b hb => hv.2 b ((hm' b).mp hb)⟩
  rw [next_of_notMem hr ha, if_pos (by omega)]
  refine ⟨nodup_cons.mpr ⟨mt mem_of_mem_erase hnw, hnd.erase v⟩, es ++ [v],
    hch.snoc hfa, fun b => ?_⟩
  have hne : b = a → b ∉ es ∧ b ≠ v := fun hb => hb ▸ ⟨han, hva.symm⟩
  rw [mem_cons, hnd.mem_erase_iff, mem_append, mem_append, mem_singleton, mem_singleton, hm]
  tauto

end

end

theorem follows_empty : Follows {} [] future :=
  ⟨nodup_nil, [], trivial, fun _ => by simp⟩

/-! ### Runs -/

/-- Whether each touch finds its block, with no assertion. -/
def founds : OptSet → List Addr → List Bool
  | _, [] => []
  | s, a :: l => decide (a ∈ s.inCache) :: founds (s.next a) l

/-- **The blocks that are found are the hits of the optimal policy.** -/
theorem founds_eq : ∀ {trace : List Addr} {s : OptSet} {cache : List Addr} {hits : List Bool},
    Kept s → Follows s cache trace → BeladyRun numWays cache trace hits →
    founds s trace = hits := by
  intro trace
  induction trace with
  | nil => intro s cache hits _ _ hru; cases hru; rfl
  | cons a future ih =>
    intro s cache hits h hf hru
    have hif := hf.mem_iff h
    have hk := h.next a
    cases hru with
    | hit hm rest =>
      have ha := hif.mp hm
      rw [founds, ih hk (hf.hit h ha) rest, decide_eq_true ha]
    | room hm hro rest =>
      have ha := mt hif.mpr hm
      rw [founds, ih hk (hf.room h ha hro) rest, decide_eq_false ha]
    | evict hm hfl hv rest =>
      have ha := mt hif.mpr hm
      rw [founds, ih hk (hf.evict h ha hfl hv) rest, decide_eq_false ha]

/-- The entries after touches, with no assertion. -/
def after (s : OptSet) (l : List Addr) : OptSet :=
  l.foldl next s

theorem Kept.after (h : Kept s) (l : List Addr) : Kept (s.after l) := by
  induction l generalizing s with
  | nil => exact h
  | cons a l ih => exact ih (h.next a)

theorem founds_concat (b : Addr) : ∀ (s : OptSet) (l : List Addr),
    founds s (l ++ [b]) = founds s l ++ [decide (b ∈ (s.after l).inCache)] := by
  intro s l
  induction l generalizing s with
  | nil => rfl
  | cons a l ih => rw [cons_append, founds, founds, ih]; rfl

theorem Kept.mem_next (h : Kept s) (hb : b ∈ (s.next a).inCache) : b ∈ s.inCache ∨ b = a := by
  obtain ⟨r, c, hr, hre⟩ := exists_resolved h.pending a
  by_cases ha : a ∈ s.inCache
  · rw [next_of_mem hr ha, (perm_of_mem hre ha).mem_iff] at hb
    exact .inl (mem_filter.mp hb).1
  · rw [next_of_notMem hr ha] at hb
    simpa using hb

theorem Kept.mem_after (h : Kept s) (hb : b ∈ (s.after l).inCache) : b ∈ s.inCache ∨ b ∈ l := by
  induction l generalizing s with
  | nil => exact .inl hb
  | cons a l ih =>
    obtain hb | hb := ih (h.next a) hb
    · obtain hb | rfl := h.mem_next hb
      · exact .inl hb
      · exact .inr mem_cons_self
    · exact .inr (mem_cons_of_mem a hb)

theorem numWays_pos : 0 < numWays := by decide

/-- **`in_cache` has the blocks that some future keeps.** -/
theorem length_after (l : List Addr) :
    (after {} l).inCache.length = (retainable numWays l).length := by
  have hke := kept_empty.after l
  refine List.Perm.length_eq ((perm_ext_iff_of_nodup hke.nodup
    (l.nodup_dedup.filter _)).mpr fun b => ?_)
  have hhi := founds_eq kept_empty follows_empty (beladyRun_beladyHits numWays_pos (l ++ [b]) [])
  rw [mem_filter, ← hhi, founds_concat, getLast?_concat, decide_eq_true_eq,
    Option.some.injEq, decide_eq_true_eq, mem_dedup]
  refine ⟨fun hb => ⟨?_, hb⟩, fun hb => hb.2⟩
  obtain hb | hb := kept_empty.mem_after hb
  · exact absurd hb not_mem_nil
  · exact hb

theorem Kept.after_fresh (h : Kept s) (hl : (s.inCache ++ l).Nodup) :
    (s.after l).inCache = s.inCache ++ l := by
  induction l generalizing s with
  | nil => exact (append_nil _).symm
  | cons a l ih =>
    have ha : a ∉ s.inCache := fun ha =>
      (nodup_append.mp hl).2.2 a ha a mem_cons_self rfl
    obtain ⟨r, c, hr, hres⟩ := exists_resolved h.pending a
    have hnx : (s.next a).inCache = s.inCache ++ [a] := by rw [next_of_notMem hr ha]
    have hsp : s.inCache ++ a :: l = (s.next a).inCache ++ l := by rw [hnx]; simp
    rw [hsp] at hl ⊢
    exact ih (h.next a) hl

end OptSet

namespace OPT

open OptSet

variable {s : OPT} {ind : Fin 64}

theorem touch_eq (h : Kept (s.sets ind)) (tag : Addr) :
    s.touch ind tag = if ((s.sets ind).next (lineAddr ind tag)).inCache.length > 256
      then .error .assertion
      else .ok ({ sets := update s.sets ind ((s.sets ind).next (lineAddr ind tag)) },
        decide (lineAddr ind tag ∈ (s.sets ind).inCache)) := by
  rw [touch, h.touch_eq]
  split <;> rfl

/-- **A run** finds what it finds with no assertion, as long as no more than 256 blocks are kept. -/
theorem touches_eq : ∀ {tags : List Addr} {s : OPT}, Kept (s.sets ind) →
    (s.sets ind).inCache.length ≤ 256 → touches ind s tags =
      if ∀ n ≤ tags.length,
          ((s.sets ind).after ((tags.take n).map (lineAddr ind))).inCache.length ≤ 256
      then .ok (founds (s.sets ind) (tags.map (lineAddr ind))) else .error .assertion := by
  intro tags
  induction tags with
  | nil =>
    intro s _ hl
    rw [if_pos fun n hn => by rw [take_nil]; exact hl]
    rfl
  | cons tag tags ih =>
    intro s h hl
    have hke := h.next (lineAddr ind tag)
    rw [touches, touch_eq h]
    by_cases ho : ((s.sets ind).next (lineAddr ind tag)).inCache.length > 256
    · rw [if_pos ho, if_neg fun ha => absurd ho (not_lt.mpr (ha 1 (by simp)))]
      rfl
    · rw [if_neg ho]
      have hsp : (∀ n ≤ (tag :: tags).length,
          ((s.sets ind).after (((tag :: tags).take n).map (lineAddr ind))).inCache.length ≤ 256) ↔
          ∀ n ≤ tags.length, (((s.sets ind).next (lineAddr ind tag)).after
            ((tags.take n).map (lineAddr ind))).inCache.length ≤ 256 := by
        refine ⟨fun ha n hn => ha (n + 1) (succ_le_succ hn), fun ha n hn => ?_⟩
        cases n with
        | zero => exact hl
        | succ n => exact ha n (le_of_succ_le_succ hn)
      have hs : (update s.sets ind ((s.sets ind).next (lineAddr ind tag))) ind =
        (s.sets ind).next (lineAddr ind tag) := update_self ..
      have hre := ih (s := { sets := update s.sets ind _ }) (hs ▸ hke)
        (by dsimp only; rw [hs]; exact Nat.le_of_not_lt ho)
      simp only [hs] at hre
      simp only [hre, hsp, ok_bind]
      by_cases ha : ∀ n ≤ tags.length, (((s.sets ind).next (lineAddr ind tag)).after
          ((tags.take n).map (lineAddr ind))).inCache.length ≤ 256
      · rw [if_pos ha, if_pos ha]
        rfl
      · rw [if_neg ha, if_neg ha, error_bind]

/-- **The oracle policy follows the optimal one as long as at most 256 blocks are kept by some
future.** Otherwise the assertion fails. -/
theorem opt_follows_belady (ind : Fin 64) (tags : List Addr) (hits : List Bool)
    (hrun : BeladyRun numWays [] (tags.map (lineAddr ind)) hits) :
    (touches ind {} tags = .ok hits ↔
      ∀ n ≤ tags.length, (retainable numWays ((tags.take n).map (lineAddr ind))).length ≤ 256) ∧
    (touches ind {} tags ≠ .ok hits → touches ind {} tags = .error .assertion) := by
  have hfo := founds_eq kept_empty follows_empty hrun
  have ht := @touches_eq ind tags {} kept_empty (zero_le _)
  simp only [length_after, hfo] at ht
  rw [ht]
  split
  next hal => exact ⟨iff_of_true rfl hal, fun h => absurd rfl h⟩
  next hal => exact ⟨iff_of_false nofun hal, fun _ => rfl⟩

theorem opt_follows_belady_nine :
    BeladyRun numWays [] ([0, 1, 2, 3, 4, 5, 6, 7, 8, 0].map (lineAddr 5))
      (beladyHits numWays [] ([0, 1, 2, 3, 4, 5, 6, 7, 8, 0].map (lineAddr 5))) ∧
    (touches 5 {} [0, 1, 2, 3, 4, 5, 6, 7, 8, 0] =
        .ok (beladyHits numWays [] ([0, 1, 2, 3, 4, 5, 6, 7, 8, 0].map (lineAddr 5))) ↔
      ∀ n ≤ 10, (retainable numWays
        (([0, 1, 2, 3, 4, 5, 6, 7, 8, 0].take n).map (lineAddr 5))).length ≤ 256) :=
  ⟨beladyRun_beladyHits numWays_pos _ _,
    (opt_follows_belady 5 _ _ (beladyRun_beladyHits numWays_pos _ _)).1⟩

/-- 257 blocks of one set, and the last of them again. -/
def streamed : List Addr := (List.range 257).map (BitVec.ofNat 64) ++ [256]

/-- The optimal policy hits on the last touch, which is not reached. -/
theorem opt_aborts_on_stream :
    (beladyHits numWays [] (streamed.map (lineAddr 0))).getLast? = some true ∧
      touches 0 {} streamed = .error .assertion := by
  have hnd : (((range 257).map (BitVec.ofNat 64)).map (lineAddr 0)).Nodup := by
    decide +kernel
  have haf := kept_empty.after_fresh (l := ((range 257).map (BitVec.ofNat 64)).map (lineAddr 0)) hnd
  constructor
  · rw [← founds_eq kept_empty follows_empty (beladyRun_beladyHits numWays_pos _ _), streamed,
      map_append, map_singleton, founds_concat, getLast?_concat, haf]
    exact congrArg some (decide_eq_true (by decide +kernel))
  · rw [touches_eq kept_empty (zero_le _), if_neg fun hal => ?_]
    have hl := hal 257 (by simp [streamed])
    rw [streamed, take_left' (by simp), haf] at hl
    simp at hl

end OPT

end Gem5.Mem
