import Gem5.Base.AddrRangeMap
import Gem5.Base.AddrRangeOrder

/-!
# Gem5.Base.AddrRangeMapSound

**The range map as an interval map.** The entries of the tree are ordered: one ends before the next
starts, or both are stripes of the same bounds in the order of their match values (`Before`). Then the
entries next to the place of a range decide whether it is apart from all (`apart_of_findTree`), and the
entries that merge with the one before an address are those that can contain it
(`findTree_contains`).

The order is kept by calls that are `Regular`.
-/

namespace Gem5.Base

open Gem5.Lib List Except AddrRangeMap

namespace AddrRangeMap

open AddrRange

variable {V : Type} {tree : List (Entry V)} {r : AddrRange} {cond : Cond} {id : Nat}

/-! ### The tree -/

structure Ordered (tree : List (Entry V)) : Prop where
  before : tree.Pairwise fun e f => e.range.Before f.range
  bounds : ∀ e ∈ tree, e.range.start < e.range.endAddr

theorem upTo_append_beyond (tree : List (Entry V)) (r : AddrRange) :
    upTo tree r ++ beyond tree r = tree :=
  takeWhile_append_dropWhile

variable {e : Entry V} {a : Addr} {f : MapFault} {cache : List Nat} {m₀ : AddrRangeMap V}
  {res₀ : Option Nat} {c : Call V} {rest : List (Entry V)}

theorem not_lt_of_mem_upTo (h : e ∈ upTo tree r) : ¬ r.lt e.range := by
  simpa using mem_takeWhile_imp h

theorem mem_of_mem_upTo (h : e ∈ upTo tree r) : e ∈ tree := by
  rw [← upTo_append_beyond tree r]
  exact mem_append_left _ h

theorem mem_of_mem_beyond (h : e ∈ beyond tree r) : e ∈ tree := by
  rw [← upTo_append_beyond tree r]
  exact mem_append_right _ h

theorem lt_of_beyond_eq_cons {next : Entry V} (h : beyond tree r = next :: rest) :
    r.lt next.range := by
  have hhd := head?_dropWhile_not (fun e : Entry V => !r.lt e.range) tree
  rw [show tree.dropWhile _ = next :: rest from h] at hhd
  simpa using hhd

theorem Ordered.split (h : Ordered tree) (r : AddrRange) :
    ((upTo tree r).Pairwise fun e f => e.range.Before f.range) ∧
      ((beyond tree r).Pairwise fun e f => e.range.Before f.range) ∧
      ∀ e ∈ upTo tree r, ∀ f ∈ beyond tree r, e.range.Before f.range := by
  have hbe := h.before
  rwa [← upTo_append_beyond tree r, pairwise_append] at hbe

theorem Ordered.lt_of_mem_beyond (h : Ordered tree) {f : Entry V} (hf : f ∈ beyond tree r) :
    r.lt f.range := by
  have hp := (h.split r).2.1
  cases hb : beyond tree r with
  | nil =>
    rw [hb] at hf
    exact absurd hf not_mem_nil
  | cons next rest =>
    have hlt := lt_of_beyond_eq_cons hb
    rw [hb] at hf hp
    obtain rfl | hf := mem_cons.mp hf
    · exact hlt
    · refine lt_of_lt_of_before hlt ((pairwise_cons.mp hp).1 f hf) ?_
      exact h.bounds next (mem_of_mem_beyond (hb ▸ mem_cons_self))

/-! ### The search in the tree -/

/-- A search finds an entry of `l` that satisfies the condition, or fails in the test of one. -/
def Searched (cond : Cond) (l : List (Entry V)) : Except MapFault (Option Nat) → Prop :=
  Outcome (fun res => ∀ id, res = some id → ∃ e ∈ l, e.id = id ∧ cond e.range = .ok true)
    fun f => ∃ e ∈ l, ∃ g, f = .range g ∧ cond e.range = .error g

theorem Searched.mono {l l' : List (Entry V)} {x : Except MapFault (Option Nat)}
    (h : Searched cond l x) (hs : l ⊆ l') : Searched cond l' x := by
  refine h.imp (fun res hre id hid => ?_) fun f hf => ?_
  · obtain ⟨e, he, hfo⟩ := hre id hid
    exact ⟨e, hs he, hfo⟩
  · obtain ⟨e, he, hfa⟩ := hf
    exact ⟨e, hs he, hfa⟩

theorem searched_findBefore (cond : Cond) (l : List (Entry V)) :
    Searched cond l (findBefore cond l) := by
  induction l with
  | nil => exact nofun
  | cons i before ih =>
    unfold findBefore
    split
    next g hc => exact ⟨i, mem_cons_self, g, rfl, hc⟩
    next hc =>
      rintro id ⟨⟩
      exact ⟨i, mem_cons_self, rfl, hc⟩
    next =>
      cases before with
      | nil => exact nofun
      | cons next before =>
        dsimp only
        split
        · exact ih.mono (subset_cons_self i _)
        · exact nofun

theorem searched_findTree (tree : List (Entry V)) (r : AddrRange) (cond : Cond) :
    Searched cond tree (findTree tree r cond) := by
  have hbe : Searched cond tree (findBefore cond (upTo tree r).reverse) :=
    (searched_findBefore cond _).mono fun e he => mem_of_mem_upTo (mem_reverse.mp he)
  unfold findTree
  split
  next => exact hbe
  next next rest hb =>
    have hnx : next ∈ tree := mem_of_mem_beyond (hb ▸ mem_cons_self)
    split
    next g hc => exact ⟨next, hnx, g, rfl, hc⟩
    next hc =>
      rintro id ⟨⟩
      exact ⟨next, hnx, rfl, hc⟩
    next => exact hbe

theorem findTree_none (h : findTree tree r cond = .ok none) :
    (∀ next rest, beyond tree r = next :: rest → cond next.range = .ok false) ∧
      ∀ i before, (upTo tree r).reverse = i :: before → cond i.range = .ok false := by
  have hbe : findBefore cond (upTo tree r).reverse = .ok none →
      ∀ i before, (upTo tree r).reverse = i :: before → cond i.range = .ok false := by
    intro h i before hb
    rw [hb] at h
    unfold findBefore at h
    split at h
    next => cases h
    next => cases h
    next hc => exact hc
  unfold findTree at h
  split at h
  next hni => exact ⟨fun next rest hb => by simp [hni] at hb, hbe h⟩
  next next rest hb =>
    split at h
    next => cases h
    next => cases h
    next hc =>
      refine ⟨fun next' rest' hb' => ?_, hbe h⟩
      rw [hb] at hb'
      obtain ⟨rfl, -⟩ := cons.inj hb'
      exact hc

/-- **A range that is found not to intersect is apart from all entries.** -/
theorem apart_of_findTree (ho : Ordered tree) (hu : ∀ e ∈ tree, r.NoUnit e.range)
    (h : findTree tree r r.intersects = .ok none) : ∀ e ∈ tree, r.Apart e.range := by
  obtain ⟨hnx, hpv⟩ := findTree_none h
  obtain ⟨hpr, hp, -⟩ := ho.split r
  intro e he
  rw [← upTo_append_beyond tree r, mem_append] at he
  obtain he | he := he
  · cases hr : (upTo tree r).reverse with
    | nil =>
      rw [reverse_eq_nil_iff.mp hr] at he
      exact absurd he not_mem_nil
    | cons i before =>
      have hi : i ∈ upTo tree r := mem_reverse.mp (hr ▸ mem_cons_self)
      have ha := apart_of_intersects (hu i (mem_of_mem_upTo hi)) (hpv i before hr)
      have he' := mem_reverse.mpr he
      rw [← pairwise_reverse, hr, pairwise_cons] at hpr
      rw [hr] at he'
      obtain rfl | he' := mem_cons.mp he'
      · exact ha
      · exact ha.of_prev (not_lt_of_mem_upTo hi) (hpr.1 e he') (ho.bounds i (mem_of_mem_upTo hi))
  · cases hb : beyond tree r with
    | nil =>
      rw [hb] at he
      exact absurd he not_mem_nil
    | cons next rest =>
      have hm : next ∈ tree := mem_of_mem_beyond (hb ▸ mem_cons_self)
      have ha := apart_of_intersects (hu next hm) (hnx next rest hb)
      rw [hb] at he hp
      obtain rfl | he := mem_cons.mp he
      · exact ha
      · exact ha.of_next (lt_of_beyond_eq_cons hb) ((pairwise_cons.mp hp).1 e he)
          (ho.bounds next hm)

/-- The entries that are tried before the place of an address: those that merge with the nearest one,
among which is the one that contains the address. -/
theorem findBefore_contains : ∀ {l : List (Entry V)},
    (∀ e ∈ l, cond e.range = .ok (e.range.contains a)) →
    (l.Pairwise fun i e => e.range.Before i.range) → (∀ e ∈ l, e.range.start ≤ a) →
    ∀ e ∈ l, e.range.contains a → findBefore cond l = .ok (some e.id) := by
  intro l
  induction l with
  | nil => intro _ _ _ e he; exact absurd he not_mem_nil
  | cons i before ih =>
    intro hc hp hs e he ha
    rw [forall_mem_cons] at hc hs
    rw [pairwise_cons] at hp
    unfold findBefore
    rw [hc.1]
    obtain rfl | he := mem_cons.mp he
    · rw [ha]
    · have hlt := (contains_inBounds ha).2
      have hme : ∀ f : Entry V, f.range.start ≤ a → e.range.Before f.range →
          e.range.mergesWith f.range := fun f hf hb => by
        obtain hle | ⟨hm, -⟩ := hb
        · bv_omega
        · exact hm
      have hno : i.range.contains a = false := Bool.eq_false_of_not_eq_true fun hi =>
        (hp.1 e he).apart.not_meets ⟨a, ha, hi⟩
      rw [hno]
      cases before with
      | nil => exact absurd he not_mem_nil
      | cons next before =>
        have hnx : next.range.mergesWith i.range := by
          have hei := hme i hs.1 (hp.1 e he)
          obtain rfl | he' := mem_cons.mp he
          · exact hei
          · have hen := hme next (hs.2 next mem_cons_self) ((pairwise_cons.mp hp.2).1 e he')
            exact mergesWith_trans (mergesWith_symm hen) hei
        dsimp only
        rw [if_pos hnx]
        exact ih hc.2 hp.2 hs.2 e he ha

theorem findBefore_of_false : ∀ {l : List (Entry V)}, (∀ e ∈ l, cond e.range = .ok false) →
    findBefore cond l = .ok none := by
  intro l
  induction l with
  | nil => intro _; rfl
  | cons i before ih =>
    intro h
    rw [forall_mem_cons] at h
    unfold findBefore
    rw [h.1]
    cases before with
    | nil => rfl
    | cons next before =>
      dsimp only
      split
      · exact ih h.2
      · rfl

/-- **The search for an address finds the entry that contains it.** -/
theorem findTree_contains (ho : Ordered tree)
    (hc : ∀ e ∈ tree, cond e.range = .ok (e.range.contains a)) :
    ∃ res, findTree tree (rangeSize a 1) cond = .ok res ∧
      ∀ e ∈ tree, e.range.contains a → res = some e.id := by
  have hbe : ∀ e ∈ beyond tree (rangeSize a 1), e.range.contains a = false := fun e he => by
    refine Bool.eq_false_of_not_eq_true fun ha => ?_
    have hle := (contains_inBounds ha).1
    obtain hlt | ⟨-, hi, -⟩ := lt_iff.mp (ho.lt_of_mem_beyond he)
    · simp only [rangeSize] at hlt
      bv_omega
    · simp [interleaved, rangeSize] at hi
  have htr : findTree tree (rangeSize a 1) cond =
      findBefore cond (upTo tree (rangeSize a 1)).reverse := by
    unfold findTree
    split
    next => rfl
    next e rest hb =>
      have he : e ∈ beyond tree (rangeSize a 1) := hb ▸ mem_cons_self
      rw [hc e (mem_of_mem_beyond he), hbe e he]
  rw [htr]
  have hc' : ∀ e ∈ (upTo tree (rangeSize a 1)).reverse, cond e.range = .ok (e.range.contains a) :=
    fun e he => hc e (mem_of_mem_upTo (mem_reverse.mp he))
  have hfo : ∀ e ∈ tree, e.range.contains a →
      findBefore cond (upTo tree (rangeSize a 1)).reverse = .ok (some e.id) := fun e he ha => by
    have hup : e ∈ upTo tree (rangeSize a 1) := by
      rw [← upTo_append_beyond tree (rangeSize a 1), mem_append] at he
      refine he.resolve_right fun he => ?_
      rw [hbe e he] at ha
      cases ha
    exact findBefore_contains hc' (pairwise_reverse.mpr (ho.split _).1)
      (fun f hf => start_le_of_not_lt (not_lt_of_mem_upTo (mem_reverse.mp hf)))
      e (mem_reverse.mpr hup) ha
  by_cases hex : ∃ e ∈ tree, e.range.contains a
  · obtain ⟨e, he, ha⟩ := hex
    refine ⟨some e.id, hfo e he ha, fun f hf hfa => ?_⟩
    exact ok.inj ((hfo e he ha).symm.trans (hfo f hf hfa))
  · have hn : ∀ e ∈ tree, e.range.contains a = false := fun e he =>
      Bool.eq_false_of_not_eq_true fun ha => hex ⟨e, he, ha⟩
    refine ⟨none, findBefore_of_false fun e he => ?_, fun e he ha => absurd ⟨e, he, ha⟩ hex⟩
    rw [hc' e he, hn e (mem_of_mem_upTo (mem_reverse.mp he))]

/-! ### The cache -/

/-- **The invariant of the map.** -/
structure Sound (m : AddrRangeMap V) : Prop where
  before : m.tree.Pairwise fun e f => e.range.Before f.range
  nonempty : ∀ e ∈ m.tree, ∃ a, e.range.contains a
  granular : ∀ e ∈ m.tree, e.range.HasGranularity
  ids_nodup : (m.tree.map (·.id)).Nodup
  ids_lt : ∀ e ∈ m.tree, e.id < m.nextId
  live : ∀ c ∈ m.cache, c ∈ m.tree.map (·.id)

variable {m m' : AddrRangeMap V} {maxCacheSize : Int} {res p q : Option Nat}

theorem Sound.ordered (h : Sound m) : Ordered m.tree :=
  ⟨h.before, fun e he => by
    obtain ⟨a, ha⟩ := h.nonempty e he
    exact start_lt_of_contains ha⟩

theorem Sound.id_inj (h : Sound m) {f : Entry V} (he : e ∈ m.tree) (hf : f ∈ m.tree)
    (hid : e.id = f.id) : e = f :=
  inj_on_of_nodup_map h.ids_nodup he hf hid

theorem Sound.deref_live (h : Sound m) {c : Nat} (hc : c ∈ m.cache) :
    ∃ e ∈ m.tree, e.id = c ∧ deref m.tree c = some e := by
  obtain ⟨e, he, rfl⟩ := mem_map.mp (h.live c hc)
  cases hd : deref m.tree e.id with
  | none => exact absurd (find?_eq_none.mp hd e he) (by simp)
  | some f =>
    have hf : f ∈ m.tree := mem_of_find?_eq_some hd
    have hid : f.id = e.id := by simpa using find?_some hd
    exact ⟨e, he, rfl, by rw [h.id_inj hf he hid]⟩

theorem findCached_spec (cond : Cond) (h : Sound m) : ∀ {cache : List Nat}, (∀ c ∈ cache, c ∈ m.cache) →
    (∃ f e, e ∈ m.tree ∧ cond e.range = .error f ∧
      findCached m.tree cond cache = .error (.range f)) ∨
    (∃ e ∈ m.tree, e.id ∈ cache ∧ cond e.range = .ok true ∧
      findCached m.tree cond cache = .ok (some e.id)) ∨
    (findCached m.tree cond cache = .ok none) := by
  intro cache
  induction cache with
  | nil => intro _; exact .inr (.inr rfl)
  | cons c cache ih =>
    intro hs
    rw [forall_mem_cons] at hs
    obtain ⟨e, he, rfl, hd⟩ := h.deref_live hs.1
    rw [findCached, hd]
    dsimp only
    cases hc : cond e.range with
    | error f => exact .inl ⟨f, e, he, hc, rfl⟩
    | ok b =>
      cases b with
      | true => exact .inr (.inl ⟨e, he, mem_cons_self, hc, rfl⟩)
      | false =>
        obtain hf | ⟨e', he', hme, hce, hfo⟩ | hn := ih hs.2
        · exact .inl hf
        · exact .inr (.inl ⟨e', he', mem_cons_of_mem _ hme, hce, hfo⟩)
        · exact .inr (.inr hn)

theorem mem_addNewEntryToCache {it c : Nat}
    (h : c ∈ addNewEntryToCache maxCacheSize cache it) : c = it ∨ c ∈ cache := by
  unfold addNewEntryToCache at h
  split at h
  · split at h
    · obtain rfl | h := mem_cons.mp h
      · exact .inl rfl
      · exact .inr (mem_of_mem_dropLast h)
    · exact mem_cons.mp h
  · exact .inr h

def withCache (m : AddrRangeMap V) (cache : List Nat) : AddrRangeMap V :=
  { m with cache := cache }

/-- **What a lookup can do**: fail in a test, find an entry that satisfies the condition, or find none
in the tree. Only the cache changes, and its iterators stay valid. -/
theorem find_cases (maxCacheSize : Int) (h : Sound m) (r : AddrRange) (cond : Cond) :
    (∃ f, ∃ e ∈ m.tree, cond e.range = .error f ∧ m.find maxCacheSize r cond = .error (.range f)) ∨
    (∃ e ∈ m.tree, cond e.range = .ok true ∧ ∃ cache,
      m.find maxCacheSize r cond = .ok (some e.id, m.withCache cache) ∧
        ∀ c ∈ cache, c ∈ m.tree.map (·.id)) ∨
    (findTree m.tree r cond = .ok none ∧ m.find maxCacheSize r cond = .ok (none, m)) := by
  unfold find
  obtain ⟨f, e, he, hc, hf⟩ | ⟨e, he, hme, hc, hf⟩ | hf := findCached_spec cond h fun c hc => hc
  · exact .inl ⟨f, e, he, hc, by rw [hf]⟩
  · refine .inr (.inl ⟨e, he, hc, e.id :: m.cache.erase e.id, by rw [hf]; rfl, fun c hm => ?_⟩)
    obtain rfl | hm := mem_cons.mp hm
    · exact h.live _ hme
    · exact h.live c (mem_of_mem_erase hm)
  · rw [hf]
    have hs := searched_findTree m.tree r cond
    cases ht : findTree m.tree r cond with
    | error f =>
      rw [ht] at hs
      obtain ⟨e, he, g, rfl, hc⟩ := hs
      exact .inl ⟨g, e, he, hc, rfl⟩
    | ok res =>
      cases res with
      | none => exact .inr (.inr ⟨rfl, rfl⟩)
      | some id =>
        obtain ⟨e, he, rfl, hc⟩ := hs.of_ok ht id rfl
        refine .inr (.inl ⟨e, he, hc, _, rfl, fun c hm => ?_⟩)
        obtain rfl | hm := mem_addNewEntryToCache hm
        · exact mem_map_of_mem he
        · exact h.live c hm

theorem Sound.withCache (h : Sound m) (hc : ∀ c ∈ cache, c ∈ m.tree.map (·.id)) :
    Sound (m.withCache cache) :=
  { h with live := hc }

/-! ### Calls -/

/-- The calls on which the map can be relied on. A range that is inserted has addresses and, if it is
interleaved, a mask bit below 32. It and a range that is looked up are not tested against the first
address of an entry of size 1, and a range that is looked up intersects at most one entry. Of a range
of iterators that is erased, only the first may be cached. The last address is not looked up. -/
def Regular (m : AddrRangeMap V) : Call V → Prop
  | .insert r _ => (∃ a, r.contains a) ∧ r.HasGranularity ∧ ∀ e ∈ m.tree, r.NoUnit e.range
  | .eraseRange p q => ∀ e ∈ (between m.tree p q).tail, e.id ∉ m.cache
  | .contains a => a ≠ maxAddr
  | .intersects r => (∀ e ∈ m.tree, r.NoUnit e.range) ∧ ∀ e ∈ m.tree, ∀ f ∈ m.tree,
      r.intersects e.range = .ok true → r.intersects f.range = .ok true → e = f
  | _ => True

theorem Before.lt {e f : AddrRange} (h : e.Before f) (he : e.start < e.endAddr) : e.lt f := by
  rw [lt_iff]
  obtain hle | ⟨hm, hi, hlt⟩ := h
  · left
    bv_omega
  · exact .inr ⟨(mergesWith_iff.mp hm).1, hi, fun _ => hlt⟩

theorem insert_perm (tree : List (Entry V)) (r : AddrRange) (e : Entry V) :
    (upTo tree r ++ e :: beyond tree r).Perm (e :: tree) := by
  refine perm_middle.trans (List.Perm.cons _ ?_)
  rw [upTo_append_beyond]

theorem Sound.insertTree_eq (h : Sound m) (hr : r.start < r.endAddr)
    (hap : ∀ e ∈ m.tree, r.Apart e.range) (d : V) : m.insertTree r d =
      (some m.nextId, { m with tree := upTo m.tree r ++ ⟨m.nextId, r, d⟩ :: beyond m.tree r,
                               nextId := m.nextId + 1 }) := by
  unfold insertTree
  split
  next e he =>
    have hm := mem_of_getLast? he
    have htr := mem_of_mem_upTo hm
    have hbe := (hap e htr).before_of_not_lt (not_lt_of_mem_upTo hm) hr
    rw [if_pos (Before.lt hbe (h.ordered.bounds e htr))]
  next => rfl

theorem Sound.insertTree (h : Sound m) (hr : ∃ a, r.contains a) (hg : r.HasGranularity)
    (hap : ∀ e ∈ m.tree, r.Apart e.range) (d : V) : Sound (m.insertTree r d).2 := by
  have hlt : r.start < r.endAddr := hr.elim fun _ => start_lt_of_contains
  have hp := insert_perm m.tree r ⟨m.nextId, r, d⟩
  have hal : ∀ {P : Entry V → Prop}, P ⟨m.nextId, r, d⟩ → (∀ e ∈ m.tree, P e) →
      ∀ e ∈ upTo m.tree r ++ (⟨m.nextId, r, d⟩ : Entry V) :: beyond m.tree r, P e :=
    fun hne hol e he => by
      obtain rfl | he := mem_cons.mp (hp.mem_iff.mp he)
      · exact hne
      · exact hol e he
  obtain ⟨hpr, hpo, hcr⟩ := h.ordered.split r
  rw [h.insertTree_eq hlt hap]
  refine ⟨?_, hal hr h.nonempty, hal hg h.granular, ?_, hal (Nat.lt_succ_self _) fun e he =>
    Nat.lt_succ_of_lt (h.ids_lt e he), fun c hc => ?_⟩
  · refine pairwise_append.mpr ⟨hpr, pairwise_cons.mpr ⟨fun f hf => ?_, hpo⟩, fun e he f hf => ?_⟩
    · have hm := mem_of_mem_beyond hf
      exact (hap f hm).before_of_lt (h.ordered.lt_of_mem_beyond hf) (h.ordered.bounds f hm)
    · obtain rfl | hf := mem_cons.mp hf
      · exact (hap e (mem_of_mem_upTo he)).before_of_not_lt (not_lt_of_mem_upTo he) hlt
      · exact hcr e he f hf
  · refine (hp.map (·.id)).nodup_iff.mpr (nodup_cons.mpr ⟨fun hm => ?_, h.ids_nodup⟩)
    obtain ⟨e, he, hid⟩ := mem_map.mp hm
    exact absurd (h.ids_lt e he) (by simp [hid])
  · exact (hp.map (·.id)).mem_iff.mpr (mem_cons_of_mem _ (h.live c hc))

theorem Sound.filter (h : Sound m) (p : Entry V → Bool)
    (hc : ∀ c ∈ cache, c ∈ m.cache) (hp : ∀ e ∈ m.tree, e.id ∈ cache → p e) :
    Sound { m with tree := m.tree.filter p, cache := cache } := by
  refine ⟨h.before.filter p, fun e he => h.nonempty e (mem_of_mem_filter he),
    fun e he => h.granular e (mem_of_mem_filter he),
    h.ids_nodup.sublist (filter_sublist.map _),
    fun e he => h.ids_lt e (mem_of_mem_filter he), fun c hcc => ?_⟩
  obtain ⟨e, he, rfl⟩ := mem_map.mp (h.live c (hc c hcc))
  exact mem_map_of_mem (mem_filter.mpr ⟨he, hp e he hcc⟩)

theorem between_cons (h : between m.tree p q = e :: rest) : some e.id = p ∧ p ≠ q := by
  unfold between at h
  have hhd := head?_dropWhile_not (fun e : Entry V => decide (some e.id ≠ p)) m.tree
  cases hd : m.tree.dropWhile (fun e : Entry V => decide (some e.id ≠ p)) with
  | nil =>
    rw [hd] at h
    cases h
  | cons e' rest' =>
    rw [hd, takeWhile_cons] at h
    rw [hd] at hhd
    have hp : some e'.id = p := by simpa using hhd
    split at h
    next hq =>
      obtain ⟨rfl, -⟩ := cons.inj h
      exact ⟨hp, fun hpq => by simp [hp, hpq] at hq⟩
    next => cases h

theorem Sound.eraseRange (h : Sound m) (hr : ∀ e ∈ (between m.tree p q).tail, e.id ∉ m.cache) :
    Sound (m.eraseRange p q) := by
  have hs : ∀ c ∈ (if p ≠ q then m.cache.filter (some · ≠ p) else m.cache), c ∈ m.cache := by
    intro c hc
    split at hc
    · exact mem_of_mem_filter hc
    · exact hc
  refine h.filter _ hs fun e he hc => ?_
  rw [decide_eq_true_eq]
  intro hme
  obtain ⟨f, hf, hid⟩ := mem_map.mp hme
  cases hb : between m.tree p q with
  | nil =>
    rw [hb] at hf
    exact absurd hf not_mem_nil
  | cons first rest =>
    rw [hb] at hf hr
    obtain rfl | hf := mem_cons.mp hf
    · -- the first one is removed from the cache
      obtain ⟨hp, hpq⟩ := between_cons hb
      rw [if_pos hpq] at hc
      have hn := (mem_filter.mp hc).2
      rw [← hid, hp] at hn
      simp at hn
    · exact hr f hf (hid ▸ hs _ hc)

theorem intersects_error {e : AddrRange} {f : RangeFault} (h : r.intersects e = .error f) :
    f = .cannotTestIntersection r e := by
  unfold AddrRange.intersects at h
  split at h
  · cases h
  · split at h
    · cases h
    · split at h
      · cases h
      · split at h
        · cases h
        · exact (error.inj h).symm

/-- **What an insertion can do.** -/
theorem Sound.insert_cases (maxCacheSize : Int) (h : Sound m) (hu : ∀ e ∈ m.tree, r.NoUnit e.range) (d : V) :
    (∃ e ∈ m.tree, m.insert maxCacheSize r d =
      .error (.range (.cannotTestIntersection r e.range))) ∨
    (∃ e ∈ m.tree, r.intersects e.range = .ok true ∧ ∃ cache,
      m.insert maxCacheSize r d = .ok (none, m.withCache cache) ∧
        ∀ c ∈ cache, c ∈ m.tree.map (·.id)) ∨
    ((∀ e ∈ m.tree, r.Apart e.range) ∧ findTree m.tree r r.intersects = .ok none ∧
      m.insert maxCacheSize r d = .ok (m.insertTree r d)) := by
  unfold insert intersects
  obtain ⟨f, e, he, hc, hf⟩ | ⟨e, he, hc, cache, hf, hli⟩ | ⟨ht, hf⟩ :=
    find_cases maxCacheSize h r r.intersects
  · exact .inl ⟨e, he, by rw [hf, intersects_error hc]⟩
  · exact .inr (.inl ⟨e, he, hc, cache, by rw [hf], hli⟩)
  · exact .inr (.inr ⟨apart_of_findTree h.ordered hu ht, ht, by rw [hf]⟩)

def Answer (m : AddrRangeMap V) : Call V → Option Nat → AddrRangeMap V → Prop
  | .insert r d, res, m' => (res.isSome ↔ ∀ e ∈ m.tree, ¬ r.Meets e.range) ∧
      (∀ id, res = some id → m'.tree.Perm (⟨id, r, d⟩ :: m.tree)) ∧
      (res = none → m'.tree = m.tree)
  | .contains a, res, m' => (∀ e ∈ m.tree, e.range.contains a → res = some e.id) ∧
      ((∀ e ∈ m.tree, ¬ e.range.contains a) → res = none) ∧ m'.tree = m.tree
  | .intersects r, res, m' =>
    (∀ id, res = some id → ∃ e ∈ m.tree, e.id = id ∧ r.intersects e.range = .ok true) ∧
    (res = none → ∀ e ∈ m.tree, r.Apart e.range) ∧ m'.tree = m.tree
  | _, _, _ => True

section

variable (h : Sound m) {d : V}

include h

theorem Sound.isSubset (ha : a ≠ maxAddr) :
    ∀ e ∈ m.tree, (rangeSize a 1).isSubset e.range = .ok (e.range.contains a) :=
  fun e he => isSubset_rangeSize ha (h.nonempty e he) (h.granular e he)

theorem Sound.disjoint : m.tree.Pairwise fun e f => ¬ e.range.Meets f.range :=
  h.before.imp fun hb => hb.apart.not_meets

theorem Sound.eq_of_contains {f : Entry V} (he : e ∈ m.tree) (hf : f ∈ m.tree)
    (hea : e.range.contains a) (hfa : f.range.contains a) : e = f := by
  by_contra hn
  have hsym : Std.Symm fun e f : Entry V => ¬ e.range.Meets f.range :=
    ⟨fun e f h ⟨a, hf, he⟩ => h ⟨a, he, hf⟩⟩
  exact h.disjoint.forall he hf hn ⟨a, hea, hfa⟩

theorem Sound.insert (hre : m.Regular (.insert r d))
    (hc : m.insert maxCacheSize r d = .ok (res, m')) :
    Sound m' ∧ m.Answer (.insert r d) res m' := by
  obtain ⟨hr, hg, hu⟩ := hre
  obtain ⟨e, he, hi⟩ | ⟨e, he, ht, cache, hi, hli⟩ | ⟨hap, -, hi⟩ :=
    h.insert_cases maxCacheSize hu d
  · rw [hi] at hc
    cases hc
  · rw [hi] at hc
    cases hc
    have hme := meets_of_intersects (hu e he) hr (h.nonempty e he) ht
    exact ⟨h.withCache hli, iff_of_false (by simp) fun hal => hal e he hme, nofun, fun _ => rfl⟩
  · rw [hi] at hc
    have hlt : r.start < r.endAddr := hr.elim fun _ => start_lt_of_contains
    have hs := h.insertTree hr hg hap d
    rw [h.insertTree_eq hlt hap d] at hc hs
    cases hc
    refine ⟨hs, iff_of_true rfl fun e he => (hap e he).not_meets, fun id hid => ?_, nofun⟩
    cases hid
    exact insert_perm m.tree r _

theorem Sound.contains (ha : a ≠ maxAddr) (hc : m.contains maxCacheSize a = .ok (res, m')) :
    Sound m' ∧ m.Answer (.contains a) res m' := by
  have hco := h.isSubset ha
  rw [AddrRangeMap.contains] at hc
  obtain ⟨f, e, he, hce, -⟩ | ⟨e, he, hce, cache, hfi, hli⟩ | ⟨ht, hfi⟩ :=
    find_cases maxCacheSize h (rangeSize a 1) (rangeSize a 1).isSubset
  · rw [hco e he] at hce
    cases hce
  · rw [hfi] at hc
    cases hc
    rw [hco e he] at hce
    have hea := ok.inj hce
    exact ⟨h.withCache hli, fun f hf hfa => by rw [h.eq_of_contains he hf hea hfa],
      fun hn => absurd hea (hn e he), rfl⟩
  · rw [hfi] at hc
    cases hc
    obtain ⟨res, hr, hin⟩ := findTree_contains h.ordered hco
    rw [ht] at hr
    cases hr
    exact ⟨h, hin, fun _ => rfl, rfl⟩

theorem Sound.intersects (hu : ∀ e ∈ m.tree, r.NoUnit e.range)
    (hc : m.intersects maxCacheSize r = .ok (res, m')) :
    Sound m' ∧ m.Answer (.intersects r) res m' := by
  rw [AddrRangeMap.intersects] at hc
  obtain ⟨f, e, he, hce, hf⟩ | ⟨e, he, hce, cache, hf, hli⟩ | ⟨ht, hf⟩ :=
    find_cases maxCacheSize h r r.intersects
  · rw [hf] at hc
    cases hc
  · rw [hf] at hc
    cases hc
    exact ⟨h.withCache hli, fun id hid => ⟨e, he, Option.some.inj hid, hce⟩, nofun, rfl⟩
  · rw [hf] at hc
    cases hc
    exact ⟨h, nofun, fun _ => apart_of_findTree h.ordered hu ht, rfl⟩

/-- **A call keeps the invariant and returns what it should.** -/
theorem Sound.call (hr : m.Regular c) (hc : m.call maxCacheSize c = .ok (res, m')) :
    Sound m' ∧ m.Answer c res m' := by
  cases c with
  | insert r d => exact h.insert hr hc
  | erase p =>
    cases hc
    refine ⟨h.filter _ (fun c hc => mem_of_mem_filter hc) fun e _ hme => ?_, trivial⟩
    simpa using (mem_filter.mp hme).2
  | eraseRange p q =>
    cases hc
    exact ⟨h.eraseRange hr, trivial⟩
  | clear =>
    cases hc
    exact ⟨⟨.nil, by simp [clear], by simp [clear], nodup_nil,
      by simp [clear], by simp [clear]⟩, trivial⟩
  | contains a => exact h.contains hr hc
  | intersects r => exact h.intersects hr.1 hc

theorem find_error (hf : m.find maxCacheSize r cond = .error f) :
    ∃ e ∈ m.tree, ∃ g, f = .range g ∧ cond e.range = .error g := by
  obtain ⟨g, e, he, hc, hi⟩ | ⟨e, he, -, cache, hi, -⟩ | ⟨-, hi⟩ := find_cases maxCacheSize h r cond
  · rw [hi] at hf
    exact ⟨e, he, g, (error.inj hf).symm, hc⟩
  · rw [hi] at hf
    cases hf
  · rw [hi] at hf
    cases hf

/-- **A call fails only in a test of an intersection.** -/
theorem Sound.call_error (hre : m.Regular c) (hc : m.call maxCacheSize c = .error f) :
    ∃ r s, f = .range (.cannotTestIntersection r s) := by
  have hin : ∀ r, m.find maxCacheSize r r.intersects = .error f →
      ∃ r s, f = .range (.cannotTestIntersection r s) := fun r hf => by
    obtain ⟨e, he, g, rfl, hce⟩ := find_error h hf
    exact ⟨r, e.range, by rw [intersects_error hce]⟩
  cases c with
  | insert r d =>
    refine hin r ?_
    rw [AddrRangeMap.call, AddrRangeMap.insert] at hc
    split at hc
    next f' hf =>
      rw [← error.inj hc]
      exact hf
    next => cases hc
    next => cases hc
  | erase p => cases hc
  | eraseRange p q => cases hc
  | clear => cases hc
  | contains a =>
    obtain ⟨e, he, g, -, hce⟩ := find_error h hc
    rw [h.isSubset hre e he] at hce
    cases hce
  | intersects r => exact hin r hc

/-! ### Without the cache -/

omit h in
theorem find_uncached (m : AddrRangeMap V) (r : AddrRange) (cond : Cond) :
    (m.withCache []).find 0 r cond =
      (findTree m.tree r cond).map fun res => (res, m.withCache []) := by
  unfold find withCache
  cases findTree m.tree r cond with
  | error f => rfl
  | ok res => cases res <;> rfl

omit h in
theorem insertTree_withCache (m : AddrRangeMap V) (cache : List Nat) (r : AddrRange) (d : V) :
    (m.withCache cache).insertTree r d =
      ((m.insertTree r d).1, (m.insertTree r d).2.withCache cache) := by
  unfold insertTree withCache
  cases (upTo m.tree r).getLast? with
  | none => rfl
  | some e =>
    dsimp only
    split <;> rfl

theorem Sound.find_eq_uncached
    (hco : findTree m.tree r cond = .ok none → ∀ e ∈ m.tree, cond e.range ≠ .ok true)
    (hun : ∀ e ∈ m.tree, ∀ f ∈ m.tree, cond e.range = .ok true → cond f.range = .ok true → e = f)
    (hc : m.find maxCacheSize r cond = .ok (res, m'))
    (hc₀ : (m.withCache []).find 0 r cond = .ok (res₀, m₀)) :
    res₀ = res ∧ m₀ = m'.withCache [] := by
  rw [find_uncached] at hc₀
  obtain ⟨g, e, he, hce, hf⟩ | ⟨e, he, hce, cache, hf, -⟩ | ⟨ht, hf⟩ :=
    find_cases maxCacheSize h r cond
  · rw [hf] at hc
    cases hc
  · rw [hf] at hc
    cases hc
    cases ht : findTree m.tree r cond with
    | error f =>
      rw [ht] at hc₀
      cases hc₀
    | ok found =>
      rw [ht] at hc₀
      cases hc₀
      cases res₀ with
      | none => exact absurd hce (hco ht e he)
      | some id =>
        obtain ⟨e', he', rfl, hce'⟩ := (searched_findTree m.tree r cond).of_ok ht id rfl
        exact ⟨by rw [hun e he e' he' hce hce'], rfl⟩
  · rw [hf] at hc
    cases hc
    rw [ht] at hc₀
    cases hc₀
    exact ⟨rfl, rfl⟩

theorem Sound.findTree_intersects_complete (hu : ∀ e ∈ m.tree, r.NoUnit e.range)
    (ht : findTree m.tree r r.intersects = .ok none) :
    ∀ e ∈ m.tree, r.intersects e.range ≠ .ok true := fun e he htr =>
  not_apart_of_intersects (hu e he) htr (apart_of_findTree h.ordered hu ht e he)

theorem Sound.insert_uncached (hu : ∀ e ∈ m.tree, r.NoUnit e.range)
    (hc : m.insert maxCacheSize r d = .ok (res, m'))
    (hc₀ : (m.withCache []).insert 0 r d = .ok (res₀, m₀)) : res₀ = res ∧ m₀ = m'.withCache [] := by
  rw [AddrRangeMap.insert, AddrRangeMap.intersects, find_uncached] at hc₀
  obtain ⟨e, he, hi⟩ | ⟨e, he, htr, cache, hi, -⟩ | ⟨-, ht, hi⟩ := h.insert_cases maxCacheSize hu d
  · rw [hi] at hc
    cases hc
  · rw [hi] at hc
    cases hc
    cases ht : findTree m.tree r r.intersects with
    | error f =>
      rw [ht] at hc₀
      cases hc₀
    | ok found =>
      rw [ht] at hc₀
      cases found with
      | none => exact absurd htr (h.findTree_intersects_complete hu ht e he)
      | some id =>
        cases hc₀
        exact ⟨rfl, rfl⟩
  · rw [hi] at hc
    rw [ht] at hc₀
    dsimp only [Except.map] at hc₀
    rw [insertTree_withCache] at hc₀
    have hpa := ok.inj hc
    rw [hpa] at hc₀
    cases hc₀
    exact ⟨rfl, rfl⟩

/-- **A call returns the same without the cache**, if both return. -/
theorem Sound.call_uncached (hr : m.Regular c) (hc : m.call maxCacheSize c = .ok (res, m'))
    (hc₀ : (m.withCache []).call 0 c = .ok (res₀, m₀)) : res₀ = res ∧ m₀ = m'.withCache [] := by
  cases c with
  | insert r d => exact h.insert_uncached hr.2.2 hc hc₀
  | erase | clear =>
    cases hc
    cases hc₀
    exact ⟨rfl, rfl⟩
  | eraseRange p q =>
    cases hc
    cases hc₀
    refine ⟨rfl, ?_⟩
    simp [AddrRangeMap.eraseRange, AddrRangeMap.withCache]
  | contains a =>
    have ho := h.isSubset hr
    refine h.find_eq_uncached (fun ht e he htr => ?_) (fun e he f hf hce hcf => ?_) hc hc₀
    · obtain ⟨res, hre, hin⟩ := findTree_contains h.ordered ho
      rw [ho e he] at htr
      have := hin e he (ok.inj htr)
      rw [ht] at hre
      cases hre
      cases this
    · rw [ho e he] at hce
      rw [ho f hf] at hcf
      exact h.eq_of_contains he hf (ok.inj hce) (ok.inj hcf)
  | intersects r =>
    exact h.find_eq_uncached (fun ht => h.findTree_intersects_complete hr.1 ht) hr.2 hc hc₀

end

/-! ### Runs -/

def system (V : Type) (maxCacheSize : Int) : System (AddrRangeMap V) (Call V) MapFault where
  init m := m = {}
  step m c := (m.call maxCacheSize c).map (·.2)
  pre := Valid

theorem sound_empty : Sound ({} : AddrRangeMap V) :=
  ⟨.nil, by simp, by simp, nodup_nil, by simp, by simp⟩

theorem sound_of_reachable (h : ((system V maxCacheSize).restrict Regular).Reachable m) :
    Sound m := by
  refine h.invariant Sound (fun m hm => ?_) fun m c m' hm hpr hs => ?_
  · rw [show m = {} from hm]
    exact sound_empty
  · cases hc : m.call maxCacheSize c with
    | error f =>
      simp only [System.restrict, system, hc] at hs
      cases hs
    | ok r =>
      simp only [System.restrict, system, hc] at hs
      cases hs
      exact (hm.call hpr.2 hc).1

/-- All calls of a sequence are valid and regular, in the states in which they are made. -/
def RegularRun (maxCacheSize : Int) : AddrRangeMap V → List (Call V) → Prop
  | _, [] => True
  | m, c :: cs => m.Valid c ∧ m.Regular c ∧
      ∀ r, m.call maxCacheSize c = .ok r → RegularRun maxCacheSize r.2 cs

theorem RegularRun.cons {cs : List (Call V)} (hv : m.Valid c) (hr : m.Regular c)
    (hc : m.call maxCacheSize c = .ok (res, m')) (h : RegularRun maxCacheSize m' cs) :
    RegularRun maxCacheSize m (c :: cs) :=
  ⟨hv, hr, fun r hr' => by cases hc.symm.trans hr'; exact h⟩

/-- **A run returns the same without the cache**, if both return. -/
theorem Sound.calls_uncached : ∀ {cs : List (Call V)} {m : AddrRangeMap V}, Sound m →
    RegularRun maxCacheSize m cs → ∀ {rs rs₀ m' m₀}, calls maxCacheSize m cs = .ok (rs, m') →
      calls 0 (m.withCache []) cs = .ok (rs₀, m₀) → rs₀ = rs ∧ m₀ = m'.withCache [] := by
  intro cs
  induction cs with
  | nil =>
    intro m _ _ rs rs₀ m' m₀ hc hc₀
    cases hc
    cases hc₀
    exact ⟨rfl, rfl⟩
  | cons c cs ih =>
    intro m h ⟨_, hre, hrt⟩ rs rs₀ m' m₀ hc hc₀
    obtain ⟨r, hr, hc⟩ := bind_eq_ok.mp hc
    obtain ⟨tail, ht, hc⟩ := bind_eq_ok.mp hc
    obtain ⟨r₀, hr₀, hc₀⟩ := bind_eq_ok.mp hc₀
    obtain ⟨tail₀, ht₀, hc₀⟩ := bind_eq_ok.mp hc₀
    obtain ⟨hres, hma⟩ := h.call_uncached hre hr hr₀
    rw [hma] at ht₀
    obtain ⟨hrs, hm⟩ := ih (h.call hre hr).1 (hrt r hr) ht ht₀
    cases hc
    cases hc₀
    exact ⟨by rw [hres, hrs], hm⟩

/-- **The range map is an interval map with a transparent cache**, in runs of regular calls. -/
theorem addrRangeMap_is_interval_map (V : Type) (maxCacheSize : Int) :
    (∀ m, ((system V maxCacheSize).restrict Regular).Reachable m →
      (m.tree.Pairwise fun e f => ¬ e.range.Meets f.range) ∧
      (∀ c ∈ m.cache, c ∈ m.tree.map (·.id)) ∧
      ∀ c, m.Valid c → m.Regular c →
        (∀ res m', m.call maxCacheSize c = .ok (res, m') → m.Answer c res m') ∧
        ∀ f, m.call maxCacheSize c = .error f → ∃ r s, f = .range (.cannotTestIntersection r s)) ∧
    ∀ cs rs rs₀ m m₀, RegularRun maxCacheSize ({} : AddrRangeMap V) cs →
      calls maxCacheSize {} cs = .ok (rs, m) → calls 0 {} cs = .ok (rs₀, m₀) →
      rs₀ = rs ∧ m₀.tree = m.tree := by
  refine ⟨fun m hm => ?_, fun cs rs rs₀ m m₀ hr hc hc₀ => ?_⟩
  · have h := sound_of_reachable hm
    exact ⟨h.disjoint, h.live, fun c _ hr =>
      ⟨fun res m' hc => (h.call hr hc).2, fun f hc => h.call_error hr hc⟩⟩
  · obtain ⟨hrs, hma⟩ := sound_empty.calls_uncached hr hc hc₀
    exact ⟨hrs, by rw [hma]; rfl⟩

/-- Two ranges are stored, an address of the second is looked up twice, and the first is erased. -/
def twoRanges : List (Call Unit) :=
  [.insert (rangeSize 0 4) (), .insert (rangeSize 8 4) (), .contains 9, .contains 9, .erase 0,
    .contains 1]

def lookedUp : AddrRangeMap Unit where
  tree := [⟨0, rangeSize 0 4, ()⟩, ⟨1, rangeSize 8 4, ()⟩]
  cache := [1]
  nextId := 2

/-- The second lookup finds the entry in the cache, and the erased one is not found any more. -/
theorem addrRangeMap_is_interval_map_twoRanges :
    lookedUp.Answer (.contains 9) (some 1) lookedUp ∧
      lookedUp.Answer (.erase 0) none (lookedUp.erase 0) ∧
      RegularRun 1 ({} : AddrRangeMap Unit) twoRanges ∧
      ∃ m m₀, calls 1 {} twoRanges = .ok ([some 0, some 1, some 1, some 1, none, none], m) ∧
        calls 0 {} twoRanges = .ok ([some 0, some 1, some 1, some 1, none, none], m₀) ∧
        m₀.tree = m.tree := by
  have hin : ∀ (a b : Addr) (m : AddrRangeMap Unit), (∃ x, (rangeSize a b).contains x) →
      (∀ e ∈ m.tree, e.range.size ≠ 1) → m.Regular (.insert (rangeSize a b) ()) :=
    fun a b m hn hu => ⟨hn, fun h => absurd h (by simp [interleaved, rangeSize]),
      fun e he h1 => absurd h1 (hu e he)⟩
  have h₁ := hin 0 4 {} ⟨0, by decide +kernel⟩ (by simp)
  have h₂ := hin 8 4 { tree := [⟨0, rangeSize 0 4, ()⟩], nextId := 1 } ⟨8, by decide +kernel⟩
    (by decide +kernel)
  have h9 : (9 : Addr) ≠ maxAddr := by decide
  have hva : lookedUp.Valid (.erase 0) := mem_cons_self
  have hre : ((system Unit 1).restrict Regular).Reachable lookedUp := by
    have hr₀ : ((system Unit 1).restrict Regular).Reachable {} := .start rfl
    have hr₁ := hr₀.next (a := Call.insert (rangeSize 0 4) ()) ⟨trivial, h₁⟩ rfl
    have hr₂ := hr₁.next (a := Call.insert (rangeSize 8 4) ()) ⟨trivial, h₂⟩ rfl
    exact hr₂.next (a := Call.contains 9) ⟨trivial, h9⟩ rfl
  obtain ⟨hst, hru⟩ := addrRangeMap_is_interval_map Unit 1
  have hca := (hst lookedUp hre).2.2
  have hrr : RegularRun 1 ({} : AddrRangeMap Unit) twoRanges :=
    .cons trivial h₁ rfl <| .cons trivial h₂ rfl <| .cons trivial h9 rfl <| .cons trivial h9 rfl <|
      .cons hva trivial rfl <| .cons trivial (show (1 : Addr) ≠ maxAddr by decide) rfl trivial
  refine ⟨(hca (.contains 9) trivial h9).1 _ _ rfl, ?_, hrr, ?_⟩
  · exact (hca (.erase 0) hva trivial).1 _ _ rfl
  · have h := hru twoRanges _ _ _ _ hrr rfl rfl
    exact ⟨_, _, rfl, rfl, h.2⟩

def answers (maxCacheSize : Int) (cs : List (Call Unit)) : Except MapFault (List (Option Nat)) :=
  (calls maxCacheSize {} cs).map (·.1)

def evenOfSixteen : AddrRange :=
  { start := 0, endAddr := 16, masks := [1], intlvMatch := 0, fits := fun _ => Nat.two_pos }

def wideStripe : AddrRange :=
  { start := 0, endAddr := 0x200000000, masks := [0x100000000], intlvMatch := 0,
    fits := fun _ => Nat.two_pos }

/-- Calls that are not regular. An erased entry stays in the cache and is used; entries overlap; an
entry is not found; the last address is found in an entry; the cache changes what is returned; a range
is not stored; a shift is not defined. -/
theorem range_map_defects :
    (answers 2 [.insert (rangeSize 0 4) (), .insert (rangeSize 8 4) (), .contains 0, .contains 8,
        .eraseRange (some 0) none, .contains 8] = .error .dangling ∧
      answers 0 [.insert (rangeSize 0 4) (), .insert (rangeSize 8 4) (), .contains 0, .contains 8,
        .eraseRange (some 0) none, .contains 8] = .ok [some 0, some 1, some 0, some 1, none, none]) ∧
    (answers 0 [.insert oddByte (), .insert (rangeSize 1 1) ()] = .ok [some 0, some 1] ∧
      oddByte.contains 1 ∧ (rangeSize 1 1).contains 1) ∧
    (answers 0 [.insert (rangeSize 5 1) (), .insert evenOfSixteen (), .contains 8] =
        .ok [some 0, some 1, none] ∧ evenOfSixteen.contains 8) ∧
    (answers 0 [.insert (rangeSize 0 10) (), .contains maxAddr] = .ok [some 0, some 0] ∧
      (rangeSize 0 10).contains maxAddr = false) ∧
    (answers 1 [.insert (rangeSize 0 4) (), .insert (rangeSize 4 4) (), .contains 1,
        .intersects (rangeSize 2 4)] = .ok [some 0, some 1, some 0, some 0] ∧
      answers 0 [.insert (rangeSize 0 4) (), .insert (rangeSize 4 4) (), .contains 1,
        .intersects (rangeSize 2 4)] = .ok [some 0, some 1, some 0, some 1]) ∧
    answers 0 [.insert (rangeSize 5 0) (), .insert (rangeSize 5 5) (), .contains 7] =
      .ok [some 0, some 0, none] ∧
    answers 0 [.insert wideStripe (), .contains 0] = .error (.range .undefinedShift) := by
  refine ⟨⟨?_, ?_⟩, ⟨?_, ?_, ?_⟩, ⟨?_, ?_⟩, ⟨?_, ?_⟩, ⟨?_, ?_⟩, ?_, ?_⟩
  all_goals decide +kernel

end AddrRangeMap

end Gem5.Base
