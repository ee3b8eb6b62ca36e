import Gem5.Base.TrieSound

/-!
# Gem5.Base.TrieRuns

**The trie is a map from prefixes to values.** Next to the trie runs a plain list
of the entries that were inserted and not removed since. Under every sequence of
calls the nodes with a value are the entries of the list (`Run.Mirrors`), so that
a lookup, which the specification answers by searching the list, is answered the
same by the way down from the root (`trie_is_prefix_map`).
-/

namespace Gem5.Base.Trie

open Lib Lib.BitPrefix List Option

variable {w : Nat} {V : Type} {t : Trie w V} {p : Handle}

/-! ### Calls -/

/-- A live entry, as the callers see it: the handle `insert` returned and what was
inserted. -/
structure Entry (w : Nat) (V : Type) where
  handle : Handle
  key : BitVec w
  width : Nat
  val : V

/-- The first `width` bits of the entry agree with the key. -/
def Entry.Matches (e : Entry w V) (key : BitVec w) : Prop :=
  Agree e.width e.key key

instance (e : Entry w V) (key : BitVec w) : Decidable (e.Matches key) :=
  inferInstanceAs (Decidable (Agree e.width e.key key))

/-- **The specification of a lookup**: the live entry of smallest width whose first
bits agree with the key. -/
def smallest (live : List (Entry w V)) (key : BitVec w) : Option (Entry w V) :=
  (live.filter (·.Matches key)).argmin (·.width)

/-- The trie next to the list of the live entries. -/
structure Run (w : Nat) (V : Type) where
  trie : Trie w V
  live : List (Entry w V)

inductive Call (w : Nat) (V : Type)
  | insert (key : BitVec w) (width : Nat) (val : V)
  | remove (handle : Handle)
  | removeKey (key : BitVec w)

/-- A new entry has a width that fits and is not live yet; a handle that is removed
belongs to a live entry. -/
def Call.Pre (s : Run w V) : Call w V → Prop
  | .insert key width _ => 1 ≤ width ∧ width ≤ w ∧
      ∀ e ∈ s.live, ¬(e.width = width ∧ Agree width e.key key)
  | .remove handle => ∃ e ∈ s.live, e.handle = handle
  | .removeKey _ => True

instance (s : Run w V) (c : Call w V) : Decidable (c.Pre s) := by
  cases c <;> dsimp only [Call.Pre] <;> infer_instance

def Run.step (s : Run w V) : Call w V → Except TrieFault (Run w V)
  | .insert key width val => do
    let (handle, t) ← s.trie.insert key width val
    return ⟨t, ⟨handle, key, width, val⟩ :: s.live⟩
  | .remove handle => do
    let (_, t) ← s.trie.remove handle
    return ⟨t, s.live.filter (·.handle ≠ handle)⟩
  | .removeKey key => do
    let (_, t) ← s.trie.removeKey key
    match smallest s.live key with
    | none => return ⟨t, s.live⟩
    | some e => return ⟨t, s.live.filter (·.handle ≠ e.handle)⟩

abbrev system (w : Nat) (V : Type) : System (Run w V) (Call w V) TrieFault where
  init s := s = ⟨empty, []⟩
  step := Run.step
  pre := fun s c => c.Pre s

def Entry.stored (e : Entry w V) : BitVec w × BitVec w × V :=
  (e.key &&& prefixMask w e.width, prefixMask w e.width, e.val)

/-- **The trie stores the live entries.** -/
structure Run.Mirrors (s : Run w V) : Prop where
  inv : s.trie.Inv
  widths : ∀ e ∈ s.live, e.width ≤ w
  stores : ∀ p x, s.trie.entry p = some x ↔ ∃ e ∈ s.live, e.handle = p ∧ e.stored = x

theorem entry_eq_some {k m : BitVec w} {v : V} :
    t.entry p = some (k, m, v) ↔
      t.allocated p ∧ t.value p = some v ∧ t.key p = k ∧ t.mask p = m := by
  unfold entry
  split
  · simp [*]
  · simp [*]

variable {s : Run w V} {e : Entry w V} {t' : Trie w V}

section

variable (h : s.Mirrors)

include h

theorem Run.Mirrors.node (he : e ∈ s.live) :
    s.trie.allocated e.handle ∧ s.trie.value e.handle = some e.val ∧
      s.trie.depth e.handle = e.width ∧
      ∀ key, Agree (s.trie.depth e.handle) (s.trie.key e.handle) key ↔ e.Matches key := by
  obtain ⟨ha, hv, hk, hm⟩ := entry_eq_some.mp ((h.stores e.handle e.stored).mpr ⟨e, he, rfl, rfl⟩)
  have hd : s.trie.depth e.handle = e.width := by
    rw [depth, hm, length_prefixMask (h.widths e he)]
  refine ⟨ha, hv, hd, fun key => ?_⟩
  rw [hd, hk]
  exact ⟨(agree_and_prefixMask le_rfl).symm.trans, (agree_and_prefixMask le_rfl).trans⟩

theorem Run.Mirrors.exists_entry (hp : s.trie.allocated p) (hva : s.trie.value p ≠ none) :
    ∃ e ∈ s.live, e.handle = p := by
  obtain ⟨v, hv⟩ := ne_none_iff_exists'.mp hva
  obtain ⟨e, he, hep, -⟩ := (h.stores p _).mp (entry_eq_some.mpr ⟨hp, hv, rfl, rfl⟩)
  exact ⟨e, he, hep⟩

/-- **`lookupHandle` finds the live entry of smallest width that matches.** -/
theorem Run.Mirrors.lookupHandle_eq (key : BitVec w) :
    s.trie.lookupHandle key = .ok ((smallest s.live key).map (·.handle)) := by
  have hs := h.inv.shape
  obtain ⟨r, hr, hf, hso⟩ := hs.lookupFrom_spec key (w + 2) head hs.root.1 (by simp [hs]) (by omega)
  have hf' : ∀ e ∈ s.live, e.Matches key → ∃ c, r = some c ∧ s.trie.Under c e.handle := by
    intro e he hm
    obtain ⟨ha, hv, -, hma⟩ := h.node he
    exact hf e.handle (hs.under_head ha) (by simp [hv]) ((hma key).mpr hm)
  rw [lookupHandle, hr]
  cases hb : smallest s.live key with
  | none =>
    cases r with
    | none => rfl
    | some c =>
      obtain ⟨hc, hva, hm⟩ := hso c rfl
      obtain ⟨e, he, rfl⟩ := h.exists_entry hc hva
      have hem := ((h.node he).2.2.2 key).mp hm
      rw [smallest, argmin_eq_none, filter_eq_nil_iff] at hb
      exact absurd (decide_eq_true hem) (hb e he)
  | some m =>
    have hme := argmin_mem hb
    rw [mem_filter, decide_eq_true_eq] at hme
    obtain ⟨c, rfl, hun⟩ := hf' m hme.1 hme.2
    obtain ⟨hc, hva, hm⟩ := hso c rfl
    obtain ⟨e, he, rfl⟩ := h.exists_entry hc hva
    have hem := ((h.node he).2.2.2 key).mp hm
    have hl : m.width ≤ e.width := le_of_mem_argmin (mem_filter.mpr ⟨he, decide_eq_true hem⟩) hb
    -- the entry found is at or above the smallest one, and not longer
    rw [← (h.node he).2.2.1, ← (h.node hme.1).2.2.1] at hl
    rw [map_some, hs.under_eq hc hun hl]

theorem Run.Mirrors.lookup_eq (key : BitVec w) :
    s.trie.lookup key = .ok ((smallest s.live key).map (·.val)) := by
  unfold lookup
  rw [h.lookupHandle_eq key]
  cases hbe : smallest s.live key with
  | none => rfl
  | some e =>
    have hme := (mem_filter.mp (argmin_mem hbe)).1
    simp [(h.node hme).2.1]

theorem Run.Mirrors.insert (hw : e.width ≤ w)
    (had : s.trie.Adds e.key e.width e.val e.handle t') : Run.Mirrors ⟨t', e :: s.live⟩ := by
  obtain ⟨hin, hn, hen⟩ := had
  refine ⟨hin, by simpa [hw] using h.widths, fun p x => ?_⟩
  rw [hen]
  by_cases hp : p = e.handle
  · have hol : ¬∃ e' ∈ s.live, e'.handle = e.handle ∧ e'.stored = x := by
      rw [← h.stores, hn]
      exact some_ne_none x |>.symm
    simp [Entry.stored] at hol ⊢
    grind
  · simp [hp, h.stores, Ne.symm hp]

theorem Run.Mirrors.remove (hin : t'.Inv) (hen : t'.entry = Function.update s.trie.entry p none) :
    Run.Mirrors ⟨t', s.live.filter (·.handle ≠ p)⟩ := by
  refine ⟨hin, fun e he => h.widths e (mem_filter.mp he).1, fun q x => ?_⟩
  rw [hen, Function.update_apply]
  by_cases hq : q = p
  · simp
    grind
  · rw [if_neg hq, h.stores]
    grind

/-- **One call**: within the contract it does not fault, and the trie goes on storing the
live entries. -/
theorem Run.Mirrors.step {c : Call w V} (hpr : c.Pre s) : ∃ s', s.step c = .ok s' ∧ s'.Mirrors := by
  cases c with
  | insert key width val =>
    obtain ⟨hpo, hi, hne⟩ := hpr
    have hfr : ∀ p v, s.trie.entry p ≠
        some (key &&& prefixMask w width, prefixMask w width, v) := by
      intro p v hp
      obtain ⟨e, he, -, hst⟩ := (h.stores p _).mp hp
      simp only [Entry.stored, Prod.mk.injEq] at hst
      obtain ⟨hk, hms, -⟩ := hst
      have hw := (prefixMask_inj (h.widths e he) hi).mp hms
      rw [hw] at hk
      exact hne e he ⟨hw, (and_prefixMask_eq_iff hi).mp hk⟩
    obtain ⟨p, t', hr, had⟩ := h.inv.insert_spec key hpo hi val hfr
    exact ⟨⟨t', ⟨p, key, width, val⟩ :: s.live⟩, by simp [Run.step, hr], h.insert hi had⟩
  | remove handle =>
    obtain ⟨e, he, rfl⟩ := hpr
    obtain ⟨ha, hv, -⟩ := h.node he
    obtain ⟨t', hr, hin, hen⟩ := h.inv.remove_spec ha (by simp [hv])
    exact ⟨_, by simp [Run.step, hr], h.remove hin hen⟩
  | removeKey key =>
    have hl := h.lookupHandle_eq key
    cases hb : smallest s.live key with
    | none =>
      refine ⟨s, ?_, h⟩
      simp [Run.step, removeKey, hl, hb]
    | some e =>
      have hme := (mem_filter.mp (argmin_mem hb)).1
      obtain ⟨ha, hv, -⟩ := h.node hme
      obtain ⟨t', hr, hin, hen⟩ := h.inv.remove_spec ha (by simp [hv])
      refine ⟨⟨t', s.live.filter (·.handle ≠ e.handle)⟩, ?_, h.remove hin hen⟩
      simp [Run.step, removeKey, hl, hb, hr]

end

theorem mirrors_of_reachable (h : (system w V).Reachable s) : s.Mirrors := by
  refine h.invariant Run.Mirrors ?_ ?_
  · rintro s rfl
    refine ⟨empty_inv, by simp, fun p x => ?_⟩
    simp [entry, empty]
  · intro s c s' hs hpr ht
    obtain ⟨s'', ht', hs'⟩ := hs.step hpr
    rw [show s.step c = .ok s' from ht] at ht'
    cases ht'
    exact hs'

/-- **The trie is a map from prefixes to values.** After every sequence of insertions of new
prefixes and of removals by handle or by key, `lookup` returns the value of the live entry
of smallest width whose first bits agree with the key, and `NULL` when there is none; no
call within the contract faults; and every node below the root without a value has two kids
that differ in the first bit after its mask. -/
theorem trie_is_prefix_map {s : Run w V} (h : (system w V).Reachable s) :
    (∀ key, s.trie.lookup key = .ok ((smallest s.live key).map (·.val))) ∧
    (∀ c, (system w V).pre s c → ∃ s', (system w V).step s c = .ok s') ∧
    ∀ p, s.trie.allocated p → p ≠ head → s.trie.value p = none →
      ∃ a b, s.trie.kids p false = some a ∧ s.trie.kids p true = some b ∧
        (s.trie.key a).getMsbD (s.trie.depth p) ≠ (s.trie.key b).getMsbD (s.trie.depth p) := by
  have hm := mirrors_of_reachable h
  refine ⟨hm.lookup_eq, fun c hpr => ?_, fun p hp hhd hva => ?_⟩
  · obtain ⟨s', hst, -⟩ := hm.step hpr
    exact ⟨s', hst⟩
  · have hs := hm.inv.shape
    obtain ⟨b, hb⟩ := ne_none_iff_exists'.mp (hm.inv.branches p hp hhd hhd hva)
    have hfs : s.trie.kids p false ≠ none := fun hn => by
      simp [hs.filled p hp hn] at hb
    obtain ⟨a, ha⟩ := ne_none_iff_exists'.mp hfs
    refine ⟨a, b, ha, hb, fun hbi => hs.parts p a b hp ha hb (agree_succ.mpr ⟨?_, hbi⟩)⟩
    exact (hs.kid p false a hp ha).2.2.2.symm.trans (hs.kid p true b hp hb).2.2.2

/-- Two prefixes of 8-bit keys that part after two bits, a shorter one above them, and the
removal of an entry that another one needs to branch off. -/
def fourPrefixes : List (Call 8 Nat) :=
  [.insert 0xa0#8 4 1, .insert 0xb7#8 8 2, .insert 0x80#8 1 3, .insert 0x40#8 3 4,
   .removeKey 0xb7#8, .remove 3]

theorem trie_is_prefix_map_fourPrefixes :
    ∃ s : Run 8 Nat, s.live.map (·.val) = [4, 1] ∧
      (∀ key, s.trie.lookup key = .ok ((smallest s.live key).map (·.val))) ∧
      (∀ c, (system 8 Nat).pre s c → ∃ s', (system 8 Nat).step s c = .ok s') := by
  obtain ⟨s, hs, hli⟩ := System.Reachable.exists_of_leads (S := system 8 Nat)
    (p := fun s => s.live.map (·.val) = [4, 1]) fourPrefixes (.start rfl) (by decide +kernel)
  exact ⟨s, hli, (trie_is_prefix_map hs).1, (trie_is_prefix_map hs).2.1⟩

end Gem5.Base.Trie
