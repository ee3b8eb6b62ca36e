import Gem5.Mem.Cache.Prefetch.Eip.Entangled
import Gem5.Lib.Outcome

/-!
# Gem5.Mem.Cache.Prefetch.Eip.EntangledSound

The **representation invariant** of the entangled table (`TableInv`) and its
preservation by every operation.

The delicate case is a way that is hit by a line other than the one that filled
it: the 10-bit tag is hashed, so aliasing lines share ways. The stored bits are
then extended with *new* high bits and re-encoded. That the re-encoded
destinations stay pairwise distinct rests on one fact (`dest_inj`): seen from
any single line, two destinations are equal only if their stored bits are, and
all destinations that need at least format `f` agree with the line above
`formatBits f`.
-/

namespace Gem5.Eip

open Gem5.Lib Function List Finset Nat

/-! ### Formats -/

theorem formatBits_antitone {f g : Nat} (hf : 1 ≤ f) (hfg : f ≤ g) (hg : g ≤ 6) :
    formatBits g ≤ formatBits f := by
  have h : ∀ g ≤ 6, ∀ f ≤ g, 1 ≤ f → formatBits g ≤ formatBits f := by decide
  exact h g hg f hfg hf

theorem formatBits_le {f : Nat} (hf : 1 ≤ f) (hf' : f ≤ 6) : formatBits f ≤ 58 :=
  formatBits_antitone le_rfl hf hf'

variable {entangledAddr lineAddr : Nat}

theorem formatFrom_spec (hl : lineAddr < 2 ^ 58) (he : entangledAddr < 2 ^ 58) :
    ∀ n, 1 ≤ n → n ≤ 6 → ∃ f, formatFrom lineAddr entangledAddr n = .ok f ∧ 1 ≤ f ∧ f ≤ n ∧
      lineAddr >>> formatBits f = entangledAddr >>> formatBits f ∧
      ∀ g, 1 ≤ g → g ≤ n → lineAddr >>> formatBits g = entangledAddr >>> formatBits g → g ≤ f := by
  intro n
  induction n with
  | zero => intro h; omega
  | succ n ih =>
    intro _ hn
    rw [formatFrom]
    by_cases ha : lineAddr >>> formatBits (n + 1) = entangledAddr >>> formatBits (n + 1)
    · rw [if_pos ha]
      exact ⟨n + 1, rfl, by omega, le_rfl, ha, fun g _ hg _ => hg⟩
    · rw [if_neg ha]
      -- Format 1 drops only bits above the 58-bit line addresses, so it always agrees.
      have hn0 : 1 ≤ n := by
        rcases Nat.eq_zero_or_pos n with rfl | h
        · refine absurd ?_ ha
          rw [show formatBits (0 + 1) = 58 from rfl, shiftRight_eq_zero _ _ hl,
            shiftRight_eq_zero _ _ he]
        · exact h
      obtain ⟨f, hok, h1, hfn, hf, hma⟩ := ih hn0 (by omega)
      refine ⟨f, hok, h1, by omega, hf, fun g hg1 hg hga => ?_⟩
      rcases lt_or_ge n g with hlt | hle
      · obtain rfl : g = n + 1 := by omega
        exact absurd hga ha
      · exact hma g hg1 hle hga

/-- **Formats exist** for every pair of lines below `2 ^ 58`, and the returned
one is the largest that loses nothing. -/
theorem l1iGetFormatEntangled_spec (hl : lineAddr < 2 ^ 58) (he : entangledAddr < 2 ^ 58) :
    ∃ f, l1iGetFormatEntangled lineAddr entangledAddr = .ok f ∧ 1 ≤ f ∧ f ≤ 6 ∧
      lineAddr >>> formatBits f = entangledAddr >>> formatBits f ∧
      ∀ g, 1 ≤ g → g ≤ 6 → lineAddr >>> formatBits g = entangledAddr >>> formatBits g → g ≤ f :=
  formatFrom_spec hl he 6 (by omega) le_rfl

theorem l1iCompressFormatEntangled_eq (a f : Nat) :
    l1iCompressFormatEntangled a f = a % 2 ^ formatBits f := by
  rw [l1iCompressFormatEntangled, and_two_pow_sub_one_eq_mod]

theorem l1iCompressFormatEntangled_lt (a f : Nat) :
    l1iCompressFormatEntangled a f < 2 ^ formatBits f := by
  rw [l1iCompressFormatEntangled_eq]
  exact mod_lt _ (Nat.two_pow_pos _)

/-! ### The invariant of an entry -/

namespace EntangledEntry

def validSlots (e : EntangledEntry) : Finset Slot := Finset.univ.filter e.Valid

variable {e : EntangledEntry} {k j : Slot} {lineAddr formatNew c m a : Nat}

@[simp] theorem mem_validSlots : k ∈ e.validSlots ↔ e.Valid k := by
  simp [validSlots]

/-- What every way satisfies: counters and sizes in range, no more destinations
than the format allows, and the stored bits distinct and within the width of
the format. -/
structure Inv (e : EntangledEntry) : Prop where
  one_le_format : 1 ≤ e.format
  format_le : e.format ≤ l1iEntangledNumFormats
  conf_le : ∀ k, e.entangledConf k ≤ l1iConfidenceCounterMaxValue
  bbSize_le : e.bbSize ≤ l1iMergeBbsizeMaxValue
  card_le : e.validSlots.card ≤ e.format
  addr_lt : ∀ k, e.Valid k → e.entangledAddr k < 2 ^ formatBits e.format
  addr_inj : ∀ j k, e.Valid j → e.Valid k → e.entangledAddr j = e.entangledAddr k → j = k

theorem destFree_iff : e.destFree ↔ ∀ k, ¬e.Valid k := by
  simp [destFree]

theorem not_valid_fresh (tag : Nat) (k : Slot) : ¬(fresh tag).Valid k := by
  simp [fresh, Valid]

theorem Inv.fresh (tag : Nat) : (fresh tag).Inv where
  one_le_format := by simp [EntangledEntry.fresh]
  format_le := le_rfl
  conf_le := fun _ => zero_le _
  bbSize_le := zero_le _
  card_le := by
    exact zero_le _
  addr_lt := fun k hk => absurd hk (not_valid_fresh tag k)
  addr_inj := fun j _ hj => absurd hj (not_valid_fresh tag j)

@[simp] theorem setConf_conf (e : EntangledEntry) (k : Slot) (c : Nat) :
    (e.setConf k c).entangledConf = update e.entangledConf k c := rfl

theorem setConf_valid_iff : (e.setConf k c).Valid j ↔ if j = k then 1 ≤ c else e.Valid j := by
  unfold setConf Valid
  by_cases hjk : j = k <;> simp [hjk]

theorem Inv.setConf (h : e.Inv) (hk : e.Valid k) (hc : c ≤ l1iConfidenceCounterMaxValue) :
    (e.setConf k c).Inv := by
  have hv : ∀ j, (e.setConf k c).Valid j → e.Valid j := by
    intro j hj
    rw [setConf_valid_iff] at hj
    split at hj
    · rename_i hjk; exact hjk ▸ hk
    · exact hj
  refine ⟨h.one_le_format, h.format_le, fun j => ?_, h.bbSize_le, ?_,
    fun j hj => h.addr_lt j (hv j hj),
    fun i j hi hj => h.addr_inj i j (hv i hi) (hv j hj)⟩
  · rw [setConf_conf, update_apply]
    split
    · exact hc
    · exact h.conf_le j
  · refine (card_le_card fun j hj => ?_).trans h.card_le
    exact mem_validSlots.mpr (hv j (mem_validSlots.mp hj))

/-! ### Destinations seen from a line -/

theorem dest_lt (h : e.Inv) (hl : lineAddr < 2 ^ 58) (k : Slot) : e.dest lineAddr k < 2 ^ 58 :=
  splice_lt hl (formatBits_le h.one_le_format h.format_le)

/-- Two slots name the same line only if they are the same slot. -/
theorem dest_inj (h : e.Inv) (hj : e.Valid j) (hk : e.Valid k)
    (heq : e.dest lineAddr j = e.dest lineAddr k) : j = k := by
  refine h.addr_inj j k hj hk ?_
  have hl : e.dest lineAddr j % 2 ^ formatBits e.format =
      e.dest lineAddr k % 2 ^ formatBits e.format := by rw [heq]
  simp only [dest, l1iExtendFormatEntangled, splice_low] at hl
  rwa [mod_eq_of_lt (h.addr_lt j hj), mod_eq_of_lt (h.addr_lt k hk)] at hl

/-- A stored destination never needs a smaller format than its way has. -/
theorem format_le_of_dest (h : e.Inv) (hl : lineAddr < 2 ^ 58) {f : Nat}
    (hf : l1iGetFormatEntangled lineAddr (e.dest lineAddr k) = .ok f) : e.format ≤ f := by
  obtain ⟨f', hok, -, -, -, hma⟩ := l1iGetFormatEntangled_spec hl (dest_lt h hl k)
  obtain rfl : f' = f := by rw [hok] at hf; exact Except.ok.inj hf
  exact hma e.format h.one_le_format h.format_le (splice_high _ _ _).symm

/-! ### The eviction loop -/

/-- The formats that the destinations and the new one need, seen from the line. -/
def formats (e : EntangledEntry) (lineAddr formatNew : Nat) : Set Nat :=
  {f | f = formatNew ∨ ∃ k, e.Valid k ∧ l1iGetFormatEntangled lineAddr (e.dest lineAddr k) = .ok f}

/-- Slot `k` holds a destination of minimal confidence. -/
def Lowest (e : EntangledEntry) (k : Slot) : Prop :=
  e.Valid k ∧ ∀ j, e.Valid j → e.entangledConf k ≤ e.entangledConf j

/-- What one pass over the slots `ks` has computed, started from the new
destination's format `formatNew`. -/
structure ScanInv (e : EntangledEntry) (lineAddr formatNew : Nat) (ks : List Slot)
    (scan : EvictScan) : Prop where
  count : scan.numValid = 1 + (ks.filter fun k => e.Valid k).length
  format_mem : scan.minFormat ∈ e.formats lineAddr formatNew
  format_le_new : scan.minFormat ≤ formatNew
  format_le : ∀ k ∈ ks, e.Valid k → ∀ f,
    l1iGetFormatEntangled lineAddr (e.dest lineAddr k) = .ok f → scan.minFormat ≤ f
  value_le : ∀ k ∈ ks, e.Valid k → scan.minValue ≤ e.entangledConf k
  value_eq : scan.minValue = l1iConfidenceCounterMaxValue + 1 ∨
    e.Valid scan.minPos ∧ scan.minValue = e.entangledConf scan.minPos

theorem ScanInv.visit (h : e.Inv) (hl : lineAddr < 2 ^ 58) {ks : List Slot} {scan : EvictScan}
    (hs : ScanInv e lineAddr formatNew ks scan) (k : Slot) :
    ∃ scan', scan.visit e lineAddr k = .ok scan' ∧
      ScanInv e lineAddr formatNew (ks ++ [k]) scan' := by
  unfold EvictScan.visit
  by_cases hk : e.Valid k
  · rw [if_pos hk]
    obtain ⟨f, hok, -⟩ := l1iGetFormatEntangled_spec hl (dest_lt h hl k)
    have hle := hs.format_le_new
    refine ⟨_, by rw [hok]; rfl, ?_, ?_, ?_, ?_, ?_, ?_⟩
    · simp [hs.count, hk]; omega
    · split
      · exact .inr ⟨k, hk, hok⟩
      · exact hs.format_mem
    · dsimp only; split <;> omega
    · intro j hj hv g hg
      dsimp only
      rcases mem_append.mp hj with hj | hj
      · have := hs.format_le j hj hv g hg
        split <;> omega
      · obtain rfl : j = k := by simpa using hj
        obtain rfl : f = g := by rw [hok] at hg; exact Except.ok.inj hg
        split <;> omega
    · intro j hj hv
      dsimp only
      rcases mem_append.mp hj with hj | hj
      · have := hs.value_le j hj hv
        split <;> omega
      · obtain rfl : j = k := by simpa using hj
        split <;> omega
    · dsimp only
      split
      · exact .inr ⟨hk, rfl⟩
      · exact hs.value_eq
  · rw [if_neg hk]
    -- A slot without a destination adds nothing to what was seen.
    have hsk : ∀ j ∈ ks ++ [k], e.Valid j → j ∈ ks := by
      intro j hj hv
      rcases mem_append.mp hj with hj | hj
      · exact hj
      · obtain rfl : j = k := by simpa using hj
        exact absurd hv hk
    exact ⟨scan, rfl, by simp [hs.count, hk], hs.format_mem, hs.format_le_new,
      fun j hj hv => hs.format_le j (hsk j hj hv) hv,
      fun j hj hv => hs.value_le j (hsk j hj hv) hv, hs.value_eq⟩

theorem ScanInv.foldlM (h : e.Inv) (hl : lineAddr < 2 ^ 58) :
    ∀ (ks done : List Slot) (scan : EvictScan), ScanInv e lineAddr formatNew done scan →
      ∃ scan', ks.foldlM (EvictScan.visit e lineAddr) scan = .ok scan' ∧
        ScanInv e lineAddr formatNew (done ++ ks) scan'
  | [], done, scan, hs => ⟨scan, rfl, by rwa [append_nil]⟩
  | k :: ks, done, scan, hs => by
      obtain ⟨scan₁, hok₁, hs₁⟩ := hs.visit h hl k
      obtain ⟨scan₂, hok₂, hs₂⟩ := ScanInv.foldlM h hl ks (done ++ [k]) scan₁ hs₁
      refine ⟨scan₂, ?_, by rwa [append_assoc, singleton_append] at hs₂⟩
      rw [foldlM_cons, hok₁]
      exact hok₂

theorem card_validSlots (e : EntangledEntry) :
    e.validSlots.card =
      ((List.finRange l1iMaxEntangledPerLine).filter fun k => e.Valid k).length := by
  rw [← toFinset_card_of_nodup ((nodup_finRange _).filter _)]
  congr 1
  ext k
  simp

/-- **One pass**: it always returns, counts the destinations and the new one,
finds the smallest format and points at a destination of minimal confidence when
there is one. -/
theorem evictScan_spec (h : e.Inv) (hl : lineAddr < 2 ^ 58) (formatNew : Nat) :
    ∃ scan, evictScan e lineAddr formatNew = .ok scan ∧
      scan.numValid = e.validSlots.card + 1 ∧ IsLeast (e.formats lineAddr formatNew) scan.minFormat ∧
      (1 < scan.numValid → e.Lowest scan.minPos) := by
  have hst : ScanInv e lineAddr formatNew [] {
      minFormat := formatNew
      numValid := 1
      minValue := l1iConfidenceCounterMaxValue + 1
      minPos := 0 } :=
    ⟨rfl, .inl rfl, le_rfl, fun _ hk => absurd hk not_mem_nil,
      fun _ hk => absurd hk not_mem_nil, .inl rfl⟩
  obtain ⟨scan, hok, hs⟩ := ScanInv.foldlM h hl (finRange l1iMaxEntangledPerLine) [] _ hst
  rw [nil_append] at hs
  have hcn := hs.count
  rw [← card_validSlots] at hcn
  refine ⟨scan, hok, by omega, ⟨hs.format_mem, ?_⟩, fun hgt => ?_⟩
  · rintro f (rfl | ⟨k, hk, hf⟩)
    · exact hs.format_le_new
    · exact hs.format_le k (mem_finRange k) hk f hf
  · have hle := fun k hk => hs.value_le k (mem_finRange k) hk
    obtain ⟨k, hk⟩ : ∃ k, k ∈ e.validSlots := card_pos.mp (by omega)
    have hk' := hle k (mem_validSlots.mp hk)
    -- The start value 4 exceeds every confidence, so a slot was recorded.
    have := h.conf_le k
    rcases hs.value_eq with heq | ⟨hpo, heq⟩
    · omega
    · exact ⟨hpo, fun j hj => heq ▸ hle j hj⟩

theorem agree_of_isLeast (h : e.Inv) (hl : lineAddr < 2 ^ 58) (h1 : 1 ≤ formatNew)
    (hm : IsLeast (e.formats lineAddr formatNew) m) :
    1 ≤ m ∧ ∀ k, e.Valid k → lineAddr >>> formatBits m = e.dest lineAddr k >>> formatBits m := by
  have hsp := fun k => l1iGetFormatEntangled_spec hl (dest_lt h hl k)
  have hm1 : 1 ≤ m := by
    rcases hm.1 with rfl | ⟨k, -, hok⟩
    · exact h1
    · obtain ⟨f, hf, hf1, -⟩ := hsp k
      rw [hf] at hok
      exact Except.ok.inj hok ▸ hf1
  refine ⟨hm1, fun k hk => ?_⟩
  obtain ⟨f, hf, -, hf6, hag, -⟩ := hsp k
  exact shiftRight_eq_of_le hag (formatBits_antitone hm1 (hm.2 (.inr ⟨k, hk, hf⟩)) hf6)

/-- **One eviction**: the smallest format has no room for the destinations and
the new one, and a destination of minimal confidence goes. -/
def Evicts (lineAddr formatNew : Nat) (e e' : EntangledEntry) : Prop :=
  ∃ minFormat k, IsLeast (e.formats lineAddr formatNew) minFormat ∧
    minFormat < e.validSlots.card + 1 ∧ e.Lowest k ∧ e' = e.setConf k 0

theorem Evicts.chain {e₁ : EntangledEntry}
    (h : Relation.ReflTransGen (Evicts lineAddr formatNew) e e₁) :
    e₁.tag = e.tag ∧ e₁.dest = e.dest ∧ ∀ k, e₁.Valid k → e.Valid k := by
  induction h with
  | refl => exact ⟨rfl, rfl, fun _ => id⟩
  | tail _ hst ih =>
    obtain ⟨_, k, -, -, hk, rfl⟩ := hst
    refine ⟨ih.1, ih.2.1, fun j hj => ih.2.2 j ?_⟩
    rw [setConf_valid_iff] at hj
    split at hj
    · omega
    · exact hj

theorem card_setConf_zero (hk : e.Valid k) :
    (e.setConf k 0).validSlots.card + 1 = e.validSlots.card := by
  have her : (e.setConf k 0).validSlots = e.validSlots.erase k := by
    ext j
    rw [mem_validSlots, setConf_valid_iff, mem_erase]
    by_cases hjk : j = k <;> simp [hjk]
  rw [her, card_erase_add_one (mem_validSlots.mpr hk)]

/-- **The eviction loop returns** what some evictions leave, in the smallest format.
Each pass that does not leave the loop evicts a destination, so one pass more than
there are destinations is enough. -/
theorem evictLoop_spec (hl : lineAddr < 2 ^ 58) (h1 : 1 ≤ formatNew) :
    ∀ (fuel : Nat) (e : EntangledEntry), e.Inv → e.validSlots.card < fuel →
      ∃ e₁ m, evictLoop lineAddr formatNew fuel e = .ok (e₁.reformat lineAddr m) ∧ e₁.Inv ∧
        Relation.ReflTransGen (Evicts lineAddr formatNew) e e₁ ∧
        IsLeast (e₁.formats lineAddr formatNew) m ∧ e₁.validSlots.card < m := by
  intro fuel
  induction fuel with
  | zero => intro e _ hc; omega
  | succ fuel ih =>
    intro e h hc
    obtain ⟨scan, hok, hcnt, hle, hlo⟩ := evictScan_spec h hl formatNew
    obtain ⟨hmin1, -⟩ := agree_of_isLeast h hl h1 hle
    rw [evictLoop, hok]
    by_cases hfl : scan.numValid > scan.minFormat
    · have hp := hlo (by omega)
      have hc' := card_setConf_zero hp.1
      obtain ⟨e₁, m, hok', h₁, hch, hm⟩ := ih (e.setConf scan.minPos 0)
        (h.setConf hp.1 (zero_le _)) (by omega)
      refine ⟨e₁, m, ?_, h₁, hch.head ⟨_, _, hle, by omega, hp, rfl⟩, hm⟩
      simpa [hfl] using hok'
    · refine ⟨e, scan.minFormat, ?_, h, .refl, hle, by omega⟩
      simp [hfl]

/-! ### Storing the new destination -/

theorem exists_free_slot (hr : e.validSlots.card < 6) :
    ∃ k, (List.finRange l1iMaxEntangledPerLine).find? (fun k => !decide (e.Valid k)) = some k ∧
      ¬e.Valid k := by
  cases hf : (finRange l1iMaxEntangledPerLine).find? (fun k => !decide (e.Valid k)) with
  | some k => exact ⟨k, rfl, by simpa using find?_some hf⟩
  | none =>
    have hal : e.validSlots = univ := by
      ext k
      have := find?_eq_none.mp hf k (mem_finRange k)
      simpa using this
    rw [hal, Finset.card_univ] at hr
    exact absurd hr (lt_irrefl _)

theorem extend_compress {format : Nat}
    (hag : lineAddr >>> formatBits format = a >>> formatBits format) :
    l1iExtendFormatEntangled lineAddr (l1iCompressFormatEntangled a format) format = a := by
  refine eq_of_high_low ((splice_high _ _ _).trans hag) ?_
  rw [l1iExtendFormatEntangled, splice_low, l1iCompressFormatEntangled_eq, mod_mod]

/-- **Re-encoding** in a format at which the destinations agree with the line keeps
them, so distinct ones keep distinct stored bits. -/
theorem Inv.reformat (h : e.Inv) (hm1 : 1 ≤ m) (hm6 : m ≤ 6) (hca : e.validSlots.card ≤ m)
    (hag : ∀ k, e.Valid k → lineAddr >>> formatBits m = e.dest lineAddr k >>> formatBits m) :
    (e.reformat lineAddr m).Inv ∧
      ∀ k, e.Valid k → (e.reformat lineAddr m).dest lineAddr k = e.dest lineAddr k := by
  have hd : ∀ k, e.Valid k → (e.reformat lineAddr m).dest lineAddr k = e.dest lineAddr k := by
    intro k hk
    simp only [EntangledEntry.dest, EntangledEntry.reformat, if_pos hk]
    exact extend_compress (hag k hk)
  refine ⟨⟨hm1, hm6, h.conf_le, h.bbSize_le, hca, fun k hk => ?_, fun j k hj hk heq => ?_⟩, hd⟩
  · simp only [EntangledEntry.reformat, if_pos (show e.Valid k from hk)]
    exact l1iCompressFormatEntangled_lt _ _
  · have heq' : e.dest lineAddr j = e.dest lineAddr k := by
      rw [← hd j hj, ← hd k hk, dest, dest, heq]
    exact dest_inj h hj hk heq'

/-- **Storing** a new destination that agrees with the line in the format of the entry. -/
theorem Inv.store (h : e.Inv) (hr : e.validSlots.card < e.format)
    (hag : lineAddr >>> formatBits e.format = a >>> formatBits e.format)
    (hn : ∀ k, e.Valid k → e.dest lineAddr k ≠ a) :
    (e.store a).Inv ∧ (e.store a).tag = e.tag ∧ ∃ k, ¬e.Valid k ∧
      (e.store a).entangledConf = update e.entangledConf k l1iConfidenceCounterMaxValue ∧
      (e.store a).dest lineAddr = update (e.dest lineAddr) k a := by
  obtain ⟨k, hf, hfr⟩ := exists_free_slot (hr.trans_le h.format_le)
  simp only [EntangledEntry.store, hf]
  set e' : EntangledEntry := { e with
    entangledAddr := update e.entangledAddr k (l1iCompressFormatEntangled a e.format)
    entangledConf := update e.entangledConf k l1iConfidenceCounterMaxValue } with he'
  have hv : ∀ j, e'.Valid j ↔ j = k ∨ e.Valid j := by
    intro j
    by_cases hk : j = k <;> simp [he', Valid, hk]
  have hd : e'.dest lineAddr = update (e.dest lineAddr) k a := by
    funext j
    by_cases hk : j = k
    · simp only [he', dest, hk, update_self]
      exact extend_compress hag
    · simp [he', dest, hk]
  refine ⟨⟨h.one_le_format, h.format_le, fun j => ?_, h.bbSize_le, ?_, fun j hj => ?_,
    fun i j hi hj hq => ?_⟩, trivial, k, hfr, rfl, hd⟩
  · simp only [he', update_apply]
    split
    · exact le_rfl
    · exact h.conf_le j
  · refine le_trans (card_le_card (t := insert k e.validSlots) fun j hj => ?_)
      (le_trans (card_insert_le _ _) hr)
    rw [mem_validSlots, hv] at hj
    rwa [mem_insert, mem_validSlots]
  · simp only [he', update_apply]
    split
    · exact l1iCompressFormatEntangled_lt _ _
    · rename_i hk
      exact h.addr_lt j (((hv j).mp hj).resolve_left hk)
  · have hq' : e'.dest lineAddr i = e'.dest lineAddr j := by rw [dest, dest, hq]
    rw [hd, update_apply, update_apply] at hq'
    by_cases hik : i = k <;> by_cases hk : j = k
    · rw [hik, hk]
    · rw [if_pos hik, if_neg hk] at hq'
      exact absurd hq'.symm (hn j (((hv j).mp hj).resolve_left hk))
    · rw [if_neg hik, if_pos hk] at hq'
      exact absurd hq' (hn i (((hv i).mp hi).resolve_left hik))
    · rw [if_neg hik, if_neg hk] at hq'
      exact dest_inj h (((hv i).mp hi).resolve_left hik) (((hv j).mp hj).resolve_left hk) hq'

/-- **What adding a destination leaves**: slot `k` holds it with full confidence,
the destinations of the other slots are old ones, and the confidences of the
other slots are those after a chain of evictions, which freed `k` unless it held
the destination before. -/
structure Stored (e e' : EntangledEntry) (lineAddr entangledAddr : Nat) (k : Slot) : Prop where
  conf : e'.entangledConf k = l1iConfidenceCounterMaxValue
  dest : e'.dest lineAddr k = entangledAddr
  kept : ∀ j, j ≠ k → e'.Valid j → e.Valid j ∧ e'.dest lineAddr j = e.dest lineAddr j
  evicts : ∃ formatNew e₁, l1iGetFormatEntangled lineAddr entangledAddr = .ok formatNew ∧
    Relation.ReflTransGen (Evicts lineAddr formatNew) e e₁ ∧
    (∀ j, j ≠ k → e'.entangledConf j = e₁.entangledConf j) ∧
    (e₁.Valid k → e.dest lineAddr k = entangledAddr)

/-- **Adding a destination** returns an entry that satisfies the invariant, keeps
its tag and stores the destination. -/
theorem addEntangled_spec (h : e.Inv) (hl : lineAddr < 2 ^ 58) (he : entangledAddr < 2 ^ 58) :
    ∃ e', e.addEntangled lineAddr entangledAddr = .ok e' ∧ e'.Inv ∧ e'.tag = e.tag ∧
      ∃ k, Stored e e' lineAddr entangledAddr k := by
  obtain ⟨f, hf, hf1, hf6, hag, -⟩ := l1iGetFormatEntangled_spec hl he
  unfold addEntangled
  split
  · rename_i k hfi
    have hk := find?_some hfi
    simp only [Bool.and_eq_true, decide_eq_true_eq] at hk
    refine ⟨_, rfl, h.setConf hk.1 le_rfl, rfl, k, update_self _ _ _, hk.2,
      fun j hjk hj => ⟨?_, rfl⟩, f, e, hf, .refl, fun j hjk => update_of_ne hjk _ _,
      fun _ => hk.2⟩
    simpa [Valid, hjk] using hj
  · rename_i hfi
    have hne : ∀ k, e.Valid k → e.dest lineAddr k ≠ entangledAddr := by
      intro k hk heq
      have := find?_eq_none.mp hfi k (mem_finRange k)
      simp [hk, heq] at this
    have hca : e.validSlots.card < l1iMaxEntangledPerLine + 1 := by
      have := card_le_univ e.validSlots
      rw [Fintype.card_fin] at this
      omega
    obtain ⟨e₁, m, hok, h₁, hch, hle, hr⟩ := evictLoop_spec hl hf1 _ e h hca
    obtain ⟨ht, hd, hv⟩ := Evicts.chain hch
    obtain ⟨hm1, hag₁⟩ := agree_of_isLeast h₁ hl hf1 hle
    have hmf : m ≤ f := hle.2 (.inl rfl)
    obtain ⟨h₂, hd₂⟩ := h₁.reformat hm1 (hmf.trans hf6) hr.le hag₁
    obtain ⟨h₃, ht₃, k, hfr, hc, hd₃⟩ := h₂.store hr
      (shiftRight_eq_of_le hag (formatBits_antitone hm1 hmf hf6)) fun k hk => by
        rw [hd₂ k hk, hd]
        exact hne k (hv k hk)
    refine ⟨_, ?_, h₃, ht₃.trans ht, k, ?_, ?_, fun j hjk hj => ?_, f, e₁, hf, hch,
      fun j hjk => ?_, fun hk => absurd hk hfr⟩
    · rw [hf]
      simp only [ok_bind]
      rw [hok]
      rfl
    · rw [hc, update_self]
    · rw [hd₃, update_self]
    · have hj₁ : e₁.Valid j := by
        rw [Valid, hc, update_of_ne hjk] at hj
        exact hj
      refine ⟨hv j hj₁, ?_⟩
      rw [hd₃, update_of_ne hjk, hd₂ j hj₁, hd]
    · rw [hc, update_of_ne hjk]
      rfl

/-! ### Confidence updates -/

theorem Inv.updateConf (h : e.Inv) (a : Nat) (accessed : Bool) (k : Slot) :
    (e.updateConf a accessed k).Inv ∧ (e.updateConf a accessed k).tag = e.tag := by
  unfold EntangledEntry.updateConf
  split
  · rename_i hk
    have hl := h.conf_le k
    have hpos : 1 ≤ e.entangledConf k := hk.1
    simp only [l1iConfidenceCounterMaxValue] at hl
    cases accessed with
    | true =>
      by_cases hlt : e.entangledConf k < 3
      · simp only [hlt, and_self, if_true]
        exact ⟨h.setConf hk.1 (by simp; omega), rfl⟩
      · simpa [hlt] using h
    | false =>
      simp only [Bool.false_eq_true, false_and, if_false, not_false_eq_true, true_and]
      rw [if_pos (by omega : 0 < e.entangledConf k)]
      exact ⟨h.setConf hk.1 (by simp; omega), rfl⟩
  · exact ⟨h, rfl⟩

theorem Inv.foldl_updateConf (a : Nat) (accessed : Bool) :
    ∀ (ks : List Slot) {e : EntangledEntry}, e.Inv →
      (ks.foldl (EntangledEntry.updateConf a accessed) e).Inv ∧
        (ks.foldl (EntangledEntry.updateConf a accessed) e).tag = e.tag
  | [], _, h => ⟨h, rfl⟩
  | k :: ks, _, h => by
      obtain ⟨hin, ht⟩ := h.updateConf a accessed k
      obtain ⟨hin', ht'⟩ := Inv.foldl_updateConf a accessed ks hin
      exact ⟨hin', ht'.trans ht⟩

end EntangledEntry

/-! ### The invariant of a set -/

namespace EntangledSet

/-- What every set satisfies. Way 0 of an initial set has tag 0, as do the
others: only non-zero tags identify a way. -/
structure Inv (s : EntangledSet) : Prop where
  fifo_lt : s.fifo < l1iEtWays
  tag_inj : ∀ i < l1iEtWays, ∀ j < l1iEtWays, (s.ways i).tag ≠ 0 →
    (s.ways i).tag = (s.ways j).tag → i = j
  entry : ∀ i < l1iEtWays, (s.ways i).Inv

theorem setWay_ways (s : EntangledSet) (w : Nat) (e : EntangledEntry) (i : Nat) :
    (s.setWay w e).ways i = if i = w then e else s.ways i := by
  simp [setWay, update_apply]

variable {s : EntangledSet} {tag : Nat}

theorem Inv.setWay (h : s.Inv) {w : Nat} {e : EntangledEntry} (he : e.Inv)
    (hta : e.tag = (s.ways w).tag) : (s.setWay w e).Inv := by
  have htg : ∀ i, ((s.setWay w e).ways i).tag = (s.ways i).tag := by
    intro i
    rw [setWay_ways]
    split
    · rename_i hi; rw [hta, hi]
    · rfl
  refine ⟨h.fifo_lt, fun i hi j hj => ?_, fun i hi => ?_⟩
  · rw [htg, htg]; exact h.tag_inj i hi j hj
  · rw [setWay_ways]
    split
    · exact he
    · exact h.entry i hi

/-! ### Looking up and allocating a way -/

theorem tag_ne_of_findWay (h : s.findWay tag = l1iEtWays) : ∀ i < l1iEtWays, (s.ways i).tag ≠ tag :=
  fun _ hi => of_decide_eq_false (not_of_firstBelow_eq h hi)

/-- A way without destinations, and whether it has a basic-block size. -/
structure Free (s : EntangledSet) (acc : Nat × Bool) : Prop where
  lt : acc.1 < l1iEtWays
  free : (s.ways acc.1).destFree
  size : acc.2 = decide ((s.ways acc.1).bbSize ≠ 0)

/-- The search has passed way `j` with `acc`: it has found a way if `j` is free,
and one without a size if `j` has none. -/
def Passed (s : EntangledSet) (way j : Nat) (acc : Nat × Bool) : Prop :=
  (s.ways j).destFree → acc.1 ≠ way ∧ ((s.ways j).bbSize = 0 → acc.2 = false)

/-- **The search** passes every other way, if it has passed those that are not
between `i` and `way`. -/
theorem findFreeWay_spec (s : EntangledSet) {way : Nat} (hway : way < 16) :
    ∀ (fuel i : Nat) (acc : Nat × Bool), i < 16 → (way + 16 - i) % 16 ≤ fuel →
      (acc.1 ≠ way → s.Free acc) →
      (∀ j < 16, j ≠ way → (way + 16 - i) % 16 ≤ (j + 16 - i) % 16 → s.Passed way j acc) →
      let r := s.findFreeWay way fuel i acc
      (r.1 ≠ way → s.Free r) ∧ ∀ j < 16, j ≠ way → s.Passed way j r := by
  intro fuel
  induction fuel with
  | zero =>
    intro i acc hi hfu hf hp
    exact ⟨hf, fun j hj hn => hp j hj hn (by omega)⟩
  | succ fuel ih =>
    intro i acc hi hfu hf hp
    unfold findFreeWay
    split
    · exact ⟨hf, fun j hj hn => hp j hj hn (by omega)⟩
    rename_i hn
    -- Going on with `acc'`, which has also passed way `i`.
    have hst : ∀ acc' : Nat × Bool, (acc'.1 ≠ way → s.Free acc') → s.Passed way i acc' →
        (∀ j, s.Passed way j acc → s.Passed way j acc') →
        let r := s.findFreeWay way fuel ((i + 1) % 16) acc'
        (r.1 ≠ way → s.Free r) ∧ ∀ j < 16, j ≠ way → s.Passed way j r := by
      intro acc' hf' hse hmo
      refine ih _ acc' (mod_lt _ (by decide)) (by omega) hf' fun j hj hjw hle => ?_
      by_cases hji : j = i
      · exact hji ▸ hse
      · exact hmo j (hp j hj hjw (by omega))
    split
    · rename_i hd
      split
      · rename_i hno
        exact hst _ (fun _ => ⟨hi, hd, rfl⟩) (fun _ => ⟨hn, fun h => by simp [h]⟩)
          fun j hj h => absurd hno (hj h).1
      · rename_i hso
        split
        · rename_i hbe
          exact ⟨fun _ => ⟨hi, hd, by simp [hbe.2]⟩, fun j _ _ _ => ⟨hn, fun _ => rfl⟩⟩
        · rename_i hwo
          exact hst acc hf (fun _ => ⟨hso, fun h => by simpa [h] using hwo⟩) fun _ => id
    · rename_i hd
      exact hst acc hf (fun h => absurd h hd) fun _ => id

/-- `e` may be given up for the entry `victim`: it has no destination, and no
basic-block size either if the victim has no destination. -/
def Spare (victim e : EntangledEntry) : Prop :=
  e.destFree ∧ (victim.destFree → e.bbSize = 0)

/-- **Relocation** copies the way at the replacement pointer over a spare one,
unless that way is empty or there is no spare one. -/
theorem l1iTryRealocateEvicted_spec (s : EntangledSet) (h : s.fifo < l1iEtWays) :
    (s.l1iTryRealocateEvicted = s ∧
      ((s.ways s.fifo).destFree ∧ (s.ways s.fifo).bbSize = 0 ∨
        ∀ i < l1iEtWays, i ≠ s.fifo → ¬Spare (s.ways s.fifo) (s.ways i))) ∨
      ∃ w < l1iEtWays, w ≠ s.fifo ∧ Spare (s.ways s.fifo) (s.ways w) ∧
        s.l1iTryRealocateEvicted = s.setWay w (s.ways s.fifo) := by
  unfold l1iTryRealocateEvicted
  dsimp only
  split
  · rename_i hem
    exact .inl ⟨rfl, .inl hem⟩
  simp only [l1iEtWays] at *
  obtain ⟨hfr, hpa⟩ := s.findFreeWay_spec h 16 ((s.fifo + 1) % 16) (s.fifo, false)
    (mod_lt _ (by decide)) (by omega) (fun hn => absurd rfl hn) fun j hj hn hle => by omega
  split
  · rename_i hc
    obtain ⟨hlt, hde, hsz⟩ := hfr hc.1
    refine .inr ⟨_, hlt, hc.1, ⟨hde, fun hv => ?_⟩, rfl⟩
    rcases hc.2 with hno | ⟨-, hv'⟩
    · simpa [hsz] using hno
    · exact absurd hv hv'
  · rename_i hke
    refine .inl ⟨rfl, .inr fun i hi hn hsp => hke ?_⟩
    obtain ⟨hf, hsz⟩ := hpa i hi hn hsp.1
    refine ⟨hf, ?_⟩
    cases hv : (s.ways s.fifo).destFree with
    | true => exact .inl (by simp [hsz (hsp.2 hv)])
    | false => simp

theorem l1iTryRealocateEvicted_fifo (s : EntangledSet) :
    s.l1iTryRealocateEvicted.fifo = s.fifo := by
  unfold l1iTryRealocateEvicted
  dsimp only
  split_ifs <;> rfl

/-- **Relocation moves entries**: way `i` holds what way `o i` held before, and
only what the replacement pointer holds may be there twice. -/
theorem exists_origin (h : s.fifo < l1iEtWays) :
    ∃ o : Nat → Nat,
      (∀ i < l1iEtWays, o i < l1iEtWays ∧ s.l1iTryRealocateEvicted.ways i = s.ways (o i)) ∧
      ∀ i j, i ≠ s.fifo → j ≠ s.fifo → o i = o j → i = j := by
  rcases l1iTryRealocateEvicted_spec s h with ⟨hsa, -⟩ | ⟨w, -, -, -, hco⟩
  · exact ⟨id, fun i hi => ⟨hi, by rw [hsa]; rfl⟩, fun i j _ _ he => he⟩
  · refine ⟨fun i => if i = w then s.fifo else i, fun i hi => ⟨?_, ?_⟩, fun i j hi hj he => ?_⟩
    · dsimp only
      split <;> assumption
    · rw [hco, setWay_ways]
      exact (apply_ite s.ways _ _ _).symm
    · dsimp only at he
      split at he <;> split at he <;> omega

theorem tag_ne_realocate (h : s.fifo < l1iEtWays) (hta : ∀ i < l1iEtWays, (s.ways i).tag ≠ tag) :
    ∀ i < l1iEtWays, (s.l1iTryRealocateEvicted.ways i).tag ≠ tag := by
  obtain ⟨o, ho, -⟩ := exists_origin h
  intro i hi
  rw [(ho i hi).2]
  exact hta _ (ho i hi).1

/-- **Finding or allocating a way** keeps the invariant and returns a way of the set. -/
theorem Inv.findOrAllocWay (h : s.Inv) (tag : Nat) :
    (s.findOrAllocWay tag).1.Inv ∧ (s.findOrAllocWay tag).2 < l1iEtWays := by
  unfold EntangledSet.findOrAllocWay
  dsimp only
  split
  · rename_i hmi
    have hab := tag_ne_realocate h.fifo_lt (tag_ne_of_findWay hmi)
    obtain ⟨o, ho, hin⟩ := exists_origin h.fifo_lt
    rw [l1iTryRealocateEvicted_fifo]
    refine ⟨⟨mod_lt _ (by decide), fun i hi j hj => ?_, fun i hi => ?_⟩, h.fifo_lt⟩
    · simp only [setWay_ways]
      by_cases hf : i = s.fifo <;> by_cases hjf : j = s.fifo
      · intro _ _; rw [hf, hjf]
      · rw [if_pos hf, if_neg hjf]
        intro _ he
        exact absurd he.symm (hab j hj)
      · rw [if_neg hf, if_pos hjf]
        intro _ he
        exact absurd he (hab i hi)
      · rw [if_neg hf, if_neg hjf, (ho i hi).2, (ho j hj).2]
        intro hn he
        exact hin i j hf hjf (h.tag_inj _ (ho i hi).1 _ (ho j hj).1 hn he)
    · simp only [setWay_ways]
      split
      · exact EntangledEntry.Inv.fresh tag
      · rw [(ho i hi).2]
        exact h.entry _ (ho i hi).1
  · rename_i hhi
    exact ⟨h, lt_of_le_of_ne (firstBelow_le _ _) hhi⟩

end EntangledSet

/-! ### The table -/

def TableInv (t : EntangledTable) : Prop := ∀ set < l1iEtSets, (t set).Inv

theorem tableInv_init : TableInv l1iInitEntangledTable := by
  intro set _
  refine ⟨by simp [l1iInitEntangledTable], fun i _ j _ hn => absurd rfl hn, fun i _ => ?_⟩
  exact EntangledEntry.Inv.fresh 0

theorem entangledSet_lt (lineAddr : Nat) : entangledSet lineAddr < l1iEtSets :=
  mod_lt _ (by decide)

variable {t : EntangledTable}

theorem TableInv.update (h : TableInv t) {set : Nat} {s : EntangledSet}
    (hs : s.Inv) : TableInv (update t set s) := by
  intro i hi
  rw [update_apply]
  split
  · exact hs
  · exact h i hi

/-- **Peeling `l1i_add_entangled_table`**: the way of the line gets the destination. -/
theorem l1iAddEntangledTable_eq_ok {t' : EntangledTable} :
    l1iAddEntangledTable t lineAddr entangledAddr = .ok t' ↔
      let r := (t (entangledSet lineAddr)).findOrAllocWay (entangledTag lineAddr)
      ∃ e, (r.1.ways r.2).addEntangled lineAddr entangledAddr = .ok e ∧
        t' = update t (entangledSet lineAddr) (r.1.setWay r.2 e) := by
  unfold l1iAddEntangledTable
  rw [bind_eq_ok]
  exact exists_congr fun e => and_congr_right fun _ => by simp [eq_comm]

/-- **`l1i_add_entangled_table` returns** and keeps the invariant. -/
theorem TableInv.l1iAddEntangledTable (h : TableInv t) (hl : lineAddr < 2 ^ 58)
    (he : entangledAddr < 2 ^ 58) :
    ∃ t', l1iAddEntangledTable t lineAddr entangledAddr = .ok t' ∧ TableInv t' := by
  obtain ⟨hs, hwa⟩ := (h _ (entangledSet_lt lineAddr)).findOrAllocWay (entangledTag lineAddr)
  obtain ⟨e', hok, he', hta', -⟩ := EntangledEntry.addEntangled_spec (hs.entry _ hwa) hl he
  exact ⟨_, l1iAddEntangledTable_eq_ok.mpr ⟨e', hok, rfl⟩, h.update (hs.setWay he' hta')⟩

/-- **`l1i_add_bbsize_table` returns** on sizes in range and keeps the invariant. -/
theorem TableInv.l1iAddBbsizeTable (h : TableInv t) (lineAddr : Nat)
    {bbSize : Nat} (hbb : bbSize ≤ l1iMergeBbsizeMaxValue) :
    ∃ t', l1iAddBbsizeTable t lineAddr bbSize = .ok t' ∧ TableInv t' := by
  unfold Gem5.Eip.l1iAddBbsizeTable
  rw [if_pos hbb]
  obtain ⟨hs, hwa⟩ := (h _ (entangledSet_lt lineAddr)).findOrAllocWay (entangledTag lineAddr)
  have he := hs.entry _ hwa
  refine ⟨_, rfl, h.update (hs.setWay ?_ rfl)⟩
  exact ⟨he.one_le_format, he.format_le, he.conf_le, max_le he.bbSize_le hbb, he.card_le,
    he.addr_lt, he.addr_inj⟩

theorem TableInv.l1iUpdateConfidenceEntangledTable (h : TableInv t)
    (set way entangledAddr : Nat) (accessed : Bool) :
    TableInv (l1iUpdateConfidenceEntangledTable t set way entangledAddr accessed) := by
  unfold Gem5.Eip.l1iUpdateConfidenceEntangledTable
  split
  · rename_i hwa
    rcases lt_or_ge set l1iEtSets with hse | hse
    · have hs := h set hse
      obtain ⟨he, hta⟩ := EntangledEntry.Inv.foldl_updateConf entangledAddr accessed
        (finRange l1iMaxEntangledPerLine) (hs.entry way hwa)
      exact h.update (hs.setWay he hta)
    · intro i hi
      rw [update_of_ne (Nat.ne_of_lt (lt_of_lt_of_le hi hse))]
      exact h i hi
  · exact h

end Gem5.Eip
