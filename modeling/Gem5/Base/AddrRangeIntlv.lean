import Gem5.Base.AddrRange

/-!
# Gem5.Base.AddrRangeIntlv

**When `addIntlvBits` inverts `removeIntlvBits`.** The lowest bit of each mask is computed from the
other bits under the mask, mask after mask in the given order. A bit under the mask that is the lowest
bit of a *later* mask is not yet computed then: it still has the value that making room has put there,
the bit below it (`below`). The result is right if the number of these bits that are wrong is even.

The lowest bit is cleared with an `int`. For bit 31 the complement of `1 << 31` has no bits above, so
that the other bits under the mask are ignored; for higher bits the shift is undefined.
-/

namespace Gem5.Base

open Gem5.Lib List Nat

namespace AddrRange

/-! ### One mask -/

theorem notBit_of_lt : ∀ l : Fin 31, notBit l = ~~~ (1#64 <<< l.val) := by decide +kernel

theorem notBit_31 : notBit 31 = mask 31 := by decide +kernel

def setLsb (intlvMatch : BitVec 8) (i : Nat) (mask a : Addr) : Addr :=
  insertBit a (ctz64 mask)
    (bit (intlvMatch.setWidth 64) i ^^^ BitVec.ofNat 64 (popCount (a &&& mask &&& notBit (ctz64 mask))))

variable {intlvMatch : BitVec 8} {i : Nat} {m : Addr} {ms : List Addr} {a w : Addr}

theorem matchLoop_cons (hlsb : ctz64 m < 32) (hi : i < 32) : matchLoop intlvMatch i (m :: ms) w =
    matchLoop intlvMatch (i + 1) ms (setLsb intlvMatch i m w) :=
  if_neg (by omega)

theorem getLsbD_setLsb (hm : m ≠ 0#64) (hi : i < 32) {p : Nat} (hp : p < 64) :
    (setLsb intlvMatch i m w).getLsbD p =
      if p = ctz64 m then intlvMatch.getLsbD i ^^ parity (w &&& m &&& notBit (ctz64 m))
      else w.getLsbD p := by
  have hpo : ∀ x : Addr, (BitVec.ofNat 64 (popCount x)).getLsbD 0 = parity x := fun x => by
    rw [BitVec.getLsbD_ofNat, testBit_zero, popCount_mod_two]
    cases parity x <;> rfl
  have hls := ctz64_lt hm
  rw [setLsb, getLsbD_insertBit _ hls _ hp, BitVec.getLsbD_xor, getLsbD_bit, hpo,
    BitVec.getLsbD_setWidth, decide_eq_true (show i < 64 by omega)]
  simp

theorem parity_clear_lsb (hm : m ≠ 0#64) : parity (w &&& m &&& ~~~ (1#64 <<< ctz64 m)) =
    (parity (w &&& m) ^^ w.getLsbD (ctz64 m)) := by
  have hb : ∀ p < 64, (w &&& ~~~ (1#64 <<< ctz64 m)).getLsbD p =
      (w.getLsbD p && decide (p ≠ ctz64 m)) := fun p hp => by
    rw [BitVec.getLsbD_and, BitVec.getLsbD_not, getLsbD_one_shiftLeft]
    by_cases hpl : p = ctz64 m
    · simp [hpl]
    · simp [hp]
  have hlt := ctz64_lt hm
  have hs := parity_and_single (y := w) hlt
    (getLsbD_ctz64 hm) fun p hp hn _ => by
      rw [hb p hp, decide_eq_true hn, Bool.and_true]
  rw [hb _ hlt, decide_eq_false (fun h => h rfl), Bool.and_false, Bool.false_xor] at hs
  rw [← hs, BitVec.and_assoc, BitVec.and_comm m, ← BitVec.and_assoc, Bool.xor_comm,
    Bool.xor_assoc, Bool.xor_self, Bool.xor_false]

theorem parity_notBit_31 (hls : ctz64 m = 31) : parity (w &&& m &&& notBit 31) = false := by
  refine (xorUpTo_congr fun p _ => ?_).trans (xorUpTo_false 64)
  rw [notBit_31, BitVec.getLsbD_and, BitVec.getLsbD_and, getLsbD_mask]
  by_cases hp : p < 31
  · rw [getLsbD_of_lt_ctz64 (lt_of_lt_of_eq hp hls.symm), Bool.and_false, Bool.false_and]
  · rw [decide_eq_false hp, Bool.false_and, Bool.and_false]

/-! ### All masks -/

/-- The bit computed for a mask is that of the address: an even number of the lowest bits of later
masks are under the mask and differ from the bit below. For bit 31, the parity of the other bits under
the mask is even. -/
def SettlesAt (gaps : List Nat) (a mask : Addr) (later : List Addr) : Prop :=
  (ctz64 mask < 31 ∧ (later.countP fun m =>
      mask.getLsbD (ctz64 m) && (a.getLsbD (ctz64 m) ^^ below gaps a (ctz64 m))) % 2 = 0) ∨
    (ctz64 mask = 31 ∧ popCount (a &&& mask &&& ~~~ (1#64 <<< 31)) % 2 = 0)

/-- The bits computed for all masks are those of the address. -/
def SettlesAll (gaps : List Nat) (a : Addr) : List Addr → Prop
  | [] => True
  | mask :: later => SettlesAt gaps a mask later ∧ SettlesAll gaps a later

/-- The interleaving bits that are computed for an address are right. -/
def Settles (r : AddrRange) (a : Addr) : Prop :=
  SettlesAll (pivots r.masks) a r.masks

instance (gaps : List Nat) (a mask : Addr) (later : List Addr) :
    Decidable (SettlesAt gaps a mask later) :=
  inferInstanceAs (Decidable (_ ∨ _))

instance (gaps : List Nat) (a : Addr) : ∀ ms : List Addr, Decidable (SettlesAll gaps a ms)
  | [] => inferInstanceAs (Decidable True)
  | mask :: later =>
    have : Decidable (SettlesAll gaps a later) := instDecidableSettlesAll gaps a later
    inferInstanceAs (Decidable (SettlesAt gaps a mask later ∧ SettlesAll gaps a later))

instance (r : AddrRange) (a : Addr) : Decidable (r.Settles a) :=
  inferInstanceAs (Decidable (SettlesAll _ _ _))

/-- What is not computed yet: the lowest bits of the masks that are left. -/
def Partial (gaps : List Nat) (a : Addr) (ms : List Addr) (w : Addr) : Prop :=
  ∀ p < 64, w.getLsbD p = if p ∈ pivots ms then below gaps a p else a.getLsbD p

variable {gaps : List Nat}

theorem pivots_eq (ms : List Addr) : pivots ms = ms.map ctz64 := rfl

theorem Partial.parity_xor (hms : Triangular (m :: ms)) (hw : Partial gaps a (m :: ms) w) :
    (parity (a &&& m) ^^ parity (w &&& m)) = ((a.getLsbD (ctz64 m) ^^ w.getLsbD (ctz64 m)) ^^
      ((ms.countP fun m' => m.getLsbD (ctz64 m') &&
        (a.getLsbD (ctz64 m') ^^ below gaps a (ctz64 m'))) % 2 == 1)) := by
  have hm := hms.ne_zero m mem_cons_self
  have hs := hw (ctz64 m) (ctz64_lt hm)
  rw [if_pos (show ctz64 m ∈ pivots (m :: ms) from mem_cons_self)] at hs
  have hbi : parity ((a &&& m) ^^^ (w &&& m)) = xorUpTo (fun p => decide (p ∈ pivots (m :: ms)) &&
      (m.getLsbD p && (a.getLsbD p ^^ below gaps a p))) 64 := by
    refine xorUpTo_congr fun p hp => ?_
    rw [BitVec.getLsbD_xor, BitVec.getLsbD_and, BitVec.getLsbD_and, hw p hp]
    by_cases he : p ∈ pivots (m :: ms)
    · simp only [if_pos he, decide_eq_true he]
      cases m.getLsbD p <;> simp
    · simp only [if_neg he, decide_eq_false he, Bool.false_and, Bool.xor_self]
  have hcn : (pivots (m :: ms)).countP (fun p => m.getLsbD p && (a.getLsbD p ^^ below gaps a p)) =
      (ms.countP fun m' => m.getLsbD (ctz64 m') &&
        (a.getLsbD (ctz64 m') ^^ below gaps a (ctz64 m'))) +
      (a.getLsbD (ctz64 m) ^^ w.getLsbD (ctz64 m)).toNat := by
    rw [pivots_eq, map_cons, countP_cons, countP_map, getLsbD_ctz64 hm, hs]
    cases a.getLsbD (ctz64 m) ^^ below gaps a (ctz64 m) <;> rfl
  rw [← Lib.parity_xor, hbi, xorUpTo_mem _ hms.nodup hms.pivots_lt, hcn]
  generalize countP _ ms = c
  obtain h | h := mod_two_eq_zero_or_one c
  · cases a.getLsbD (ctz64 m) ^^ w.getLsbD (ctz64 m) <;> simp [add_mod, h]
  · cases a.getLsbD (ctz64 m) ^^ w.getLsbD (ctz64 m) <;> simp [add_mod, h]

/-- **The bit that is computed for a mask.** -/
theorem getLsbD_setLsb_eq_iff (hi : i < 32) (h32 : ctz64 m < 32)
    (hms : Triangular (m :: ms)) (ha : parity (a &&& m) = intlvMatch.getLsbD i)
    (hw : Partial gaps a (m :: ms) w) :
    (setLsb intlvMatch i m w).getLsbD (ctz64 m) = a.getLsbD (ctz64 m) ↔ SettlesAt gaps a m ms := by
  have hm := hms.ne_zero m mem_cons_self
  rw [getLsbD_setLsb hm hi (ctz64_lt hm), ← ha, SettlesAt]
  by_cases h31 : ctz64 m < 31
  · have hpa := hw.parity_xor hms
    rw [notBit_of_lt ⟨_, h31⟩, parity_clear_lsb hm, ← Bool.xor_assoc, hpa]
    simp only [h31, true_and, Nat.ne_of_lt h31]
    generalize countP _ ms = c
    obtain h | h := mod_two_eq_zero_or_one c
    · cases a.getLsbD (ctz64 m) <;> cases w.getLsbD (ctz64 m) <;> simp [h]
    · cases a.getLsbD (ctz64 m) <;> cases w.getLsbD (ctz64 m) <;> simp [h]
  · obtain h31 : ctz64 m = 31 := by omega
    have hcl := parity_clear_lsb (w := a) hm
    rw [h31] at hcl
    rw [h31, parity_notBit_31 h31, popCount_mod_two, hcl]
    cases parity (a &&& m) <;> cases a.getLsbD 31 <;> simp

theorem matchLoop_cons_of_ge (h : 32 ≤ ctz64 m ∨ 32 ≤ i) :
    matchLoop intlvMatch i (m :: ms) w = .error .undefinedShift :=
  if_pos h

theorem matchLoop_off (intlvMatch : BitVec 8) :
    ∀ {ms : List Addr} (i : Nat) (w : Addr), (∀ m ∈ ms, m ≠ 0#64) →
    (∀ m ∈ ms, ctz64 m < 32) → i + ms.length ≤ 32 → ∃ c, matchLoop intlvMatch i ms w = .ok c ∧
      ∀ p < 64, p ∉ pivots ms → c.getLsbD p = w.getLsbD p := by
  intro ms
  induction ms with
  | nil => intro i w _ _ _; exact ⟨w, rfl, fun _ _ _ => rfl⟩
  | cons m ms ih =>
    intro i w hn hls hle
    rw [length_cons] at hle
    rw [forall_mem_cons] at hn hls
    rw [matchLoop_cons hls.1 (by omega)]
    obtain ⟨c, hc, hof⟩ := ih (i + 1) (setLsb intlvMatch i m w) hn.2 hls.2 (by omega)
    refine ⟨c, hc, fun p hp hm => ?_⟩
    rw [pivots_eq, map_cons, mem_cons, not_or] at hm
    rw [hof p hp hm.2, getLsbD_setLsb hn.1 (by omega) hp, if_neg hm.1]

theorem matchLoop_ok {c : Addr} : ∀ {ms : List Addr} {i : Nat} {w : Addr},
    matchLoop intlvMatch i ms w = .ok c → ∀ m ∈ ms, ctz64 m < 32 := by
  intro ms
  induction ms with
  | nil => intro i w _ m hm; exact absurd hm not_mem_nil
  | cons m ms ih =>
    intro i w h
    by_cases hde : 32 ≤ ctz64 m ∨ 32 ≤ i
    · rw [matchLoop_cons_of_ge hde] at h
      cases h
    · rw [matchLoop_cons (by omega) (by omega)] at h
      exact forall_mem_cons.mpr ⟨by omega, ih h⟩

/-- **The loop computes the bits of an address exactly if they settle.** -/
theorem matchLoop_eq_iff : ∀ {ms : List Addr} {i : Nat} {w : Addr}, Triangular ms →
    Solves ms (fun j => intlvMatch.getLsbD (i + j)) a → Partial gaps a ms w → i + ms.length ≤ 32 →
    (matchLoop intlvMatch i ms w = .ok a ↔ SettlesAll gaps a ms) := by
  intro ms
  induction ms with
  | nil =>
    intro i w _ _ hw _
    have heq : w = a := BitVec.eq_of_getLsbD_eq fun p hp =>
      (hw p hp).trans (if_neg not_mem_nil)
    rw [heq]
    exact iff_of_true rfl trivial
  | cons m ms ih =>
    intro i w hs ha hw hle
    rw [length_cons] at hle
    have hm := hs.ne_zero m mem_cons_self
    have hn := (nodup_cons.mp hs.nodup).1
    by_cases h32 : ctz64 m < 32
    · have hof : ∀ p < 64, p ≠ ctz64 m → (setLsb intlvMatch i m w).getLsbD p = w.getLsbD p :=
        fun p hp hne => by rw [getLsbD_setLsb hm (by omega) hp, if_neg hne]
      have hbi := getLsbD_setLsb_eq_iff (by omega) h32 hs (ha (j := 0) rfl) hw
      rw [matchLoop_cons h32 (by omega), SettlesAll, ← hbi]
      by_cases he : (setLsb intlvMatch i m w).getLsbD (ctz64 m) = a.getLsbD (ctz64 m)
      · have hnx : Partial gaps a ms (setLsb intlvMatch i m w) := fun p hp => by
          by_cases hpl : p = ctz64 m
          · rw [hpl, he]
            exact (if_neg hn).symm
          · rw [hof p hp hpl, hw p hp, pivots_eq]
            simp [hpl, pivots_eq]
        have hr : Solves ms (fun j => intlvMatch.getLsbD (i + 1 + j)) a := fun {j m'} hj => by
          rw [ha (j := j + 1) (by simpa using hj)]
          exact congrArg intlvMatch.getLsbD (by omega)
        rw [ih hs.tail hr hnx (by omega)]
        exact (and_iff_right he).symm
      · -- the bit is not changed later
        refine iff_of_false (fun hok => he ?_) fun h => he h.1
        have hal := forall_mem_cons.mp hs.ne_zero
        obtain ⟨c, hc, hke⟩ := matchLoop_off intlvMatch (i + 1)
          (setLsb intlvMatch i m w) hal.2 (matchLoop_ok hok) (by omega)
        obtain rfl : c = a := Except.ok.inj (hc.symm.trans hok)
        exact (hke _ (ctz64_lt hm) hn).symm
    · rw [matchLoop_cons_of_ge (.inl (by omega))]
      refine iff_of_false nofun fun h => ?_
      obtain ⟨hlt, -⟩ | ⟨heq, -⟩ := h.1
      · omega
      · omega

theorem SettlesAll.lsb_lt (h : SettlesAll gaps a ms) : ∀ m ∈ ms, ctz64 m < 32 := by
  induction ms with
  | nil => exact fun m hm => absurd hm not_mem_nil
  | cons m ms ih =>
    refine forall_mem_cons.mpr ⟨?_, ih h.2⟩
    obtain ⟨hlt, -⟩ | ⟨heq, -⟩ := h.1
    · omega
    · omega

/-! ### The range -/

variable {r : AddrRange} {b : Addr}

theorem length_le_of_lsb_lt (h : Triangular r.masks) (hls : ∀ m ∈ r.masks, ctz64 m < 32) :
    r.masks.length ≤ 32 := by
  have hra := rank_add_length h.nodup fun d hd => by
    obtain ⟨m, hm, rfl⟩ := mem_map.mp hd
    exact hls m hm
  rw [pivots_eq, length_map] at hra
  omega

theorem addIntlvBits_eq (hms : r.masks ≠ []) (b : Addr) :
    r.addIntlvBits b = matchLoop r.intlvMatch 0 r.masks (openLoop r.masksLsb b) := by
  rw [addIntlvBits, if_pos (by simpa [interleaved] using length_pos_iff.mpr hms)]

theorem getLsbD_of_removeIntlvBits (h : Triangular r.masks)
    (hab : r.removeIntlvBits a = b &&& mask (64 - r.masks.length)) : ∀ p < 64,
    p ∉ pivots r.masks → a.getLsbD p = b.getLsbD (rank (pivots r.masks) p) := by
  intro p hp64 hp
  have hran := rank_lt hp hp64
  have htop := rank_pivots_add h (le_refl 64)
  rw [← squeezed_removeIntlvBits h a p hp, hab, BitVec.getLsbD_and, getLsbD_mask,
    decide_eq_true (show rank (pivots r.masks) p < 64 - r.masks.length by omega),
    decide_eq_true (show rank (pivots r.masks) p < 64 by omega), Bool.and_true, Bool.and_true]

/-- **The interleaving bits are restored exactly if they settle.** -/
theorem addIntlvBits_eq_ok_iff (hms : r.masks ≠ []) (h : Triangular r.masks)
    (ha : r.matchesSel a) (hab : r.removeIntlvBits a = b &&& mask (64 - r.masks.length)) :
    r.addIntlvBits b = .ok a ↔ r.Settles a := by
  rw [addIntlvBits_eq hms]
  by_cases hls : ∀ m ∈ r.masks, ctz64 m < 32
  · have hle := length_le_of_lsb_lt h hls
    have hso : Solves r.masks r.intlvMatch.getLsbD a := (matchesSel_iff hms hle a).mp ha
    have hpa : Partial (pivots r.masks) a r.masks (openLoop r.masksLsb b) := fun p hp =>
      (opened_openLoop_masksLsb h b).getLsbD_filled (getLsbD_of_removeIntlvBits h hab) hp
    exact matchLoop_eq_iff h (fun {j m} hj => by simpa using hso hj) hpa (by omega)
  · exact iff_of_false (fun hok => hls (matchLoop_ok hok)) fun hse => hls hse.lsb_lt

theorem toNat_and_mask_lt (b : Addr) {k : Nat} (hk : k ≤ 64) : (b &&& mask k).toNat < 2 ^ k := by
  rw [BitVec.toNat_and, toNat_mask, min_eq_left hk]
  exact lt_of_le_of_lt and_le_right (sub_lt (Nat.two_pow_pos k) one_pos)

theorem removeIntlvBits_of_addIntlvBits (hms : r.masks ≠ []) (h : Triangular r.masks) {c : Addr}
    (hc : r.addIntlvBits b = .ok c) : r.removeIntlvBits c = b &&& mask (64 - r.masks.length) := by
  rw [addIntlvBits_eq hms] at hc
  have hls := matchLoop_ok hc
  obtain ⟨c', hc', hof⟩ := matchLoop_off r.intlvMatch 0
    (openLoop r.masksLsb b) h.ne_zero hls (by have := length_le_of_lsb_lt h hls; omega)
  obtain rfl : c' = c := Except.ok.inj (hc'.symm.trans hc)
  have htop := rank_pivots_add h (le_refl 64)
  refine removeIntlvBits_eq h (toNat_and_mask_lt b (by omega)) fun p hp64 hp => ?_
  have hran := rank_lt hp hp64
  rw [hof p hp64 hp, (opened_openLoop_masksLsb h b).kept p hp64 hp, BitVec.getLsbD_and, getLsbD_mask,
    decide_eq_true (show rank (pivots r.masks) p < 64 - r.masks.length by omega),
    decide_eq_true (show rank (pivots r.masks) p < 64 by omega), Bool.and_true, Bool.and_true]

theorem addIntlvBits_matches_iff (hm : r.masks ≠ []) (h : Triangular r.masks)
    (ha : r.matchesSel a) (hab : r.removeIntlvBits a = b &&& mask (64 - r.masks.length)) :
    (∃ c, r.addIntlvBits b = .ok c ∧ r.matchesSel c) ↔ r.Settles a := by
  rw [← addIntlvBits_eq_ok_iff hm h ha hab]
  refine ⟨fun ⟨c, hc, hma⟩ => ?_, fun hok => ⟨a, hok, ha⟩⟩
  have hls := matchLoop_ok ((addIntlvBits_eq hm b).symm.trans hc)
  have hif := matchesSel_iff hm (length_le_of_lsb_lt h hls)
  have hre := (removeIntlvBits_of_addIntlvBits hm h hc).trans hab.symm
  rwa [← eq_of_removeIntlvBits_eq h ((hif c).mp hma) ((hif a).mp ha) hre]

theorem settlesAll_of_ordered : ∀ {ms : List Addr}, (∀ m ∈ ms, ctz64 m < 31) →
    ms.Pairwise (fun m later => m.getLsbD (ctz64 later) = false) → SettlesAll gaps a ms := by
  intro ms
  induction ms with
  | nil => exact fun _ _ => trivial
  | cons m ms ih =>
    intro hls hor
    rw [forall_mem_cons] at hls
    rw [pairwise_cons] at hor
    refine ⟨.inl ⟨hls.1, ?_⟩, ih hls.2 hor.2⟩
    rw [countP_eq_zero.mpr fun m' hm' => by simp [hor.1 m' hm']]

theorem addIntlvBits_inverts_iff_settles (r : AddrRange) (hmasks : r.masks ≠ [])
    (h : Triangular r.masks) :
    (∀ a, r.contains a → (r.addIntlvBits (r.removeIntlvBits a) = .ok a ↔ r.Settles a)) ∧
    (∀ b, ∃ a, r.matchesSel a ∧ r.removeIntlvBits a = b &&& mask (64 - r.masks.length) ∧
      ((∃ c, r.addIntlvBits b = .ok c ∧ r.matchesSel c) ↔ r.Settles a)) ∧
    (∀ b, b.toNat < 2 ^ (64 - r.masks.length) →
      ((∃ c, r.addIntlvBits b = .ok c ∧ r.removeIntlvBits c = b) ↔ ∀ m ∈ r.masks, ctz64 m < 32)) ∧
    ((∀ m ∈ r.masks, ctz64 m < 31) →
      r.masks.Pairwise (fun m later => m.getLsbD (ctz64 later) = false) → ∀ a, r.Settles a) := by
  have hlo : ∀ b : Addr, b.toNat < 2 ^ (64 - r.masks.length) →
      b &&& mask (64 - r.masks.length) = b := fun b hb => by
    refine BitVec.eq_of_toNat_eq ?_
    rw [BitVec.toNat_and, toNat_mask, min_eq_left (by omega), and_two_pow_sub_one_eq_mod,
      mod_eq_of_lt hb]
  refine ⟨fun a ha => ?_, fun b => ?_, fun b hb => ?_, fun hl hor a =>
    settlesAll_of_ordered hl hor⟩
  · have hm : r.matchesSel a := by
      rw [contains] at ha
      split at ha
      next => exact ha
      next => cases ha
    exact addIntlvBits_eq_ok_iff hmasks h hm (hlo _ (removeIntlvBits_lt h a)).symm
  · obtain ⟨a, hso, hab⟩ := exists_removeIntlvBits_eq h r.intlvMatch.getLsbD
      (toNat_and_mask_lt b (by omega))
    have hm := matchesSel_of_solves hmasks hso
    exact ⟨a, hm, hab, addIntlvBits_matches_iff hmasks h hm hab⟩
  · refine ⟨fun ⟨c, hc, _⟩ => matchLoop_ok ((addIntlvBits_eq hmasks b).symm.trans hc), fun hl => ?_⟩
    obtain ⟨c, hc, -⟩ := matchLoop_off r.intlvMatch 0
      (openLoop r.masksLsb b) h.ne_zero hl (by have := length_le_of_lsb_lt h hl; omega)
    rw [← addIntlvBits_eq hmasks] at hc
    exact ⟨c, hc, (removeIntlvBits_of_addIntlvBits hmasks h hc).trans (hlo b hb)⟩

def staleMasks : AddrRange :=
  { start := 0, endAddr := 4, masks := [0b11, 0b10], intlvMatch := 2 }

theorem addIntlvBits_inverts_iff_settles_staleMasks :
    staleMasks.contains 3 ∧ (staleMasks.addIntlvBits (staleMasks.removeIntlvBits 3) = .ok 3 ↔
      staleMasks.Settles 3) :=
  ⟨by decide +kernel, (addIntlvBits_inverts_iff_settles staleMasks (by decide)
    ⟨by simp [staleMasks], by decide +kernel⟩).1 3 (by decide +kernel)⟩

example : ¬ staleMasks.Settles 3 := by decide +kernel

def topIntMask : AddrRange :=
  { start := 0, endAddr := 0x200000000, masks := [0x180000000] }

def highMask : AddrRange :=
  { start := 0, endAddr := 0x200000000, masks := [0x100000000] }

/-- Addresses of the ranges that are not restored. -/
theorem addIntlvBits_does_not_invert :
    (staleMasks.contains 3 ∧ staleMasks.addIntlvBits (staleMasks.removeIntlvBits 3) = .ok 2 ∧
      staleMasks.matchesSel 2 = false) ∧
    (topIntMask.contains 0x180000000 ∧
      topIntMask.addIntlvBits (topIntMask.removeIntlvBits 0x180000000) = .ok 0x100000000 ∧
      topIntMask.matchesSel 0x100000000 = false) ∧
    (highMask.contains 0 ∧
      highMask.addIntlvBits (highMask.removeIntlvBits 0) = .error .undefinedShift) := by
  refine ⟨⟨?_, ?_, ?_⟩, ⟨?_, ?_, ?_⟩, ?_, ?_⟩
  all_goals decide +kernel

end AddrRange

end Gem5.Base
