import Mathlib

/-!
# Gem5.Lib.Ranked

**Lists kept in order of rank**, as a priority queue that serves equal ranks
first come, first served. A list is `Ranked` when ranks never increase along it;
`enter` puts a new member behind all members of its rank or higher; `level p` is
the part of the list with rank `p`. The lemmas say what a stable priority queue
promises: entering keeps the order, and at each level it only appends.
-/

namespace Gem5.Lib

open List

variable {α ρ : Type*} [LinearOrder ρ] (rank : α → ρ)

def Ranked (l : List α) : Prop := l.Pairwise fun a b => rank b ≤ rank a

instance : DecidablePred (Ranked rank) :=
  fun l => inferInstanceAs (Decidable (l.Pairwise _))

def level (p : ρ) (l : List α) : List α := l.filter fun a => rank a = p

/-- Put `a` behind the members of its rank or higher. -/
def enter (a : α) (l : List α) : List α := l.orderedInsert (fun a b => rank b < rank a) a

variable {rank} {a : α} {l hi lo : List α}

theorem enter_perm : (enter rank a l).Perm (a :: l) :=
  perm_orderedInsert _ _ _

theorem enter_append (h : ∀ b ∈ hi, rank a ≤ rank b) :
    enter rank a (hi ++ lo) = hi ++ enter rank a lo := by
  induction hi with
  | nil => rfl
  | cons b hi ih =>
    have hb : ¬ rank b < rank a := not_lt.mpr (h b (by simp))
    have hr := ih fun c hc => h c (by simp [hc])
    simpa [enter, hb] using hr

theorem enter_of_lt (h : ∀ b ∈ lo, rank b < rank a) : enter rank a lo = a :: lo := by
  cases lo with
  | nil => rfl
  | cons b lo => simp [enter, h b (by simp)]

theorem enter_split (hh : ∀ b ∈ hi, rank a ≤ rank b) (hl : ∀ b ∈ lo, rank b < rank a) :
    enter rank a (hi ++ lo) = hi ++ a :: lo := by
  rw [enter_append hh, enter_of_lt hl]

theorem enter_append_of_lt (h : ∀ b ∈ lo, rank b < rank a) :
    enter rank a (l ++ lo) = enter rank a l ++ lo := by
  induction l with
  | nil => simpa [enter] using enter_of_lt h
  | cons b l ih =>
    by_cases hb : rank b < rank a
    · simp [enter, hb]
    · simpa [enter, hb] using ih

section

variable (h : Ranked rank l)

include h

/-- **A rank cuts a ranked list in two**: the members a newcomer stays behind and
those it outranks. -/
theorem Ranked.exists_split (p : ρ) :
    ∃ hi lo, l = hi ++ lo ∧ (∀ b ∈ hi, p ≤ rank b) ∧ ∀ b ∈ lo, rank b < p := by
  induction l with
  | nil => exact ⟨[], [], by simp⟩
  | cons b l ih =>
    obtain ⟨hb, hl⟩ := pairwise_cons.mp h
    rcases le_or_gt p (rank b) with hp | hp
    · obtain ⟨hi, lo, rfl, hh, hlo⟩ := ih hl
      exact ⟨b :: hi, lo, rfl, by simpa using ⟨hp, hh⟩, hlo⟩
    · refine ⟨[], b :: l, rfl, by simp, ?_⟩
      intro c hc
      rcases mem_cons.mp hc with rfl | hc
      · exact hp
      · exact (hb c hc).trans_lt hp

theorem Ranked.exists_lowest (hn : l ≠ []) :
    ∃ front v rest, l = front ++ v :: rest ∧ (∀ b ∈ front, rank v < rank b) ∧
      ∀ b ∈ rest, rank b = rank v := by
  induction l with
  | nil => exact absurd rfl hn
  | cons b l ih =>
    obtain ⟨hb, hl⟩ := pairwise_cons.mp h
    rcases eq_or_ne l [] with rfl | hl'
    · exact ⟨[], b, [], by simp⟩
    · obtain ⟨front, v, rest, rfl, hfr, hr⟩ := ih hl hl'
      rcases (hb v (by simp)).lt_or_eq with hlt | heq
      · exact ⟨b :: front, v, rest, rfl, by simpa using ⟨hlt, hfr⟩, hr⟩
      · have hni : front = [] := by
          cases front with
          | nil => rfl
          | cons c front =>
            have hc := hb c (by simp)
            exact absurd (hfr c (by simp)) (not_lt.mpr (heq ▸ hc))
        subst hni
        refine ⟨[], b, v :: rest, rfl, by simp, ?_⟩
        intro c hc
        rcases mem_cons.mp hc with rfl | hc
        · exact heq
        · exact (hr c hc).trans heq

theorem Ranked.enter : Ranked rank (enter rank a l) := by
  obtain ⟨hi, lo, rfl, hh, hl⟩ := h.exists_split (rank a)
  obtain ⟨hrh, hrl, hcr⟩ := pairwise_append.mp h
  rw [enter_split hh hl]
  refine pairwise_append.mpr ⟨hrh, pairwise_cons.mpr ⟨fun b hb => (hl b hb).le, hrl⟩, ?_⟩
  intro b hb c hc
  rcases mem_cons.mp hc with rfl | hc
  · exact hh b hb
  · exact hcr b hb c hc

theorem Ranked.concat (hl : ∀ b ∈ l.getLast?, rank a ≤ rank b) : Ranked rank (l ++ [a]) := by
  refine pairwise_append.mpr ⟨h, pairwise_singleton _ _, ?_⟩
  intro b hb c hc
  obtain rfl := mem_singleton.mp hc
  rcases eq_nil_or_concat' l with rfl | ⟨front, last, rfl⟩
  · simp at hb
  · have hle : rank c ≤ rank last := hl last (by simp)
    rcases mem_append.mp hb with hb | hb
    · exact hle.trans ((pairwise_append.mp h).2.2 b hb last (by simp))
    · rwa [mem_singleton.mp hb]

/-- **First come, first served**: entering a ranked list appends at the newcomer's
level and leaves the other levels alone. -/
theorem Ranked.level_enter (p : ρ) :
    level rank p (Lib.enter rank a l) = level rank p l ++ level rank p [a] := by
  obtain ⟨hi, lo, rfl, hh, hl⟩ := h.exists_split (rank a)
  rw [enter_split hh hl]
  by_cases hp : rank a = p
  · -- No member outranked by `a` is at its level.
    have hn : lo.filter (fun b => rank b = p) = [] := by
      refine filter_eq_nil_iff.mpr fun b hb => ?_
      simpa using fun hbp => absurd (hbp.trans hp.symm) (hl b hb).ne
    simp [level, hp, hn]
  · simp [level, hp]

end

theorem level_remove_lowest {front rest : List α} {v : α} (hfr : ∀ b ∈ front, rank v < rank b)
    (p : ρ) : level rank p (front ++ rest) <:+ level rank p (front ++ v :: rest) := by
  by_cases hp : rank v = p
  · have hn : front.filter (fun b => rank b = p) = [] := by
      refine filter_eq_nil_iff.mpr fun b hb => ?_
      simpa using fun hbp => absurd (hbp.trans hp.symm) (hfr b hb).ne'
    simp [level, hn, hp]
  · simp [level, hp]

end Gem5.Lib
