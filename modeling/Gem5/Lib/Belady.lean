import Mathlib

/-!
# Gem5.Lib.Belady

**Optimal replacement, and how to follow it without knowing the future.** On a miss in a full cache,
the resident whose next use is farthest is evicted and the new key is inserted. `BeladyRun` leaves
open which of several farthest residents is taken.

An observer who does not know the future can keep, for each eviction, the residents it was chosen
from. `Chosen` says that a sequence of keys are the evictions: each is the farthest of its candidates
that were not evicted before. Three facts allow to follow the cache. A key that is used is not among
the evictions and can be crossed out (`Chosen.touch`). The evictions of a prefix can be removed from
the later candidates (`Chosen.resolve`). A miss adds the residents as candidates (`Chosen.snoc`).
-/

namespace Gem5.Lib

open List

variable {α : Type*} [DecidableEq α]

/-! ### The policy -/

def IsFarthest (future cache : List α) (v : α) : Prop :=
  v ∈ cache ∧ ∀ b ∈ cache, future.idxOf b ≤ future.idxOf v

/-- The hits of optimal replacement on a trace, from the contents of the cache. -/
inductive BeladyRun (ways : Nat) : List α → List α → List Bool → Prop
  | nil {cache : List α} : BeladyRun ways cache [] []
  | hit {cache future : List α} {a : α} {hits : List Bool} (h : a ∈ cache)
      (rest : BeladyRun ways cache future hits) : BeladyRun ways cache (a :: future) (true :: hits)
  | room {cache future : List α} {a : α} {hits : List Bool} (h : a ∉ cache)
      (hroom : cache.length < ways) (rest : BeladyRun ways (a :: cache) future hits) :
      BeladyRun ways cache (a :: future) (false :: hits)
  | evict {cache future : List α} {a v : α} {hits : List Bool} (h : a ∉ cache)
      (hfull : ways ≤ cache.length) (hv : IsFarthest future cache v)
      (rest : BeladyRun ways (a :: cache.erase v) future hits) :
      BeladyRun ways cache (a :: future) (false :: hits)

/-- The hits when the first of the farthest residents is evicted. -/
def beladyHits (ways : Nat) : List α → List α → List Bool
  | _, [] => []
  | cache, a :: future =>
    if a ∈ cache then true :: beladyHits ways cache future
    else if cache.length < ways then false :: beladyHits ways (a :: cache) future
    else
      match cache.argmax (future.idxOf ·) with
      | some v => false :: beladyHits ways (a :: cache.erase v) future
      | none => false :: beladyHits ways cache future

theorem beladyRun_beladyHits {ways : Nat} (hwa : 0 < ways) : ∀ (trace cache : List α),
    BeladyRun ways cache trace (beladyHits ways cache trace) := by
  intro trace
  induction trace with
  | nil => intro cache; exact .nil
  | cons a future ih =>
    intro cache
    unfold beladyHits
    by_cases hm : a ∈ cache
    · rw [if_pos hm]
      exact .hit hm (ih cache)
    · rw [if_neg hm]
      by_cases hr : cache.length < ways
      · rw [if_pos hr]
        exact .room hm hr (ih _)
      · rw [if_neg hr]
        cases hv : cache.argmax (future.idxOf ·) with
        | none =>
          rw [argmax_eq_none] at hv
          rw [hv] at hr
          exact absurd hwa hr
        | some v =>
          refine .evict hm (Nat.le_of_not_lt hr) ⟨argmax_mem hv, fun b hb => ?_⟩ (ih _)
          exact le_of_mem_argmax hb hv

/-- The keys that some future keeps: those that are hit when they are used next. -/
def retainable (ways : Nat) (trace : List α) : List α :=
  trace.dedup.filter fun b => (beladyHits ways [] (trace ++ [b])).getLast? = some true

/-! ### Following the policy -/

/-- The keys are evicted in turn, each from its candidates, after the evictions of `done`. -/
def Chosen (future : List α) : List α → List (List α) → List α → Prop
  | _, [], [] => True
  | done, c :: cs, e :: es =>
    IsFarthest future (c.filter (· ∉ done)) e ∧ Chosen future (done ++ [e]) cs es
  | _, _, _ => False

namespace Chosen

variable {future done es c : List α} {cs : List (List α)} {a : α}

theorem length_eq : ∀ {done : List α} {cs : List (List α)} {es : List α},
    Chosen future done cs es → cs.length = es.length := by
  intro done cs
  induction cs generalizing done with
  | nil =>
    intro es h
    cases es with
    | nil => rfl
    | cons e es => exact h.elim
  | cons c cs ih =>
    intro es h
    cases es with
    | nil => exact h.elim
    | cons e es => rw [length_cons, length_cons, ih h.2]

theorem append_iff : ∀ {done : List α} {cs cs' : List (List α)} {es es' : List α},
    cs.length = es.length → (Chosen future done (cs ++ cs') (es ++ es') ↔
      Chosen future done cs es ∧ Chosen future (done ++ es) cs' es') := by
  intro done cs cs'
  induction cs generalizing done with
  | nil =>
    intro es es' hl
    obtain rfl : es = [] := length_eq_zero_iff.mp hl.symm
    simp [Chosen]
  | cons c cs ih =>
    intro es es' hl
    cases es with
    | nil => simp at hl
    | cons e es =>
      simp only [cons_append, Chosen]
      rw [ih (by simpa using hl), append_assoc, singleton_append, and_assoc]

/-- The evictions are new, and each is one of its candidates. -/
theorem getElem? : ∀ {done : List α} {cs : List (List α)} {es : List α},
    Chosen future done cs es → ∀ {i : Nat} {e : α}, es[i]? = some e →
      e ∉ done ∧ ∃ c, cs[i]? = some c ∧ e ∈ c := by
  intro done cs
  induction cs generalizing done with
  | nil =>
    intro es h i e he
    cases es with
    | nil => simp at he
    | cons e es => exact h.elim
  | cons c cs ih =>
    intro es h i e he
    cases es with
    | nil => exact h.elim
    | cons e' es =>
      cases i with
      | zero =>
        obtain rfl : e' = e := by simpa using he
        have hm := mem_filter.mp h.1.1
        exact ⟨by simpa using hm.2, c, rfl, hm.1⟩
      | succ i =>
        obtain ⟨hne, c', hc', hm⟩ := ih h.2 (by simpa using he)
        exact ⟨fun hd => hne (mem_append_left _ hd), c', by simpa using hc', hm⟩

theorem nodup : ∀ {done : List α} {cs : List (List α)} {es : List α},
    Chosen future done cs es → es.Nodup := by
  intro done cs
  induction cs generalizing done with
  | nil =>
    intro es h
    cases es with
    | nil => exact nodup_nil
    | cons e es => exact h.elim
  | cons c cs ih =>
    intro es h
    cases es with
    | nil => exact h.elim
    | cons e es =>
      refine nodup_cons.mpr ⟨fun hme => ?_, ih h.2⟩
      obtain ⟨i, hi⟩ := mem_iff_getElem?.mp hme
      exact (h.2.getElem? hi).1 (by simp)

/-- Candidates that are not evicted before, when there are more than the evictions. -/
theorem exists_other (hc : c.Nodup) (hlen : done.length + 2 ≤ c.length) (a : α) :
    ∃ b ∈ c, b ∉ done ∧ b ≠ a := by
  by_contra hn
  have hsu : c ⊆ a :: done := fun b hb => by
    by_contra hb'
    simp only [mem_cons, not_or] at hb'
    exact hn ⟨b, hb, hb'.2, hb'.1⟩
  have := (subperm_of_subset hc hsu).length_le
  rw [length_cons] at this
  omega

/-- **A key that is used is not evicted**, as long as its candidates leave another choice, and it can
be crossed out. -/
theorem touch : ∀ {cs : List (List α)} {done es : List α},
    (∀ i c, cs[i]? = some c → a ∈ c → c.Nodup ∧ done.length + i + 2 ≤ c.length) →
    Chosen (a :: future) done cs es →
    a ∉ es ∧ Chosen future done (cs.map (·.filter (· ≠ a))) es := by
  intro cs
  induction cs with
  | nil =>
    intro done es _ h
    cases es with
    | nil => exact ⟨not_mem_nil, trivial⟩
    | cons e es => exact h.elim
  | cons c cs ih =>
    intro done es hsl h
    cases es with
    | nil => exact h.elim
    | cons e es =>
      obtain ⟨⟨hme, hm⟩, hr⟩ := h
      obtain ⟨hec, hed⟩ := mem_filter.mp hme
      -- the use of `a` is nearer than that of any other candidate
      have hn : e ≠ a := by
        rintro rfl
        obtain ⟨hc, hle⟩ := hsl 0 c rfl hec
        obtain ⟨b, hb, hbd, hbe⟩ := exists_other hc (by omega) e
        have hl := hm b (mem_filter.mpr ⟨hb, by simpa using hbd⟩)
        rw [idxOf_cons_self, idxOf_cons_ne _ hbe.symm] at hl
        omega
      obtain ⟨hno, hch⟩ := @ih (done ++ [e]) es (fun i c' hc' hac' => by
        obtain ⟨hnd, hle⟩ := hsl (i + 1) c' (by simpa using hc') hac'
        refine ⟨hnd, ?_⟩
        rw [length_append, length_singleton]
        omega) hr
      refine ⟨by simp [hno, hn.symm], ⟨?_, fun b hb => ?_⟩, hch⟩
      · exact mem_filter.mpr ⟨mem_filter.mpr ⟨hec, by simpa using hn⟩, hed⟩
      · obtain ⟨hb, hbd⟩ := mem_filter.mp hb
        obtain ⟨hb, hba⟩ := mem_filter.mp hb
        have hl := hm b (mem_filter.mpr ⟨hb, hbd⟩)
        rw [idxOf_cons_ne _ (Ne.symm (by simpa using hba)), idxOf_cons_ne _ hn.symm] at hl
        omega

/-- Keys evicted before are removed from the candidates. -/
theorem strip {E D : List α} (hE : ∀ b, b ∈ E ↔ b ∈ D) : ∀ {cs : List (List α)} {done es : List α},
    Chosen future (D ++ done) cs es → Chosen future done (cs.map (·.filter (· ∉ E))) es := by
  intro cs
  induction cs with
  | nil =>
    intro done es h
    cases es with
    | nil => exact trivial
    | cons e es => exact h.elim
  | cons c cs ih =>
    intro done es h
    cases es with
    | nil => exact h.elim
    | cons e es =>
      obtain ⟨hfa, hr⟩ := h
      have hfl : c.filter (· ∉ D ++ done) = (c.filter (· ∉ E)).filter (· ∉ done) := by
        rw [filter_filter]
        refine filter_congr fun b _ => ?_
        simp [hE, Bool.and_comm]
      refine ⟨?_, ih (by rwa [append_assoc] at hr)⟩
      rwa [hfl] at hfa

/-- **The evictions of a prefix are resolved.** -/
theorem resolve {n : Nat} {E : List α} (h : Chosen future [] cs es)
    (hE : ∀ b, b ∈ E ↔ b ∈ es.take n) :
    Chosen future [] ((cs.drop n).map (·.filter (· ∉ E))) (es.drop n) := by
  have hle := h.length_eq
  rw [← take_append_drop n cs, ← take_append_drop n es,
    append_iff (by rw [length_take, length_take, hle])] at h
  refine strip hE ?_
  rw [append_nil]
  exact h.2

/-- **A miss** adds the residents as candidates. -/
theorem snoc {e : α} (h : Chosen future [] cs es) (he : IsFarthest future (c.filter (· ∉ es)) e) :
    Chosen future [] (cs ++ [c]) (es ++ [e]) := by
  rw [append_iff h.length_eq]
  exact ⟨h, he, trivial⟩

end Chosen

end Gem5.Lib
