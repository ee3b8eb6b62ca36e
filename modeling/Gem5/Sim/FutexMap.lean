import Gem5.Lib.System

/-!
# Gem5.Sim.FutexMap

**Threads that wait on futexes.** The map keeps a list of waiters for each
address and thread group, and beside it the set of all threads that wait. The
two come apart, and iterators are used that are no longer valid, where threads
are woken or moved:

* `wakeup` and `wakeup_bitset` read the thread to take out of the set in the
  list node that they have just removed;
* `requeue` leaves the threads it wakes in the set;
* `requeue` appends to the list at `end()` when it moves nothing and there is no
  second list;
* making the second list can rehash the map, and the first one is then erased
  through an iterator from before.

`Quiet` is the condition on a call that excludes these.
-/

namespace Gem5.Sim

open Gem5.Lib Function List

structure FutexKey where
  addr : Nat
  tgid : Nat
  deriving DecidableEq

structure WaiterState (T : Type) where
  tc : T
  bitmask : BitVec 32
  deriving DecidableEq

def WaiterState.checkMask {T : Type} (w : WaiterState T) (wakeupBitmask : BitVec 32) : Bool :=
  w.bitmask &&& wakeupBitmask ≠ 0

inductive FutexFault
  /-- A reference or iterator is used after it became invalid. -/
  | dangling
  /-- `end()` is dereferenced. -/
  | endDereferenced

structure FutexMap (T : Type) where
  lists : FutexKey → Option (List (WaiterState T))
  waitingTcs : Finset T

/-- A call. `suspend` is `suspendBitset` with all bits set, the two keys of
`requeue` differ in the address, and `rehash` says whether a new key makes the map
rehash. -/
inductive FutexCall (T : Type)
  | suspendBitset (key : FutexKey) (tc : T) (bitmask : BitVec 32)
  | wakeup (key : FutexKey) (count : Int)
  | wakeupBitset (key : FutexKey) (bitmask : BitVec 32)
  | requeue (key1 key2 : FutexKey) (count count2 : Int) (rehash : Bool)

namespace FutexMap

variable {T : Type} [DecidableEq T]

def setList (s : FutexMap T) (key : FutexKey) (l : Option (List (WaiterState T))) : FutexMap T :=
  { s with lists := update s.lists key l }

def eraseEmpty (s : FutexMap T) (key : FutexKey) : FutexMap T :=
  if s.lists key = some [] then s.setList key none else s

def suspendBitset (s : FutexMap T) (key : FutexKey) (tc : T) (bitmask : BitVec 32) : FutexMap T :=
  let waiterList := match s.lists key with
    | none => [⟨tc, bitmask⟩]
    | some l => l ++ [⟨tc, bitmask⟩]
  { s.setList key (some waiterList) with waitingTcs := insert tc s.waitingTcs }

/-- The first thread that is woken ends the call: its node is removed, and then
its `tc` is read. -/
def wakeup (s : FutexMap T) (key : FutexKey) (count : Int) : Except FutexFault (Nat × FutexMap T) :=
  match s.lists key with
  | none => .ok (0, s)
  | some l => if l ≠ [] ∧ 0 < count then .error .dangling else .ok (0, s.eraseEmpty key)

/-- The same with the first thread that the mask selects. -/
def wakeupBitset (s : FutexMap T) (key : FutexKey) (bitmask : BitVec 32) :
    Except FutexFault (Nat × FutexMap T) :=
  match s.lists key with
  | none => .ok (0, s)
  | some l => if l.any (·.checkMask bitmask) then .error .dangling else .ok (0, s.eraseEmpty key)

/-- The end of `requeue`: the list is appended to the second one, and the first
one is erased if it is empty. -/
def appendTo (s : FutexMap T) (key1 key2 : FutexKey) (tmpList : List (WaiterState T))
    (rehash : Bool) : Except FutexFault (FutexMap T) :=
  match s.lists key2 with
  | none =>
    let s' := s.setList key2 (some tmpList)
    if tmpList = [] then .error .endDereferenced
    else if rehash ∧ s'.lists key1 = some [] then .error .dangling
    else .ok (s'.eraseEmpty key1)
  | some l => .ok ((s.setList key2 (some (l ++ tmpList))).eraseEmpty key1)

def requeue (s : FutexMap T) (key1 key2 : FutexKey) (count count2 : Int) (rehash : Bool) :
    Except FutexFault (Nat × FutexMap T) :=
  match s.lists key1 with
  | none => .ok (0, s)
  | some l =>
    -- the woken threads stay in `waitingTcs`
    let rest := l.drop count.toNat
    let tmpList := rest.take count2.toNat
    let affected := (l.take count.toNat).length + tmpList.length
    (affected, ·) <$>
      (s.setList key1 (some (rest.drop count2.toNat))).appendTo key1 key2 tmpList rehash

def call (s : FutexMap T) : FutexCall T → Except FutexFault (Nat × FutexMap T)
  | .suspendBitset key tc bitmask => .ok (0, s.suspendBitset key tc bitmask)
  | .wakeup key count => s.wakeup key count
  | .wakeupBitset key bitmask => s.wakeupBitset key bitmask
  | .requeue key1 key2 count count2 rehash => s.requeue key1 key2 count count2 rehash

/-- Only threads that do not wait are suspended. -/
def pre (s : FutexMap T) : FutexCall T → Prop
  | .suspendBitset _ tc _ => tc ∉ s.waitingTcs
  | _ => True

def system (T : Type) [DecidableEq T] : System (FutexMap T) (FutexCall T) FutexFault where
  init s := s = ⟨fun _ => none, ∅⟩
  step s c := Prod.snd <$> s.call c
  pre := pre

/-! ### What the calls are for -/

def waiters (s : FutexMap T) (key : FutexKey) : List (WaiterState T) := (s.lists key).getD []

/-- **What a call should do** to the lists, and what it should return. -/
def Effect (s s' : FutexMap T) (result : Nat) : FutexCall T → Prop
  | .suspendBitset key tc bitmask => s'.waiters =
      update s.waiters key (s.waiters key ++ [⟨tc, bitmask⟩])
  | .wakeup key count => result = min count.toNat (s.waiters key).length ∧
      s'.waiters = update s.waiters key ((s.waiters key).drop result)
  | .wakeupBitset key bitmask => result = (s.waiters key).countP (·.checkMask bitmask) ∧
      s'.waiters = update s.waiters key ((s.waiters key).filter (!·.checkMask bitmask))
  | .requeue key1 key2 count count2 _ =>
      let rest := (s.waiters key1).drop count.toNat
      let left := update s.waiters key1 (rest.drop count2.toNat)
      result = min count.toNat (s.waiters key1).length + min count2.toNat rest.length ∧
      s'.waiters = update left key2 (left key2 ++ rest.take count2.toNat)

/-- **The books**: a thread is in the list at its home and nowhere else, those in
the set are those with a home, and no list is empty. -/
structure Bookkept (home : T → Option FutexKey) (s : FutexMap T) : Prop where
  once : ∀ tc key, ((s.waiters key).map (·.tc)).count tc = if home tc = some key then 1 else 0
  waiting : ∀ tc, tc ∈ s.waitingTcs ↔ home tc ≠ none
  nonempty : ∀ key, s.lists key ≠ some []

/-- **Nobody is woken**, and a `requeue` finds its second list, or makes it without
a rehash that matters. -/
def Quiet (s : FutexMap T) : FutexCall T → Prop
  | .wakeup key count => s.waiters key = [] ∨ count ≤ 0
  | .wakeupBitset key bitmask => ∀ w ∈ s.waiters key, w.checkMask bitmask = false
  | .requeue key1 key2 count count2 rehash => s.waiters key1 = [] ∨ count ≤ 0 ∧
      (s.lists key2 ≠ none ∨ 0 < count2 ∧ (rehash = false ∨ count2 < (s.waiters key1).length))
  | _ => True

variable {s s' : FutexMap T} {home : T → Option FutexKey} {key key1 key2 : FutexKey}
  {l : List (WaiterState T)}

omit [DecidableEq T] in
theorem waiters_of_lists (h : s.lists key = some l) : s.waiters key = l := by simp [waiters, h]

omit [DecidableEq T] in
theorem waiters_setList (l : Option (List (WaiterState T))) :
    (s.setList key l).waiters = update s.waiters key (l.getD []) := by
  funext key'
  by_cases h : key' = key
  · simp [waiters, setList, h]
  · simp [waiters, setList, h]

theorem waiters_eraseEmpty : (s.eraseEmpty key).waiters = s.waiters := by
  unfold eraseEmpty
  split
  · next h =>
    rw [waiters_setList]
    exact update_eq_self_iff.mpr (waiters_of_lists h).symm
  · rfl

theorem eraseEmpty_nonempty (h : ∀ key ≠ key1, s.lists key ≠ some []) (key : FutexKey) :
    (s.eraseEmpty key1).lists key ≠ some [] := by
  unfold eraseEmpty setList
  split
  · grind
  · grind

theorem appendTo_eq {tmpList : List (WaiterState T)} {rehash : Bool}
    (hnw : s.lists key2 = none → tmpList ≠ [] ∧ (rehash = false ∨ s.lists key1 ≠ some [])) :
    s.appendTo key1 key2 tmpList rehash =
      .ok ((s.setList key2 (some (s.waiters key2 ++ tmpList))).eraseEmpty key1) := by
  unfold appendTo waiters
  cases hl : s.lists key2 with
  | none =>
    obtain ⟨hn, hreh⟩ := hnw hl
    have hsa : ¬(rehash = true ∧ (s.setList key2 (some tmpList)).lists key1 = some []) := by
      simp only [setList]
      grind
    simp only [if_neg hn, if_neg hsa]
    rfl
  | some l => rfl

namespace Bookkept

variable (h : Bookkept home s)
include h

theorem eraseEmpty_eq : s.eraseEmpty key = s := if_neg (h.nonempty key)

theorem suspend {tc : T} (hnw : tc ∉ s.waitingTcs) (bitmask : BitVec 32) :
    Effect s (s.suspendBitset key tc bitmask) 0 (.suspendBitset key tc bitmask) ∧
      Bookkept (update home tc (some key)) (s.suspendBitset key tc bitmask) := by
  have hl : (s.suspendBitset key tc bitmask).lists =
      update s.lists key (some (s.waiters key ++ [⟨tc, bitmask⟩])) := by
    unfold suspendBitset waiters setList
    cases s.lists key with
    | none => rfl
    | some l => rfl
  have hw : (s.suspendBitset key tc bitmask).waiters =
      update s.waiters key (s.waiters key ++ [⟨tc, bitmask⟩]) := by
    unfold waiters at hl ⊢
    rw [hl]
    exact waiters_setList (some _)
  have hho : home tc = none := by simpa [h.waiting] using hnw
  refine ⟨hw, ⟨fun tc' key' => ?_, fun tc' => ?_, fun key' => ?_⟩⟩
  · have hon := h.once tc' key'
    rw [hw, update_apply]
    by_cases hk : key' = key
    · subst hk
      simp only [if_true, map_append, count_append, hon]
      by_cases htc : tc' = tc
      · simp [htc, hho]
      · simp [htc, Ne.symm htc]
    · grind
  · simp only [suspendBitset, Finset.mem_insert, h.waiting tc']
    grind
  · have hn := h.nonempty key'
    rw [hl]
    by_cases hk : key' = key
    · simp [hk]
    · simpa [hk] using hn

/-- **The first `n` waiters are moved** from one list to the end of another. -/
theorem move {n : Nat} (hwa : s'.waitingTcs = s.waitingTcs) (hno : ∀ key, s'.lists key ≠ some [])
    (hwt : s'.waiters =
      let left := update s.waiters key1 ((s.waiters key1).drop n)
      update left key2 (left key2 ++ (s.waiters key1).take n)) :
    ∃ hom', Bookkept hom' s' := by
  let moved := ((s.waiters key1).take n).map (·.tc)
  refine ⟨fun tc => if tc ∈ moved then some key2 else home tc, fun tc key => ?_, fun tc => ?_, hno⟩
  · have hon := h.once tc key
    have hon1 := h.once tc key1
    have hspl : moved.count tc + (((s.waiters key1).drop n).map (·.tc)).count tc =
        ((s.waiters key1).map (·.tc)).count tc := by
      rw [← count_append, ← map_append, take_append_drop]
    simp only [hwt, update_apply]
    by_cases hke2 : key = key2
    · subst hke2
      grind
    · grind
  · have hmem : tc ∈ moved → home tc ≠ none := by
      intro hmo
      have hpo : 0 < ((s.waiters key1).map (·.tc)).count tc :=
        count_pos_iff.mpr (map_subset _ (take_subset _ _) hmo)
      rw [h.once] at hpo
      grind
    rw [hwa, h.waiting]
    grind

theorem requeue {count count2 : Int} {rehash : Bool}
    (hq : s.Quiet (.requeue key1 key2 count count2 rehash)) :
    ∃ r s' hom', s.requeue key1 key2 count count2 rehash = .ok (r, s') ∧
      Effect s s' r (.requeue key1 key2 count count2 rehash) ∧ Bookkept hom' s' := by
  unfold FutexMap.requeue
  cases hl : s.lists key1 with
  | none =>
    have hi : s.waiters key1 = [] := by simp [waiters, hl]
    exact ⟨0, s, home, rfl, by simp [Effect, hi], h⟩
  | some l =>
    have hw := waiters_of_lists hl
    have hne : l ≠ [] := fun hi => h.nonempty key1 (hi ▸ hl)
    obtain ⟨hcn, hq⟩ := hq.resolve_left (hw ▸ hne)
    generalize hn : count2.toNat = n
    let s₁ := s.setList key1 (some (l.drop n))
    let s₂ := s₁.setList key2 (some (s₁.waiters key2 ++ l.take n))
    have hli (key : FutexKey) : s₁.lists key = if key = key1 then some (l.drop n) else s.lists key :=
      update_apply _ _ _ _
    have hnw : s₁.lists key2 = none → l.take n ≠ [] ∧ (rehash = false ∨ s₁.lists key1 ≠ some []) := by
      have htak : l.take n = [] ↔ n = 0 ∨ l = [] := take_eq_nil_iff
      have hdro : l.drop n = [] ↔ l.length ≤ n := drop_eq_nil_iff
      grind
    have hwa : (s₂.eraseEmpty key1).waiters =
        let left := update s.waiters key1 ((s.waiters key1).drop n)
        update left key2 (left key2 ++ (s.waiters key1).take n) := by
      rw [waiters_eraseEmpty, waiters_setList, waiters_setList, hw]
      rfl
    have hno (key : FutexKey) : (s₂.eraseEmpty key1).lists key ≠ some [] := by
      refine eraseEmpty_nonempty (fun key hke => ?_) key
      have hk := h.nonempty key
      simp only [s₂, setList, update_apply, hli key]
      split
      · next heq =>
        subst heq
        cases hl2 : s₁.lists key with
        | none => simp [(hnw hl2).1]
        | some l2 =>
          have hso : s.lists key = some l2 := by rw [← hl2, hli, if_neg hke]
          have hne2 : l2 ≠ [] := fun hi => hk (hi ▸ hso)
          simp [waiters_of_lists hl2, hne2]
      · exact hk
    have hwt : (s₂.eraseEmpty key1).waitingTcs = s.waitingTcs := by
      unfold eraseEmpty
      split <;> rfl
    obtain ⟨hom', hbo⟩ := h.move hwt hno hwa
    have hap : (s.setList key1 (some (l.drop n))).appendTo key1 key2 (l.take n) rehash =
        .ok (s₂.eraseEmpty key1) := appendTo_eq hnw
    simp only [Effect, Int.toNat_of_nonpos hcn, hn, drop_zero, hap]
    exact ⟨_, _, hom', rfl, ⟨by simp [hw], hwa⟩, hbo⟩

end Bookkept

/-- **A quiet call** does what it should and keeps the books. -/
theorem Bookkept.call_spec (h : Bookkept home s) {c : FutexCall T} (hpr : s.pre c)
    (hq : s.Quiet c) :
    ∃ r s' hom', s.call c = .ok (r, s') ∧ Effect s s' r c ∧ Bookkept hom' s' := by
  cases c with
  | suspendBitset key tc bitmask => exact ⟨0, _, _, rfl, h.suspend hpr _⟩
  | wakeup key count =>
    have hz : min count.toNat (s.waiters key).length = 0 := by
      rcases hq with hni | hle
      · simp [hni]
      · simp [Int.toNat_of_nonpos hle]
    refine ⟨0, s, home, ?_, ⟨hz.symm, by simp⟩, h⟩
    cases hl : s.lists key with
    | none => simp only [call, wakeup, hl]
    | some l =>
      have hw := waiters_of_lists hl
      simp only [call, wakeup, hl, h.eraseEmpty_eq]
      exact if_neg (by grind)
  | wakeupBitset key bitmask =>
    have hms : ∀ w ∈ s.waiters key, w.checkMask bitmask = false := hq
    have hn : (s.waiters key).countP (·.checkMask bitmask) = 0 := by
      simpa [countP_eq_zero] using hms
    have hal : (s.waiters key).filter (!·.checkMask bitmask) = s.waiters key := by
      simpa [filter_eq_self] using hms
    refine ⟨0, s, home, ?_, ⟨hn.symm, by rw [hal, update_eq_self]⟩, h⟩
    cases hl : s.lists key with
    | none => simp only [call, wakeupBitset, hl]
    | some l =>
      have hw := waiters_of_lists hl
      simp only [call, wakeupBitset, hl, h.eraseEmpty_eq]
      exact if_neg (by simpa [← hw] using hms)
  | requeue key1 key2 count count2 rehash => exact h.requeue hq

/-! ### Runs -/

theorem bookkept_of_reachable (h : ((system T).restrict Quiet).Reachable s) :
    ∃ home, Bookkept home s := by
  refine h.invariant (fun s => ∃ home, Bookkept home s) ?_ ?_
  · rintro s rfl
    exact ⟨fun _ => none, by simp [waiters], by simp, by simp⟩
  · rintro s c s' ⟨home, hs⟩ ⟨hpr, hqu⟩ hok
    obtain ⟨⟨r, s₁⟩, hc, rfl⟩ := map_eq_ok.mp hok
    obtain ⟨r', s₁', hom', hc', -, hbo⟩ := hs.call_spec hpr hqu
    cases hc.symm.trans hc'
    exact ⟨hom', hbo⟩

/-- **The futexes are kept in order**, in every run whose calls are quiet: each
of them does what it should, and no invalid iterator or reference is used. -/
theorem futexes_kept_of_quiet (h : ((system T).restrict Quiet).Reachable s) :
    (∃ home, Bookkept home s) ∧ ∀ c, s.pre c → s.Quiet c →
      ∃ r s', s.call c = .ok (r, s') ∧ Effect s s' r c := by
  obtain ⟨home, hs⟩ := bookkept_of_reachable h
  refine ⟨⟨home, hs⟩, fun c hpr hqu => ?_⟩
  obtain ⟨r, s', -, hca, hef, -⟩ := hs.call_spec hpr hqu
  exact ⟨r, s', hca, hef⟩

def twoWaiting : FutexMap Nat :=
  ((⟨fun _ => none, ∅⟩ : FutexMap Nat).suspendBitset ⟨16, 1⟩ 1 7).suspendBitset ⟨16, 1⟩ 2 7

theorem reachable_twoWaiting : ((system Nat).restrict Quiet).Reachable twoWaiting := by
  refine .next (a := .suspendBitset ⟨16, 1⟩ 2 7) (.next (a := .suspendBitset ⟨16, 1⟩ 1 7)
    (.start rfl) ⟨?_, trivial⟩ rfl) ⟨?_, trivial⟩ rfl
  · exact Finset.notMem_empty 1
  · exact (by decide : 2 ∉ ({1} : Finset Nat))

/-- The first of them is moved to another address. -/
theorem futexes_kept_moved : ∃ r s', twoWaiting.call (.requeue ⟨16, 1⟩ ⟨32, 1⟩ 0 1 true) = .ok (r, s') ∧
    Effect twoWaiting s' r (.requeue ⟨16, 1⟩ ⟨32, 1⟩ 0 1 true) :=
  (futexes_kept_of_quiet reachable_twoWaiting).2 _ trivial
    (.inr ⟨le_rfl, .inr ⟨Int.one_pos, .inr (by decide +kernel)⟩⟩)

/-- **A woken thread stays among the waiting ones**, or waking it reads the node
that was removed. -/
theorem not_futexes_kept_woken : (system Nat).Reachable twoWaiting ∧
    twoWaiting.call (.wakeup ⟨16, 1⟩ 1) = .error .dangling ∧
    twoWaiting.call (.wakeupBitset ⟨16, 1⟩ 2) = .error .dangling ∧
    twoWaiting.call (.requeue ⟨16, 1⟩ ⟨32, 1⟩ 0 0 false) = .error .endDereferenced ∧
    ∃ s', twoWaiting.call (.requeue ⟨16, 1⟩ ⟨32, 1⟩ 1 1 false) = .ok (2, s') ∧
      ∀ home, ¬ Bookkept home s' := by
  refine ⟨reachable_twoWaiting.of_restrict, rfl, rfl, rfl, _, rfl, fun home h => ?_⟩
  obtain ⟨key, hkey⟩ := Option.ne_none_iff_exists'.mp ((h.waiting 1).mp (by decide +kernel))
  have ho := h.once 1 key
  rw [waiters_eraseEmpty, waiters_setList, waiters_setList] at ho
  simp only [update_apply] at ho
  split at ho
  · exact absurd ho (by decide)
  · split at ho
    · exact absurd ho (by decide)
    · next hn => simp [twoWaiting, waiters, suspendBitset, setList, hn] at ho

end FutexMap

end Gem5.Sim
