import Gem5.Mem.Cache.Prefetch.Eip.HistorySound

/-!
# Gem5.Mem.Cache.Prefetch.Eip.Timely

**Timeliness of the selected source.** A prefetch of a line is triggered by the
source it is entangled with, so the source must have been fetched at least the
line's miss latency before the line. `l1i_get_src_entangled_hist_table` decides
this from the recorded time differences.

The runs of the history table are a `System` whose state carries two ghosts
next to the tables: the cycle at which each entry was inserted, and whether a
squash has since credited the entry with the time of younger entries it
removed. For a credited entry the recorded age of everything before it is too
large.
-/

namespace Gem5.Eip

open Gem5.Lib Function Nat Except Prod System.Reachable

/-! ### The walk over the history -/

/-- The best source so far is an entry older than age `m`, of another line, at
least `latency` before the entry of age `m` as recorded. -/
def TimelyBest (h : HistTable) (tag latency m best : Nat) : Prop :=
  best = 0 ∨ ∃ k < 32, (h.entries (ringPos h k)).tag = best ∧ best ≠ tag ∧
    timeAhead h m + latency ≤ timeAhead h k

theorem srcWalk_timely (h : HistTable) {tag latency m : Nat} :
    ∀ (fuel k : Nat) (acc acc' : SrcScan), k ≤ 32 →
      timeAhead h m + acc.timeI = timeAhead h k →
      TimelyBest h tag latency m acc.bestEntangled →
      srcWalk h tag latency h.last fuel (ringPos h k) acc = .ok (some acc') →
      TimelyBest h tag latency m acc'.bestEntangled := by
  intro fuel
  induction fuel with
  | zero =>
    intro k acc acc' _ _ hb hw
    obtain rfl : acc = acc' := by simpa [srcWalk] using hw
    exact hb
  | succ fuel ih =>
    intro k acc acc' hk htm hb hw
    rw [srcWalk] at hw
    by_cases hfs : ringPos h k = h.last
    · rw [if_pos hfs] at hw
      obtain rfl : acc = acc' := by simpa using hw
      exact hb
    · rw [if_neg hfs] at hw
      -- Age 32 is age 0 again, where the walk has just been seen not to be.
      have hk32 : k < 32 := by
        rcases lt_or_ge k 32 with hlt | hge
        · exact hlt
        · obtain rfl : k = 32 := by omega
          exact absurd (ringPos_add h 0) hfs
      have hnx : timeAhead h m + (acc.timeI + (h.entries (ringPos h k)).timeDiff) =
          timeAhead h (k + 1) := by
        rw [timeAhead_succ]
        omega
      rw [prevPos_ringPos] at hw
      by_cases hs : (h.entries (ringPos h k)).tag = tag
      · rw [if_pos hs] at hw
        exact absurd hw (by simp)
      · rw [if_neg hs] at hw
        by_cases hc : (h.entries (ringPos h k)).tag ≠ 0 ∧ acc.timeI ≥ latency
        · rw [if_pos hc] at hw
          cases hf : l1iGetFormatEntangled (h.entries (ringPos h k)).tag tag with
          | error f => rw [hf] at hw; exact absurd hw (by simp)
          | ok f =>
            rw [hf] at hw
            simp only [ok_bind] at hw
            obtain ⟨hti, hca⟩ := consider_best acc (h.entries (ringPos h k)) (ringPos h k) f
            have hb' : TimelyBest h tag latency m
                (acc.consider (h.entries (ringPos h k)) (ringPos h k) f).1.bestEntangled := by
              rcases hca with hol | hne
              · rw [hol]; exact hb
              · rw [hne]
                exact Or.inr ⟨k, hk32, rfl, hs, by omega⟩
            split at hw
            · rw [← Option.some.inj (ok.inj hw)]
              exact hb'
            · refine ih (k + 1) _ acc' (by omega) ?_ ?_ hw
              · show timeAhead h m + (_ + _) = _
                rw [hti]
                exact hnx
              · exact hb'
        · rw [if_neg hc] at hw
          refine ih (k + 1) _ acc' (by omega) ?_ ?_ hw
          · exact hnx
          · exact hb

variable {h h' : HistTable} {inserted credit : Nat → Nat} {s : HistRun} {lineAddr cycle : Nat}

/-- **What a returned source is**: an entry of another line, recorded as at
least `latency` older than the entry at `posHist`. -/
theorem l1iGetSrcEntangledHistTable_timely {m latency src : Nat} (hm : m < 32) (hn : src ≠ 0)
    (hs : l1iGetSrcEntangledHistTable h lineAddr (ringPos h m) latency = .ok (h', src)) :
    (h.entries (ringPos h m)).tag = histTag lineAddr ∧ histTag lineAddr ≠ 0 ∧
      ∃ k < 32, (h.entries (ringPos h k)).tag = src ∧ src ≠ histTag lineAddr ∧
        timeAhead h m + latency ≤ timeAhead h k := by
  unfold l1iGetSrcEntangledHistTable at hs
  rw [if_neg (not_not.mpr (ringPos_lt h m))] at hs
  split at hs
  · exact absurd hs (by simp)
  · rename_i ht0
    split at hs
    · exact absurd (congrArg snd (ok.inj hs)).symm hn
    · rename_i ht
      refine ⟨not_not.mp ht, ht0, ?_⟩
      rw [prevPos_ringPos] at hs
      cases hw : srcWalk h (histTag lineAddr) latency h.last l1iHistTableEntries (ringPos h (m + 1))
          { timeI := (h.entries (ringPos h m)).timeDiff, numSearched := 0, bestEntangled := 0,
            posBest := 0, formatBest := 0, found := 0 } with
      | error f => rw [hw] at hs; exact absurd hs (by simp)
      | ok scan =>
        rw [hw] at hs
        cases scan with
        | none => exact absurd (congrArg snd (ok.inj hs)).symm hn
        | some acc =>
          have hti := srcWalk_timely h l1iHistTableEntries (m + 1) _ acc (by omega)
            (timeAhead_succ h m).symm (Or.inl rfl) hw
          simp only [ok_bind] at hs
          split at hs
          · have : acc.bestEntangled = src := congrArg snd (ok.inj hs)
            rw [this] at hti
            exact hti.resolve_left hn
          · exact absurd (congrArg snd (ok.inj hs)).symm hn

/-! ### Recorded and real insertion times -/

/-- **The recorded ages are exact up to the credits**: a live entry of age `k`
was inserted `timeAhead h k` plus its credit before the head time. -/
structure Recorded (h : HistTable) (inserted credit : Nat → Nat) : Prop where
  head_lt : h.head < 32
  age : ∀ k < 32, (h.entries (ringPos h k)).tag ≠ 0 →
    inserted (ringPos h k) + credit (ringPos h k) + timeAhead h k = h.headTime

section

variable (hr : Recorded h inserted credit)
include hr

theorem Recorded.congr (hhd : h'.head = h.head) (hti : h'.headTime = h.headTime)
    (hta : ∀ i, (h'.entries i).tag = (h.entries i).tag)
    (hdi : ∀ i, (h'.entries i).timeDiff = (h.entries i).timeDiff) :
    Recorded h' inserted credit := by
  have hp : ∀ k, ringPos h' k = ringPos h k := by
    intro k
    rw [ringPos, hhd, ringPos]
  have hah : ∀ k, timeAhead h' k = timeAhead h k := by
    intro k
    refine Finset.sum_congr rfl fun j _ => ?_
    rw [hp, hdi]
  refine ⟨hhd ▸ hr.head_lt, fun k hk hn => ?_⟩
  rw [hp, hta] at hn
  rw [hp, hah, hti]
  exact hr.age k hk hn

theorem Recorded.push {inserted' credit' : Nat → Nat} {e : HistEntry}
    (hol : ∀ i, i ≠ h.head → inserted' i = inserted i ∧ credit' i = credit i)
    (hne : e.tag ≠ 0 → inserted' h.head + credit' h.head = h.headTime + e.timeDiff) :
    Recorded (h.push e (h.headTime + e.timeDiff)) inserted' credit' := by
  refine ⟨mod_lt _ (by decide), fun k hk hn => ?_⟩
  cases k with
  | zero =>
    rw [ringPos_push_zero hr.head_lt] at hn ⊢
    have hta : e.tag ≠ 0 := by simpa [HistTable.push] using hn
    exact hne hta
  | succ k =>
    rw [ringPos_push, push_entries hr.head_lt _ _ (by omega)] at hn
    have hp : ringPos h k ≠ h.head := by
      intro heq
      rw [← ringPos_31 hr.head_lt] at heq
      have := ringPos_inj (by omega) (by omega) heq
      omega
    have hage := hr.age k (by omega) hn
    rw [ringPos_push, timeAhead_push hr.head_lt _ _ k (by omega), (hol _ hp).1, (hol _ hp).2]
    simp only [HistTable.push]
    omega

omit hr in
theorem Recorded.addFillers :
    ∀ {fuel : Nat} {h h' : HistTable} {t t' : EntangledTable}, Recorded h inserted credit →
      h.headTime ≤ cycle → Eip.addFillers cycle fuel h t = .ok (h', t') →
      Recorded h' inserted credit ∧ h'.headTime ≤ cycle ∧
        cycle - h'.headTime < l1iTimeDiffOverflow := by
  intro fuel
  induction fuel with
  | zero => intro h h' t t' _ _ ho; exact absurd ho (by simp [Eip.addFillers])
  | succ fuel ih =>
    intro h h' t t' hr hl ho
    rw [Eip.addFillers] at ho
    split at ho
    · rename_i hov
      obtain ⟨t₁, _, hre⟩ := bind_eq_ok.mp ho
      refine ih ?_ ?_ hre
      · exact hr.push (fun _ _ => ⟨rfl, rfl⟩) (fun hn => absurd rfl hn)
      · simp only [HistTable.push, l1iTimeDiffMask] at hov ⊢
        omega
    · cases ho
      exact ⟨hr, hl, by omega⟩

theorem Recorded.l1iAddHistTable {t t' : EntangledTable} {instrId format numDst pos : Nat}
    (hl : h.headTime ≤ cycle)
    (hok : Eip.l1iAddHistTable h t cycle lineAddr instrId format numDst = .ok (h', t', pos)) :
    Recorded h' (update inserted pos cycle) (update credit pos 0) ∧ h'.headTime = cycle := by
  obtain ⟨⟨h₁, t₁⟩, hfi, hre⟩ := bind_eq_ok.mp hok
  obtain ⟨t₂, _, hla⟩ := bind_eq_ok.mp hre
  obtain ⟨hr₁, hl₁, hft⟩ := hr.addFillers hl hfi
  obtain ⟨rfl, hpa⟩ := mk.inj (ok.inj hla)
  obtain ⟨_, rfl⟩ := mk.inj hpa
  refine ⟨?_, rfl⟩
  have hms : (cycle - h₁.headTime) &&& l1iTimeDiffMask = cycle - h₁.headTime :=
    and_two_pow_sub_one_of_lt_two_pow hft
  have hpu : Recorded (h₁.push
      ⟨histTag lineAddr, cycle - h₁.headTime, 0, instrId, 0, format, numDst⟩
      (h₁.headTime + (cycle - h₁.headTime)))
      (update inserted h₁.head cycle) (update credit h₁.head 0) := by
    refine hr₁.push (fun i hi => ?_) (fun _ => ?_)
    · exact ⟨update_of_ne hi _ _, update_of_ne hi _ _⟩
    · rw [update_self, update_self]
      dsimp only
      omega
  rw [hms]
  rwa [show h₁.headTime + (cycle - h₁.headTime) = cycle by omega] at hpu

end

/-- The credits after a squash: the newest survivor is credited with the time of
the entries removed above it. -/
def creditSurvivor (h : HistTable) (instrId : Nat) (credit : Nat → Nat) : Nat → Nat :=
  if survivor h instrId < l1iHistTableEntries then
    update credit (ringPos h (survivor h instrId))
      (credit (ringPos h (survivor h instrId)) + timeAhead h (survivor h instrId))
  else credit

theorem Recorded.squash (hr : Recorded h inserted credit) (instrId lineAddr : Nat) :
    Recorded (l1iSquashHistTable h instrId lineAddr) inserted
      (creditSurvivor h instrId credit) := by
  refine ⟨squash_head_lt h instrId lineAddr, fun k hk hn => ?_⟩
  rw [squash_headTime, ringPos_squash] at *
  rcases lt_or_ge (k + survivor h instrId) 32 with hlt | hge
  · rw [squash_entries h instrId lineAddr hlt] at hn
    obtain ⟨_, hta⟩ := squashEntry_tag_ne_zero hn
    have hag := hr.age _ hlt (hta ▸ hn)
    have hm : survivor h instrId < l1iHistTableEntries := by
      simp only [l1iHistTableEntries]; omega
    rw [creditSurvivor, if_pos hm]
    cases k with
    | zero =>
      rw [zero_add] at hag ⊢
      rw [update_self, timeAhead_zero]
      omega
    | succ k =>
      have hpo : ringPos h (k + 1 + survivor h instrId) ≠ ringPos h (survivor h instrId) := by
        intro heq
        have := ringPos_inj hlt hm heq
        omega
      rw [update_of_ne hpo, timeAhead_squash h instrId lineAddr k (by omega)]
      exact hag
  · -- Beyond the oldest entry the ring continues with the entries that were removed.
    have hm : survivor h instrId ≤ 32 := firstBelow_le _ _
    obtain ⟨j, hj⟩ : ∃ j, k + survivor h instrId = j + 32 := ⟨k + survivor h instrId - 32, by omega⟩
    rw [hj, ringPos_add, squash_entries h instrId lineAddr (by omega)] at hn
    have hkee := survivor_le (squashEntry_tag_ne_zero hn).1
    omega

/-! ### Runs of the history table -/

/-- The history table in a run, with the entangled table it spills to. `now` is
the cycle of the last insertion; `inserted` and `credit` are ghosts: no call
reads them. -/
structure HistRun where
  hist : HistTable
  table : EntangledTable
  now : Nat
  inserted : Nat → Nat
  credit : Nat → Nat

inductive HistCall where
  | addHistTable (cycle lineAddr instrId format numDst : Nat)
  | squashHistTable (instrId lineAddr : Nat)
  | getSrcEntangledHistTable (lineAddr posHist latency : Nat)

/-- One call. An insertion is stamped with its cycle, and a squash credits the
newest entry it keeps. -/
def HistRun.step (s : HistRun) : HistCall → Except Fault HistRun
  | .addHistTable cycle lineAddr instrId format numDst => do
      let (h, t, pos) ← l1iAddHistTable s.hist s.table cycle lineAddr instrId format numDst
      return { hist := h
               table := t
               now := cycle
               inserted := update s.inserted pos cycle
               credit := update s.credit pos 0 }
  | .squashHistTable instrId lineAddr =>
    .ok { s with
      hist := l1iSquashHistTable s.hist instrId lineAddr
      credit := creditSurvivor s.hist instrId s.credit }
  | .getSrcEntangledHistTable lineAddr posHist latency => do
      let (h, _) ← l1iGetSrcEntangledHistTable s.hist lineAddr posHist latency
      return { s with hist := h }

/-- The initialised tables at cycle `cycle`. -/
def HistRun.start (cycle : Nat) : HistRun :=
  { hist := l1iInitHistTable cycle
    table := l1iInitEntangledTable
    now := cycle
    inserted := fun _ => cycle
    credit := fun _ => 0 }

/-- The runs: insertions come at non-decreasing cycles, nothing else is asked. -/
def histSystem : System HistRun HistCall Fault where
  init s := ∃ cycle, s = HistRun.start cycle
  step := HistRun.step
  pre s
    | .addHistTable cycle .. => s.now ≤ cycle
    | _ => True

instance (s a) : Decidable (histSystem.pre s a) := by
  cases a <;> dsimp only [histSystem] <;> infer_instance

structure HistRun.Inv (s : HistRun) : Prop where
  recorded : Recorded s.hist s.inserted s.credit
  time : s.hist.headTime ≤ s.now

theorem HistRun.Inv.start (cycle : Nat) : (HistRun.start cycle).Inv where
  recorded := ⟨zero_lt_succ 31, fun _ _ hn => absurd rfl hn⟩
  time := le_rfl

theorem HistRun.Inv.step {s' : HistRun} {a : HistCall} (hs : s.Inv) (hp : histSystem.pre s a)
    (hok : s.step a = .ok s') : s'.Inv := by
  cases a with
  | addHistTable cycle lineAddr instrId format numDst =>
    obtain ⟨⟨h, t, pos⟩, had, rfl⟩ := bind_ok.mp hok
    obtain ⟨hre, hti⟩ := hs.recorded.l1iAddHistTable (le_trans hs.time hp) had
    exact ⟨hre, hti.le⟩
  | squashHistTable instrId lineAddr =>
    obtain rfl := ok.inj hok
    refine ⟨hs.recorded.squash instrId lineAddr, ?_⟩
    rw [squash_headTime]
    exact hs.time
  | getSrcEntangledHistTable lineAddr posHist latency =>
    obtain ⟨⟨h, src⟩, hge, rfl⟩ := bind_ok.mp hok
    rcases l1iGetSrcEntangledHistTable_cases hge with rfl | ⟨p, f, rfl⟩
    · exact ⟨hs.recorded, hs.time⟩
    · refine ⟨hs.recorded.congr rfl rfl (fun i => ?_) (fun i => ?_), hs.time⟩
      · apply set_same_field HistEntry.tag; rfl
      · apply set_same_field HistEntry.timeDiff; rfl

theorem HistRun.Inv.reachable (hs : histSystem.Reachable s) : s.Inv := by
  refine invariant _ ?_ ?_ hs
  · rintro s ⟨cycle, rfl⟩
    exact HistRun.Inv.start cycle
  · intro s a s' hin hp hok
    exact hin.step hp hok

theorem timely_up_to_credit (hs : histSystem.Reachable s) {posHist latency src : Nat}
    (hgt : l1iGetSrcEntangledHistTable s.hist lineAddr posHist latency = .ok (h', src))
    (hn : src ≠ 0) :
    ∃ i < l1iHistTableEntries, (s.hist.entries i).tag = src ∧ src ≠ histTag lineAddr ∧
      s.inserted i + latency ≤ s.inserted posHist + s.credit posHist := by
  have hpo : posHist < 32 := by
    by_contra hg
    rw [l1iGetSrcEntangledHistTable, if_pos hg] at hgt
    exact absurd hgt (by simp)
  obtain ⟨m, hm, rfl⟩ := exists_ringPos s.hist hpo
  obtain ⟨ht, ht0, k, hk, hsr, hot, htim⟩ := l1iGetSrcEntangledHistTable_timely hm hn hgt
  have hre := (HistRun.Inv.reachable hs).recorded
  have hage := hre.age m hm (ht ▸ ht0)
  have hagS := hre.age k hk (hsr ▸ hn)
  exact ⟨ringPos s.hist k, ringPos_lt _ _, hsr, hot, by omega⟩

/-- **Timeliness.** In every run, a source returned for an entry that no squash
has credited is the tag of a live entry of another line, inserted at least
`latency` cycles before it. -/
theorem timely_of_not_credited {s : HistRun} (hs : histSystem.Reachable s)
    {lineAddr posHist latency src : Nat} {h' : HistTable}
    (hget : l1iGetSrcEntangledHistTable s.hist lineAddr posHist latency = .ok (h', src))
    (hne : src ≠ 0) (hcredit : s.credit posHist = 0) :
    ∃ i < l1iHistTableEntries, (s.hist.entries i).tag = src ∧ src ≠ histTag lineAddr ∧
      s.inserted i + latency ≤ s.inserted posHist := by
  obtain ⟨i, hi, hta, hot, ht⟩ := timely_up_to_credit hs hget hne
  rw [hcredit] at ht
  exact ⟨i, hi, hta, hot, ht⟩

/-- Line 1 is fetched at cycle 10 and line 2 at cycle 600: at latency 500 line 1
is selected for line 2, and is timely. -/
theorem timely_after_two_inserts :
    ∃ s h', histSystem.Reachable s ∧
      l1iGetSrcEntangledHistTable s.hist 2 1 500 = .ok (h', 1) ∧ s.credit 1 = 0 ∧
      ∃ i < l1iHistTableEntries, (s.hist.entries i).tag = 1 ∧ 1 ≠ histTag 2 ∧
        s.inserted i + 500 ≤ s.inserted 1 := by
  obtain ⟨s, hs, hge, hcr⟩ := exists_of_leads (S := histSystem)
    (p := fun s => Succeeds (fun r => r.2 = 1) (l1iGetSrcEntangledHistTable s.hist 2 1 500) ∧
      s.credit 1 = 0)
    [.addHistTable 10 1 1 0 0, .addHistTable 600 2 2 0 0]
    (.start ⟨0, rfl⟩) (by decide +kernel)
  obtain ⟨⟨h', src⟩, hok, rfl⟩ := hge.exists
  exact ⟨s, h', hs, hok, hcr, timely_of_not_credited hs hok (by decide) hcr⟩

/-- **A squash breaks timeliness.** Lines 1, 2 and 3 are fetched at cycles 10, 20
and 1020 and line 3 is squashed. The 1000 cycles before line 3 are then counted
as elapsed before line 2, and line 1 is returned as a source 500 cycles ahead of
line 2, though only 10 cycles separate them. -/
theorem untimely_after_squash :
    ¬∀ s, histSystem.Reachable s → ∀ lineAddr posHist latency h' src,
      l1iGetSrcEntangledHistTable s.hist lineAddr posHist latency = .ok (h', src) → src ≠ 0 →
      ∃ i < l1iHistTableEntries, (s.hist.entries i).tag = src ∧ src ≠ histTag lineAddr ∧
        s.inserted i + latency ≤ s.inserted posHist := by
  intro hal
  obtain ⟨s, hs, hge, hla⟩ := exists_of_leads (S := histSystem)
    (p := fun s => Succeeds (fun r => r.2 = 1) (l1iGetSrcEntangledHistTable s.hist 2 1 500) ∧
      ∀ i < 32, (s.hist.entries i).tag = 1 → s.inserted 1 < s.inserted i + 500)
    [.addHistTable 10 1 1 0 0, .addHistTable 20 2 2 0 0, .addHistTable 1020 3 3 0 0,
      .squashHistTable 2 2]
    (.start ⟨0, rfl⟩) (by decide +kernel)
  obtain ⟨⟨h', src⟩, hok, rfl⟩ := hge.exists
  obtain ⟨i, hi, hta, _, hti⟩ := hal s hs 2 1 500 h' _ hok (by decide)
  exact absurd hti (Nat.not_le_of_lt (hla i hi hta))

end Gem5.Eip
