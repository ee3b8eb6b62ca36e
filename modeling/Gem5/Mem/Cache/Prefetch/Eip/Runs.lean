import Gem5.Mem.Cache.Prefetch.Eip.PrefetcherSound

/-!
# Gem5.Mem.Cache.Prefetch.Eip.Runs

**Runs of the prefetcher.** The entangled table alone is driven by its three
update functions; the whole prefetcher is driven by the notifications of its
cache. Both are `System`s, and what holds in every reachable state follows from
what each call preserves.

The state of a prefetcher run carries ghosts for the history positions: the id
of the packet whose access was inserted there, and the word that the
`PrefetchInfo` of that access held in its uninitialised `instr_id`. The latter is
what the history table stores, so a squash selects entries by it and removes
exactly the wrong-path ones only when the two words compare alike with the
squashed id (`squash_exact_iff`).
-/

namespace Gem5.Eip

open Gem5.Lib Gem5.Mem Gem5.Prefetch Function Prefetcher Succeeds System.Reachable HistEntry

/-! ### The entangled table on its own -/

inductive EntangledCall where
  | addEntangledTable (lineAddr entangledAddr : Nat)
  | addBbsizeTable (lineAddr bbSize : Nat)
  | updateConfidenceEntangledTable (set way entangledAddr : Nat) (accessed : Bool)

def entangledStep (t : EntangledTable) : EntangledCall → Except Fault EntangledTable
  | .addEntangledTable lineAddr entangledAddr => l1iAddEntangledTable t lineAddr entangledAddr
  | .addBbsizeTable lineAddr bbSize => l1iAddBbsizeTable t lineAddr bbSize
  | .updateConfidenceEntangledTable set way entangledAddr accessed =>
    .ok (l1iUpdateConfidenceEntangledTable t set way entangledAddr accessed)

/-- The runs of the table, on lines of 58 bits, sizes up to 63 and existing sets. -/
def entangledSystem : System EntangledTable EntangledCall Fault where
  init t := t = l1iInitEntangledTable
  step := entangledStep
  pre _
    | .addEntangledTable lineAddr entangledAddr => lineAddr < 2 ^ 58 ∧ entangledAddr < 2 ^ 58
    | .addBbsizeTable lineAddr bbSize => lineAddr < 2 ^ 58 ∧ bbSize ≤ l1iMergeBbsizeMaxValue
    | .updateConfidenceEntangledTable set _ _ _ => set < l1iEtSets

variable {t : EntangledTable} {a : PrefetcherCall} {s : PrefetcherRun}

theorem TableInv.step {a : EntangledCall} (ht : TableInv t) (hp : entangledSystem.pre t a) :
    Succeeds TableInv (entangledStep t a) := by
  cases a with
  | addEntangledTable lineAddr entangledAddr =>
    exact of_exists (ht.l1iAddEntangledTable hp.1 hp.2)
  | addBbsizeTable lineAddr bbSize => exact of_exists (ht.l1iAddBbsizeTable lineAddr hp.2)
  | updateConfidenceEntangledTable set way entangledAddr accessed =>
    exact ht.l1iUpdateConfidenceEntangledTable set way entangledAddr accessed

theorem TableInv.reachable (ht : entangledSystem.Reachable t) : TableInv t := by
  refine invariant _ ?_ ?_ ht
  · rintro t rfl
    exact tableInv_init
  · intro t a t' hin hp hok
    exact (hin.step hp).of_ok hok

/-! ### The prefetcher -/

/-- The prefetcher in a run. The ghosts `accessId` and `word` say, for each
history position, which packet's access was inserted there and what the
uninitialised `instr_id` of its `PrefetchInfo` held; `lastId` and `now` are the
id and the cycle of the last access. -/
structure PrefetcherRun where
  prefetcher : Prefetcher
  accessId : Nat → Nat
  word : Nat → Nat
  lastId : Nat
  now : Nat

/-- What the cache tells the prefetcher. An access comes with the address it is
trained with and the memory its `PrefetchInfo` is built in. -/
inductive PrefetcherCall where
  | access (cycle : Nat) (pkt : Packet) (addr : Nat) (miss : Bool) (raw : Uninit)
  | fill (cycle addr : Nat)
  | squash (pkt : Packet)
  | invalidate (addr : Nat)
  | prefetchIssued (cycle lineAddr sourceSet sourceWay : Nat)

namespace PrefetcherRun

/-- One notification. After an access the queue of candidates is cleared, as
`Queued::notify` does. -/
def step (s : PrefetcherRun) : PrefetcherCall → Except Fault PrefetcherRun
  | .access cycle pkt addr miss raw => do
      let r ← s.prefetcher.calculatePrefetch cycle (.ofPacket pkt addr miss raw)
      return {
        prefetcher := r.1.clearPfmq
        accessId := update s.accessId r.2.2 pkt.instrId
        word := update s.word r.2.2 raw.instrId
        lastId := pkt.instrId
        now := cycle }
  | .fill cycle addr => do
      let p ← s.prefetcher.notifyFill cycle addr
      return { s with prefetcher := p }
  | .squash pkt =>
    .ok { s with prefetcher := s.prefetcher.notifySquash (pkt.req.pc.getD 0) pkt.instrId }
  | .invalidate addr => .ok { s with prefetcher := s.prefetcher.notifyInvalidate addr }
  | .prefetchIssued cycle lineAddr sourceSet sourceWay => do
      let p ← s.prefetcher.prefetchIssuedToPq cycle lineAddr sourceSet sourceWay
      return { s with prefetcher := p }

def start (cycle : Nat) (raw : TimingTables) : PrefetcherRun where
  prefetcher := .init cycle raw
  accessId := fun _ => 0
  word := fun _ => 0
  lastId := 0
  now := cycle

/-- Addresses are 64-bit words, sources name a set of the entangled table, and
the clock does not run backwards. -/
def pre (s : PrefetcherRun) : PrefetcherCall → Prop
  | .access cycle _ addr _ _ => addr < 2 ^ 64 ∧ s.now ≤ cycle
  | .fill cycle addr => addr < 2 ^ 64 ∧ s.now ≤ cycle
  | .squash _ => True
  | .invalidate addr => addr < 2 ^ 64
  | .prefetchIssued cycle lineAddr sourceSet _ =>
    lineAddr < 2 ^ 58 ∧ sourceSet < l1iEtSets ∧ s.now ≤ cycle

end PrefetcherRun

def prefetcherSystem : System PrefetcherRun PrefetcherCall Fault where
  init s := ∃ cycle raw, s = PrefetcherRun.start cycle raw
  step := PrefetcherRun.step
  pre := PrefetcherRun.pre

instance (s a) : Decidable (prefetcherSystem.pre s a) := by
  cases a <;> dsimp only [prefetcherSystem, PrefetcherRun.pre] <;> infer_instance

theorem PrefetcherRun.keepsInv (hs : s.prefetcher.Inv) (hp : s.pre a) :
    KeepsInv PrefetcherRun.prefetcher (s.step a) := by
  cases a with
  | access cycle pkt addr miss raw =>
    have had : (PrefetchInfo.ofPacket pkt addr miss raw).address < 2 ^ 64 := hp.1
    exact (hs.calculatePrefetch cycle had).bind fun r hr => ⟨hr.table, hr.hist⟩
  | fill cycle addr => exact (hs.notifyFill cycle addr).bind fun p hp' => hp'
  | squash pkt =>
    have hsq := hs.notifySquash (pkt.req.pc.getD 0) pkt.instrId
    simpa only [PrefetcherRun.step, Outcome] using hsq
  | invalidate addr => exact hs.notifyInvalidate addr
  | prefetchIssued cycle lineAddr sourceSet sourceWay =>
    exact (hs.prefetchIssuedToPq cycle lineAddr sourceSet sourceWay).bind fun p hp' => hp'

theorem PrefetcherRun.inv_reachable (hs : prefetcherSystem.Reachable s) : s.prefetcher.Inv := by
  refine invariant (fun s => s.prefetcher.Inv) ?_ ?_ hs
  · rintro s ⟨cycle, raw, rfl⟩
    exact Prefetcher.Inv.init cycle raw
  · intro s a s' hin hp hok
    exact (PrefetcherRun.keepsInv hin hp).of_ok hok

/-- **The representation invariant of the entangled table.** Every reachable
table has its replacement pointers in range, unique tags, and ways whose format,
counters, sizes and destinations are in range, with no more destinations than
the format allows and no destination twice; no update faults; and in no run of
the prefetcher does an assertion about formats, basic-block sizes or the number
of destinations fire. -/
theorem entangled_table_invariant :
    (∀ t, entangledSystem.Reachable t → ∀ set < l1iEtSets, (t set).Inv) ∧
    entangledSystem.FaultFree ∧
    ∀ s a f, prefetcherSystem.Reachable s → prefetcherSystem.pre s a →
      prefetcherSystem.step s a = .error f → f.isEntangledAssert = false := by
  refine ⟨fun t ht => TableInv.reachable ht, fun t a ht hp => ?_, fun s a f hs hp her => ?_⟩
  · obtain ⟨t', hok, _⟩ := ((TableInv.reachable ht).step hp).exists
    exact ⟨t', hok⟩
  · have hk := PrefetcherRun.keepsInv (PrefetcherRun.inv_reachable hs) hp
    rw [show s.step a = .error f from her] at hk
    exact hk

/-! ### Which word the history stores -/

/-- The entry is now empty or keeps its tag and its word. -/
def HistEntry.Kept (e e' : HistEntry) : Prop :=
  e'.tag = 0 ∨ e'.tag = e.tag ∧ e'.instrId = e.instrId

theorem HistEntry.Kept.trans {e e' e'' : HistEntry} (h₁ : e.Kept e') (h₂ : e'.Kept e'') :
    e.Kept e'' := by
  rcases h₂ with hz | ⟨ht, hid⟩
  · exact Or.inl hz
  · rcases h₁ with hz | ⟨ht', hid'⟩
    · exact Or.inl (ht.trans hz)
    · exact Or.inr ⟨ht.trans ht', hid.trans hid'⟩

/-- Every entry is empty or keeps its tag and its word. -/
def SameIds (h h' : HistTable) : Prop :=
  ∀ i < l1iHistTableEntries, (h.entries i).Kept (h'.entries i)

/-- The same, except that the entry at `pos` stores the word `instrId`. -/
def IdsAfter (h h' : HistTable) (instrId pos : Nat) : Prop :=
  ∀ i < l1iHistTableEntries,
    if i = pos then (h'.entries i).instrId = instrId else (h.entries i).Kept (h'.entries i)

variable (h : HistTable) (e : HistEntry) (time : Nat) {h' : HistTable} {i pos : Nat}

theorem SameIds.refl : SameIds h h := fun _ _ => Or.inr ⟨rfl, rfl⟩

theorem SameIds.trans {h h'' : HistTable} (h₁ : SameIds h h') (h₂ : SameIds h' h'') :
    SameIds h h'' := fun i hi => (h₁ i hi).trans (h₂ i hi)

theorem SameIds.idsAfter {h h'' : HistTable} {instrId : Nat} (h₁ : SameIds h h')
    (h₂ : IdsAfter h' h'' instrId pos) : IdsAfter h h'' instrId pos := by
  intro i hi
  have hi₂ := h₂ i hi
  split at hi₂
  · rename_i heq
    rwa [if_pos heq]
  · rename_i hn
    rw [if_neg hn]
    exact (h₁ i hi).trans hi₂

theorem SameIds.not_inserted {h : HistTable} (hs : SameIds h h') (instrId : Nat) :
    IdsAfter h h' instrId l1iHistTableEntries := by
  intro i hi
  rw [if_neg (Nat.ne_of_lt hi)]
  exact hs i hi

theorem SameIds.set {h : HistTable} {p : Nat} {e : HistEntry}
    (hta : e.tag = (h.entries p).tag) (hid : e.instrId = (h.entries p).instrId) :
    SameIds h (h.set p e) := fun i _ =>
  Or.inr ⟨set_same_field tag hta i, set_same_field instrId hid i⟩

theorem push_entries_of_ne (hn : i ≠ h.head) : (h.push e time).entries i = h.entries i :=
  update_of_ne hn _ _

theorem push_entries_head : (h.push e time).entries h.head = e :=
  update_self _ _ _

theorem SameIds.addFillers (cycle : Nat) :
    ∀ (fuel : Nat) {h h' : HistTable} {t t' : EntangledTable},
      Gem5.Eip.addFillers cycle fuel h t = .ok (h', t') → SameIds h h' := by
  intro fuel
  induction fuel with
  | zero => intro h h' t t' ho; exact absurd ho (by simp [Gem5.Eip.addFillers])
  | succ fuel ih =>
    intro h h' t t' ho
    rw [Gem5.Eip.addFillers] at ho
    split at ho
    · obtain ⟨t₁, _, hr⟩ := bind_eq_ok.mp ho
      refine SameIds.trans (fun i _ => ?_) (ih hr)
      rcases eq_or_ne i h.head with rfl | hn
      · exact Or.inl (by rw [push_entries_head]; rfl)
      · rw [push_entries_of_ne h _ _ hn]
        exact Or.inr ⟨rfl, rfl⟩
    · obtain ⟨rfl, _⟩ := Prod.mk.inj (Except.ok.inj ho)
      exact .refl h

theorem l1iAddHistTable_ids {h : HistTable} {t' : EntangledTable}
    {cycle lineAddr instrId format numDst : Nat}
    (hok : l1iAddHistTable h t cycle lineAddr instrId format numDst = .ok (h', t', pos)) :
    IdsAfter h h' instrId pos := by
  obtain ⟨⟨h₁, t₁⟩, hfi, hr⟩ := bind_eq_ok.mp hok
  obtain ⟨t₂, _, hl⟩ := bind_eq_ok.mp hr
  obtain ⟨rfl, hpa⟩ := Prod.mk.inj (Except.ok.inj hl)
  obtain ⟨_, rfl⟩ := Prod.mk.inj hpa
  refine (SameIds.addFillers cycle _ hfi).idsAfter fun i _ => ?_
  split
  · rename_i heq
    rw [heq, push_entries_head]
  · rename_i hn
    rw [push_entries_of_ne _ _ _ hn]
    exact Or.inr ⟨rfl, rfl⟩

theorem l1iAddBbSizeHistTable_ids {h : HistTable} {lineAddr bbSize : Nat}
    (ho : l1iAddBbSizeHistTable h lineAddr bbSize = .ok h') : SameIds h h' := by
  unfold l1iAddBbSizeHistTable at ho
  dsimp only at ho
  split at ho
  · cases ho
    exact SameIds.set rfl rfl
  · cases ho

namespace Prefetcher

variable {s s' : Prefetcher} {cycle : Nat}

/-- **What an access stores**: the history entry it inserts carries the `instr_id`
of its `PrefetchInfo`, and no other entry changes its word. -/
theorem calculatePrefetch_ids {pfi : PrefetchInfo} {r : Prefetcher × List AddrPriority × Nat}
    (h : s.calculatePrefetch cycle pfi = .ok r) : IdsAfter s.hist r.1.hist pfi.instrId r.2.2 := by
  rcases calculatePrefetch_cases h with rfl | ⟨⟨hist, hbl, had⟩, -⟩
  · exact (SameIds.refl s.hist).not_inserted pfi.instrId
  · have hs : SameIds s.hist hist := by
      rcases hbl with rfl | ⟨line, bb, hbl⟩
      · exact .refl _
      · exact l1iAddBbSizeHistTable_ids hbl
    rcases had with ⟨hhi, hpo⟩ | ⟨t, t', format, numEntangled, had⟩
    · rw [hhi, hpo]
      exact hs.not_inserted pfi.instrId
    · exact hs.idsAfter (l1iAddHistTable_ids had)

theorem notifyFill_ids {addr : Nat} (h : s.notifyFill cycle addr = .ok s') :
    SameIds s.hist s'.hist := by
  obtain ⟨-, hke | ⟨pos, latency, src, hsr, hs⟩⟩ := notifyFill_cases h
  · rw [hke]
    exact .refl _
  · have hsa : SameIds s.hist src.1 := by
      rcases l1iGetSrcEntangledHistTable_cases hsr with heq | ⟨p, f, heq⟩
      · rw [heq]
        exact .refl _
      · rw [heq]
        exact SameIds.set rfl rfl
    rcases hs with hs | hs
    · rwa [hs]
    · rw [hs]
      exact hsa.trans (SameIds.set rfl rfl)

end Prefetcher

/-! ### Squashing by the stored word -/

theorem squash_by_word (instrId lineAddr : Nat) (hi : i < l1iHistTableEntries) :
    let e := h.entries i
    let e' := (l1iSquashHistTable h instrId lineAddr).entries i
    (e.instrId ≤ instrId → e'.tag = e.tag ∧ e'.instrId = e.instrId ∧ e'.entSrc = e.entSrc ∧
      e'.format = e.format ∧ e'.numDst = e.numDst) ∧
    (¬e.instrId ≤ instrId → e'.tag = 0) := by
  obtain ⟨k, hk, rfl⟩ := exists_ringPos h hi
  have hc : ∀ e : HistEntry, (e.cutBb lineAddr).tag = e.tag ∧
      (e.cutBb lineAddr).instrId = e.instrId ∧ (e.cutBb lineAddr).entSrc = e.entSrc ∧
      (e.cutBb lineAddr).format = e.format ∧ (e.cutBb lineAddr).numDst = e.numDst := by
    intro e
    unfold cutBb
    split <;> exact ⟨rfl, rfl, rfl, rfl, rfl⟩
  rw [squash_entries h instrId lineAddr hk]
  unfold squashEntry
  refine ⟨fun hl => ?_, fun hgt => ?_⟩
  · rw [if_neg (Nat.not_lt_of_le hl)]
    split
    · exact hc _
    · exact hc _
  · rw [if_pos (Nat.lt_of_not_le hgt)]
    rfl

theorem notifySquash_field {β : Type*} (field : HistEntry → β)
    (hfi : ∀ e : HistEntry, field { e with bbSize := 0 } = field e) (s : Prefetcher)
    (ip instrId i : Nat) :
    field ((s.notifySquash ip instrId).hist.entries i) =
      field ((l1iSquashHistTable s.hist instrId (ip >>> log2BlockSize)).entries i) := by
  unfold notifySquash
  dsimp only
  split
  · exact set_same_field field (hfi _) i
  · rfl

/-- The stored words are the ones the `PrefetchInfo` objects held. -/
def PrefetcherRun.StoresWords (s : PrefetcherRun) : Prop :=
  ∀ i < l1iHistTableEntries, (s.prefetcher.hist.entries i).tag ≠ 0 →
    (s.prefetcher.hist.entries i).instrId = s.word i

theorem PrefetcherRun.StoresWords.sameIds (hs : s.StoresWords) {p : Prefetcher}
    (hsa : SameIds s.prefetcher.hist p.hist) :
    ({ s with prefetcher := p } : PrefetcherRun).StoresWords := by
  intro i hi hn
  rcases hsa i hi with hz | ⟨hta, hid⟩
  · exact absurd hz hn
  · exact hid.trans (hs i hi (hta ▸ hn))

theorem SameIds.notifySquash (s : Prefetcher) (ip instrId : Nat) :
    SameIds s.hist (s.notifySquash ip instrId).hist := by
  intro i hi
  obtain ⟨hke, hdr⟩ := squash_by_word s.hist instrId (ip >>> log2BlockSize) hi
  by_cases hl : (s.hist.entries i).instrId ≤ instrId
  · obtain ⟨hta, hid, _⟩ := hke hl
    exact Or.inr ⟨(notifySquash_field tag (fun _ => rfl) s ip instrId i).trans hta,
      (notifySquash_field HistEntry.instrId (fun _ => rfl) s ip instrId i).trans hid⟩
  · exact Or.inl ((notifySquash_field tag (fun _ => rfl) s ip instrId i).trans (hdr hl))

theorem PrefetcherRun.StoresWords.step {s' : PrefetcherRun} (hs : s.StoresWords)
    (ho : s.step a = .ok s') : s'.StoresWords := by
  cases a with
  | access cycle pkt addr miss raw =>
    obtain ⟨r, hca, rfl⟩ := bind_ok.mp ho
    have his := calculatePrefetch_ids hca
    intro i hi hn
    have hi' := his i hi
    split at hi'
    · rename_i heq
      subst heq
      show _ = update s.word r.2.2 raw.instrId r.2.2
      rw [update_self]
      exact hi'
    · rename_i hpo
      rcases hi' with hz | ⟨hta, hid⟩
      · exact absurd hz hn
      · exact (hid.trans (hs i hi (hta ▸ hn))).trans (update_of_ne hpo _ _).symm
  | fill cycle addr =>
    obtain ⟨p, hfi, rfl⟩ := bind_ok.mp ho
    exact hs.sameIds (notifyFill_ids hfi)
  | squash pkt =>
    obtain rfl := Except.ok.inj ho
    exact hs.sameIds (SameIds.notifySquash s.prefetcher _ _)
  | invalidate addr =>
    cases ho
    exact hs.sameIds (.refl _)
  | prefetchIssued cycle lineAddr sourceSet sourceWay =>
    obtain ⟨p, hiss, rfl⟩ := bind_ok.mp ho
    obtain ⟨timing, _, rfl⟩ := bind_ok.mp hiss
    exact hs.sameIds (.refl _)

/-- The packet of an access carries a larger id than the one before. -/
def PrefetcherRun.InOrder (s : PrefetcherRun) : PrefetcherCall → Prop
  | .access _ pkt _ _ _ => s.lastId < pkt.instrId
  | _ => True

instance (s : PrefetcherRun) : ∀ a, Decidable (s.InOrder a)
  | .access .. => inferInstanceAs (Decidable (_ < _))
  | .fill .. | .squash .. | .invalidate .. | .prefetchIssued .. => instDecidableTrue

/-- The runs in which the packets of the accesses carry increasing ids. -/
abbrev inOrderSystem : System PrefetcherRun PrefetcherCall Fault :=
  prefetcherSystem.restrict PrefetcherRun.InOrder

theorem PrefetcherRun.StoresWords.reachable (hs : inOrderSystem.Reachable s) : s.StoresWords := by
  refine invariant _ ?_ ?_ hs
  · rintro s ⟨cycle, raw, rfl⟩
    exact fun _ _ hn => absurd rfl hn
  · intro s a s' hin _ hok
    exact hin.step hok

/-- **An exact squash**: the live entries afterwards are the ones that were live
before and were inserted by an access with an id up to `instrId`, and they keep
tag, source, format and number of destinations. -/
def SquashExact (s : PrefetcherRun) (h' : HistTable) (instrId : Nat) : Prop :=
  ∀ i < l1iHistTableEntries,
    ((h'.entries i).tag ≠ 0 ↔ (s.prefetcher.hist.entries i).tag ≠ 0 ∧ s.accessId i ≤ instrId) ∧
    ((h'.entries i).tag ≠ 0 →
      (h'.entries i).tag = (s.prefetcher.hist.entries i).tag ∧
      (h'.entries i).entSrc = (s.prefetcher.hist.entries i).entSrc ∧
      (h'.entries i).format = (s.prefetcher.hist.entries i).format ∧
      (h'.entries i).numDst = (s.prefetcher.hist.entries i).numDst)

/-- **When a squash is exact**: precisely when, for every live entry, the word
that the uninitialised `instr_id` of its `PrefetchInfo` held compares with the
squashed id as the id of its packet does. -/
theorem squash_exact_iff {s : PrefetcherRun} (hs : inOrderSystem.Reachable s) (pkt : Packet) :
    SquashExact s (s.prefetcher.notifySquash (pkt.req.pc.getD 0) pkt.instrId).hist pkt.instrId ↔
      ∀ i < l1iHistTableEntries, (s.prefetcher.hist.entries i).tag ≠ 0 →
        (s.word i ≤ pkt.instrId ↔ s.accessId i ≤ pkt.instrId) := by
  have hw := PrefetcherRun.StoresWords.reachable hs
  have hli : ∀ i < l1iHistTableEntries,
      ((s.prefetcher.notifySquash (pkt.req.pc.getD 0) pkt.instrId).hist.entries i).tag ≠ 0 ↔
        (s.prefetcher.hist.entries i).tag ≠ 0 ∧ s.word i ≤ pkt.instrId := by
    intro i hi
    rw [notifySquash_field tag (fun _ => rfl)]
    obtain ⟨hk, hdr⟩ := squash_by_word s.prefetcher.hist pkt.instrId
      (pkt.req.pc.getD 0 >>> log2BlockSize) hi
    by_cases hl : (s.prefetcher.hist.entries i).instrId ≤ pkt.instrId
    · rw [(hk hl).1]
      exact ⟨fun hn => ⟨hn, hw i hi hn ▸ hl⟩, fun h => h.1⟩
    · refine ⟨fun hn => absurd (hdr hl) hn, fun h => ?_⟩
      exact absurd (hw i hi h.1 ▸ h.2) hl
  constructor
  · intro hex i hi hn
    have hi' := (hli i hi).symm.trans (hex i hi).1
    exact ⟨fun hl => (hi'.mp ⟨hn, hl⟩).2, fun hl => (hi'.mpr ⟨hn, hl⟩).2⟩
  · intro hsa i hi
    refine ⟨(hli i hi).trans ?_, fun hn => ?_⟩
    · exact and_congr_right fun hn => hsa i hi hn
    · obtain ⟨hn₀, hl⟩ := (hli i hi).mp hn
      obtain ⟨hk, _⟩ := squash_by_word s.prefetcher.hist pkt.instrId
        (pkt.req.pc.getD 0 >>> log2BlockSize) hi
      rw [← hw i hi hn₀] at hl
      obtain ⟨hta, _, hsr, hfo, hnu⟩ := hk hl
      exact ⟨(notifySquash_field tag (fun _ => rfl) _ _ _ i).trans hta,
        (notifySquash_field entSrc (fun _ => rfl) _ _ _ i).trans hsr,
        (notifySquash_field format (fun _ => rfl) _ _ _ i).trans hfo,
        (notifySquash_field numDst (fun _ => rfl) _ _ _ i).trans hnu⟩

/-- Where the uninitialised word happens to be the id of the packet, here 5, the
squash of instruction 3 removes the access. -/
theorem squash_exact_lucky_word :
    ∃ s, inOrderSystem.Reachable s ∧ (s.prefetcher.hist.entries 0).tag = 5 ∧
      SquashExact s (s.prefetcher.notifySquash 0 3).hist 3 := by
  obtain ⟨s, hs, hta, hsa⟩ := exists_of_leads (S := inOrderSystem)
    (p := fun s => (s.prefetcher.hist.entries 0).tag = 5 ∧
      ∀ i < l1iHistTableEntries, (s.prefetcher.hist.entries i).tag ≠ 0 →
        (s.word i ≤ 3 ↔ s.accessId i ≤ 3))
    [.access 10 { cmd := .readReq, instrId := 5 } 320 true { instrId := 5 }]
    (.start ⟨0, TimingTables.zero, rfl⟩) (by decide +kernel)
  exact ⟨s, hs, hta, (squash_exact_iff hs { cmd := .readReq, instrId := 3 }).mpr hsa⟩

/-- **A squash misses wrong-path entries.** Instruction 5 fetches line 5 while the
memory of its `PrefetchInfo` holds 0: the squash of instruction 3 leaves its
entry in the history. -/
theorem squash_keeps_wrong_path :
    ¬∀ s, inOrderSystem.Reachable s → ∀ pkt : Packet,
      SquashExact s (s.prefetcher.notifySquash (pkt.req.pc.getD 0) pkt.instrId).hist
        pkt.instrId := by
  intro hal
  obtain ⟨s, hs, hli, haf⟩ := exists_of_leads (S := inOrderSystem)
    (p := fun s => ¬s.accessId 0 ≤ 3 ∧ ((s.prefetcher.notifySquash 0 3).hist.entries 0).tag ≠ 0)
    [.access 10 { cmd := .readReq, instrId := 5 } 320 true { instrId := 0 }]
    (.start ⟨0, TimingTables.zero, rfl⟩) (by decide +kernel)
  have hex := hal s hs { cmd := .readReq, instrId := 3 }
  simp only [Option.getD_none] at hex
  exact hli ((hex 0 (by decide)).1.mp haf).2

end Gem5.Eip
