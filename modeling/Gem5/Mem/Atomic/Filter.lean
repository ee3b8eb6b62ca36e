import Gem5.Mem.Atomic.Coherence

/-!
# Gem5.Mem.Atomic.Filter

**The snoop filter is conservative.** The caches of an atomic-mode system hold many blocks; the
filter has an entry for each block that some cache may hold. Between requests every valid copy has its
holder bit, no requested bit is set and no entry is empty, and none of the panics of the filter can
happen (`filter_conservative`). A port that the filter leaves out has no copy, so that snooping the
selected ports does what snooping all ports does.

The blocks do not interfere: a request, with its snoops, its response and the update of the filter, is
about the line of its address, and so is an eviction. A miss that replaces another block is the access
followed by the eviction of the victim.
-/

namespace Gem5.Mem

open Gem5.Lib

variable {N : Nat} {P : AtomicParams N}

/-! ### Many blocks -/

abbrev BlockId := Nat × Bool

inductive BlockOp (N : Nat)
  | access (src : Fin N) (x : Access) (stale : Nat → UInt8)
  | evict (src : Fin N) (block : BlockId)

def BlockOp.block (blkSize : Nat) : BlockOp N → BlockId
  | .access _ x _ => (x.pkt.getBlockAddr blkSize, x.pkt.secure)
  | .evict _ block => block

def BlockOp.perform (P : AtomicParams N) (line : AtomicLine N) :
    BlockOp N → Except AtomicFault (AtomicLine N)
  | .access src x stale => do
      let (line, _) ← recvAtomic P src x stale line
      return line
  | .evict src _ => evictAtomic P src line

/-- The accesses to the blocks of the caches, and evictions of them. -/
def blocksSystem (P : AtomicParams N) : System (BlockId → AtomicLine N) (BlockOp N) AtomicFault where
  init s := ∀ b, (∀ i, ((s b).copy i).blk.valid = false) ∧ (s b).entry = none
  step s op := do
    let line ← op.perform P (s (op.block P.blkSize))
    return Function.update s (op.block P.blkSize) line
  pre _ op := match op with
    | .access _ x _ => CpuAccess P.blkSize (x.pkt.getBlockAddr P.blkSize) x.pkt.secure x
    | .evict _ _ => True

instance (P : AtomicParams N) (s : BlockId → AtomicLine N) (op) :
    Decidable ((blocksSystem P).pre s op) := by
  cases op <;> dsimp only [blocksSystem] <;> infer_instance

theorem perform_coherent {line : AtomicLine N} (hc : Coherent P line) (s : BlockId → AtomicLine N)
    (op : BlockOp N) (hpr : (blocksSystem P).pre s op) :
    ∃ line', op.perform P line = .ok line' ∧ Coherent P line' := by
  cases op with
  | access src x stale =>
    obtain ⟨line', hre, hpe⟩ := recvAtomic_performed src stale hpr hc
    exact ⟨line', bind_eq_ok.mpr ⟨_, hre, rfl⟩, hpe.coherent⟩
  | evict src block =>
    obtain ⟨line', hev, hc', -⟩ := evictAtomic_performed src hc
    exact ⟨line', hev, hc'⟩

theorem coherent_blocks {s : BlockId → AtomicLine N} (h : (blocksSystem P).Reachable s) :
    ∀ b, Coherent P (s b) := by
  refine h.invariant (fun s => ∀ b, Coherent P (s b)) ?_ ?_
  · intro s hin b
    obtain ⟨hnv, hen⟩ := hin b
    exact .of_invalid hnv hen
  · intro s op s' hc hpr hst b
    obtain ⟨line, hp, hc'⟩ := perform_coherent (hc (op.block P.blkSize)) s op hpr
    obtain ⟨_, hp', hst⟩ := bind_eq_ok.mp hst
    obtain rfl := Except.ok.inj (hp.symm.trans hp')
    cases hst
    by_cases hb : b = op.block P.blkSize
    · subst hb
      rwa [Function.update_self]
    · rw [Function.update_of_ne hb]
      exact hc b

/-! ### The ports that are left out -/

section Ports

variable {src j : Fin N} {s : AtomicLine N} {pkt pkt' : BusPacket} {entry : Option (SnoopItem N)}
  {dests : List (Fin N)}

theorem handleSnoop_invalid {c c' : LockedBlk} (hnv : c.blk.valid = false)
    (hsn : c.handleSnoop pkt = .ok (c', pkt')) : c' = c ∧ pkt' = pkt := by
  simp only [LockedBlk.handleSnoop, hnv, Bool.not_false] at hsn
  split_ifs at hsn
  cases hsn
  exact ⟨rfl, rfl⟩

theorem lookupRequest_selected {item : SnoopItem N}
    (h : SnoopFilter.lookupRequest (some item) pkt.toXbarPacket src = .ok (entry, dests)) :
    dests = item.selected src := by
  simp only [SnoopFilter.lookupRequest, Option.isNone_some, Bool.false_and,
    Bool.false_eq_true, if_false] at h
  split_ifs at h <;> exact (Prod.mk.inj (Except.ok.inj h)).2.symm

/-- **A cache that a snoop changes is selected.** -/
theorem Tracks.selected {c : LockedBlk} (htr : Tracks s.entry s.copy)
    (hl : SnoopFilter.lookupRequest s.entry pkt.toXbarPacket src = .ok (entry, dests))
    (hj : j ≠ src) (hsn : (s.copy j).handleSnoop pkt = .ok (c, pkt'))
    (hch : c ≠ s.copy j ∨ pkt' ≠ pkt) : j ∈ dests := by
  cases hv : (s.copy j).blk.valid with
  | false =>
    obtain ⟨hc, hpk⟩ := handleSnoop_invalid hv hsn
    exact absurd hc (hch.resolve_right (not_not.mpr hpk))
  | true =>
    obtain ⟨item, hen, hho⟩ := htr.holder j hv
    rw [hen] at hl
    rw [lookupRequest_selected hl]
    simp [SnoopItem.selected, SnoopItem.interested, hho, hj]

/-- **Snooping the selected ports does what snooping all ports does.** -/
theorem forwardAtomic_selected (src : Fin N) (hp : FreshRequest pkt) (hc : Coherent P s)
    (hfl : P.hasFilter) :
    forwardAtomic P src (s.item.selected src) { s with entry := s.lookedUp P src } pkt =
      forwardAtomic P src (List.finRange N) { s with entry := s.lookedUp P src } pkt := by
  have hs := (hc.tracked hfl).covers src
  by_cases how : ∃ owner ≠ src, (s.copy owner).blk.isDirty
  · obtain ⟨owner, hn, hd⟩ := how
    have hr : ∀ j ≠ owner, (s.copy j).blk.isDirty = false := fun j hj =>
      Bool.eq_false_iff.mpr fun h => hj (hc.oneOwner j owner h hd)
    obtain ⟨entry, hen, -⟩ := hc.granted src pkt.isInvalidate (CacheBlk.valid_of_isDirty hd)
    rw [forwardAtomic_dirty (s := { s with entry := s.lookedUp P src }) hp hs hn hd hr hen,
      forwardAtomic_dirty (s := { s with entry := s.lookedUp P src }) hp covers_finRange hn hd
        hr hen]
  · have hcl : ∀ j ≠ src, (s.copy j).blk.isDirty = false := fun j hj =>
      Bool.eq_false_iff.mpr fun h => how ⟨j, hj, h⟩
    rw [forwardAtomic_clean (s := { s with entry := s.lookedUp P src }) hp hs hcl,
      forwardAtomic_clean (s := { s with entry := s.lookedUp P src }) hp covers_finRange hcl]

end Ports

/-! ### The filter -/

/-- **The snoop filter is conservative.** No call fails. Between the requests, each block's entry
has the holder bits of its valid copies and no requested bit, and is not empty. A cache that a snoop
would change is among the ports that the filter selects, and snooping these ports does what snooping
all ports does. -/
theorem filter_conservative (P : AtomicParams N) (hfilter : P.hasFilter) :
    (blocksSystem P).FaultFree ∧
      ∀ s, (blocksSystem P).Reachable s → ∀ b : BlockId, (∀ i, ((s b).copy i).blk.valid →
          ∃ item, (s b).entry = some item ∧ item.holder i = true) ∧
        (∀ item, (s b).entry = some item → (∀ i, item.requested i = false) ∧ item.isNull = false) ∧
        ∀ (src : Fin N) (pkt : BusPacket) (entry : Option (SnoopItem N)) (dests : List (Fin N)),
          SnoopFilter.lookupRequest (s b).entry pkt.toXbarPacket src = .ok (entry, dests) →
            (∀ j ≠ src, ∀ c pkt', ((s b).copy j).handleSnoop pkt = .ok (c, pkt') →
              c ≠ (s b).copy j ∨ pkt' ≠ pkt → j ∈ dests) ∧
            (FreshRequest pkt →
              forwardAtomic P src dests { s b with entry := SnoopFilter.finishRequest entry } pkt =
                forwardAtomic P src (List.finRange N)
                  { s b with entry := SnoopFilter.finishRequest entry } pkt) := by
  refine ⟨fun s op hs hpr => ?_, fun s hs b => ?_⟩
  · obtain ⟨line, hpe, -⟩ := perform_coherent (coherent_blocks hs (op.block P.blkSize)) s op hpr
    exact ⟨_, bind_eq_ok.mpr ⟨line, hpe, rfl⟩⟩
  · have hc := coherent_blocks hs b
    have ht := hc.tracked hfilter
    refine ⟨ht.holder, fun item h => ⟨ht.idle item h, ht.used item h⟩, ?_⟩
    intro src pkt entry dests hl
    refine ⟨fun j hj c pkt' hsn hch => ht.selected hl hj hsn hch, ?_⟩
    intro hpk
    rw [lookupRequest_request hpk ht] at hl
    cases hl
    rw [finishRequest_requestedBy]
    have hse := forwardAtomic_selected src hpk hc hfilter
    rwa [AtomicLine.lookedUp, if_pos hfilter] at hse

/-- Both caches read a block. -/
theorem filter_conservative_two :
    ∃ s, (blocksSystem twoCaches).Reachable s ∧ ((s (0, false)).copy 0).blk.valid ∧
      ((s (0, false)).copy 1).blk.valid ∧
      ∃ item, (s (0, false)).entry = some item ∧ item.holder 0 = true ∧
        ∀ i, item.requested i = false := by
  obtain ⟨s, hs, hv⟩ := System.Reachable.exists_of_leads (S := blocksSystem twoCaches)
    (p := fun s => ((s (0, false)).copy 0).blk.valid ∧ ((s (0, false)).copy 1).blk.valid)
    [.access 0 (blockAccess .readReq 1 1 0 false) fun _ => 0,
      .access 1 (blockAccess .readReq 2 1 0 false) fun _ => 0]
    (.start (s := fun _ => coldBlock.line) fun _ => ⟨fun _ => rfl, rfl⟩) (by decide +kernel)
  obtain ⟨hho, hen, -⟩ := (filter_conservative twoCaches rfl).2 s hs (0, false)
  obtain ⟨item, hi, hz⟩ := hho 0 hv.1
  exact ⟨s, hs, hv.1, hv.2, item, hi, hz, (hen item hi).1⟩

end Gem5.Mem
