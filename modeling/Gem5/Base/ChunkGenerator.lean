import Gem5.Lib.System
import Gem5.Base.Bitfield

/-!
# Gem5.Base.ChunkGenerator

**Cutting a region into aligned chunks.** The generator carries the current
chunk, the address and size of the next one, and what is left after the current
chunk, all in 64-bit arithmetic. The next chunk should end at a boundary or at
the end of the region, whichever comes first. The constructor and `next` see to
both, `setNext` to the boundary only: a chunk grown to an address between the
last boundary and the end is followed by one that runs past the end, and what
is left wraps around.
-/

namespace Gem5.Base

open Gem5.Lib List Nat

/-- `a - b` on 64 bits. -/
def sub64 (a b : Nat) : Nat := (a + (2 ^ 64 - b)) % 2 ^ 64

/-- `a + b` on 64 bits. -/
def add64 (a b : Nat) : Nat := (a + b) % 2 ^ 64

theorem sub64_of_le {a b : Nat} (h : b ≤ a) (ha : a < 2 ^ 64) : sub64 a b = a - b := by
  unfold sub64
  omega

theorem add64_of_lt {a b : Nat} (h : a + b < 2 ^ 64) : add64 a b = a + b := mod_eq_of_lt h

/-- `roundUp`: the bits of the mask are taken off `val + mask`. -/
def roundUp (val align : Nat) : Nat :=
  let mask := align - 1
  add64 val mask - (add64 val mask &&& mask)

/-- The first multiple of `align` after `val`. -/
def boundary (align val : Nat) : Nat := (val / align + 1) * align

variable {val align : Nat}

theorem boundary_spec (hpo : 0 < align) :
    val < boundary align val ∧ boundary align val ≤ val + align := by
  have hval := div_add_mod val align
  have hmod := mod_lt val hpo
  rw [boundary, add_mul, mul_comm]
  omega

theorem boundary_of_dvd (hdv : align ∣ val) : boundary align val = val + align := by
  rw [boundary, add_mul, one_mul, Nat.div_mul_cancel hdv]

/-- **Rounding up**, while nothing overflows. -/
theorem roundUp_cases (hpo : isPowerOf2 align) (hle : val + align ≤ 2 ^ 64) :
    (align ∣ val ∧ roundUp val align = val) ∨
      (roundUp val align = boundary align val ∧ boundary align val < val + align) := by
  obtain ⟨k, rfl⟩ := isPowerOf2_iff.mp hpo
  have hval := div_add_mod val (2 ^ k)
  simp only [roundUp]
  rw [add64_of_lt (by omega), and_two_pow_sub_one_eq_mod]
  by_cases hz : val % 2 ^ k = 0
  · have hr : (val + (2 ^ k - 1)) % 2 ^ k = 2 ^ k - 1 := by
      rw [add_mod, hz, zero_add, mod_mod, mod_eq_of_lt (by omega)]
    exact .inl ⟨dvd_of_mod_eq_zero hz, by omega⟩
  · have hsu : val + (2 ^ k - 1) = 2 ^ k * (val / 2 ^ k + 1) + (val % 2 ^ k - 1) := by
      rw [mul_add]
      omega
    have hr : (val + (2 ^ k - 1)) % 2 ^ k = val % 2 ^ k - 1 := by
      rw [hsu, mul_add_mod, mod_eq_of_lt (by omega)]
    rw [boundary, mul_comm (_ + 1)]
    exact .inr (by omega)

/-! ### The generator -/

inductive ChunkFault
  | assertion
  deriving DecidableEq

structure ChunkGenerator where
  curAddr : Nat
  nextAddr : Nat
  curSize : Nat
  nextSize : Nat
  sizeLeft : Nat
  startAddr : Nat
  chunkSize : Nat
  deriving DecidableEq

namespace ChunkGenerator

def new (startAddr totalSize chunkSize : Nat) : Except ChunkFault ChunkGenerator :=
  if chunkSize = 0 ∨ isPowerOf2 chunkSize then
    let stop := add64 startAddr totalSize
    let up := roundUp startAddr chunkSize
    let nextAddr :=
      if chunkSize = 0 then stop
      else min (if startAddr = up then add64 up chunkSize else up) stop
    let curSize := sub64 nextAddr startAddr
    let sizeLeft := sub64 totalSize curSize
    .ok ⟨startAddr, nextAddr, curSize, min sizeLeft chunkSize, sizeLeft, startAddr, chunkSize⟩
  else .error .assertion

def done (g : ChunkGenerator) : Bool := g.curSize = 0

def last (g : ChunkGenerator) : Bool := g.sizeLeft = 0

/-- The current chunk is grown up to `next`. -/
def setNext (g : ChunkGenerator) (next : Nat) : Except ChunkFault ChunkGenerator :=
  if next < g.nextAddr ∨ g.chunkSize = 0 then .error .assertion
  else
    let skipping := min (sub64 next g.nextAddr) g.sizeLeft
    let sizeLeft := sub64 g.sizeLeft skipping
    let nextSize := sub64 (roundUp next g.chunkSize) next
    .ok { g with
      sizeLeft := sizeLeft
      curSize := add64 g.curSize skipping
      nextAddr := next
      nextSize := if nextSize = 0 then min sizeLeft g.chunkSize else nextSize }

def next (g : ChunkGenerator) : ChunkGenerator :=
  if g.last then { g with curSize := 0 }
  else
    let sizeLeft := sub64 g.sizeLeft g.nextSize
    { g with
      curAddr := g.nextAddr
      curSize := g.nextSize
      sizeLeft := sizeLeft
      nextAddr := add64 g.nextAddr g.nextSize
      nextSize := min sizeLeft g.chunkSize }

/-- The generator is in a region that ends at `stop`: the next chunk, if there
is one, follows the current one. -/
structure At (stop : Nat) (g : ChunkGenerator) : Prop where
  pow : isPowerOf2 g.chunkSize
  fits : stop < 2 ^ 64
  sum : g.curAddr + g.curSize + g.sizeLeft = stop
  ahead : g.sizeLeft ≠ 0 → g.nextAddr = g.curAddr + g.curSize

/-- The next chunk, if there is one, ends at the boundary or at the end. -/
def EndsRight (stop : Nat) (g : ChunkGenerator) : Prop :=
  g.sizeLeft ≠ 0 → g.nextAddr + g.nextSize = min (boundary g.chunkSize g.nextAddr) stop

def InBlock (g : ChunkGenerator) : Prop := g.curAddr + g.curSize ≤ boundary g.chunkSize g.curAddr

variable {g : ChunkGenerator} {stop : Nat}

theorem pos_of_isPowerOf2 (h : isPowerOf2 align) : 0 < align := by
  obtain ⟨k, rfl⟩ := isPowerOf2_iff.mp h
  exact Nat.two_pow_pos k

theorem At.of_new {total : Nat} (hp : isPowerOf2 g.chunkSize)
    (hf : g.startAddr + total < 2 ^ 64) (hch : g.startAddr + g.chunkSize < 2 ^ 64)
    (hn : new g.startAddr total g.chunkSize = .ok g) :
    At (g.startAddr + total) g ∧ EndsRight (g.startAddr + total) g ∧ g.curAddr = g.startAddr ∧
      g.InBlock ∧ (g.curSize = 0 → total = 0) := by
  obtain ⟨curAddr, nextAddr, curSize, nextSize, sizeLeft, startAddr, chunkSize⟩ := g
  dsimp only at hp hf hch hn
  have hpo := pos_of_isPowerOf2 hp
  obtain ⟨hlt, hle⟩ := @boundary_spec startAddr _ hpo
  have hfst : (if startAddr = roundUp startAddr chunkSize then
      add64 (roundUp startAddr chunkSize) chunkSize else roundUp startAddr chunkSize) =
        boundary chunkSize startAddr := by
    obtain ⟨hdv, hup⟩ | ⟨hup, -⟩ := roundUp_cases hp hch.le
    · rw [hup, if_pos rfl, add64_of_lt hch, boundary_of_dvd hdv]
    · rw [hup, if_neg hlt.ne]
  simp only [new, hp, or_true, if_true, if_neg hpo.ne'] at hn
  rw [add64_of_lt hf, sub64_of_le (by omega) (by omega), sub64_of_le (by omega) (by omega)] at hn
  simp only [Except.ok.injEq, mk.injEq] at hn
  obtain ⟨rfl, hnx, hcur, hsz, hlef, -, -⟩ := hn
  refine ⟨⟨hp, hf, by dsimp only; omega, fun hne => by dsimp only at hne ⊢; omega⟩,
    fun hne => ?_, rfl, by dsimp only [InBlock]; omega, by dsimp only; omega⟩
  dsimp only at hne ⊢
  -- there is more, so the first chunk ends at the boundary
  have hbo : nextAddr = boundary chunkSize startAddr := by omega
  have hdv : chunkSize ∣ nextAddr := hbo ▸ dvd_mul_left _ _
  rw [boundary_of_dvd hdv]
  omega

/-- **Growing a chunk.** The next one ends where it should when this one is grown to the end
or to a place whose boundary is not past it. -/
theorem At.setNext (h : At stop g) {upTo : Nat} (hl : g.nextAddr ≤ upTo)
    (hfi : upTo + g.chunkSize ≤ 2 ^ 64) :
    ∃ g', g.setNext upTo = .ok g' ∧ At stop g' ∧
      (stop ≤ upTo ∨ roundUp upTo g.chunkSize ≤ stop → EndsRight stop g') ∧
      g'.curAddr = g.curAddr ∧ g.curSize ≤ g'.curSize ∧
      g'.startAddr = g.startAddr ∧ g'.chunkSize = g.chunkSize := by
  obtain ⟨hp, hft, hsum, hahe⟩ := h
  have hpo := pos_of_isPowerOf2 hp
  obtain ⟨hlt, -⟩ := @boundary_spec upTo _ hpo
  have hup : (boundary g.chunkSize upTo = upTo + g.chunkSize ∧ roundUp upTo g.chunkSize = upTo) ∨
      (roundUp upTo g.chunkSize = boundary g.chunkSize upTo ∧
        boundary g.chunkSize upTo < upTo + g.chunkSize) :=
    (roundUp_cases hp hfi).imp_left fun h => ⟨boundary_of_dvd h.1, h.2⟩
  simp only [ChunkGenerator.setNext]
  rw [if_neg (by omega), sub64_of_le hl (by omega), sub64_of_le (min_le_right _ _) (by omega),
    sub64_of_le (by omega) (by omega), add64_of_lt (by omega)]
  refine ⟨_, rfl, ⟨hp, hft, by dsimp only; omega, fun hn => by dsimp only at hn ⊢; omega⟩,
    fun hins hn => ?_, rfl, by dsimp only; omega, rfl, rfl⟩
  dsimp only at hn ⊢
  split <;> omega

/-- **The next chunk.** -/
theorem At.next (h : At stop g) (he : EndsRight stop g) (hl : g.sizeLeft ≠ 0) :
    At stop g.next ∧ EndsRight stop g.next ∧ g.next.curAddr = g.curAddr + g.curSize ∧
      g.next.done = false ∧ g.next.InBlock ∧ g.next.startAddr = g.startAddr ∧
      g.next.chunkSize = g.chunkSize := by
  obtain ⟨hp, hfi, hsum, hah⟩ := h
  have hnx := hah hl
  have hen := he hl
  have hpo := pos_of_isPowerOf2 hp
  obtain ⟨hlt, -⟩ := @boundary_spec g.nextAddr _ hpo
  have hst : g.next = { g with
      curAddr := g.nextAddr, curSize := g.nextSize, sizeLeft := g.sizeLeft - g.nextSize
      nextAddr := g.nextAddr + g.nextSize
      nextSize := min (g.sizeLeft - g.nextSize) g.chunkSize } := by
    simp only [ChunkGenerator.next, last, hl, decide_false, Bool.false_eq_true, if_false]
    rw [sub64_of_le (by omega) (by omega), add64_of_lt (by omega)]
  rw [hst]
  refine ⟨⟨hp, hfi, by dsimp only; omega, fun _ => rfl⟩, fun hn => ?_, hnx,
    decide_eq_false (by dsimp only; omega), by dsimp only [InBlock]; omega, rfl, rfl⟩
  dsimp only at hn ⊢
  have hdv : g.chunkSize ∣ g.nextAddr + g.nextSize := by
    rw [hen, min_eq_left (by omega)]
    exact dvd_mul_left _ _
  rw [boundary_of_dvd hdv]
  omega

end ChunkGenerator

/-! ### Loops over a region -/

structure Chunk where
  addr : Nat
  size : Nat
  last : Bool
  grown : Bool
  deriving DecidableEq

inductive ChunkCall
  | setNext (next : Nat)
  | next

structure ChunkRun where
  gen : ChunkGenerator
  totalSize : Nat
  visited : List Chunk := []
  /-- The current chunk has been enlarged. -/
  grown : Bool := false
  /-- The address of the last `setNext` on the current chunk. -/
  nextSet : Option Nat := none

namespace ChunkRun

def stop (s : ChunkRun) : Nat := s.gen.startAddr + s.totalSize

def step (s : ChunkRun) : ChunkCall → Except ChunkFault ChunkRun
  | .setNext next =>
    (fun gen => { s with
      gen := gen
      grown := s.grown || decide (gen.curSize ≠ s.gen.curSize)
      nextSet := some next }) <$> s.gen.setNext next
  | .next => .ok { s with
      gen := s.gen.next
      visited := s.visited ++ [⟨s.gen.curAddr, s.gen.curSize, s.gen.last, s.grown⟩]
      grown := false
      nextSet := none }

/-- Calls while the loop is not done; a chunk is grown from its end on, to an
address that can be rounded up. -/
def pre (s : ChunkRun) : ChunkCall → Prop
  | .setNext next => s.gen.done = false ∧ s.gen.nextAddr ≤ next ∧ next + s.gen.chunkSize ≤ 2 ^ 64
  | .next => s.gen.done = false

/-- Every loop over a region whose addresses do not overflow. -/
def system : System ChunkRun ChunkCall ChunkFault where
  init s := isPowerOf2 s.gen.chunkSize ∧ s.stop < 2 ^ 64 ∧
    s.gen.startAddr + s.gen.chunkSize < 2 ^ 64 ∧
    ChunkGenerator.new s.gen.startAddr s.totalSize s.gen.chunkSize = .ok s.gen ∧
    s.visited = [] ∧ s.grown = false ∧ s.nextSet = none
  step := step
  pre := pre

/-- **A chunk is left as grown to the end of the region, or to an address whose boundary
is not past the end.** -/
def BoundaryInside (s : ChunkRun) : ChunkCall → Prop
  | .setNext _ => True
  | .next => ∀ upTo ∈ s.nextSet, s.stop ≤ upTo ∨ roundUp upTo s.gen.chunkSize ≤ s.stop

/-- Consecutive chunks from `a` to `b`. -/
def Tiles : Nat → List Chunk → Nat → Prop
  | a, [], b => a = b
  | a, c :: cs, b => c.addr = a ∧ 0 < c.size ∧ Tiles (a + c.size) cs b

/-- The last chunk and no other ends the region, and a chunk that was not grown
ends by the end of its aligned block. -/
def Good (chunkSize stop : Nat) (c : Chunk) : Prop :=
  (c.last ↔ c.addr + c.size = stop) ∧
    (c.grown = false → c.addr + c.size ≤ boundary chunkSize c.addr)

variable {a b : Nat} {c : Chunk} {cs : List Chunk} {s s' : ChunkRun}

theorem Tiles.snoc (h : Tiles a cs c.addr) (hsz : 0 < c.size) :
    Tiles a (cs ++ [c]) (c.addr + c.size) := by
  induction cs generalizing a with
  | nil => exact ⟨h.symm, hsz, congrArg (· + c.size) h⟩
  | cons d cs ih => exact ⟨h.1, h.2.1, ih h.2.2⟩

theorem Tiles.length_le (h : Tiles a cs b) : a + cs.length ≤ b := by
  induction cs generalizing a with
  | nil => exact h.le
  | cons c cs ih =>
    have hr := ih h.2.2
    have hpos := h.2.1
    rw [length_cons]
    omega

structure Inv (s : ChunkRun) : Prop where
  at_ : s.gen.done = false → s.gen.At s.stop
  ends : s.gen.done = false → s.BoundaryInside .next → s.gen.EndsRight s.stop
  block : s.gen.done = false → s.grown = false → s.gen.InBlock
  tiles : Tiles s.gen.startAddr s.visited (if s.gen.done then s.stop else s.gen.curAddr)
  chunks : ∀ c ∈ s.visited, Good s.gen.chunkSize s.stop c

namespace Inv

theorem start (h : system.init s) : s.Inv := by
  obtain ⟨hpo, hfi, hch, hne, hv, -⟩ := h
  obtain ⟨hat, hen, hcu, hbl, hem⟩ := ChunkGenerator.At.of_new hpo hfi hch hne
  refine ⟨fun _ => hat, fun _ _ => hen, fun _ _ => hbl, ?_, by simp [hv]⟩
  rw [hv]
  change s.gen.startAddr = _
  split
  · next hdo =>
    rw [stop, hem (of_decide_eq_true hdo), add_zero]
  · exact hcu.symm

theorem setNext (h : s.Inv) {next : Nat} (hpr : s.pre (.setNext next)) :
    ∃ gen, s.gen.setNext next = .ok gen ∧ Inv { s with
      gen := gen
      grown := s.grown || decide (gen.curSize ≠ s.gen.curSize)
      nextSet := some next } := by
  obtain ⟨hd, hl, hfi⟩ := hpr
  obtain ⟨gen, hge, hat, hen, had, hsz, hst, hch⟩ := (h.at_ hd).setNext hl hfi
  have hcur : s.gen.curSize ≠ 0 := of_decide_eq_false hd
  have ht := h.tiles
  have hd' : gen.done = false := decide_eq_false (by omega)
  refine ⟨gen, hge, fun _ => ?_, fun _ hin => ?_, fun _ hgr => ?_, ?_, ?_⟩
  · rw [stop, hst]
    exact hat
  · have hi := hin next rfl
    rw [stop, hst, hch] at hi
    rw [stop, hst]
    exact hen hi
  · -- not enlarged: the chunk is the one before
    simp only [Bool.or_eq_false_iff, decide_eq_false_iff_not, not_not] at hgr
    have hbl := h.block hd hgr.1
    rw [ChunkGenerator.InBlock, had, hgr.2, hch]
    exact hbl
  · rw [hd] at ht
    rw [hd', had, hst]
    exact ht
  · rw [stop, hst, hch]
    exact h.chunks

theorem next (h : s.Inv) (hd : s.gen.done = false) (hin : s.BoundaryInside .next) :
    Inv { s with
      gen := s.gen.next
      visited := s.visited ++ [⟨s.gen.curAddr, s.gen.curSize, s.gen.last, s.grown⟩]
      grown := false
      nextSet := none } := by
  have ha := h.at_ hd
  have hsum := ha.sum
  have hcu : s.gen.curSize ≠ 0 := of_decide_eq_false hd
  have ht := h.tiles
  rw [hd] at ht
  have hsn := @Tiles.snoc _ ⟨s.gen.curAddr, s.gen.curSize, s.gen.last, s.grown⟩ _ ht
    (Nat.pos_of_ne_zero hcu)
  have hch : ∀ c ∈ s.visited ++ [⟨s.gen.curAddr, s.gen.curSize, s.gen.last, s.grown⟩],
      Good s.gen.chunkSize s.stop c := by
    refine forall_mem_append.mpr ⟨h.chunks, forall_mem_singleton.mpr ⟨?_, h.block hd⟩⟩
    simp only [ChunkGenerator.last, decide_eq_true_eq]
    omega
  by_cases hl : s.gen.sizeLeft = 0
  · have hst : s.gen.next = { s.gen with curSize := 0 } := if_pos (decide_eq_true hl)
    have hso : s.gen.curAddr + s.gen.curSize = s.stop := by omega
    rw [hst]
    exact ⟨nofun, nofun, nofun, hso ▸ hsn, hch⟩
  · obtain ⟨ha', hen, had, hd', hbl, hs, hcn⟩ := ha.next (h.ends hd hin) hl
    refine ⟨fun _ => ?_, fun _ _ => ?_, fun _ _ => hbl, ?_, ?_⟩
    · rw [stop, hs]
      exact ha'
    · rw [stop, hs]
      exact hen
    · rw [hd', had, hs]
      exact hsn
    · rw [stop, hs, hcn]
      exact hch

end Inv

theorem inv_of_reachable (h : (system.restrict BoundaryInside).Reachable s) : s.Inv := by
  refine h.invariant Inv ?_ ?_
  · intro s hs
    exact .start hs
  rintro s a s' hs ⟨hpr, hin⟩ hok
  cases a with
  | setNext next =>
    obtain ⟨gen, hg, rfl⟩ := map_eq_ok.mp hok
    obtain ⟨gen', hg', hiv⟩ := hs.setNext hpr
    cases hg.symm.trans hg'
    exact hiv
  | next =>
    cases hok
    exact hs.next hpr hin

/-- **The chunks cover the region exactly**, as long as no chunk is left as grown to
an address before the end whose boundary is past it: they are consecutive and
not empty, the last one and no other ends the region, a chunk that is not enlarged
stays within one block, there are at most `totalSize` of them, and no call
fails. -/
theorem covers_of_boundaryInside (h : (system.restrict BoundaryInside).Reachable s) :
    Tiles s.gen.startAddr s.visited (if s.gen.done then s.stop else s.gen.curAddr) ∧
    (∀ c ∈ s.visited, Good s.gen.chunkSize s.stop c) ∧ s.visited.length ≤ s.totalSize ∧
    ∀ a, (system.restrict BoundaryInside).pre s a → ∃ s', s.step a = .ok s' := by
  have hi := inv_of_reachable h
  refine ⟨hi.tiles, hi.chunks, ?_, ?_⟩
  · have hl := hi.tiles.length_le
    unfold stop at hl
    split at hl
    · omega
    · next hdo =>
      have hsu := (hi.at_ (by simpa using hdo)).sum
      unfold stop at hsu
      omega
  · rintro a ⟨hpr, -⟩
    cases a with
    | setNext next =>
      obtain ⟨gen, hge, -⟩ := hi.setNext hpr
      exact ⟨_, map_eq_ok.mpr ⟨gen, hge, rfl⟩⟩
    | next => exact ⟨_, rfl⟩

/-- The region of `totalSize` bytes from 0 on, in chunks of 8. -/
def ofEight (totalSize : Nat) : ChunkRun :=
  { gen := ⟨0, 8, 8, min (totalSize - 8) 8, totalSize - 8, 0, 8⟩, totalSize }

instance (s : ChunkRun) (a : ChunkCall) : Decidable (system.pre s a) := by
  cases a <;> dsimp only [system, pre] <;> infer_instance

instance (s : ChunkRun) (a : ChunkCall) : Decidable (s.BoundaryInside a) := by
  cases a <;> dsimp only [BoundaryInside] <;> infer_instance

/-- Three chunks, the first of them grown; the second is only set to where it ends. -/
theorem covers_grown : ∃ s, (system.restrict BoundaryInside).Reachable s ∧
    s.visited = [⟨0, 11, false, true⟩, ⟨11, 5, false, false⟩, ⟨16, 4, true, false⟩] ∧
    ∀ c ∈ s.visited, Good s.gen.chunkSize s.stop c := by
  have hst : (system.restrict BoundaryInside).Reachable (ofEight 20) :=
    .start ⟨by decide, by decide, by decide, by decide, rfl, rfl, rfl⟩
  exact hst.exists_and_of_leads [.setNext 11, .next, .setNext 16, .next, .next] (by decide +kernel)
    fun s hs => (covers_of_boundaryInside hs).2.1

/-- **A chunk past the end**: of ten bytes, the first chunk is grown to nine, and
the second has seven. What is left wraps around, so there is a third one. -/
theorem not_covers_pastEnd : ∃ s, system.Reachable s ∧ s.stop = 10 ∧ s.gen.done = false ∧
    s.visited = [⟨0, 9, false, true⟩, ⟨9, 7, false, false⟩] ∧ s.gen.curAddr = 16 := by
  have hst : system.Reachable (ofEight 10) :=
    .start ⟨by decide, by decide, by decide, by decide, rfl, rfl, rfl⟩
  exact hst.exists_of_leads [.setNext 9, .next, .next] (by decide +kernel)

end ChunkRun

end Gem5.Base
