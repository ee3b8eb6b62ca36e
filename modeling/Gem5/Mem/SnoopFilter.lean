import Gem5.Mem.CoherentXBar

/-!
# Gem5.Mem.SnoopFilter

**The snoop filter** of a coherent crossbar (`src/mem/snoop_filter.{hh,cc}`), on requests from the
caches above it.

For each line the filter keeps two sets of ports: those with a request for the line on its way, and
those that may hold the line. The entry of a line that has neither is erased. Every function here
is about one line, and an entry is an `Option`: the table of the filter is one entry for each line.

All ports are those of caches, so they are all snooping. Snoops from below do not occur at the point
of coherency.
-/

namespace Gem5.Mem

open Gem5.Lib Function

/-- `SnoopItem`: the two bit sets, by port. -/
structure SnoopItem (N : Nat) where
  requested : Fin N → Bool := fun _ => false
  holder : Fin N → Bool := fun _ => false

inductive FilterFault
  /-- "double request" -/
  | doubleRequest
  /-- "Need to hold the value!" -/
  | needToHold
  /-- `assert(cpkt->isEviction())` -/
  | notEviction
  /-- "requestor is not a holder" -/
  | notHolder
  /-- `assert(cpkt->isResponse())`, `assert(cpkt->cacheResponding())`, `assert(!cpkt->isWriteback())` -/
  | notSnoopResponse
  /-- "does not have the line" -/
  | noLine
  /-- "missing the original request" -/
  | missingRequest
  /-- "missing request bit" -/
  | missingRequestBit
  deriving Repr, DecidableEq

variable {N : Nat}

namespace SnoopItem

variable (item : SnoopItem N)

def interested (port : Fin N) : Bool := item.holder port || item.requested port

/-- `(requested | holder).none()`. -/
def isNull : Bool := (List.finRange N).all fun port => !item.interested port

def eraseIfNullEntry : Option (SnoopItem N) :=
  if item.isNull then none else some item

end SnoopItem

namespace SnoopFilter

/-- `lookupRequest`: the entry, and the ports to snoop. -/
def lookupRequest (entry : Option (SnoopItem N)) (pkt : XbarPacket) (port : Fin N) :
    Except FilterFault (Option (SnoopItem N) × List (Fin N)) :=
  let allocate := !pkt.req.isUncacheable && pkt.fromCache
  if entry.isNone && !allocate then .ok (none, [])
  else
    let item := entry.getD {}
    let selected := (List.finRange N).filter fun p => item.interested p && p ≠ port
    if !allocate then .ok (some item, selected)
    else if pkt.needsResponse then
      if !pkt.cacheResponding then
        if item.requested port then .error .doubleRequest
        else .ok (some { item with requested := update item.requested port true }, selected)
      else if !item.holder port then .error .needToHold
      else .ok (some item, selected)
    else if !pkt.isEviction then .error .notEviction
    else if !item.holder port then .error .notHolder
    else if !pkt.blockCached then
      .ok (some { item with holder := update item.holder port false }, selected)
    else .ok (some item, selected)

/-- `finishRequest`, of a request that is not retried. -/
def finishRequest (entry : Option (SnoopItem N)) : Option (SnoopItem N) :=
  entry.bind SnoopItem.eraseIfNullEntry

/-- `updateSnoopResponse`: a snooped cache responds. -/
def updateSnoopResponse (entry : Option (SnoopItem N)) (pkt : XbarPacket) (rspPort reqPort : Fin N) :
    Except FilterFault (Option (SnoopItem N)) :=
  if !pkt.isResponse || !pkt.cacheResponding then .error .notSnoopResponse
  else if pkt.req.isUncacheable then .ok entry
  else
    let item := entry.getD {}
    if !item.holder rspPort then .error .noLine
    else if !item.requested reqPort then .error .missingRequest
    else if pkt.isWriteback then .error .notSnoopResponse
    else
      let holder := if !pkt.hasSharers then fun _ => false else item.holder
      .ok (some
        { requested := update item.requested reqPort false, holder := update holder reqPort true })

/-- `updateResponse`: the memory side or the crossbar responds. -/
def updateResponse (entry : Option (SnoopItem N)) (pkt : XbarPacket) (port : Fin N) :
    Except FilterFault (Option (SnoopItem N)) :=
  if !pkt.isResponse then .error .notSnoopResponse
  else if pkt.req.isUncacheable then .ok entry
  else
    match entry with
    | none => .ok none
    | some item =>
      if !item.requested port then .error .missingRequestBit
      else
        let item := { item with requested := update item.requested port false }
        if pkt.req.isCacheMaintenance then
          if pkt.isInvalidate then
            .ok { item with holder := update item.holder port false }.eraseIfNullEntry
          else .ok item.eraseIfNullEntry
        else .ok (some { item with holder := update item.holder port true })

/-! ### The table -/

/-- `cachedLocations`, by line address. -/
abbrev Table (N : Nat) := Nat → Option (SnoopItem N)

/-- The line address of a packet; a secure line has the bit `LineSecure`. -/
def lineAddr (linesize : Nat) (pkt : XbarPacket) : Nat :=
  if pkt.secure then pkt.getBlockAddr linesize ||| 1 else pkt.getBlockAddr linesize

variable (table : Table N)

/-- `lookupRequest` on the table, with `reqLookupResult`: the line of its iterator and `retryItem`, or
`end()`. A port that is not snooping allocates nothing. -/
def Table.lookupRequest (linesize : Nat) (pkt : XbarPacket) (port : Option (Fin N)) :
    Except FilterFault (Table N × Option (Nat × SnoopItem N)) :=
  let line := lineAddr linesize pkt
  (fun entry => (update table line entry, entry.map fun _ => (line, (table line).getD {}))) <$>
    match port with
    | some port => Prod.fst <$> SnoopFilter.lookupRequest (table line) pkt port
    | none => .ok (table line)

/-- `finishRequest` on the table, for the line of its address; `none` when the iterator is of another
line or dangles. -/
def Table.finishRequest (result : Option (Nat × SnoopItem N)) (willRetry : Bool)
    (line : Nat) : Option (Table N) :=
  match result with
  | none => some table
  | some (it, retryItem) =>
    if it ≠ line then none
    else (table it).map fun item =>
      update table it (if willRetry then retryItem else item).eraseIfNullEntry

/-- No entry is empty. -/
def Table.NonNull : Prop :=
  ∀ line, ∀ item ∈ table line, item.isNull = false

theorem eraseIfNullEntry_getD {table : Table N} (h : table.NonNull) (line : Nat) :
    ((table line).getD {}).eraseIfNullEntry = table line := by
  cases hen : table line with
  | none => simp [SnoopItem.eraseIfNullEntry, SnoopItem.isNull, SnoopItem.interested]
  | some item => simp [SnoopItem.eraseIfNullEntry, h line item hen]

theorem lookupRequest_eq_none {entry : Option (SnoopItem N)} {pkt : XbarPacket} {port : Fin N}
    {selected : List (Fin N)} (h : lookupRequest entry pkt port = .ok (none, selected)) :
    entry = none := by
  cases entry with
  | none => rfl
  | some item =>
    simp only [lookupRequest, Option.isNone_some, Bool.false_and] at h
    grind

/-- **A refused request leaves no trace**, and an accepted one no empty entry. -/
theorem refused_request_restores {table table' : Table N} {result : Option (Nat × SnoopItem N)}
    {linesize : Nat} {pkt : XbarPacket} {port : Option (Fin N)} (h : table.NonNull)
    (hok : table.lookupRequest linesize pkt port = .ok (table', result)) :
    table'.finishRequest result true (lineAddr linesize pkt) = some table ∧
      ∃ t, table'.finishRequest result false (lineAddr linesize pkt) = some t ∧
        (∀ line ≠ lineAddr linesize pkt, t line = table line) ∧ t.NonNull := by
  obtain ⟨entry, hen, hre⟩ := map_eq_ok.mp hok
  obtain ⟨rfl, rfl⟩ := Prod.mk.inj hre
  cases entry with
  | none =>
    have hn : table (lineAddr linesize pkt) = none := by
      cases port with
      | none => exact Except.ok.inj hen
      | some port =>
        obtain ⟨⟨_, selected⟩, hlo, rfl⟩ := map_eq_ok.mp hen
        exact lookupRequest_eq_none hlo
    have hsa : update table (lineAddr linesize pkt) none = table := by
      rw [← hn, update_eq_self]
    rw [hsa]
    exact ⟨rfl, table, rfl, fun _ _ => rfl, h⟩
  | some item =>
    refine ⟨?_, update table (lineAddr linesize pkt) item.eraseIfNullEntry, ?_, fun line hl => ?_,
      fun line item' hi => ?_⟩
    · simp [Table.finishRequest, eraseIfNullEntry_getD h]
    · simp [Table.finishRequest]
    · rw [update_of_ne hl]
    · by_cases hl : line = lineAddr linesize pkt
      · rw [hl, SnoopItem.eraseIfNullEntry] at hi
        grind
      · rw [update_of_ne hl] at hi
        exact h line item' hi

/-- The first request for a line is refused: its new entry is erased. -/
theorem refused_request_restores_miss : ∃ table' result,
    Table.lookupRequest (N := 1) (fun _ => none) 64 { cmd := .readSharedReq } (some 0) =
      .ok (table', result) ∧ (table' 0).isSome ∧
    table'.finishRequest result true 0 = some fun _ => none := by
  have hok : Table.lookupRequest (N := 1) (fun _ => none) 64 { cmd := .readSharedReq } (some 0) =
    .ok (_, _) := rfl
  exact ⟨_, _, hok, by decide, (refused_request_restores (by simp [Table.NonNull]) hok).1⟩

end SnoopFilter

end Gem5.Mem
