import Mathlib

/-!
# Gem5.Mem.Ruby.RoutingUnit

**XY routing** (`src/mem/ruby/network/garnet/RoutingUnit.cc`, on the links of `Mesh_XY`). A packet
moves along its row and then along its column. A router asserts the direction a packet comes from, so
that a channel is only followed by one of a higher `rank`.
-/

namespace Gem5.Mem

inductive PortDirection
  | Local
  | North
  | South
  | East
  | West
  deriving DecidableEq

structure Mesh where
  numRows : Nat
  numCols : Nat
  numRows_pos : 0 < numRows
  numCols_pos : 0 < numCols

namespace Mesh

open Nat PortDirection Option

variable (m : Mesh)

/-- `outportComputeXY`, which fails with an assertion. -/
def outportComputeXY (myId destId : Nat) (inportDirn : PortDirection) : Option PortDirection :=
  let myX := myId % m.numCols
  let myY := myId / m.numCols
  let destX := destId % m.numCols
  let destY := destId / m.numCols
  let xHops := Nat.dist destX myX
  let yHops := Nat.dist destY myY
  if xHops > 0 then
    if destX ≥ myX then
      if inportDirn = Local ∨ inportDirn = West then some East else none
    else if inportDirn = Local ∨ inportDirn = East then some West else none
  else if yHops > 0 then
    if destY ≥ myY then
      if inportDirn ≠ North then some North else none
    else if inportDirn ≠ South then some South else none
  else none

def router (x y : Nat) : Nat := x + m.numCols * y

/-- The router a link leads to, and the direction the packet comes from there. -/
def link (id : Nat) (out : PortDirection) : Option (Nat × PortDirection) :=
  let x := id % m.numCols
  let y := id / m.numCols
  match out with
  | Local => none
  | North => if y + 1 < m.numRows then some (m.router x (y + 1), South) else none
  | South => if 0 < y then some (m.router x (y - 1), North) else none
  | East => if x + 1 < m.numCols then some (m.router (x + 1) y, West) else none
  | West => if 0 < x then some (m.router (x - 1) y, East) else none

abbrev Channel := Nat × PortDirection

/-- The channels of a packet, which is at its destination after at most `hops` of them. -/
def channels (destId : Nat) : Nat → Nat → PortDirection → Option (List Channel)
  | 0, id, _ => if id = destId then some [] else none
  | hops + 1, id, inportDirn =>
    if id = destId then some []
    else
      (m.outportComputeXY id destId inportDirn).bind fun out =>
        (m.link id out).bind fun next =>
          (channels destId hops next.1 next.2).map ((id, out) :: ·)

/-- `|dx| + |dy|` -/
def distance (a b : Nat) : Nat :=
  Nat.dist (b % m.numCols) (a % m.numCols) + Nat.dist (b / m.numCols) (a / m.numCols)

/-- Some packet uses channel `b` right after channel `a`. -/
def Follows (a b : Channel) : Prop :=
  ∃ src dest hops path, src < m.numRows * m.numCols ∧ dest < m.numRows * m.numCols ∧
    m.channels dest hops src Local = some path ∧ [a, b] <:+: path

variable {m} {id dest x y hops : Nat} {out inportDirn : PortDirection} {next : Nat × PortDirection}

@[simp] theorem router_mod (h : x < m.numCols) : m.router x y % m.numCols = x := by
  rw [router, add_mul_mod_self_left, mod_eq_of_lt h]

@[simp] theorem router_div (h : x < m.numCols) : m.router x y / m.numCols = y := by
  rw [router, add_mul_div_left _ _ m.numCols_pos, div_eq_of_lt h, zero_add]

/-! ### Reaching the destination -/

theorem outportComputeXY_eq : m.outportComputeXY id dest inportDirn =
    if id % m.numCols < dest % m.numCols then
      if inportDirn = Local ∨ inportDirn = West then some East else none
    else if dest % m.numCols < id % m.numCols then
      if inportDirn = Local ∨ inportDirn = East then some West else none
    else if id / m.numCols < dest / m.numCols then
      if inportDirn ≠ North then some North else none
    else if dest / m.numCols < id / m.numCols then
      if inportDirn ≠ South then some South else none
    else none := by
  simp only [outportComputeXY, Nat.dist]
  grind

theorem nearer_router (hx : x < m.numCols) {d : Nat}
    (hd : Nat.dist (dest % m.numCols) x + Nat.dist (dest / m.numCols) y + 1 = d)
    (ha : (x < dest % m.numCols → inportDirn = West) ∧ (dest % m.numCols < x → inportDirn = East) ∧
      (x = dest % m.numCols → (y < dest / m.numCols → inportDirn ≠ North) ∧
        (dest / m.numCols < y → inportDirn ≠ South))) :
    m.distance (m.router x y) dest + 1 = d ∧
      (m.router x y = dest ∨ (m.outportComputeXY (m.router x y) dest inportDirn).isSome) := by
  refine ⟨by rwa [distance, router_mod hx, router_div hx], ?_⟩
  have hdd := mod_add_div dest m.numCols
  rw [outportComputeXY_eq, router_mod hx, router_div hx]
  grind [router]

theorem exists_hop (hd : dest < m.numRows * m.numCols)
    (h : m.outportComputeXY id dest inportDirn = some out) : ∃ next, m.link id out = some next ∧
      m.distance next.1 dest + 1 = m.distance id dest ∧
      (next.1 = dest ∨ (m.outportComputeXY next.1 dest next.2).isSome) := by
  have hx := mod_lt id m.numCols_pos
  have hdx := mod_lt dest m.numCols_pos
  have hdy : dest / m.numCols < m.numRows := Nat.div_lt_of_lt_mul (by rwa [mul_comm])
  have hd0 := zero_le (dest / m.numCols)
  rw [outportComputeXY_eq] at h
  simp only [distance, Nat.dist]
  split_ifs at h
  all_goals
    cases h
    refine ⟨_, if_pos (by omega), nearer_router (by omega) (by simp only [Nat.dist]; omega) ?_⟩
    simp
    omega

/-- **A packet takes as many hops as its destination is away.** -/
theorem exists_channels (hd : dest < m.numRows * m.numCols) (hops : Nat) :
    ∀ id inportDirn, m.distance id dest = hops →
      (id = dest ∨ (m.outportComputeXY id dest inportDirn).isSome) →
      ∃ path, m.channels dest hops id inportDirn = some path ∧ path.length = hops := by
  induction hops with
  | zero =>
    intro id inportDirn h _
    simp only [distance, Nat.dist] at h
    exact ⟨[], if_pos (ext_div_mod (n := m.numCols) (by omega) (by omega)), rfl⟩
  | succ hops ih =>
    intro id inportDirn h ha
    have hne : id ≠ dest := by
      rintro rfl
      simp [distance, Nat.dist] at h
    obtain ⟨out, ho⟩ := isSome_iff_exists.mp (ha.resolve_left hne)
    obtain ⟨next, hl, hn, ha⟩ := exists_hop hd ho
    obtain ⟨path, hp, hlen⟩ := ih next.1 next.2 (by omega) ha
    exact ⟨(id, out) :: path, by simp [channels, hne, ho, hl, hp], by simp [hlen]⟩

/-! ### Deadlock freedom -/

/-- Channels along a row come before those along a column. -/
def rank (m : Mesh) : Channel → Nat ×ₗ Int
  | (_, Local) => toLex (0, 0)
  | (id, East) => toLex (0, (id % m.numCols : Nat))
  | (id, West) => toLex (0, -(id % m.numCols : Nat))
  | (id, North) => toLex (1, (id / m.numCols : Nat))
  | (id, South) => toLex (1, -(id / m.numCols : Nat))

/-- A packet that a router accepts leaves it by a channel of a higher rank. -/
theorem rank_lt {out' : PortDirection} (hl : m.link id out = some next)
    (ho : m.outportComputeXY next.1 dest next.2 = some out') :
    m.rank (id, out) < m.rank (next.1, out') := by
  have hx := mod_lt id m.numCols_pos
  rw [outportComputeXY_eq] at ho
  cases out with
  | Local => cases hl
  | _ =>
    obtain ⟨hc, he⟩ := ite_none_right_eq_some.mp hl
    cases he
    have hx' : id % m.numCols - 1 < m.numCols := by omega
    split_ifs at ho
    all_goals
      cases ho
      simp_all [rank, Prod.Lex.toLex_lt_toLex, -Nat.div_pos_iff]

theorem channels_cons {c : Channel} {path : List Channel}
    (h : m.channels dest hops id inportDirn = some (c :: path)) :
    c.1 = id ∧ m.outportComputeXY id dest inportDirn = some c.2 ∧ ∃ next hops',
      m.link id c.2 = some next ∧ m.channels dest hops' next.1 next.2 = some path := by
  cases hops with
  | zero => simp [channels] at h
  | succ hops =>
    rw [channels] at h
    split at h
    · cases h
    · obtain ⟨out, ho, h⟩ := bind_eq_some_iff.mp h
      obtain ⟨next, hl, h⟩ := bind_eq_some_iff.mp h
      obtain ⟨path, hp, he⟩ := map_eq_some_iff.mp h
      cases he
      exact ⟨rfl, ho, next, hops, hl, hp⟩

theorem rank_lt_of_channels {a b : Channel} {s t : List Channel}
    (h : m.channels dest hops id inportDirn = some (s ++ a :: b :: t)) : m.rank a < m.rank b := by
  induction s generalizing hops id inportDirn with
  | nil =>
    obtain ⟨rfl, -, next, _, hl, hn⟩ := channels_cons h
    obtain ⟨he, ho, -⟩ := channels_cons hn
    have hr := rank_lt hl ho
    rwa [← he] at hr
  | cons c s ih =>
    obtain ⟨-, -, next, _, -, hn⟩ := channels_cons h
    exact ih hn

theorem rank_lt_of_follows {a b : Channel} (h : m.Follows a b) : m.rank a < m.rank b := by
  obtain ⟨_, _, _, _, -, -, hp, s, t, rfl⟩ := h
  rw [List.append_assoc] at hp
  exact rank_lt_of_channels hp

/-- **XY routing is minimal and free of deadlocks.** A packet injected in any router reaches any other
in as many hops as it is away, no assertion fails, and no channel follows itself. -/
theorem xy_routing (m : Mesh) :
    (∀ src < m.numRows * m.numCols, ∀ dest < m.numRows * m.numCols, ∃ path,
      m.channels dest (m.distance src dest) src Local = some path ∧
      path.length = m.distance src dest) ∧
    ∀ a, ¬ Relation.TransGen m.Follows a a := by
  refine ⟨fun src _ dest hd => exists_channels hd _ src Local rfl ?_, fun a h => ?_⟩
  · have h1 := mod_add_div src m.numCols
    have h2 := mod_add_div dest m.numCols
    rw [outportComputeXY_eq]
    grind
  · have hr := h.lift m.rank fun _ _ => rank_lt_of_follows
    rw [Relation.transGen_eq_self] at hr
    exact lt_irrefl _ hr

end Mesh

end Gem5.Mem
