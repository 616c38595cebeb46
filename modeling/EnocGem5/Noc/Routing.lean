import EnocGem5.Noc.Mesh

/-!
# Routing — XY routing over the mesh

`VirtualChannel::xy_yx_mesh` chooses the output port of a flit from the router's number and the
flit's destination. This file follows that port through the channel `buildMesh` attached to it
(`hop`, `walk`) and proves for every dimension `k`:

* a walk reaches its destination in as many hops as the mesh distance, never over a wraparound
  channel (`walk_minimal`);
* the channel-dependency relation of all walks has no cycle (`dependsOn_acyclic`);
* `dor_next_mesh` chooses the same port (`dorNextMesh_eq`).
-/

namespace EnocGem5.Noc

variable {k x y x' y' n p cur dst c src : ℕ}

/-! ## The routing function -/

/-- `VirtualChannel::xy_yx_mesh`. The destination is an `int` of the source, so its coordinates are
taken with truncating division. -/
def xyYxMesh (k id : ℕ) (dst : ℤ) : ℕ :=
  let cur_coordx : ℤ := (id % k : ℕ)
  let cur_coordy : ℤ := (id / k : ℕ)
  let dst_coordx := dst.tmod k
  let dst_coordy := dst.tdiv k
  if dst_coordx < cur_coordx then 1        -- west
  else if dst_coordx > cur_coordx then 0   -- east
  else if dst_coordy < cur_coordy then 3   -- up
  else if dst_coordy > cur_coordy then 2   -- down
  else 4

theorem xyYxMesh_lt (k id : ℕ) (dst : ℤ) : xyYxMesh k id dst < 5 := by
  simp only [xyYxMesh]
  split_ifs <;> omega

/-- The port as a comparison of the coordinates of two routers. -/
theorem xyYxMesh_coords (hx : x < k) (hx' : x' < k) :
    xyYxMesh k (y * k + x) ((y' * k + x' : ℕ) : ℤ) =
      if x' < x then 1 else if x < x' then 0 else if y' < y then 3 else if y < y' then 2
          else 4 := by
  have hmod : ((y' * k + x' : ℕ) : ℤ).tmod k = (x' : ℕ) := by
    rw [← Int.ofNat_tmod, coords_mod y' hx']
  have hdiv : ((y' * k + x' : ℕ) : ℤ).tdiv k = (y' : ℕ) := by
    rw [← Int.ofNat_tdiv, coords_div y' hx']
  simp only [xyYxMesh, coords_mod y hx, coords_div y hx, hmod, hdiv, gt_iff_lt, Nat.cast_lt]

theorem xyYxMesh_self (hn : n < k * k) : xyYxMesh k n n = 4 := by
  obtain ⟨x, y, hx, _, rfl⟩ := exists_coords hn
  rw [xyYxMesh_coords hx hx]
  simp

/-- Only the router's own number yields port 4, whatever integer the destination is. -/
theorem xyYxMesh_eq_four (hn : n < k * k) {dst : ℤ} : xyYxMesh k n dst = 4 ↔ dst = n := by
  constructor
  · intro h
    have hcoords : dst.tmod k = (n % k : ℕ) ∧ dst.tdiv k = (n / k : ℕ) := by
      simp only [xyYxMesh] at h
      split_ifs at h
      all_goals constructor <;> omega
    have hdst := Int.mul_tdiv_add_tmod dst k
    have hself := Nat.div_add_mod n k
    rw [← hdst, hcoords.1, hcoords.2]
    exact_mod_cast hself
  · rintro rfl
    exact xyYxMesh_self hn

/-! ## Walks -/

/-- One hop towards `dst`: through the channel attached to the chosen port, to the sink's router and
input port. There is none from the destination, whose port 4 leads out of the network. -/
def hop (k dst cur : ℕ) : Option (ℕ × ℕ) :=
  ((buildMesh k).outputChannels cur)[xyYxMesh k cur dst]?.bind (buildMesh k).sink

/-- The router reached from `src` after `n` hops. -/
def walk (k dst src : ℕ) : ℕ → Option ℕ
  | 0 => some src
  | n + 1 => (walk k dst src n).bind fun cur => (hop k dst cur).map Prod.fst

/-- `|dx| + |dy|`. -/
def meshDist (k a b : ℕ) : ℕ :=
  ((b % k : ℕ) - (a % k : ℕ) : ℤ).natAbs + ((b / k : ℕ) - (a / k : ℕ) : ℤ).natAbs

theorem meshDist_coords (hx : x < k) (hx' : x' < k) :
    meshDist k (y * k + x) (y' * k + x') = ((x' : ℤ) - x).natAbs + ((y' : ℤ) - y).natAbs := by
  simp only [meshDist, coords_mod _ hx, coords_mod _ hx', coords_div _ hx, coords_div _ hx']

/-- Output port `port` of router `node` carries a wraparound channel: the neighbour function took
the edge branch. -/
def Wraparound (k node port : ℕ) : Prop :=
  match port with
  | 0 => locInDim k node 0 = k - 1
  | 1 => locInDim k node 0 = 0
  | 2 => locInDim k node 1 = k - 1
  | 3 => locInDim k node 1 = 0
  | _ => False

/-- What one hop does away from the destination. -/
structure HopSpec (k dst cur next : ℕ) : Prop where
  next_lt : next < k * k
  port_lt : xyYxMesh k cur dst < 4
  next_eq : next = neighbour k cur (xyYxMesh k cur dst)
  no_wraparound : ¬ Wraparound k cur (xyYxMesh k cur dst)
  closer : meshDist k next dst + 1 = meshDist k cur dst

/-- The coordinates of the next router: one step in the row, or in the column once the row is
right. -/
theorem exists_next_coords (hx : x < k) (hy : y < k) (hx' : x' < k) (hy' : y' < k)
    (hp : xyYxMesh k (y * k + x) (y' * k + x' : ℕ) < 4) :
    ∃ a b, a < k ∧ neighbour k (y * k + x) (xyYxMesh k (y * k + x) (y' * k + x' : ℕ)) = b * k + a ∧
      (x' < x ∧ a + 1 = x ∧ b = y ∨ x < x' ∧ a = x + 1 ∧ b = y ∨
        x' = x ∧ a = x ∧ (y' < y ∧ b + 1 = y ∨ y < y' ∧ b = y + 1)) := by
  rw [xyYxMesh_coords hx hx'] at hp ⊢
  split_ifs at hp ⊢
  · exact ⟨x - 1, y, by omega, by rw [neighbour, leftNode_zero_coords hx,
      if_neg (by omega)], by omega⟩
  · exact ⟨x + 1, y, by omega, by rw [neighbour, rightNode_zero_coords hx,
      if_neg (by omega)], by omega⟩
  · exact ⟨x, y - 1, hx, (leftNode_one_coords hx hy).trans (by rw [if_neg (by omega)]), by omega⟩
  · exact ⟨x, y + 1, hx, (rightNode_one_coords hx hy).trans (by rw [if_neg (by omega)]), by omega⟩
  · omega

/-- The neighbour the routing function chooses is closer to the destination by one. -/
theorem hopSpec_neighbour (hcur : cur < k * k) (hdst : dst < k * k) (h : cur ≠ dst) :
    HopSpec k dst cur (neighbour k cur (xyYxMesh k cur dst)) := by
  have hnext := neighbour_lt (xyYxMesh k cur dst) hcur
  have hp : xyYxMesh k cur dst < 4 := by
    have hlt := xyYxMesh_lt k cur dst
    have hfour : xyYxMesh k cur dst ≠ 4 :=
      fun hfour => h (by exact_mod_cast ((xyYxMesh_eq_four hcur).1 hfour).symm)
    omega
  obtain ⟨x, y, hx, hy, rfl⟩ := exists_coords hcur
  obtain ⟨x', y', hx', hy', rfl⟩ := exists_coords hdst
  refine ⟨hnext, hp, rfl, ?_, ?_⟩
  · have hdim0 : locInDim k (y * k + x) 0 = x := by simp [locInDim, coords_mod y hx]
    have hdim1 : locInDim k (y * k + x) 1 = y := by
      simp [locInDim, coords_div y hx, Nat.mod_eq_of_lt hy]
    rw [xyYxMesh_coords hx hx']
    split_ifs <;> simp only [Wraparound, hdim0, hdim1, not_false_eq_true] <;> omega
  · obtain ⟨a, b, ha, hab, hcloser⟩ := exists_next_coords hx hy hx' hy' hp
    rw [hab, meshDist_coords ha hx', meshDist_coords hx hx']
    omega

theorem outputChannels_buildMesh (hn : n < k * k) (hp : p < 5) :
    ((buildMesh k).outputChannels n)[p]? = some (outChan n p) := by
  rw [(built_buildMesh k).outputs n, if_pos hn]
  simp [hp]

theorem sink_outChan (hn : n < k * k) (hp : p < 4) :
    (buildMesh k).sink (outChan n p) = some (neighbour k n p, inPort p) := by
  rw [← inChan_neighbour hn hp]
  exact (built_buildMesh k).sinks _ _ (neighbour_lt p hn) (by have := inPort_lt p; omega)

theorem hop_eq (hcur : cur < k * k) (hp : xyYxMesh k cur dst < 4) :
    hop k dst cur = some (neighbour k cur (xyYxMesh k cur dst), inPort (xyYxMesh k cur dst)) := by
  rw [hop, outputChannels_buildMesh hcur (by omega), Option.bind_some, sink_outChan hcur hp]

theorem hop_self (hn : n < k * k) : hop k n n = none := by
  rw [hop, xyYxMesh_self hn, outputChannels_buildMesh hn (by omega)]
  exact (built_buildMesh k).ejects n

theorem meshDist_self (k n : ℕ) : meshDist k n n = 0 := by
  simp [meshDist]

theorem meshDist_eq_zero {a b : ℕ} (ha : a < k * k) (hb : b < k * k) (h : meshDist k a b = 0) :
    a = b := by
  obtain ⟨x, y, hx, _, rfl⟩ := exists_coords ha
  obtain ⟨x', y', hx', hy', rfl⟩ := exists_coords hb
  rw [meshDist_coords hx hx'] at h
  obtain rfl : x = x' := by omega
  obtain rfl : y = y' := by omega
  rfl

/-- After `i` hops of at most the distance, the walk is at a router that much closer. -/
theorem walk_closer (hsrc : src < k * k) (hdst : dst < k * k) (i : ℕ)
    (hi : i ≤ meshDist k src dst) :
    ∃ cur, walk k dst src i = some cur ∧ cur < k * k ∧
    meshDist k cur dst + i = meshDist k src dst := by
  induction i with
  | zero => exact ⟨src, rfl, hsrc, rfl⟩
  | succ i ih =>
    obtain ⟨cur, hwalk, hcur, hdist⟩ := ih (by omega)
    have hne : cur ≠ dst := by
      rintro rfl
      rw [meshDist_self] at hdist
      omega
    have hspec := hopSpec_neighbour hcur hdst hne
    refine ⟨_, ?_, hspec.next_lt, ?_⟩
    · rw [walk, hwalk, Option.bind_some, hop_eq hcur hspec.port_lt]
      rfl
    · have := hspec.closer
      omega

/-- XY routing is minimal on the mesh that `buildMesh` wires: the walk from `src` arrives after
`|dx| + |dy|` hops, where port 4 is chosen, and every hop before takes a channel that is no
wraparound and whose sink port is the one the router code computes for the output port. -/
theorem walk_minimal (k src dst : ℕ) (hsrc : src < k * k) (hdst : dst < k * k) :
    walk k dst src (meshDist k src dst) = some dst ∧
      xyYxMesh k dst dst = 4 ∧
      ∀ i < meshDist k src dst, ∃ cur next,
        walk k dst src i = some cur ∧
        walk k dst src (i + 1) = some next ∧
        xyYxMesh k cur dst ≠ 4 ∧
        ¬ Wraparound k cur (xyYxMesh k cur dst) ∧
        hop k dst cur = some (next, inPort (xyYxMesh k cur dst)) := by
  refine ⟨?_, xyYxMesh_self hdst, ?_⟩
  · obtain ⟨cur, hwalk, hcur, hdist⟩ := walk_closer hsrc hdst _ le_rfl
    rw [hwalk, meshDist_eq_zero hcur hdst (by omega)]
  · intro i hi
    obtain ⟨cur, hwalk, hcur, hdist⟩ := walk_closer hsrc hdst i hi.le
    have hne : cur ≠ dst := by
      rintro rfl
      rw [meshDist_self] at hdist
      omega
    have hspec := hopSpec_neighbour hcur hdst hne
    have hhop := hop_eq hcur hspec.port_lt
    refine ⟨cur, _, hwalk, ?_, ?_, hspec.no_wraparound, hhop⟩
    · rw [walk, hwalk, Option.bind_some, hhop]
      rfl
    · have := hspec.port_lt
      omega

theorem walk_minimal_eight : walk 8 56 7 (meshDist 8 7 56) = some 56 ∧ xyYxMesh 8 56 56 = 4 := by
  obtain ⟨harrive, hport, _⟩ := walk_minimal 8 7 56 (by decide) (by decide)
  exact ⟨harrive, hport⟩

/-! ## Channel dependencies -/

/-- Channel `c` depends on channel `c'`: on the walk of some source and destination, a flit arrives
over `c` and is routed out over `c'`. -/
def dependsOn (k c c' : ℕ) : Prop :=
  ∃ src dst i cur next, src < k * k ∧ dst < k * k ∧
    walk k dst src i = some cur ∧
    walk k dst src (i + 1) = some next ∧
    ((buildMesh k).outputChannels cur)[xyYxMesh k cur dst]? = some (.chan c) ∧
    ((buildMesh k).outputChannels next)[xyYxMesh k next dst]? = some (.chan c')

/-- The rank of the channel that leaves coordinates `x`, `y` at output port `port`: its progress
along the row for the two horizontal directions, and past all rows, along the column for the
others. -/
def dirRank (k x y port : ℕ) : ℕ :=
  match port with
  | 0 => x
  | 1 => k - 1 - x
  | 2 => k + y
  | _ => k + (k - 1 - y)

def chanRank (k c : ℕ) : ℕ := dirRank k (c / 4 % k) (c / 4 / k) (c % 4)

theorem chanRank_coords (hx : x < k) (hp : p < 4) :
    chanRank k (4 * (y * k + x) + p) = dirRank k x y p := by
  have hdiv : (4 * (y * k + x) + p) / 4 = y * k + x := by omega
  have hmod : (4 * (y * k + x) + p) % 4 = p := by omega
  rw [chanRank, hdiv, hmod, coords_mod y hx, coords_div y hx]

theorem walk_lt {i next : ℕ} (hsrc : src < k * k) (hdst : dst < k * k)
    (h : walk k dst src i = some next) : next < k * k := by
  induction i generalizing next with
  | zero =>
    cases h
    exact hsrc
  | succ i ih =>
    obtain ⟨cur, hcur, hnext⟩ := Option.bind_eq_some_iff.1 h
    have hlt := ih hcur
    by_cases hne : cur = dst
    · rw [hne, hop_self hdst] at hnext
      cases hnext
    · rw [hop_eq hlt (hopSpec_neighbour hlt hdst hne).port_lt] at hnext
      cases hnext
      exact neighbour_lt _ hlt

/-- The channel a walk takes out of `cur`, and the router it reaches over it. -/
theorem outputChannels_chan (hcur : cur < k * k)
    (h : ((buildMesh k).outputChannels cur)[xyYxMesh k cur dst]? = some (.chan c)) :
    xyYxMesh k cur dst < 4 ∧ c = 4 * cur + xyYxMesh k cur dst := by
  rw [outputChannels_buildMesh hcur (xyYxMesh_lt k cur dst)] at h
  simp only [outChan] at h
  split_ifs at h with hp
  · exact ⟨hp, by simpa using h.symm⟩
  · simp at h

/-- Two consecutive channels of a route have increasing ranks: a flit only turns from a row into a
column, and keeps its direction otherwise. -/
theorem chanRank_lt (hcur : cur < k * k) (hdst : dst < k * k) (hp : xyYxMesh k cur dst < 4)
    (hp' : xyYxMesh k (neighbour k cur (xyYxMesh k cur dst)) dst < 4) :
    chanRank k (4 * cur + xyYxMesh k cur dst) <
      chanRank k (4 * neighbour k cur (xyYxMesh k cur dst) +
        xyYxMesh k (neighbour k cur (xyYxMesh k cur dst)) dst) := by
  obtain ⟨x, y, hx, hy, rfl⟩ := exists_coords hcur
  obtain ⟨x', y', hx', hy', rfl⟩ := exists_coords hdst
  obtain ⟨a, b, ha, hab, hcloser⟩ := exists_next_coords hx hy hx' hy' hp
  rw [hab, xyYxMesh_coords ha hx'] at hp' ⊢
  rw [chanRank_coords hx hp, chanRank_coords ha hp']
  rw [xyYxMesh_coords hx hx'] at hp ⊢
  split_ifs at hp hp' ⊢ <;> simp only [dirRank] <;> omega

theorem chanRank_lt_of_dependsOn {c' : ℕ} (h : dependsOn k c c') :
    chanRank k c < chanRank k c' := by
  obtain ⟨src, dst, i, cur, next, hsrc, hdst, hcur, hnext, hc, hc'⟩ := h
  have hlt := walk_lt hsrc hdst hcur
  have hlt' := walk_lt hsrc hdst hnext
  obtain ⟨hp, rfl⟩ := outputChannels_chan hlt hc
  obtain ⟨hp', rfl⟩ := outputChannels_chan hlt' hc'
  rw [walk, hcur, Option.bind_some, hop_eq hlt hp] at hnext
  cases hnext
  exact chanRank_lt hlt hdst hp hp'

/-- Routing cannot deadlock: the channel-dependency relation is acyclic for every dimension. -/
theorem dependsOn_acyclic (k c : ℕ) : ¬ Relation.TransGen (dependsOn k) c c := by
  intro h
  have hrank : Relation.TransGen (· < ·) (chanRank k c) (chanRank k c) :=
    h.lift (chanRank k) fun _ _ => chanRank_lt_of_dependsOn
  rw [Relation.transGen_eq_self] at hrank
  exact lt_irrefl _ hrank

/-! ## The other routing function -/

/-- `dor_next_mesh` of `VirtualChannel` and of the routing functions. Both loops run over one
dimension, as `gN` is 2; `dimLeft` is their counter, which is read after the loop. -/
def dorNextMesh (gK cur dest : ℕ) (descending : Bool) : ℕ :=
  let gNodes := gK * gK
  if cur = dest then 4
  else
    let (dimLeft, cur, dest) :=
      if descending then
        let (dimLeft, cur, dest) :=
          if cur * gK / gNodes ≠ dest * gK / gNodes then (1, cur, dest)
          else (0, cur * gK % gNodes, dest * gK % gNodes)
        (dimLeft, cur * gK / gNodes, dest * gK / gNodes)
      else
        let (dimLeft, cur, dest) := if cur % gK ≠ dest % gK then (0, cur, dest)
          else (1, cur / gK, dest / gK)
        (dimLeft, cur % gK, dest % gK)
    if cur < dest then 2 * dimLeft else 2 * dimLeft + 1

/-- The port of the route that exhausts the Y offset first and the X offset second. -/
def yxPort (k cur dest : ℕ) : ℕ :=
  if dest / k < cur / k then 3
  else if cur / k < dest / k then 2
  else if dest % k < cur % k then 1
  else if cur % k < dest % k then 0
  else 4

/-- The two dimension-order routers agree. -/
theorem dorNextMesh_eq {k cur dest : ℕ} (hcur : cur < k * k) (hdest : dest < k * k) :
    dorNextMesh k cur dest false = xyYxMesh k cur dest ∧
    dorNextMesh k cur dest true = yxPort k cur dest := by
  rcases eq_or_ne cur dest with rfl | hne
  · rw [xyYxMesh_self hcur]
    simp [dorNextMesh, yxPort]
  · obtain ⟨x, y, hx, hy, rfl⟩ := exists_coords hcur
    obtain ⟨x', y', hx', hy', rfl⟩ := exists_coords hdest
    have hk : 0 < k := by omega
    -- a node scaled by `k` has its row as quotient, and its column, scaled, as remainder
    have hscale : ∀ n, n * k / (k * k) = n / k ∧ n * k % (k * k) = n % k * k := fun n =>
      ⟨Nat.mul_div_mul_right n k hk, Nat.mul_mod_mul_right ..⟩
    have hxy : ¬ (x = x' ∧ y = y') := by
      rintro ⟨rfl, rfl⟩
      exact hne rfl
    rw [xyYxMesh_coords hx hx', dorNextMesh, dorNextMesh, if_neg hne, if_neg hne, yxPort]
    by_cases hxx : x = x' <;> by_cases hyy : y = y' <;>
      simp only [hscale, coords_mod _ hx, coords_mod _ hx', coords_div _ hx, coords_div _ hx',
        Nat.mod_eq_of_lt hy, Nat.mod_eq_of_lt hy', Nat.mul_div_cancel _ hk, hxx, hyy, ne_eq,
        not_true_eq_false, not_false_eq_true, if_true, if_false, Bool.false_eq_true]
    all_goals
      split_ifs <;> omega

theorem dorNextMesh_corner :
    dorNextMesh 8 9 63 false = xyYxMesh 8 9 63 ∧ dorNextMesh 8 9 63 true = yxPort 8 9 63 :=
  dorNextMesh_eq (by decide) (by decide)

end EnocGem5.Noc
