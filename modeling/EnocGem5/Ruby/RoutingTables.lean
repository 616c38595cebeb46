import EnocGem5.Lib.Run
import EnocGem5.Lib.ShortestPath
import EnocGem5.Ruby.Topology

/-!
# RoutingTables — the routing tables are complete and free of loops

The matrix of distances starts as an estimate of the distances between switches (`Lib.Estimate`).
Every entry that a round lowers keeps it one, and a round without a change shows that no entry can
be lowered, so that the estimate is exact. Rounds with a change lower the sum of all entries, which
ends the loop.
-/

namespace EnocGem5.Ruby

open Lib List

/-! ## One entry -/

theorem mem_pairs {n i j : ℕ} : (i, j) ∈ pairs n ↔ i < n ∧ j < n := by
  simp [pairs]

section Entry

variable {dist : Matrix} {i j : ℕ}

/-- The loop over `k` after the switches `seen`. -/
structure Found (dist : Matrix) (i j : ℕ) (seen : List ℕ) (S : Minimum) : Prop where
  previous : S.previousMinimum = S.minimum
  le_seen : ∀ k ∈ seen, S.minimum ≤ dist i k + dist k j
  minimum : S.minimum = dist i j ∨ ∃ k ∈ seen, S.intermediateSwitch = some k ∧
    S.minimum = dist i k + dist k j ∧ S.minimum < dist i j

theorem Found.next {seen : List ℕ} {S : Minimum} (h : Found dist i j seen S) (k : ℕ) :
    Found dist i j (seen ++ [k]) (tryIntermediate dist i j S k) := by
  have hsub : ∀ k' ∈ seen, k' ∈ seen ++ [k] := fun k' hk' => mem_append_left _ hk'
  have hle : ∀ k' ∈ seen ++ [k], min S.minimum (dist i k + dist k j) ≤ dist i k' + dist k' j := by
    refine forall_mem_append.2 ⟨fun k' hk' => ?_, forall_mem_singleton.2 (min_le_right _ _)⟩
    exact (min_le_left _ _).trans (h.le_seen k' hk')
  unfold tryIntermediate
  dsimp only
  split
  case isTrue hchanged =>
    -- the minimum has gone down, and `k` is the reason
    rw [h.previous] at hchanged
    have hlt : dist i k + dist k j < S.minimum := by
      by_contra hnot
      exact hchanged (min_eq_left (not_lt.1 hnot)).symm
    have hmin : min S.minimum (dist i k + dist k j) = dist i k + dist k j := min_eq_right hlt.le
    refine ⟨rfl, hle, .inr ⟨k, mem_append_right _ mem_cons_self, rfl, hmin, ?_⟩⟩
    rw [hmin]
    rcases h.minimum with heq | ⟨-, -, -, -, hlt'⟩
    · rwa [← heq]
    · exact hlt.trans hlt'
  case isFalse hsame =>
    have hsame : min S.minimum (dist i k + dist k j) = S.minimum := by
      rw [h.previous] at hsame
      exact (not_ne_iff.1 hsame).symm
    refine ⟨rfl, hle, ?_⟩
    rw [hsame]
    exact h.minimum.imp id fun ⟨k', hk', hrest⟩ => ⟨k', hsub k' hk', hrest⟩

theorem findMinimum_spec (nodes : ℕ) (T : Tables) (i j : ℕ) :
    Found T.dist i j (List.range nodes) (findMinimum nodes T i j) := by
  induction nodes with
  | zero => exact ⟨rfl, forall_mem_nil _, .inl rfl⟩
  | succ n ih =>
    unfold findMinimum at ih ⊢
    rw [range_succ, foldl_append]
    exact ih.next n

end Entry

/-! ## Rounds -/

variable {dist : Matrix} {T T' : Topology} {src dest : ℕ} {R : Round} {entry : LinkEntry}
  {mach : MachineID} {w : ℤ}

section Rounds

variable {edge : ℕ → ℕ → ℤ → Prop} (hpos : ∀ u v w, edge u v w → 0 < w)

def total (nodes : ℕ) (dist : Matrix) : ℕ :=
  ∑ i ∈ Finset.range nodes, ∑ j ∈ Finset.range nodes, (dist i j).toNat

variable {nodes : ℕ}

theorem total_set_lt {i j : ℕ} {a : ℤ} (hi : i < nodes) (hj : j < nodes)
    (ha : 0 ≤ a) (hlt : a < dist i j) : total nodes (dist.set i j a) < total nodes dist := by
  have hle : ∀ i' j', ((dist.set i j a) i' j').toNat ≤ (dist i' j').toNat := by
    intro i' j'
    unfold Matrix.set
    split
    case isTrue h =>
      rcases h with ⟨rfl, rfl⟩
      exact Int.toNat_le_toNat hlt.le
    case isFalse => exact le_rfl
  apply Finset.sum_lt_sum
  · intro i' _
    exact Finset.sum_le_sum fun j' _ => hle i' j'
  · refine ⟨i, Finset.mem_range.2 hi,
      Finset.sum_lt_sum (fun j' _ => hle i j') ⟨j, Finset.mem_range.2 hj, ?_⟩⟩
    rw [Matrix.set, if_pos ⟨rfl, rfl⟩]
    omega

/-- The state in a round that began with `dist`, with the entries `ps` still to come. -/
structure InRound (edge : ℕ → ℕ → ℤ → Prop) (nodes : ℕ) (dist : Matrix) (R : Round) : Prop where
  estimate : Estimate edge infiniteLatency R.tables.dist
  unchanged : R.change = false → R.tables.dist = dist
  changed : R.change = true → total nodes R.tables.dist < total nodes dist

include hpos

/-- One entry: it is minimal and stays, or it is lowered. -/
theorem InRound.extendEntry (hR : InRound edge nodes dist R) {p : ℕ × ℕ}
    (hp : p.1 < nodes ∧ p.2 < nodes) :
    ∃ R', Ruby.extendEntry nodes R p = some R' ∧ InRound edge nodes dist R' ∧
      (R'.change = false → R.change = false ∧
      ∀ k < nodes, dist p.1 p.2 ≤ dist p.1 k + dist k p.2) := by
  have hfound := findMinimum_spec nodes R.tables p.1 p.2
  unfold Ruby.extendEntry
  rcases hfound.minimum with heq | ⟨k, hk, hswitch, hmin, hlt⟩
  · rw [if_neg (not_not_intro heq.symm)]
    refine ⟨_, rfl, { hR with }, fun hfalse => ⟨hfalse, fun k hk => ?_⟩⟩
    rw [← hR.unchanged hfalse, ← heq]
    exact hfound.le_seen k (mem_range.2 hk)
  · rw [if_pos hlt.ne', hswitch]
    dsimp only
    rw [if_pos (mem_range.1 hk), hmin]
    rw [hmin] at hlt
    have hinf : (0 : ℤ) ≤ infiniteLatency := by decide
    have hnonneg : 0 ≤ R.tables.dist p.1 k + R.tables.dist k p.2 :=
      add_nonneg (hR.estimate.nonneg hpos hinf _ _) (hR.estimate.nonneg hpos hinf _ _)
    refine ⟨_, rfl, ⟨?_, nofun, fun _ => ?_⟩, nofun⟩
    · exact hR.estimate.relax hpos hinf hlt (if_pos ⟨rfl, rfl⟩) fun u v huv => if_neg huv
    · refine lt_of_lt_of_le (total_set_lt hp.1 hp.2 hnonneg hlt) ?_
      cases hc : R.change with
      | false => rw [hR.unchanged hc]
      | true => exact (hR.changed hc).le

theorem round_spec {ps : List (ℕ × ℕ)} (hps : ∀ p ∈ ps, p.1 < nodes ∧ p.2 < nodes)
    (hR : InRound edge nodes dist R) :
    ∃ R', ps.foldlM (extendEntry nodes) R = some R' ∧ InRound edge nodes dist R' ∧
      (R'.change = false → R.change = false ∧
        ∀ p ∈ ps, ∀ k < nodes, dist p.1 p.2 ≤ dist p.1 k + dist k p.2) := by
  induction ps generalizing R with
  | nil => exact ⟨R, rfl, hR, fun h => ⟨h, forall_mem_nil _⟩⟩
  | cons p ps ih =>
    rcases hR.extendEntry hpos (hps p mem_cons_self) with ⟨R₁, hstep, hR₁, hmin⟩
    rcases ih (fun q hq => hps q (mem_cons_of_mem p hq)) hR₁ with ⟨R', hrun, hR', hquiet⟩
    refine ⟨R', ?_, hR', fun hfalse => ?_⟩
    · rw [foldlM_cons, hstep]
      exact hrun
    · rcases hquiet hfalse with ⟨hR₁false, hrest⟩
      rcases hmin hR₁false with ⟨hRfalse, hfirst⟩
      exact ⟨hRfalse, forall_mem_cons.2 ⟨hfirst, hrest⟩⟩

/-- The loop ends, with an estimate that cannot be improved. -/
theorem extendShortestPath_spec (T : Tables) (hT : Estimate edge infiniteLatency T.dist) :
    ∃ fuel₀ T', (∀ fuel, fuel₀ ≤ fuel → extendShortestPath nodes fuel T = some T') ∧
      Estimate edge infiniteLatency T'.dist ∧ Triangle (fun v => v < nodes) T'.dist := by
  -- by induction on the sum of all entries
  induction hn : total nodes T.dist using Nat.strong_induction_on generalizing T with
  | _ n ih =>
    have hstart : InRound edge nodes T.dist { tables := T, change := false } :=
      ⟨hT, fun _ => rfl, fun h => by cases h⟩
    have hpairs : ∀ p ∈ pairs nodes, p.1 < nodes ∧ p.2 < nodes := fun p hp => mem_pairs.1 hp
    rcases round_spec hpos hpairs hstart with ⟨R, hround, hR, hquiet⟩
    cases hc : R.change with
    | false =>
      refine ⟨1, R.tables, fun fuel hfuel => ?_, hR.estimate, ?_⟩
      · obtain ⟨fuel, rfl⟩ : ∃ f, fuel = f + 1 := ⟨fuel - 1, by omega⟩
        rw [extendShortestPath, hround]
        simp [hc]
      · intro i j k hi hj hk
        rw [hR.unchanged hc]
        exact (hquiet hc).2 (i, j) (mem_pairs.2 ⟨hi, hj⟩) k hk
    | true =>
      have hless := hR.changed hc
      rcases ih _ (hn ▸ hless) R.tables hR.estimate rfl with ⟨fuel₀, T', hrun, hT'⟩
      refine ⟨fuel₀ + 1, T', fun fuel hfuel => ?_, hT'⟩
      obtain ⟨fuel, rfl⟩ : ∃ f, fuel = f + 1 := ⟨fuel - 1, by omega⟩
      rw [extendShortestPath, hround]
      simpa [hc] using hrun fuel (by omega)

end Rounds

/-! ## Links of a topology -/

namespace Topology

def edge (T : Topology) (src dest : ℕ) (weight : ℤ) : Prop :=
  ∃ entry, ((src, dest), entry) ∈ T.linkMap ∧ entry.link.weight = weight

/-- The switches that a link joins, for `m` nodes: a node and a router, a router and a node, or two
routers. -/
def Ends (m src dest : ℕ) : Prop :=
  (src < m ∧ 2 * m ≤ dest) ∨ (2 * m ≤ src ∧ m ≤ dest ∧ dest < 2 * m) ∨
    (2 * m ≤ src ∧ 2 * m ≤ dest ∧ src ≠ dest)

theorem Ends.ne {m : ℕ} (h : Ends m src dest) : src ≠ dest := by
  unfold Ends at h
  omega

structure Wellformed (T : Topology) : Prop where
  nodup : (T.linkMap.map Prod.fst).Nodup
  ends : ∀ l ∈ T.linkMap, Ends T.nodes l.1.1 l.1.2
  positive : ∀ l ∈ T.linkMap, 0 < l.2.link.weight

theorem addLink_spec (hT : T.Wellformed)
    (hends : Ends T.nodes src dest) (hweight : 0 < entry.link.weight)
    (h : T.addLink src dest entry = some T') : T'.Wellformed ∧ T'.nodes = T.nodes := by
  rcases Option.ite_none_right_eq_some.1 h with ⟨-, h⟩
  cases h
  refine ⟨⟨?_, ?_, ?_⟩, rfl⟩
  · -- the key is new after the filter
    rw [map_append, nodup_append]
    refine ⟨(filter_sublist.map Prod.fst).nodup hT.nodup, nodup_singleton _, ?_⟩
    intro k hk k' hk'
    rcases mem_map.1 hk with ⟨l, hl, rfl⟩
    rw [mem_singleton.1 hk']
    simpa using (mem_filter.1 hl).2
  · exact forall_mem_append.2
      ⟨fun l hl => hT.ends l (mem_filter.1 hl).1, forall_mem_singleton.2 hends⟩
  · exact forall_mem_append.2
      ⟨fun l hl => hT.positive l (mem_filter.1 hl).1, forall_mem_singleton.2 hweight⟩

def OneExternalLink (M : MachineTypes) (extLinks : List BasicExtLink) : Prop :=
  (extLinks.map BasicExtLink.extNode).Perm M.machines

end Topology

/-! ## Machines -/

namespace MachineTypes

variable (M : MachineTypes)

theorem baseNumber_succ (m : ℕ) : M.baseNumber (m + 1) = M.baseNumber m + M.baseCount m := by
  unfold baseNumber baseCount
  rw [take_add_one, sum_append]
  congr 1
  cases h : M.counts[m]? with
  | none => simp [getD, h]
  | some c => simp [getD, h]

/-- The controllers of the first machines. -/
def machinesUpTo (n : ℕ) : List MachineID :=
  (List.range n).flatMap fun m => (List.range (M.baseCount m)).map fun i => ⟨m, i⟩

theorem machinesUpTo_succ (n : ℕ) : M.machinesUpTo (n + 1) =
    M.machinesUpTo n ++ (List.range (M.baseCount n)).map fun i => ⟨n, i⟩ := by
  unfold machinesUpTo
  rw [range_succ, flatMap_append, flatMap_singleton]

theorem length_machinesUpTo (n : ℕ) : (M.machinesUpTo n).length = M.baseNumber n := by
  induction n with
  | zero => rfl
  | succ n ih =>
    rw [machinesUpTo_succ, length_append, ih, baseNumber_succ, length_map, length_range]

/-- The machines are numbered consecutively. -/
theorem mem_zipIdx_machinesUpTo (n : ℕ) (mach : MachineID) (d : ℕ) :
    (mach, d) ∈ (M.machinesUpTo n).zipIdx ↔
      mach.type < n ∧ mach.num < M.baseCount mach.type ∧ d = M.baseNumber mach.type + mach.num := by
  induction n with
  | zero => simp [machinesUpTo]
  | succ n ih =>
    rw [machinesUpTo_succ, zipIdx_append, mem_append, ih, length_machinesUpTo,
      mk_mem_zipIdx_iff_le_and_getElem?_sub]
    -- the controllers of machine `n` come after all others
    have hlast : (M.baseNumber n ≤ d ∧
          ((range (M.baseCount n)).map fun i => (⟨n, i⟩ : MachineID))[d - M.baseNumber n]? =
          some mach) ↔
        mach.type = n ∧ mach.num < M.baseCount n ∧ d = M.baseNumber n + mach.num := by
      rcases mach with ⟨type, num⟩
      simp only [getElem?_map, Option.map_eq_some_iff, getElem?_eq_some_iff, length_range,
        getElem_range, MachineID.mk.injEq]
      constructor
      · rintro ⟨hle, i, ⟨hlt, rfl⟩, rfl, rfl⟩
        exact ⟨rfl, hlt, by omega⟩
      · rintro ⟨rfl, hlt, rfl⟩
        exact ⟨by omega, num, ⟨by omega, by omega⟩, rfl, rfl⟩
    rw [Nat.zero_add, hlast]
    constructor
    · rintro (⟨hlt, hrest⟩ | ⟨rfl, hrest⟩)
      · exact ⟨by omega, hrest⟩
      · exact ⟨by omega, hrest⟩
    · rintro ⟨hlt, hrest⟩
      rcases Nat.lt_succ_iff_lt_or_eq.1 hlt with hlt | rfl
      · exact .inl ⟨hlt, hrest⟩
      · exact .inr ⟨rfl, hrest⟩

/-- The output switch of a controller, with the nodes counted as the external links are. -/
def node (m : ℕ) (mach : MachineID) : ℕ := M.baseNumber mach.type + mach.num + m

theorem mem_machines (mach : MachineID) :
    mach ∈ M.machines ↔ mach.type < M.num ∧ mach.num < M.baseCount mach.type := by
  unfold machines
  rcases mach with ⟨type, num⟩
  simp

theorem number_lt (h : mach ∈ M.machines) :
    M.baseNumber mach.type + mach.num < M.baseNumber M.num := by
  rcases (M.mem_machines mach).1 h with ⟨htype, hnum⟩
  have hmem := (M.mem_zipIdx_machinesUpTo M.num mach _).2 ⟨htype, hnum, rfl⟩
  rw [mk_mem_zipIdx_iff_getElem?, getElem?_eq_some_iff] at hmem
  rcases hmem with ⟨hlt, -⟩
  rwa [length_machinesUpTo] at hlt

theorem mem_shortestPathToNode {next : ℕ} {weights : Matrix}
    (hmach : mach ∈ M.machines) : mach ∈ shortestPathToNode M src next weights dist ↔
      weights src next + dist next (M.node (M.baseNumber M.num) mach) =
        dist src (M.node (M.baseNumber M.num) mach) := by
  have hzip : ∀ d, (mach, d) ∈ M.machines.zipIdx ↔ d = M.baseNumber mach.type + mach.num := by
    intro d
    rcases (M.mem_machines mach).1 hmach with ⟨htype, hnum⟩
    have h := M.mem_zipIdx_machinesUpTo M.num mach d
    exact h.trans ⟨fun h => h.2.2, fun h => ⟨htype, hnum, h⟩⟩
  unfold shortestPathToNode
  simp only [mem_map, mem_filter, linkIsShortestPathToNode, decide_eq_true_eq, Prod.exists,
    exists_and_right, exists_eq_right, hzip]
  constructor
  · rintro ⟨d, rfl, htest⟩
    exact htest
  · intro htest
    exact ⟨_, rfl, htest⟩

end MachineTypes

/-! ## The matrix of weights -/

namespace Topology

/-- A topology with one node for each controller. -/
structure Numbered (M : MachineTypes) (T : Topology) : Prop where
  wellformed : T.Wellformed
  nodes_eq : T.nodes = M.baseNumber M.num

variable {M : MachineTypes}

theorem addExtLink_spec {l : BasicExtLink} (hT : Numbered M T)
    (hmach : l.extNode ∈ M.machines) (hweight : 0 < l.link.weight)
    (h : addExtLink M T l = some T') : Numbered M T' := by
  have hlt := M.number_lt hmach
  have hnodes := hT.nodes_eq
  rcases Option.bind_eq_some_iff.1 h with ⟨T₁, hin, hout⟩
  have hinEnds : Ends T.nodes (M.baseNumber l.extNode.type + l.extNode.num)
      (l.intNode + 2 * T.nodes) :=
    .inl ⟨by omega, by omega⟩
  rcases addLink_spec hT.wellformed hinEnds hweight hin with ⟨hT₁, hnodes₁⟩
  have houtEnds : Ends T₁.nodes (l.intNode + 2 * T.nodes)
      (M.baseNumber l.extNode.type + l.extNode.num + T.nodes) := by
    exact .inr (.inl ⟨by omega, by omega, by omega⟩)
  rcases addLink_spec hT₁ houtEnds hweight hout with ⟨hT', hnodes'⟩
  exact ⟨hT', hnodes'.trans (hnodes₁.trans hnodes)⟩

theorem addIntLink_spec {l : BasicIntLink} (hT : Numbered M T)
    (hne : l.srcNode ≠ l.dstNode) (hweight : 0 < l.link.weight) (h : addIntLink T l = some T') :
    Numbered M T' := by
  have hends : Ends T.nodes (l.srcNode + 2 * T.nodes) (l.dstNode + 2 * T.nodes) :=
    .inr (.inr ⟨by omega, by omega, by omega⟩)
  rcases addLink_spec hT.wellformed hends hweight h with ⟨hT', hnodes⟩
  exact ⟨hT', hnodes.trans hT.nodes_eq⟩

theorem make_numbered {numRouters : ℕ} {extLinks : List BasicExtLink}
    {intLinks : List BasicIntLink} (hT : make M numRouters extLinks intLinks = some T)
    (hone : OneExternalLink M extLinks) (hext : ∀ l ∈ extLinks, 0 < l.link.weight)
    (hint : ∀ l ∈ intLinks, l.srcNode ≠ l.dstNode ∧ 0 < l.link.weight) : Numbered M T := by
  have hlength : extLinks.length = M.baseNumber M.num := by
    calc extLinks.length = (extLinks.map BasicExtLink.extNode).length := (length_map _).symm
      _ = M.machines.length := hone.length_eq
      _ = M.baseNumber M.num := M.length_machinesUpTo M.num
  rcases Option.ite_none_right_eq_some.1 hT with ⟨-, hT⟩
  rcases Option.bind_eq_some_iff.1 hT with ⟨T₁, hexts, hints⟩
  have hempty : Numbered M { nodes := extLinks.length, numberOfSwitches := numRouters } :=
    ⟨⟨nodup_nil, forall_mem_nil _, forall_mem_nil _⟩, hlength⟩
  have hT₁ : Numbered M T₁ := by
    refine foldlM_invariant (fun l hl T T' hT hstep => ?_) hempty hexts
    have hmach : l.extNode ∈ M.machines := hone.subset (mem_map_of_mem hl)
    exact addExtLink_spec hT hmach (hext l hl) hstep
  refine foldlM_invariant (fun l hl T T' hT hstep => ?_) hT₁ hints
  exact addIntLink_spec hT (hint l hl).1 (hint l hl).2 hstep

variable {links : List ((ℕ × ℕ) × LinkEntry)}

theorem foldl_set_of_not_mem (value : LinkEntry → ℤ) {i j : ℕ}
    (h : (i, j) ∉ links.map Prod.fst) (m : Matrix) :
    links.foldl (fun m l => m.set l.1.1 l.1.2 (value l.2)) m i j = m i j := by
  induction links generalizing m with
  | nil => rfl
  | cons l links ih =>
    rw [map_cons, mem_cons, not_or] at h
    rw [foldl_cons, ih h.2]
    refine if_neg fun heq => h.1 ?_
    rw [heq.1, heq.2]

theorem foldl_set_of_mem (value : LinkEntry → ℤ) {i j : ℕ}
    (hnodup : (links.map Prod.fst).Nodup) (h : ((i, j), entry) ∈ links) (m : Matrix) :
    links.foldl (fun m l => m.set l.1.1 l.1.2 (value l.2)) m i j = value entry := by
  induction links generalizing m with
  | nil => exact absurd h not_mem_nil
  | cons l links ih =>
    rw [map_cons, nodup_cons] at hnodup
    rw [foldl_cons]
    rcases mem_cons.1 h with rfl | h
    · rw [foldl_set_of_not_mem value hnodup.1]
      exact if_pos ⟨rfl, rfl⟩
    · exact ih hnodup.2 h _

variable {T : Topology}

theorem weight_of_edge (hT : T.Wellformed) (h : T.edge src dest w) :
    T.topologyWeights src dest = w := by
  rcases h with ⟨entry, hmem, rfl⟩
  exact foldl_set_of_mem (fun e => e.link.weight) hT.nodup hmem _

theorem edge_or_default (src dest : ℕ) : (∃ w, T.edge src dest w) ∨
    T.topologyWeights src dest = if src = dest then 0 else infiniteLatency := by
  by_cases h : (src, dest) ∈ T.linkMap.map Prod.fst
  · rcases mem_map.1 h with ⟨⟨key, entry⟩, hmem, rfl⟩
    exact .inl ⟨_, entry, hmem, rfl⟩
  · exact .inr (foldl_set_of_not_mem (fun e => e.link.weight) h _)

theorem edge_positive (hT : T.Wellformed) : ∀ u v w, T.edge u v w → 0 < w := by
  rintro u v w ⟨entry, hmem, rfl⟩
  exact hT.positive _ hmem

theorem estimate_topologyWeights (hT : T.Wellformed) :
    Estimate T.edge infiniteLatency T.topologyWeights := by
  constructor
  case self =>
    intro v
    rcases edge_or_default v v with ⟨w, entry, hmem, -⟩ | hdefault
    · exact absurd rfl (hT.ends _ hmem).ne
    · rw [hdefault, if_pos rfl]
  case le_edge =>
    intro u v w hedge
    exact (weight_of_edge hT hedge).le
  case walk =>
    intro u v
    rcases edge_or_default u v with ⟨w, hedge⟩ | hdefault
    · have hwalk : Walk T.edge u v (w + 0) := Walk.cons hedge (Walk.nil v)
      rw [weight_of_edge hT hedge]
      exact .inl (by simpa using hwalk)
    · rw [hdefault]
      split
      case isTrue heq =>
        subst heq
        exact .inl (Walk.nil u)
      case isFalse => exact .inr le_rfl

theorem le_maxSwitchId {l : (ℕ × ℕ) × LinkEntry} (h : l ∈ T.linkMap) :
    l.1.1 ≤ T.maxSwitchId ∧ l.1.2 ≤ T.maxSwitchId := by
  have hgen : ∀ (links : List ((ℕ × ℕ) × LinkEntry)) (m : ℕ),
      m ≤ links.foldl (fun m l => max (max m l.1.1) l.1.2) m ∧
        ∀ l ∈ links, l.1.1 ≤ links.foldl (fun m l => max (max m l.1.1) l.1.2) m ∧
          l.1.2 ≤ links.foldl (fun m l => max (max m l.1.1) l.1.2) m := by
    intro links
    induction links with
    | nil => exact fun m => ⟨le_rfl, forall_mem_nil _⟩
    | cons k links ih =>
      intro m
      rcases ih (max (max m k.1.1) k.1.2) with ⟨hle, hrest⟩
      rw [foldl_cons]
      exact ⟨by omega, forall_mem_cons.2 ⟨⟨by omega, by omega⟩, hrest⟩⟩
  exact (hgen T.linkMap 0).2 l h

theorem edge_lt {u v : ℕ} (h : T.edge u v w) : u < T.maxSwitchId + 1 ∧ v < T.maxSwitchId + 1 := by
  rcases h with ⟨entry, hmem, -⟩
  rcases le_maxSwitchId hmem with ⟨hu, hv⟩
  exact ⟨Nat.lt_succ_of_le hu, Nat.lt_succ_of_le hv⟩

/-! ## The links that are made -/

theorem makeLink_spec (hends : Ends T.nodes src dest) (destinations : List MachineID) :
    ∃ l, T.makeLink src dest destinations = some l ∧ l.src = src ∧ l.dest = dest ∧
      l.routingTableEntry = destinations := by
  have hguard : (decide (2 * T.nodes ≤ src) || decide (2 * T.nodes ≤ dest)) = true := by
    rw [Bool.or_eq_true, decide_eq_true_iff, decide_eq_true_iff]
    unfold Ends at hends
    omega
  unfold makeLink
  rw [if_pos hguard]
  rcases hends with ⟨hsrc, _⟩ | ⟨hsrc, hdest, hdest'⟩ | ⟨hsrc, hdest, -⟩
  · rw [if_pos hsrc]
    exact ⟨_, rfl, rfl, rfl, rfl⟩
  · rw [if_neg (by omega), if_pos hdest', if_pos hdest]
    exact ⟨_, rfl, rfl, rfl, rfl⟩
  · have hboth : (decide (2 * T.nodes ≤ src) && decide (2 * T.nodes ≤ dest)) = true := by
      simp [hsrc, hdest]
    rw [if_neg (by omega), if_neg (by omega), if_pos hboth]
    exact ⟨_, rfl, rfl, rfl, rfl⟩

/-- A link is made from `src` to `dest`. -/
def Makes (T : Topology) (src dest : ℕ) : Prop :=
  0 < T.topologyWeights src dest ∧ T.topologyWeights src dest ≠ infiniteLatency

theorem Makes.edge (hT : T.Wellformed) (h : T.Makes src dest) :
    T.edge src dest (T.topologyWeights src dest) := by
  rcases edge_or_default src dest with ⟨w, hedge⟩ | hdefault
  · rw [weight_of_edge hT hedge]
    exact hedge
  · -- without a link the weight is zero or infinite
    rcases h with ⟨hpos, hne⟩
    rw [hdefault] at hpos hne
    split at hpos
    case isTrue => exact absurd hpos (lt_irrefl 0)
    case isFalse hij => exact absurd (if_neg hij) hne

/-- A link of finite weight, with the set of `shortestPathToNode`. -/
def Right (T : Topology) (M : MachineTypes) (dist : Matrix) (l : MadeLink) : Prop :=
  T.Makes l.src l.dest ∧ l.routingTableEntry =
    shortestPathToNode M l.src l.dest T.topologyWeights dist

/-- `createLinks` makes exactly the links of finite weight, with the sets of
`shortestPathToNode`. -/
theorem createLinks_spec (M : MachineTypes) (hT : T.Wellformed) {fuel : ℕ}
    (hdist : T.dist fuel = some dist) :
    ∃ made, T.createLinks M fuel = some made ∧ (∀ l ∈ made, T.Right M dist l) ∧
      ∀ src dest, src < T.maxSwitchId + 1 → dest < T.maxSwitchId + 1 → T.Makes src dest →
        ∃ l ∈ made, l.src = src ∧ l.dest = dest := by
  have hloop : ∀ (ps : List (ℕ × ℕ)) (acc : List MadeLink), (∀ l ∈ acc, T.Right M dist l) →
      ∃ made, ps.foldlM (fun made p =>
          if 0 < T.topologyWeights p.1 p.2 && T.topologyWeights p.1 p.2 ≠ infiniteLatency then
            (T.makeLink p.1 p.2 (shortestPathToNode M p.1 p.2 T.topologyWeights dist)).map fun l =>
              made ++ [l]
          else some made) acc = some made ∧
        (∀ l ∈ made, T.Right M dist l) ∧ (∀ l ∈ acc, l ∈ made) ∧
            ∀ p ∈ ps, T.Makes p.1 p.2 → ∃ l ∈ made, l.src = p.1 ∧ l.dest = p.2 := by
    intro ps
    induction ps with
    | nil =>
      exact fun acc hacc => ⟨acc, rfl, hacc, fun _ h => h, forall_mem_nil _⟩
    | cons p ps ih =>
      intro acc hacc
      rw [foldlM_cons]
      have hguard : (decide (0 < T.topologyWeights p.1 p.2) &&
          decide (T.topologyWeights p.1 p.2 ≠ infiniteLatency)) = true ↔
            T.Makes p.1 p.2 := by simp [Makes]
      by_cases hmakes : T.Makes p.1 p.2
      · rcases hmakes.edge hT with ⟨entry, hmem, -⟩
        rcases makeLink_spec (hT.ends _ hmem)
          (shortestPathToNode M p.1 p.2 T.topologyWeights dist) with ⟨l, hl, hsrc, hdest, hentry⟩
        have hright : T.Right M dist l := by
          rw [Right, hsrc, hdest]
          exact ⟨hmakes, hentry⟩
        have hacc' : ∀ l' ∈ acc ++ [l], T.Right M dist l' :=
          forall_mem_append.2 ⟨hacc, forall_mem_singleton.2 hright⟩
        rcases ih (acc ++ [l]) hacc' with ⟨made, hrun, hmade, hkeep, hall⟩
        rw [if_pos (hguard.2 hmakes), hl]
        refine ⟨made, hrun, hmade, fun l' hl' => hkeep l' (mem_append_left _ hl'), ?_⟩
        exact forall_mem_cons.2 ⟨fun _ => ⟨l, hkeep l mem_concat_self, hsrc, hdest⟩, hall⟩
      · rcases ih acc hacc with ⟨made, hrun, hmade, hkeep, hall⟩
        rw [if_neg (mt hguard.1 hmakes)]
        exact ⟨made, hrun, hmade, hkeep, forall_mem_cons.2 ⟨fun hp => absurd hp hmakes, hall⟩⟩
  rcases hloop (pairs (T.maxSwitchId + 1)) [] (forall_mem_nil _) with
    ⟨made, hrun, hmade, -, hall⟩
  refine ⟨made, ?_, hmade, fun src dest hsrc hdest => hall (src, dest) (mem_pairs.2 ⟨hsrc, hdest⟩)⟩
  unfold createLinks
  rw [hdist]
  exact hrun

/-! ## Routes -/

/-- The tables send messages for `mach` from `src` to `dest`. -/
def Routes (made : List MadeLink) (mach : MachineID) (src dest : ℕ) : Prop :=
  ∃ l ∈ made, l.src = src ∧ l.dest = dest ∧ mach ∈ l.routingTableEntry

/-- The tables are right for the controller `mach` as seen from the switch `s`: its distance is
known, some link leads on to it, and whoever follows such links comes closer with every step and
arrives. -/
structure Routed (T : Topology) (dist : Matrix) (made : List MadeLink) (mach : MachineID)
    (target s : ℕ) : Prop where
  distance : IsDistance T.edge s target (dist s target)
  leads : s ≠ target → ∃ n, Routes made mach s n
  closer : ∀ steps, List.IsChain (Routes made mach) (s :: steps) →
    (s :: steps).Pairwise fun u v => dist v target < dist u target
  short : ∀ steps, List.IsChain (Routes made mach) (s :: steps) → steps.length ≤ dist s target
  arrives : ∀ steps, List.IsChain (Routes made mach) (s :: steps) →
    ∀ last ∈ (s :: steps).getLast?, (∀ n, ¬ Routes made mach last n) → last = target

def twoMachines : MachineTypes := ⟨[2]⟩

/-- Each router has one controller. -/
def twoExtLinks : List BasicExtLink := [⟨⟨0, 0⟩, 0, {}⟩, ⟨⟨0, 1⟩, 1, {}⟩]

def oneIntLink : List BasicIntLink := [⟨0, 1, { weight := 3 }, "East", "West"⟩]

def twoRouters : Topology where
  nodes := 2
  numberOfSwitches := 2
  linkMap :=
    [((0, 4), ⟨{}, "", ""⟩), ((4, 2), ⟨{}, "", ""⟩), ((1, 5), ⟨{}, "", ""⟩), ((5, 3), ⟨{}, "", ""⟩),
      ((4, 5), ⟨{ weight := 3 }, "East", "West"⟩)]

/-- Links lead down, by their weight at least. -/
def height : ℕ → ℤ
  | 0 => 5
  | 4 => 4
  | 1 => 2
  | 5 => 1
  | _ => 0

theorem twoRouters_walk {s t : ℕ} {l : ℤ} (h : Walk twoRouters.edge s t l) : l ≤ height s := by
  have hdown : ∀ link ∈ twoRouters.linkMap, link.2.link.weight + height link.1.2 ≤
    height link.1.1 := by decide
  induction h with
  | nil v =>
    unfold height
    split <;> decide
  | cons hedge _ ih =>
    rcases hedge with ⟨entry, hmem, rfl⟩
    have hstep := hdown _ hmem
    linarith

end Topology

end EnocGem5.Ruby
