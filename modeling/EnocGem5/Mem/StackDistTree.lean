import EnocGem5.Lib.Dyadic
import EnocGem5.Mem.StackDistCalc

/-!
# StackDistTree — the tree of partial sums and the walks to its root

`NodeOk S n d i j node` says what the node `j` of the layer `i + 1` is, if `S` is the set of live
leaves, `n` leaves were added so far and the root is in the layer `d`: its sums count the live
leaves of its halves, which are the blocks `2 * j` and `2 * j + 1` of the level `i`, and a half
whose discard flag is set is full of leaves that are gone.

A walk from a leaf `k` to the root changes one node of each layer, the one above `k`.
`updateSum_spec` says that after the walk the tree is right for the set with `k` added or removed,
which nodes were deleted, and what the walk adds up.
-/

namespace EnocGem5.StackDist

open Lib Function Option

/-! ## Nodes of the tree -/

namespace Tree

variable {tree : Tree} {level l j : ℕ} {node : Node} {o : Option Node}

@[simp] theorem set_layer : (tree.set level j o) level = update (tree level) j o := by
  rw [set, update_self]

theorem set_of_ne (hl : l ≠ level) : (tree.set level j o) l = tree l := by
  rw [set, update_of_ne hl]

theorem deref_eq (hnode : tree level j = some node) : tree.deref level (some j) = .ok node := by
  simp only [deref, hnode]
  rfl

theorem pointer_eq (hnode : (tree level j).isSome) : tree.pointer level j = some j := by
  obtain ⟨node, hnode⟩ := isSome_iff_exists.1 hnode
  rw [pointer, hnode, map_some]

end Tree

theorem oneShifted_eq {i : ℕ} (hi : i < 31) : oneShifted i = .ok (2 ^ i) := by
  rw [oneShifted, if_pos hi]
  rfl

structure NodeOk (S : Finset ℕ) (n d i j : ℕ) (node : Node) : Prop where
  nodeIndex : node.nodeIndex = j
  sumLeft : node.sumLeft = block S i (2 * j)
  sumRight : node.sumRight = block S i (2 * j + 1)
  parent : node.parent = if i + 1 = d then none else some (j / 2)
  isLeftNode : node.isLeftNode = decide (j % 2 = 0)
  discardLeft : node.discardLeft = true → 2 * j < n / 2 ^ i ∧ block S i (2 * j) = 0
  discardRight : node.discardRight = true → 2 * j + 1 < n / 2 ^ i ∧ block S i (2 * j + 1) = 0

/-- The set `S'` is `S` with `k` added or removed, and only a new leaf is added. -/
structure Change (S S' : Finset ℕ) (n k : ℕ) : Prop where
  other : ∀ m, m ≠ k → (m ∈ S' ↔ m ∈ S)
  fresh : k ∈ S' → n ≤ k

variable {S S' : Finset ℕ} {n n' d i j k sum above dist level : ℕ} {node : Node}
  {discard verifyStack : Bool} {layer : ℕ → Option Node} {tree : Tree}

theorem NodeOk.mono (h : NodeOk S n d i j node) (hn : n ≤ n') : NodeOk S n' d i j node where
  __ := h
  discardLeft hflag := ⟨lt_of_lt_of_le (h.discardLeft hflag).1 (Nat.div_le_div_right hn),
    (h.discardLeft hflag).2⟩
  discardRight hflag := ⟨lt_of_lt_of_le (h.discardRight hflag).1 (Nat.div_le_div_right hn),
    (h.discardRight hflag).2⟩

theorem NodeOk.sum_eq (h : NodeOk S n d i j node) :
    node.sumLeft + node.sumRight = block S (i + 1) j := by
  rw [h.sumLeft, h.sumRight, block_succ]

/-- The panics of `updateSum` cannot happen. -/
theorem NodeOk.checkSums_eq (h : NodeOk S n d i j node) (hi : i < 31) :
    node.checkSums verifyStack (i + 1) = .ok () := by
  have hleft : ¬ node.sumLeft > 2 ^ i := not_lt.2 (h.sumLeft ▸ block_le)
  have hright : ¬ node.sumRight > 2 ^ i := not_lt.2 (h.sumRight ▸ block_le)
  cases verifyStack with
  | false => rfl
  | true =>
    simp only [Node.checkSums, Nat.add_sub_cancel, oneShifted_eq hi, if_true]
    change (if node.sumLeft > 2 ^ i then _ else _) = _
    rw [if_neg hleft]
    change (if node.sumRight > 2 ^ i then _ else _) = _
    rw [if_neg hright]
    rfl

/-- Blocks without `k` have the same members before and after. -/
theorem Change.block_eq (hc : Change S S' n k) (hj : k / 2 ^ i ≠ j) :
    block S' i j = block S i j := by
  apply block_congr
  intro m hm
  apply hc.other
  rintro rfl
  exact hj hm

/-- A block that is full of leaves that are gone stays so. -/
theorem Change.block_eq_zero (hc : Change S S' n k) (hfull : j < n / 2 ^ i)
    (hzero : block S i j = 0) : block S' i j = 0 := by
  by_cases hk : k / 2 ^ i = j
  · rw [Lib.block_eq_zero] at hzero ⊢
    intro m hm hmj
    by_cases hmk : m = k
    · -- a new leaf would be past the block
      subst hmk
      have hle : n / 2 ^ i ≤ m / 2 ^ i := Nat.div_le_div_right (hc.fresh hm)
      omega
    · exact hzero m ((hc.other m hmk).1 hm) hmj
  · rw [hc.block_eq hk, hzero]

theorem NodeOk.other (h : NodeOk S n d i j node) (hc : Change S S' n k) (hj : j ≠ k / 2 ^ (i + 1)) :
    NodeOk S' n d i j node := by
  rw [div_two_pow_succ] at hj
  have hleft : block S' i (2 * j) = block S i (2 * j) := hc.block_eq (by omega)
  have hright : block S' i (2 * j + 1) = block S i (2 * j + 1) := hc.block_eq (by omega)
  exact
    { nodeIndex := h.nodeIndex
      sumLeft := hleft ▸ h.sumLeft
      sumRight := hright ▸ h.sumRight
      __ := h
      discardLeft := hleft ▸ h.discardLeft
      discardRight := hright ▸ h.discardRight }

/-- The node above `k`, after `updateSum` has come from below. -/
theorem NodeOk.updated (h : NodeOk S n d i (k / 2 ^ (i + 1)) node) (hc : Change S S' n k)
    (hdiscard : discard = true → k / 2 ^ i < n / 2 ^ i) :
    NodeOk S' n d i (k / 2 ^ (i + 1))
      (node.updated (decide (k / 2 ^ i % 2 = 0)) (block S' i (k / 2 ^ i)) discard) := by
  -- the new flag says no more than the old one, or that the block below is full and empty now
  have hflag : ∀ {flag : Bool} {c : ℕ}, k / 2 ^ i = c →
      (flag = true → c < n / 2 ^ i ∧ block S i c = 0) →
      (flag || (discard && block S' i c == 0)) = true → c < n / 2 ^ i ∧ block S' i c = 0 := by
    rintro flag c rfl hold hnew
    rcases Bool.or_eq_true_iff.1 hnew with hnew | hnew
    · exact ⟨(hold hnew).1, hc.block_eq_zero (hold hnew).1 (hold hnew).2⟩
    · rw [Bool.and_eq_true, beq_iff_eq] at hnew
      exact ⟨hdiscard hnew.1, hnew.2⟩
  rw [div_two_pow_succ] at h ⊢
  by_cases heven : k / 2 ^ i % 2 = 0
  · have hk : k / 2 ^ i = 2 * (k / 2 ^ i / 2) := by omega
    have hright : block S' i (2 * (k / 2 ^ i / 2) + 1) = block S i (2 * (k / 2 ^ i / 2) + 1) :=
      hc.block_eq (by omega)
    rw [Node.updated, decide_eq_true heven, if_pos rfl]
    exact
      { nodeIndex := h.nodeIndex
        sumLeft := congrArg (block S' i) hk
        sumRight := hright ▸ h.sumRight
        __ := h
        discardLeft := fun hnew => hflag hk h.discardLeft (hk ▸ hnew)
        discardRight := hright ▸ h.discardRight }
  · have hk : k / 2 ^ i = 2 * (k / 2 ^ i / 2) + 1 := by omega
    have hleft : block S' i (2 * (k / 2 ^ i / 2)) = block S i (2 * (k / 2 ^ i / 2)) :=
      hc.block_eq (by omega)
    rw [Node.updated, decide_eq_false heven, if_neg Bool.false_ne_true]
    exact
      { nodeIndex := h.nodeIndex
        sumLeft := hleft ▸ h.sumLeft
        sumRight := congrArg (block S' i) hk
        __ := h
        discardLeft := hleft ▸ h.discardLeft
        discardRight := fun hnew => hflag hk h.discardRight (hk ▸ hnew) }

/-- Only nodes without live leaves are deleted, and only if they get no more leaves. -/
theorem NodeOk.of_isDiscarded (h : NodeOk S n d i j node)
    (hdel : node.isDiscarded sum discard = true) :
    discard = true ∧ i + 1 ≠ d ∧ j < n / 2 ^ (i + 1) ∧ block S (i + 1) j = 0 := by
  simp only [Node.isDiscarded, Bool.and_eq_true] at hdel
  obtain ⟨⟨⟨⟨hleft, hright⟩, hdiscard⟩, hparent⟩, -⟩ := hdel
  have hl := h.discardLeft hleft
  have hr := h.discardRight hright
  refine ⟨hdiscard, ?_, ?_, ?_⟩
  · intro hroot
    rw [h.parent, if_pos hroot] at hparent
    exact Bool.false_ne_true hparent
  · rw [div_two_pow_succ]
    omega
  · rw [block_succ, hl.2, hr.2]

/-! ## Walks -/

/-- A layer that a walk passes: its nodes are right, and it has a node above `k`. -/
structure OnPath (S : Finset ℕ) (n d i k : ℕ) (layer : ℕ → Option Node) : Prop where
  node : ∀ {j node}, layer j = some node → NodeOk S n d i j node
  above : (layer (k / 2 ^ (i + 1))).isSome

structure Touched (S' : Finset ℕ) (n d i : ℕ) (discard : Bool) (layer layer' : ℕ → Option Node) :
    Prop where
  node : ∀ {j node}, layer' j = some node → NodeOk S' n d i j node
  old : ∀ {j}, (layer' j).isSome → (layer j).isSome
  kept : ∀ {j}, (layer j).isSome →
    (layer' j).isSome ∨ discard = true ∧ i + 1 ≠ d ∧ j < n / 2 ^ (i + 1) ∧ block S' (i + 1) j = 0

def updatedLayer (layer : ℕ → Option Node) (j : ℕ) (node : Node) (sumFromBelow : ℕ)
    (discard : Bool) : ℕ → Option Node :=
  Function.update layer j (if node.isDiscarded sumFromBelow discard then none else some node)

theorem OnPath.touched (h : OnPath S n d i k layer) (hc : Change S S' n k)
    (hnode : NodeOk S' n d i (k / 2 ^ (i + 1)) node) :
    Touched S' n d i discard layer (updatedLayer layer (k / 2 ^ (i + 1)) node sum discard) where
  node {j node'} hj := by
    unfold updatedLayer at hj
    by_cases hk : j = k / 2 ^ (i + 1)
    · subst hk
      rw [update_self] at hj
      split at hj
      · cases hj
      · cases hj
        exact hnode
    · rw [update_of_ne hk] at hj
      exact (h.node hj).other hc hk
  old {j} hj := by
    by_cases hk : j = k / 2 ^ (i + 1)
    · exact hk ▸ h.above
    · rwa [updatedLayer, update_of_ne hk] at hj
  kept {j} hj := by
    by_cases hk : j = k / 2 ^ (i + 1)
    · subst hk
      rw [updatedLayer, update_self]
      by_cases hdel : node.isDiscarded sum discard = true
      · exact Or.inr (hnode.of_isDiscarded hdel)
      · rw [if_neg hdel]
        exact Or.inl rfl
    · rw [updatedLayer, update_of_ne hk]
      exact Or.inl hj

theorem Touched.mono {layer' : ℕ → Option Node} {discard' : Bool}
    (h : Touched S' n d i discard layer layer') (hdiscard : discard = true → discard' = true) :
    Touched S' n d i discard' layer layer' where
  __ := h
  kept hj := (h.kept hj).imp_right fun hgone => ⟨hdiscard hgone.1, hgone.2⟩

/-- What the walk adds up at one node. -/
theorem walk_step (hother : ∀ {j}, k / 2 ^ i ≠ j → block S' i j = block S i j)
    (hnode : NodeOk S n d i (k / 2 ^ (i + 1)) node) :
    (if decide (k / 2 ^ i % 2 = 0) = true then dist + node.sumRight else dist) + beyond S' (i + 1)
      (k / 2 ^ (i + 1)) = dist + beyond S' i (k / 2 ^ i) := by
  have hsplit : beyond S' i (k / 2 ^ i)
      = (if k / 2 ^ i % 2 = 0 then block S' i (k / 2 ^ i + 1) else 0) + beyond S' (i + 1)
      (k / 2 ^ (i + 1)) := by
    rw [div_two_pow_succ]
    exact beyond_eq
  have hj : k / 2 ^ (i + 1) = k / 2 ^ i / 2 := div_two_pow_succ k i
  rw [hsplit]
  by_cases heven : k / 2 ^ i % 2 = 0
  · have hsibling : node.sumRight = block S' i (k / 2 ^ i + 1) := by
      calc node.sumRight
          = block S i (2 * (k / 2 ^ (i + 1)) + 1) := hnode.sumRight
        _ = block S i (k / 2 ^ i + 1) := by rw [hj, show 2 * (k / 2 ^ i / 2) = k / 2 ^ i by omega]
        _ = block S' i (k / 2 ^ i + 1) := (hother (by omega)).symm
    rw [if_pos (decide_eq_true heven), if_pos heven, hsibling]
    omega
  · rw [if_neg (by simpa using heven), if_neg heven]
    omega

/-- One call of `updateSum`, in terms of the layer it changes. -/
theorem updateSum_succ {old : Node} {fromLeft : Bool}
    (hold : tree (level + 1) j = some old) (hcheck : old.checkSums verifyStack (level + 1) = .ok ())
    (hnode : old.updated fromLeft sum discard = node) (hindex : node.nodeIndex = j) :
    updateSum verifyStack (above + 1) tree (some j) fromLeft sum level dist discard =
      match node.parent with
      | none => .ok (update tree (level + 1) (updatedLayer (tree (level + 1)) j node sum discard),
          if fromLeft then dist + old.sumRight else dist)
      | some parent =>
        updateSum verifyStack above
          (update tree (level + 1) (updatedLayer (tree (level + 1)) j node sum discard))
          (some parent) node.isLeftNode (node.sumLeft + node.sumRight) (level + 1)
          (if fromLeft then dist + old.sumRight else dist) (node.isDiscarded sum discard) := by
  have htree : (if node.isDiscarded sum discard = true
        then (tree.set (level + 1) j (some node)).set (level + 1) node.nodeIndex none
        else tree.set (level + 1) j (some node))
      = update tree (level + 1) (updatedLayer (tree (level + 1)) j node sum discard) := by
    unfold updatedLayer Tree.set
    rw [hindex]
    by_cases hdel : node.isDiscarded sum discard = true
    · rw [if_pos hdel, if_pos hdel, update_self, update_idem, update_idem]
    · rw [if_neg hdel, if_neg hdel]
  rw [← htree]
  subst hnode
  simp only [updateSum, Tree.deref_eq hold]
  change (old.checkSums verifyStack (level + 1) >>= fun _ => _) = _
  rw [hcheck]
  rfl

/-- One call of `updateSum` on the way from `k` to the root. -/
theorem OnPath.updateSum_step (verifyStack : Bool) (above dist : ℕ)
    (h : OnPath S n d level k (tree (level + 1))) (hc : Change S S' n k) (hlevel : level < 31)
    (hdiscard : discard = true → k / 2 ^ level < n / 2 ^ level) :
    ∃ (layer' : ℕ → Option Node) (dist' : ℕ) (discard' : Bool),
      updateSum verifyStack (above + 1) tree (some (k / 2 ^ (level + 1)))
          (decide (k / 2 ^ level % 2 = 0)) (block S' level (k / 2 ^ level)) level dist discard
        = (if level + 1 = d then .ok (update tree (level + 1) layer', dist')
          else updateSum verifyStack above (update tree (level + 1) layer')
            (some (k / 2 ^ (level + 1 + 1))) (decide (k / 2 ^ (level + 1) % 2 = 0))
            (block S' (level + 1) (k / 2 ^ (level + 1))) (level + 1) dist' discard') ∧
      dist' + beyond S' (level + 1) (k / 2 ^ (level + 1)) = dist + beyond S' level (k / 2 ^ level) ∧
      Touched S' n d level discard (tree (level + 1)) layer' ∧
      (discard' = true → discard = true ∧ k / 2 ^ (level + 1) < n / 2 ^ (level + 1)) := by
  obtain ⟨old, hold⟩ := isSome_iff_exists.1 h.above
  have holdOk := h.node hold
  have hnode := holdOk.updated hc hdiscard
  obtain ⟨node, hupdated⟩ :
    ∃ node, old.updated (decide (k / 2 ^ level % 2 = 0)) (block S' level (k / 2 ^ level)) discard
    = node := ⟨_, rfl⟩
  rw [hupdated] at hnode
  refine ⟨updatedLayer (tree (level + 1)) (k / 2 ^ (level + 1)) node
    (block S' level (k / 2 ^ level)) discard, _,
    node.isDiscarded (block S' level (k / 2 ^ level)) discard, ?_, walk_step hc.block_eq holdOk,
    h.touched hc hnode, fun hdel => ?_⟩
  · rw [updateSum_succ hold (holdOk.checkSums_eq hlevel) hupdated hnode.nodeIndex, hnode.parent,
      hnode.isLeftNode, hnode.sum_eq]
    by_cases hroot : level + 1 = d
    · rw [if_pos hroot, if_pos hroot]
    · rw [if_neg hroot, if_neg hroot, div_two_pow_succ k (level + 1)]
  · have hgone := hnode.of_isDiscarded hdel
    exact ⟨hgone.1, hgone.2.2.1⟩

variable (verifyStack) in
/-- The walk of `updateSum`. Its sum is that of the live leaves to the right of `k`. -/
theorem updateSum_spec (hc : Change S S' n k) (hd : d ≤ 31) (htop : beyond S' d (k / 2 ^ d) = 0)
    (dist : ℕ) {discard : Bool} (hlevel : level + above = d) (hlt : level < d)
    (hpath : ∀ i, level ≤ i → i < d → OnPath S n d i k (tree (i + 1)))
    (hdiscard : discard = true → k / 2 ^ level < n / 2 ^ level) :
    ∃ tree', updateSum verifyStack above tree (some (k / 2 ^ (level + 1)))
          (decide (k / 2 ^ level % 2 = 0)) (block S' level (k / 2 ^ level)) level dist discard
        = .ok (tree', dist + beyond S' level (k / 2 ^ level)) ∧
      (∀ l, l ≤ level → tree' l = tree l) ∧
      ∀ i, level ≤ i → i < d → Touched S' n d i discard (tree (i + 1)) (tree' (i + 1)) := by
  induction above generalizing level dist tree discard with
  | zero => omega
  | succ above ih =>
    have hthis := hpath level le_rfl hlt
    obtain ⟨layer', dist', discard', hstep, hdist, htouched, hdiscard'⟩ :=
      hthis.updateSum_step verifyStack above dist hc (by omega) hdiscard
    by_cases hroot : level + 1 = d
    · -- the root: nothing is further to the right
      subst hroot
      rw [htop, Nat.add_zero] at hdist
      refine ⟨update tree (level + 1) layer', ?_, ?_, ?_⟩
      · rw [hstep, if_pos rfl, hdist]
      · intro l hl
        rw [update_of_ne (by omega)]
      · intro i hi hid
        have hlast : i = level := by omega
        subst hlast
        rw [update_self]
        exact htouched
    · -- the layers above are not changed by this call
      have hpath' : ∀ i, level + 1 ≤ i → i < d →
          OnPath S n d i k (update tree (level + 1) layer' (i + 1)) := by
        intro i hi hid
        rw [update_of_ne (by omega)]
        exact hpath i (by omega) hid
      obtain ⟨tree', hrun, hbelow, habove⟩ :=
        ih dist' (by omega) (by omega) hpath' fun hdel => (hdiscard' hdel).2
      refine ⟨tree', ?_, ?_, ?_⟩
      · rw [hstep, if_neg hroot, hrun, hdist]
      · intro l hl
        rw [hbelow l (by omega), update_of_ne (by omega)]
      · intro i hi hid
        by_cases hfirst : i = level
        · subst hfirst
          rw [hbelow (i + 1) le_rfl, update_self]
          exact htouched
        · have hlater := habove i (by omega) hid
          rw [update_of_ne (by omega)] at hlater
          exact hlater.mono fun hdel => (hdiscard' hdel).1

theorem getSum_spec (htop : beyond S d (k / 2 ^ d) = 0) (dist : ℕ)
    (hlevel : level + above = d) (hlt : level < d)
    (hpath : ∀ i, level ≤ i → i < d → OnPath S n d i k (tree (i + 1))) :
    getSum above tree (some (k / 2 ^ (level + 1))) (decide (k / 2 ^ level % 2 = 0)) dist level
      = .ok (dist + beyond S level (k / 2 ^ level)) := by
  induction above generalizing level dist with
  | zero => omega
  | succ above ih =>
    have hthis := hpath level le_rfl hlt
    obtain ⟨node, hnode⟩ := isSome_iff_exists.1 hthis.above
    have hok := hthis.node hnode
    simp only [getSum, Tree.deref_eq hnode]
    change (match node.parent with | none => _ | some parent => _) = _
    rw [← walk_step (fun _ => rfl) hok, hok.parent]
    by_cases hroot : level + 1 = d
    · subst hroot
      rw [if_pos rfl, htop]
      rfl
    · rw [if_neg hroot, hok.isLeftNode, ← div_two_pow_succ k (level + 1)]
      exact ih _ (by omega) (by omega) fun i hi hid => hpath i (by omega) hid

theorem climb_spec {steps : ℕ} (hi : i + 1 + steps = d)
    (hpath : ∀ i', i ≤ i' → i' < d → OnPath S n d i' k (tree (i' + 1))) :
    climb tree steps (i + 1) (some (k / 2 ^ (i + 1))) = .ok () := by
  induction steps generalizing i with
  | zero =>
    have hthis := hpath i le_rfl (by omega)
    obtain ⟨node, hnode⟩ := isSome_iff_exists.1 hthis.above
    have hparent : node.parent = none := by
      rw [(hthis.node hnode).parent, if_pos (by omega)]
    simp only [climb, Tree.deref_eq hnode]
    change (if node.parent.isSome = true then _ else _) = _
    rw [hparent]
    rfl
  | succ steps ih =>
    have hthis := hpath i le_rfl (by omega)
    obtain ⟨node, hnode⟩ := isSome_iff_exists.1 hthis.above
    simp only [climb, Tree.deref_eq hnode]
    change (match node.parent with | none => _ | some parent => _) = _
    rw [(hthis.node hnode).parent, if_neg (by omega), ← div_two_pow_succ k (i + 1)]
    exact ih (by omega) fun i' hi' hid => hpath i' (by omega) hid

end EnocGem5.StackDist
