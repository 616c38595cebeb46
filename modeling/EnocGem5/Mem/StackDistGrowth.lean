import EnocGem5.Mem.StackDistTree

/-!
# StackDistGrowth — new nodes for new leaves

Between calls the layers of the tree are `Settled`: there is a node above each live leaf, and above
the next leaf if it does not start a new block. When a leaf is to be added they have to be `Ready`:
there is a node above it in each layer, and it is the last node of the layer. `updateTree` makes
settled layers ready (`updateTree_spec`), with a new root if the leaf is the first one past the old
tree.
-/

namespace EnocGem5.StackDist

open Lib Function StackDistCalc StackDist.Tree BitVec Nat Option

/-! ## Powers of two -/

theorem isPowerOf2_iff {n : ℕ} (hn : n < 2 ^ 64) : isPowerOf2 n = true ↔ ∃ e, n = 2 ^ e := by
  have hcast : (n : BitVec 64).toNat = n := by
    rw [natCast_eq_ofNat, toNat_ofNat, mod_eq_of_lt hn]
  unfold isPowerOf2 leastSigBit
  rw [Bool.and_eq_true, bne_iff_ne, beq_iff_eq]
  by_cases hzero : n = 0
  · subst hzero
    constructor
    · exact fun h => absurd rfl h.1
    · rintro ⟨e, he⟩
      exact absurd he.symm (Nat.two_pow_pos e).ne'
  · have hne : (n : BitVec 64) ≠ 0 := by
      intro heq
      have htoNat := congrArg BitVec.toNat heq
      rw [hcast] at htoNat
      exact hzero htoNat
    have hpred : ((n : BitVec 64) - 1).toNat = n - 1 := by
      rw [toNat_sub_of_le, hcast]
      · rfl
      · rw [le_def, hcast]
        exact one_le_iff_ne_zero.2 hzero
    -- a number is part of the complement of another one if the two have no bit in common
    have hbits : (n : BitVec 64) &&& ~~~((n : BitVec 64) - 1) = n ↔
        (n : BitVec 64) &&& ((n : BitVec 64) - 1) = 0 := by
      generalize (n : BitVec 64) - 1 = m
      constructor
      · intro heq
        rw [← heq, BitVec.and_assoc, BitVec.and_comm (~~~m), BitVec.and_not_self]
        exact and_zero
      · intro heq
        apply eq_of_getLsbD_eq
        intro b hb
        have hbit : ((n : BitVec 64).getLsbD b && m.getLsbD b) = false := by
          rw [← getLsbD_and, heq]
          exact getLsbD_zero
        rw [getLsbD_and, getLsbD_not, decide_eq_true hb, Bool.true_and]
        cases hn : (n : BitVec 64).getLsbD b with
        | false => rfl
        | true =>
          rw [hn, Bool.true_and] at hbit
          rw [hbit]
          rfl
    rw [hbits, and_iff_right hne, ← toNat_inj, toNat_and, hcast, hpred]
    exact and_sub_one_eq_zero_iff_isPowerOfTwo hzero

/-! ## Layers -/

/-- The layer `i + 1`, when `m` is the number of the last leaf that it has a node for. -/
structure LayerOk (S : Finset ℕ) (n d i m : ℕ) (must : Prop) (next : ℕ) (layer : ℕ → Option Node) :
    Prop where
  next_eq : next = m / 2 ^ (i + 1) + 1
  node : ∀ {j node}, layer j = some node → NodeOk S n d i j node
  lt_next : ∀ {j}, (layer j).isSome → j < next
  kept : ∀ k ∈ S, (layer (k / 2 ^ (i + 1))).isSome
  last : must → (layer (m / 2 ^ (i + 1))).isSome

/-- Between calls, the last node is there if it gets more leaves, or is the root. -/
abbrev Settled (S : Finset ℕ) (n d i : ℕ) (next : ℕ) (layer : ℕ → Option Node) : Prop :=
  LayerOk S n d i (n - 1) (n % 2 ^ (i + 1) ≠ 0 ∨ i + 1 = d) next layer

abbrev Ready (S : Finset ℕ) (n d i : ℕ) (next : ℕ) (layer : ℕ → Option Node) : Prop :=
  LayerOk S n d i n True next layer

variable {S S' : Finset ℕ} {n d i k l m next parent j : ℕ} {must : Prop} {discard : Bool}
  {layer layer' : ℕ → Option Node} {s : StackDistCalc}

theorem LayerOk.onPath (h : LayerOk S n d i m must next layer)
    (habove : (layer (k / 2 ^ (i + 1))).isSome) : OnPath S n d i k layer :=
  ⟨h.node, habove⟩

theorem LayerOk.touched (h : LayerOk S n d i m must next layer)
    (ht : Touched S' n d i discard layer layer') (hnew : ∀ k ∈ S', (layer (k / 2 ^ (i + 1))).isSome)
    (hlast : must → discard = true → i + 1 = d ∨ n / 2 ^ (i + 1) ≤ m / 2 ^ (i + 1)) :
    LayerOk S' n d i m must next layer' where
  next_eq := h.next_eq
  node := ht.node
  lt_next hj := h.lt_next (ht.old hj)
  kept k hk := by
    rcases ht.kept (hnew k hk) with hkept | ⟨-, -, -, hzero⟩
    · exact hkept
    · exact absurd rfl (block_eq_zero.1 hzero k hk)
  last hmust := by
    rcases ht.kept (h.last hmust) with hkept | ⟨hdiscard, hroot, hlt, -⟩
    · exact hkept
    · rcases hlast hmust hdiscard with heq | hle
      · exact absurd heq hroot
      · omega

/-- If the next leaf does not start a new block, nothing has to be done. -/
theorem LayerOk.ready (h : Settled S n d i next layer) (hn : n % 2 ^ (i + 1) ≠ 0) :
    Ready S n d i next layer := by
  have hlast := pred_div_two_pow n (i + 1) hn
  exact
    { next_eq := hlast ▸ h.next_eq
      __ := h
      last := fun _ => hlast ▸ h.last (.inl hn) }

/-- The root is there already, if it has room for the next leaf. -/
theorem LayerOk.ready_root (h : Settled S n d i next layer) (hroot : i + 1 = d) (hn : n < 2 ^ d) :
    Ready S n d i next layer := by
  have hlast : (n - 1) / 2 ^ (i + 1) = n / 2 ^ (i + 1) := by
    rw [hroot, div_eq_of_lt hn, div_eq_of_lt (lt_of_le_of_lt (sub_le n 1) hn)]
  exact
    { next_eq := hlast ▸ h.next_eq
      __ := h
      last := fun _ => hlast ▸ h.last (.inr hroot) }

/-- A new node for the block that the next leaf starts. -/
theorem LayerOk.ready_addINode (h : Settled S n d i next layer) (hS : ∀ k ∈ S, k < n)
    (hn : n % 2 ^ (i + 1) = 0) (hpos : 0 < n) (hroot : i + 1 ≠ d) :
    Ready S n d i (next + 1) (update layer next (some
      { nodeIndex := next, isLeftNode := next % 2 == 0,
        parent := some (n / 2 ^ (i + 1 + 1)) })) := by
  have hnext : next = n / 2 ^ (i + 1) := h.next_eq.trans (pred_div_two_pow_of_dvd n (i + 1) hn hpos)
  have hstart : n = next * 2 ^ (i + 1) := by
    rw [hnext]
    exact (Nat.div_mul_cancel (dvd_of_mod_eq_zero hn)).symm
  have hempty : ∀ j, 2 * next ≤ j → block S i j = 0 := by
    intro j hj
    apply block_eq_zero_of_lt hS
    calc n
        = 2 * next * 2 ^ i := by rw [hstart, pow_succ]; ring
      _ ≤ j * 2 ^ i := mul_le_mul_right _ hj
  have hnode : NodeOk S n d i next
      { nodeIndex := next, isLeftNode := next % 2 == 0, parent := some (n / 2 ^ (i + 1 + 1)) } :=
    { nodeIndex := rfl
      sumLeft := (hempty _ le_rfl).symm
      sumRight := (hempty _ (le_succ _)).symm
      parent := by rw [if_neg hroot, div_two_pow_succ n (i + 1), ← hnext]
      isLeftNode := rfl
      discardLeft := nofun
      discardRight := nofun }
  exact
    { next_eq := by rw [hnext]
      node := by
        intro j node hj
        by_cases hjn : j = next
        · subst hjn
          rw [update_self] at hj
          cases hj
          exact hnode
        · rw [update_of_ne hjn] at hj
          exact h.node hj
      lt_next := by
        intro j hj
        by_cases hjn : j = next
        · exact hjn ▸ lt_succ_self _
        · rw [update_of_ne hjn] at hj
          exact lt_succ_of_lt (h.lt_next hj)
      kept := by
        intro k hk
        have hold := h.kept k hk
        rw [update_of_ne (h.lt_next hold).ne]
        exact hold
      last := fun _ => by rw [← hnext, update_self, isSome_some] }

theorem LayerOk.root {root : Node} (hroot : NodeOk S n d i 0 root) (hself : layer 0 = some root)
    (honly : ∀ {j}, (layer j).isSome → j = 0) (hm : m / 2 ^ (i + 1) = 0)
    (hS : ∀ k ∈ S, k / 2 ^ (i + 1) = 0) : LayerOk S n d i m must 1 layer where
  next_eq := by rw [hm]
  node hj := by
    obtain rfl := honly (Option.isSome_iff_exists.2 ⟨_, hj⟩)
    cases hself.symm.trans hj
    exact hroot
  lt_next hj := by
    rw [honly hj]
    exact zero_lt_one
  kept k hk := by
    rw [hS k hk, hself]
    rfl
  last _ := by
    rw [hm, hself]
    rfl

theorem eq_zero_of_update {root : Option Node} (honly : ∀ {j}, (layer j).isSome → j = 0)
    (hj : (update layer 0 root j).isSome) : j = 0 := by
  by_contra hne
  rw [update_of_ne hne] at hj
  exact hne (honly hj)

theorem LayerOk.settled (h : Ready S n d i next layer) : Settled S (n + 1) d i next layer where
  __ := h
  node hj := (h.node hj).mono (le_succ n)
  last _ := h.last trivial

/-! ## The tree -/

/-- Between calls. -/
structure TreeSettled (S : Finset ℕ) (s : StackDistCalc) : Prop where
  pos : 0 < s.treeDepth
  fits : s.index ≤ 2 ^ s.treeDepth
  tight : s.treeDepth = 1 ∨ 2 ^ (s.treeDepth - 1) < s.index
  below : ∀ k ∈ S, k < s.index
  layer : ∀ i, i < s.treeDepth →
    Settled S s.index s.treeDepth i (s.nextIndex (i + 1)) (s.tree (i + 1))

/-- Before a leaf is added. -/
structure TreeReady (S : Finset ℕ) (s : StackDistCalc) : Prop where
  pos : 0 < s.treeDepth
  fits : s.index < 2 ^ s.treeDepth
  tight : s.treeDepth = 1 ∨ 2 ^ (s.treeDepth - 1) ≤ s.index
  below : ∀ k ∈ S, k < s.index
  layer : ∀ i, i < s.treeDepth →
    Ready S s.index s.treeDepth i (s.nextIndex (i + 1)) (s.tree (i + 1))

/-- What `updateTree` does not change. -/
structure SameLeaves (s s' : StackDistCalc) : Prop where
  index : s'.index = s.index
  leaves : s'.tree 0 = s.tree 0
  aiMap : s'.aiMap = s.aiMap
  stack : s'.stack = s.stack
  verifyStack : s'.verifyStack = s.verifyStack

theorem SameLeaves.refl (s : StackDistCalc) : SameLeaves s s := ⟨rfl, rfl, rfl, rfl, rfl⟩

theorem SameLeaves.trans {s₁ s₂ s₃ : StackDistCalc} (h : SameLeaves s₁ s₂) (h' : SameLeaves s₂ s₃) :
    SameLeaves s₁ s₃ :=
  ⟨h'.index.trans h.index, h'.leaves.trans h.leaves, h'.aiMap.trans h.aiMap, h'.stack.trans h.stack,
    h'.verifyStack.trans h.verifyStack⟩

/-- Within `2 ^ 31` leaves, `1 << i` is defined for all layers. -/
theorem depth_le (htight : d = 1 ∨ 2 ^ (d - 1) ≤ n) (hn : n < 2 ^ 31) : d ≤ 31 := by
  rcases htight with hone | hlower
  · omega
  · have hlt : d - 1 < 31 := (Nat.pow_lt_pow_iff_right (a := 2) (by omega)).1
      (lt_of_le_of_lt hlower hn)
    omega

theorem addINode_of_ne (hl : l ≠ i) :
    (s.addINode i).nextIndex l = s.nextIndex l ∧ (s.addINode i).tree l = s.tree l := by
  exact ⟨update_of_ne hl _ _, set_of_ne hl⟩

theorem addINode_self (hparent : s.tree.pointer (i + 1) (s.nextIndex (i + 1) - 1) = some parent) :
    (s.addINode i).nextIndex i = s.nextIndex i + 1 ∧
      (s.addINode i).tree i = update (s.tree i) (s.nextIndex i) (some
        { nodeIndex := s.nextIndex i, isLeftNode := s.nextIndex i % 2 == 0,
          parent := some parent }) := by
  unfold addINode
  rw [hparent]
  exact ⟨update_self _ _ _, set_layer⟩

theorem SameLeaves.addINode (s : StackDistCalc) (i : ℕ) : SameLeaves s (s.addINode (i + 1)) :=
  ⟨rfl, (addINode_of_ne (succ_ne_zero i).symm).2, rfl, rfl, rfl⟩

/-- For an odd number of leaves the tree is ready without `updateTree`. -/
theorem TreeSettled.ready_of_odd (h : TreeSettled S s) (hodd : s.index % 2 ≠ 0) :
    TreeReady S s where
  __ := h
  fits := by
    refine lt_of_le_of_ne h.fits fun heq => hodd ?_
    obtain ⟨e, he⟩ := exists_eq_succ_of_ne_zero h.pos.ne'
    rw [heq, he, pow_succ, mul_mod_left]
  tight := h.tight.imp_right le_of_lt
  layer i hi := by
    apply (h.layer i hi).ready
    intro hdvd
    have h2 : 2 ∣ s.index := (Dvd.intro_left (2 ^ i) (pow_succ 2 i).symm).trans
      (dvd_of_mod_eq_zero hdvd)
    exact hodd (mod_eq_zero_of_dvd h2)

/-- The loops of `updateTree`: the layers above `D` are ready, the others settled. -/
theorem addINodes_spec (due : ℕ → Result Bool) (hS : ∀ k ∈ S, k < n) {D : ℕ}
    (hpos : D ≠ 0 → 0 < n) (hD : D < d)
    (hdue : ∀ i, i < D → due (i + 1) = .ok (decide (n % 2 ^ (i + 1) = 0)))
    (hsettled : ∀ i, i < D → Settled S n d i (s.nextIndex (i + 1)) (s.tree (i + 1)))
    (hready : ∀ i, D ≤ i → i < d → Ready S n d i (s.nextIndex (i + 1)) (s.tree (i + 1))) :
    ∃ s', s.addINodes due D = .ok s' ∧ SameLeaves s s' ∧ s'.treeDepth = s.treeDepth ∧
      ∀ i, i < d → Ready S n d i (s'.nextIndex (i + 1)) (s'.tree (i + 1)) := by
  induction D generalizing s with
  | zero => exact ⟨s, rfl, SameLeaves.refl s, rfl, fun i hi => hready i (zero_le i) hi⟩
  | succ D ih =>
    have hstep : s.addINodes due (D + 1)
        = addINodes due D (if decide (n % 2 ^ (D + 1) = 0) then s.addINode (D + 1) else s) := by
      rw [addINodes, hdue D (lt_succ_self D)]
      rfl
    rw [hstep]
    by_cases hdvd : n % 2 ^ (D + 1) = 0
    · rw [if_pos (decide_eq_true hdvd)]
      -- the parent is the last node of the layer above, which is ready
      have hparent : s.tree.pointer (D + 1 + 1) (s.nextIndex (D + 1 + 1) - 1) =
          some (n / 2 ^ (D + 1 + 1)) := by
        have habove := hready (D + 1) le_rfl hD
        rw [habove.next_eq, Nat.add_sub_cancel]
        exact pointer_eq (habove.last trivial)
      have hnew := (hsettled D (lt_succ_self D)).ready_addINode hS hdvd (hpos (succ_ne_zero D))
        hD.ne
      have hlayer : ∀ i, i ≠ D → (s.addINode (D + 1)).nextIndex (i + 1) = s.nextIndex (i + 1) ∧
          (s.addINode (D + 1)).tree (i + 1) = s.tree (i + 1) :=
        fun i hi => addINode_of_ne (by omega)
      obtain ⟨s', hrun, hsame, hdepth, hall⟩ :=
        ih (s := s.addINode (D + 1)) (fun _ => hpos (succ_ne_zero D)) (by omega)
          (fun i hi => hdue i (by omega))
        (fun i hi => by
          rw [(hlayer i (by omega)).1, (hlayer i (by omega)).2]
          exact hsettled i (by omega)) (fun i hi hid => by
          by_cases hiD : i = D
          · subst hiD
            rw [(addINode_self hparent).1, (addINode_self hparent).2]
            exact hnew
          · rw [(hlayer i hiD).1, (hlayer i hiD).2]
            exact hready i (by omega) hid)
      exact ⟨s', hrun, (SameLeaves.addINode s D).trans hsame, hdepth, hall⟩
    · rw [if_neg (by simpa using hdvd)]
      apply ih (fun _ => hpos (succ_ne_zero D)) (by omega) (fun i hi => hdue i (by omega))
        (fun i hi => hsettled i (by omega))
      intro i hi hid
      by_cases hiD : i = D
      · subst hiD
        exact (hsettled i (lt_succ_self i)).ready hdvd
      · exact hready i (by omega) hid

/-- A node keeps its meaning when the tree gets a new root above another layer. -/
theorem NodeOk.deepen {node : Node} (h : NodeOk S n d i j node) (hi : i + 1 < d) :
    NodeOk S n (d + 1) i j node where
  __ := h
  parent := by rw [h.parent, if_neg hi.ne, if_neg (by omega)]

/-- The old root has a parent now. -/
theorem NodeOk.deepen_root {root : Node} (h : NodeOk S n (i + 1) i 0 root) :
    NodeOk S n (i + 1 + 1) i 0 { root with parent := some 0 } where
  __ := h
  parent := by rw [if_neg (by omega), Nat.zero_div]

/-- The new root has the old one as its left half, and nothing in its right half. -/
theorem NodeOk.newRoot {root : Node} (h : NodeOk S n (i + 1) i 0 root) (hS : ∀ k ∈ S, k < n)
    (hn : n = 2 ^ (i + 1)) :
    NodeOk S n (i + 1 + 1) (i + 1) 0
      { sumLeft := root.sumRight + root.sumLeft
        discardLeft := root.discardLeft && root.discardRight } where
  nodeIndex := rfl
  sumLeft := by
    rw [add_comm]
    exact h.sum_eq
  sumRight := (block_eq_zero_of_lt hS (by rw [Nat.mul_zero, Nat.zero_add, Nat.one_mul, hn])).symm
  parent := by rw [if_pos rfl]
  isLeftNode := rfl
  discardLeft hflag := by
    rw [Bool.and_eq_true] at hflag
    refine ⟨?_, ?_⟩
    · rw [hn, Nat.div_self (Nat.two_pow_pos _)]
      exact zero_lt_one
    · rw [Nat.mul_zero, block_succ, (h.discardLeft hflag.1).2, (h.discardRight hflag.2).2]
  discardRight hflag := absurd hflag Bool.false_ne_true

theorem addRoot_spec (h : TreeSettled S s) (hfull : s.index = 2 ^ s.treeDepth) :
    ∃ s', s.addRoot = .ok s' ∧ SameLeaves s s' ∧ s'.treeDepth = s.treeDepth + 1 ∧
      (∀ i, i < s.treeDepth →
        Settled S s.index (s.treeDepth + 1) i (s'.nextIndex (i + 1)) (s'.tree (i + 1))) ∧
      Ready S s.index (s.treeDepth + 1) s.treeDepth (s'.nextIndex (s.treeDepth + 1))
      (s'.tree (s.treeDepth + 1)) := by
  obtain ⟨e, he⟩ : ∃ e, s.treeDepth = e + 1 := exists_eq_succ_of_ne_zero h.pos.ne'
  have htop := h.layer e (by omega)
  rw [he] at htop hfull ⊢
  have hfirst : (s.index - 1) / 2 ^ (e + 1) = 0 := by
    apply div_eq_of_lt
    have := Nat.two_pow_pos (e + 1)
    omega
  obtain ⟨root, hroot⟩ := Option.isSome_iff_exists.1 (hfirst ▸ htop.last (.inr rfl))
  have hrootOk := htop.node hroot
  have honly : ∀ {j}, (s.tree (e + 1) j).isSome → j = 0 := by
    intro j hj
    have hlt := htop.lt_next hj
    rw [htop.next_eq, hfirst] at hlt
    omega
  -- the layers of the new tree
  obtain ⟨tree', htree'⟩ : ∃ tree' : Tree, tree' =
      set (set (update s.tree (e + 1 + 1) fun _ => none) (e + 1 + 1) 0 (some
        { sumLeft := root.sumRight + root.sumLeft
          discardLeft := root.discardLeft && root.discardRight }))
      (e + 1) 0 (some { root with parent := some 0 }) := ⟨_, rfl⟩
  have hother : ∀ l, l ≠ e + 1 → l ≠ e + 1 + 1 → tree' l = s.tree l := by
    intro l hl hl'
    rw [htree', set_of_ne hl, set_of_ne hl', update_of_ne hl']
  have hold : tree' (e + 1) = update (s.tree (e + 1)) 0 (some { root with parent := some 0 }) := by
    rw [htree', set_layer, set_of_ne (by omega), update_of_ne (by omega)]
  have hnew : tree' (e + 1 + 1) = update (fun _ => none) 0 (some
      { sumLeft := root.sumRight + root.sumLeft
        discardLeft := root.discardLeft && root.discardRight }) := by
    rw [htree', set_of_ne (by omega), set_layer, update_self]
  have hdvd : ∀ i, i < e + 1 → s.index % 2 ^ (i + 1) = 0 := by
    intro i hi
    rw [hfull]
    exact mod_eq_zero_of_dvd (pow_dvd_pow 2 (by omega))
  refine ⟨{ s with
    treeDepth := e + 1 + 1
    nextIndex := update s.nextIndex (e + 1 + 1) 1
    tree := tree' }, ?_, ⟨rfl, hother 0 (by omega) (by omega), rfl, rfl, rfl⟩, rfl, ?_, ?_⟩
  · rw [addRoot, he, deref_eq hroot, htree']
    have hpointer : ∀ node, (set (update s.tree (e + 1 + 1) fun _ => none) (e + 1 + 1) 0
        (some node)).pointer (e + 1 + 1) 0 = some 0 := by
      intro node
      apply pointer_eq
      rw [set_layer, update_self, isSome_some]
    change Except.ok _ = _
    rw [hpointer]
  · intro i hi
    have hi' := h.layer i (by omega)
    rw [he] at hi'
    dsimp only
    rw [update_of_ne (by omega)]
    by_cases hlast : i = e
    · subst hlast
      rw [hold, hi'.next_eq, hfirst]
      exact LayerOk.root hrootOk.deepen_root (update_self _ _ _) (eq_zero_of_update honly) hfirst
        fun k hk => honly (hi'.kept k hk)
    · rw [hother (i + 1) (by omega) (by omega)]
      exact
        { next_eq := hi'.next_eq
          node := fun hj => (hi'.node hj).deepen (by omega)
          lt_next := hi'.lt_next
          kept := hi'.kept
          last := by
            rintro (hmod | hroot')
            · exact absurd (hdvd i hi) hmod
            · omega }
  · dsimp only
    rw [update_self, hnew]
    have hzero : ∀ k, k ≤ s.index → k / 2 ^ (e + 1 + 1) = 0 := by
      intro k hk
      apply div_eq_of_lt
      rw [pow_succ, ← hfull]
      have := Nat.two_pow_pos (e + 1)
      omega
    exact LayerOk.root (hrootOk.newRoot h.below hfull) (update_self _ _ _) (eq_zero_of_update nofun)
      (hzero _ le_rfl) fun k hk => hzero k (h.below k hk).le

/-- `updateTree` makes the tree ready for the next leaf. -/
theorem updateTree_spec (h : TreeSettled S s) (heven : s.index % 2 = 0)
    (hbound : s.index < 2 ^ 31) :
    ∃ s', s.updateTree = .ok s' ∧ SameLeaves s s' ∧ TreeReady S s' := by
  have hpow := isPowerOf2_iff (n := s.index) (by omega)
  unfold updateTree
  by_cases hfull : s.index = 2 ^ s.treeDepth
  · -- OP1
    obtain ⟨s₁, hroot, hsame, hdepth, hsettled, hready⟩ := addRoot_spec h hfull
    have hpos : 0 < s.index := hfull ▸ Nat.two_pow_pos _
    obtain ⟨s₂, hrun, hsame', hdepth', hall⟩ :=
      addINodes_spec (s := s₁) (fun _ => pure true) h.below (fun _ => hpos)
        (lt_succ_self s.treeDepth)
      (fun i hi => by
        rw [hfull, decide_eq_true (mod_eq_zero_of_dvd (pow_dvd_pow 2 hi))]
        rfl)
      hsettled
      (fun i hi hid => by
        have hlast : i = s.treeDepth := by omega
        exact hlast ▸ hready)
    rw [if_pos (hpow.2 ⟨_, hfull⟩), hroot]
    refine ⟨s₂, ?_, hsame.trans hsame', ?_⟩
    · change s₁.addINodes _ (s₁.treeDepth - 1) = _
      rw [hdepth, Nat.add_sub_cancel]
      exact hrun
    · have hindex : s₂.index = s.index := (hsame.trans hsame').index
      have hdepth₂ : s₂.treeDepth = s.treeDepth + 1 := hdepth'.trans hdepth
      exact
        { pos := by omega
          fits := by
            rw [hindex, hdepth₂, hfull]
            exact Nat.pow_lt_pow_right (by omega) (lt_succ_self _)
          tight := .inr (by rw [hindex, hdepth₂, Nat.add_sub_cancel, hfull])
          below := by
            rw [hindex]
            exact h.below
          layer := by
            rw [hindex, hdepth₂]
            exact hall }
  · -- OP2
    have hlt : s.index < 2 ^ s.treeDepth := lt_of_le_of_ne h.fits hfull
    have hnot : ¬ isPowerOf2 s.index = true := by
      intro hp
      obtain ⟨e, he⟩ := hpow.1 hp
      rw [he] at hlt
      have hupper : e < s.treeDepth := (Nat.pow_lt_pow_iff_right (by omega)).1 hlt
      rcases h.tight with hone | hlower
      · have : e = 0 := by omega
        subst this
        omega
      · rw [he] at hlower
        have := (Nat.pow_lt_pow_iff_right (by omega)).1 hlower
        omega
    have hsmall : s.treeDepth ≤ 31 := depth_le (h.tight.imp_right le_of_lt) hbound
    obtain ⟨s₁, hrun, hsame, hdepth, hall⟩ :=
      addINodes_spec (n := s.index) (d := s.treeDepth) (D := s.treeDepth - 1) (s := s)
        (fun i => do return s.index % (← oneShifted i) == 0) h.below
      (fun hD => by
        rcases h.tight with hone | hlower
        · omega
        · exact zero_lt_of_lt hlower)
      (sub_lt h.pos zero_lt_one)
      (fun i hi => by
        rw [oneShifted_eq (by omega)]
        rfl)
      (fun i hi => h.layer i (by omega))
      (fun i hi hid => (h.layer i hid).ready_root (by omega) hlt)
    rw [if_neg hnot]
    refine ⟨s₁, hrun, hsame, ?_⟩
    exact
      { pos := hdepth ▸ h.pos
        fits := by
          rw [hsame.index, hdepth]
          exact hlt
        tight := by
          rw [hsame.index, hdepth]
          exact h.tight.imp_right le_of_lt
        below := by
          rw [hsame.index]
          exact h.below
        layer := by
          rw [hsame.index, hdepth]
          exact hall }

end EnocGem5.StackDist
