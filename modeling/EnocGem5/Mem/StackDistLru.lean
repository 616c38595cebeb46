import EnocGem5.Mem.StackDistGrowth
import EnocGem5.Mem.StackDistHistory

/-!
# StackDistLru — the tree computes stack distances

The invariant between calls ties the state of the calculator to the history of its calls: `aiMap` is
`lastAdded`, the tree is that of the set of numbers in use, and the leaves have the marks. Each call
keeps it and returns what the history says (`Inv.answers`). The comparison with the stack of
addresses succeeds as long as no address was removed: a removal is not made in that stack.
-/

namespace EnocGem5.StackDist

open Lib Function StackDistCalc Finset StackDist.Tree Nat Option List

/-! ## Leaves -/

def leafNode (k : ℕ) (mark : Bool) : Node :=
  { sumLeft := 1, nodeIndex := k, isLeftNode := k % 2 == 0, parent := some (k / 2),
    isMarked := mark }

variable {h : List Call} {S S' : Finset ℕ} {s s₁ : StackDistCalc} {a k : ℕ} {addNewNode mark : Bool}

/-- Nothing is to the right of the tree. -/
theorem beyond_root {n d : ℕ} (hS : ∀ m ∈ S, m < n) (hn : n ≤ 2 ^ d) :
    beyond S d (k / 2 ^ d) = 0 := by
  rw [beyond_eq_zero]
  intro m hm
  rw [div_eq_of_lt (lt_of_lt_of_le (hS m hm) hn)]
  exact Nat.zero_le _

/-- The walk from a leaf, which has just been changed to `x`. -/
theorem walk_spec {sum : ℕ} (x : Node) (discard : Bool) (hc : Change S S' s.index k)
    (hd : s.treeDepth ≤ 31) (hpos : 0 < s.treeDepth)
    (htop : beyond S' s.treeDepth (k / 2 ^ s.treeDepth) = 0)
    (hpath : ∀ i, i < s.treeDepth → OnPath S s.index s.treeDepth i k (s.tree (i + 1)))
    (hdiscard : discard = true → k < s.index) (hsum : (if k ∈ S' then 1 else 0) = sum) :
    ∃ tree', updateSum s.verifyStack s.treeDepth (s.tree.set 0 k (some x)) (some (k / 2))
        (k % 2 == 0) sum 0 0 discard = .ok (tree', beyond S' 0 k) ∧
        tree' 0 = update (s.tree 0) k (some x) ∧
      ∀ i, i < s.treeDepth → Touched S' s.index s.treeDepth i discard (s.tree (i + 1))
          (tree' (i + 1)) := by
  have hlayers : ∀ i, s.tree.set 0 k (some x) (i + 1) = s.tree (i + 1) :=
    fun i => set_of_ne (succ_ne_zero i)
  obtain ⟨tree', hrun, hleaves, htouched⟩ :=
    updateSum_spec s.verifyStack hc hd htop 0 (Nat.zero_add s.treeDepth) hpos
      (fun i _ hi => (hlayers i).symm ▸ hpath i hi)
      fun (h : discard = true) => by simpa using hdiscard h
  simp only [Nat.zero_add, pow_one, pow_zero, Nat.div_one, block_zero, hsum] at hrun
  refine ⟨tree', hrun, ?_, fun i hi => ?_⟩
  · rw [hleaves 0 le_rfl, set_layer]
  · rw [← hlayers i]
    exact htouched i (Nat.zero_le i) hi

/-- What a call leaves of the rest of the state. -/
structure SameRest (s s' : StackDistCalc) : Prop where
  index : s'.index = s.index
  aiMap : s'.aiMap = s.aiMap
  stack : s'.stack = s.stack
  verifyStack : s'.verifyStack = s.verifyStack

/-- The leaf of an address is taken out, and the leaves after it are counted. -/
theorem removeLeaf_spec (h : TreeSettled S s) (hbound : s.index < 2 ^ 31) (hk : k ∈ S)
    (hleaf : s.tree 0 k = some (leafNode k mark)) :
    ∃ s', s.removeLeaf k = .ok (s', beyond S 0 k, mark) ∧ SameRest s s' ∧
      TreeSettled (S.erase k) s' ∧ ∀ j, j ≠ k → s'.tree 0 j = s.tree 0 j := by
  have hbelow : ∀ m ∈ S.erase k, m < s.index := fun m hm => h.below m (mem_of_mem_erase hm)
  have hchange : Change S (S.erase k) s.index k :=
    ⟨fun m hm => by rw [mem_erase, and_iff_right hm], fun hm => absurd hm (notMem_erase k S)⟩
  have hsame : beyond (S.erase k) 0 k = beyond S 0 k := by
    apply beyond_congr
    intro m hm
    rw [pow_zero, Nat.div_one] at hm
    exact hchange.other m hm.ne'
  obtain ⟨tree', hrun, hleaves, htouched⟩ :=
    walk_spec { leafNode k mark with sumLeft := 0 } true hchange
      (depth_le (h.tight.imp_right le_of_lt) hbound) h.pos (beyond_root hbelow h.fits)
    (fun i hi => (h.layer i hi).onPath ((h.layer i hi).kept k hk)) (fun _ => h.below k hk)
    (if_neg (notMem_erase k S))
  have hupdate : s.updateSumsLeavesToRoot k false = .ok (tree', beyond S 0 k) := by
    rw [updateSumsLeavesToRoot, deref_eq hleaf, ← hsame]
    exact hrun
  have hgone : tree'.deref 0 (some k) = .ok { leafNode k mark with sumLeft := 0 } := by
    apply deref_eq
    rw [hleaves, update_self]
  refine ⟨{ s with tree := tree'.set 0 k none }, ?_, ⟨rfl, rfl, rfl, rfl⟩, ?_, ?_⟩
  · rw [removeLeaf, hupdate]
    change (tree'.deref 0 (some k) >>= fun _ => _) = _
    rw [hgone]
    rfl
  · exact
      { pos := h.pos
        __ := h
        below := hbelow
        layer := fun i hi => by
          have hlayer := h.layer i hi
          dsimp only
          rw [set_of_ne (succ_ne_zero i)]
          apply hlayer.touched (htouched i hi) fun m hm => hlayer.kept m (mem_of_mem_erase hm)
          -- a node that is deleted gets no more leaves, so it is not the last one
          rintro (hmod | hroot) _
          · exact .inr (pred_div_two_pow _ _ hmod).ge
          · exact .inl hroot }
  · intro j hj
    dsimp only
    rw [set_layer, update_of_ne hj, hleaves, update_of_ne hj]

/-- The walk from a leaf that was just put into the tree. -/
theorem newLeaf_eq {x : Node} {tree tree' : Tree} {dist : ℕ}
    (htree : s.tree = tree.set 0 k (some x))
      (hrun : updateSum s.verifyStack s.treeDepth (tree.set 0 k (some { x with sumLeft := 1 }))
      x.parent x.isLeftNode 1 0 0 false = .ok (tree', dist)) :
    s.updateSumsLeavesToRoot k true = .ok (tree', Infinity) := by
  have hleaf : s.tree.deref 0 (some k) = .ok x := by
    apply deref_eq
    rw [htree, set_layer, update_self]
  have hset : s.tree.set 0 k (some { x with sumLeft := 1 }) =
      tree.set 0 k (some { x with sumLeft := 1 }) := by
    rw [htree, Tree.set, Tree.set_layer, update_idem, Tree.set, update_idem, Tree.set]
  rw [updateSumsLeavesToRoot, hleaf]
  change updateSum _ _ (s.tree.set 0 k (some { x with sumLeft := 1 })) _ _ _ _ _ _ >>= _ = _
  rw [hset, hrun]
  rfl

/-- The next leaf is added; the tree passes the checks. -/
theorem addLeaf_spec (h : TreeSettled S s) (hbound : s.index < 2 ^ 31) :
    ∃ s', s.addLeaf = .ok s' ∧ SameRest s s' ∧ s'.sanityCheckTree s.index = .ok () ∧
      TreeSettled (insert s.index S) { s' with index := s.index + 1 } ∧
      s'.tree 0 = update (s.tree 0) s.index (some (leafNode s.index false)) := by
  obtain ⟨s₁, hgrow, hsame, hready⟩ : ∃ s₁, s.growTree = .ok s₁ ∧ SameLeaves s s₁ ∧
      TreeReady S s₁ := by
    unfold growTree
    by_cases heven : s.index % 2 = 0
    · rw [if_pos heven]
      exact updateTree_spec h heven hbound
    · rw [if_neg heven]
      exact ⟨s, rfl, SameLeaves.refl s, h.ready_of_odd heven⟩
  have hindex : s₁.index = s.index := hsame.index
  have hbelow : ∀ m ∈ insert s₁.index S, m < s₁.index + 1 := by
    refine (forall_mem_insert _ _ _).2 ⟨lt_succ_self _, fun m hm => ?_⟩
    exact lt_succ_of_lt (hready.below m hm)
  have hchange : Change S (insert s₁.index S) s₁.index s₁.index :=
    ⟨fun m hm => by rw [mem_insert, or_iff_right hm], fun _ => le_rfl⟩
  have hlast : ∀ i, i < s₁.treeDepth → (s₁.tree (i + 1) (s₁.index / 2 ^ (i + 1))).isSome :=
    fun i hi => (hready.layer i hi).last trivial
  obtain ⟨tree', hrun, hleaves, htouched⟩ := walk_spec (leafNode s₁.index false) false hchange
    (depth_le hready.tight (hindex ▸ hbound)) hready.pos (beyond_root hbelow hready.fits)
    (fun i hi => (hready.layer i hi).onPath (hlast i hi)) nofun
    (if_pos (mem_insert_self _ _))
  have hlayer : ∀ i, i < s₁.treeDepth →
      Ready (insert s₁.index S) s₁.index s₁.treeDepth i (s₁.nextIndex (i + 1)) (tree' (i + 1)) := by
    intro i hi
    apply (hready.layer i hi).touched (htouched i hi) ?_ nofun
    exact (forall_mem_insert _ _ _).2 ⟨hlast i hi, (hready.layer i hi).kept⟩
  have hparent : s₁.tree.pointer 1 (s₁.nextIndex 1 - 1) = some (s₁.index / 2) := by
    have hfirst := hready.layer 0 hready.pos
    rw [Nat.zero_add] at hfirst
    rw [hfirst.next_eq, Nat.add_sub_cancel, pow_one]
    exact pointer_eq (hfirst.last trivial)
  have hadd : s.addLeaf = .ok
      { s₁ with nextIndex := update s₁.nextIndex 0 (s₁.nextIndex 0 + 1), tree := tree' } := by
    rw [addLeaf, hgrow]
    change updateSumsLeavesToRoot _ _ true >>= _ = _
    rw [hparent]
    have hnew : updateSumsLeavesToRoot { s₁ with
        nextIndex := update s₁.nextIndex 0 (s₁.nextIndex 0 + 1)
        tree := s₁.tree.set 0 s₁.index (some
          { nodeIndex := s₁.index, isLeftNode := s₁.index % 2 == 0,
            parent := some (s₁.index / 2) }) } s₁.index true
        = .ok (tree', Infinity) := newLeaf_eq rfl hrun
    rw [hnew]
    rfl
  refine ⟨_, hadd, { hsame with index := hindex }, ?_, ?_, ?_⟩
  · have hleaf : tree'.deref 0 (some s₁.index) = .ok (leafNode s₁.index false) := by
      apply deref_eq
      rw [hleaves, update_self]
    rw [← hindex, sanityCheckTree, hleaf]
    have hclimb := climb_spec (i := 0) (k := s₁.index) (add_sub_of_le hready.pos)
      fun i _ hi => (hlayer i hi).onPath ((hlayer i hi).last trivial)
    rw [Nat.zero_add, pow_one] at hclimb
    exact hclimb
  · rw [← hindex]
    exact
      { pos := hready.pos
        fits := hready.fits
        tight := hready.tight.imp_right lt_succ_of_le
        below := hbelow
        layer := fun i hi => by
          dsimp only
          rw [update_of_ne (succ_ne_zero i)]
          exact (hlayer i hi).settled }
  · rw [← hindex, ← hsame.leaves]
    exact hleaves

/-! ## Calls -/

structure Inv (h : List Call) (s : StackDistCalc) : Prop where
  index : s.index = additions h
  aiMap : s.aiMap = lastAdded h
  leaf : ∀ {a k}, lastAdded h a = some k → s.tree 0 k = some (leafNode k (lastMark h a))
  tree : TreeSettled (live h) s
  stack : s.verifyStack = true → Ranked (kept h) s.stack.reverse

/-- In the middle of `calcStackDistAndUpdate`, when the address has no leaf. -/
structure Forgotten (h : List Call) (a : ℕ) (addNewNode : Bool) (s s₁ : StackDistCalc) : Prop where
  index : s₁.index = s.index
  stack : s₁.stack = s.stack
  verifyStack : s₁.verifyStack = s.verifyStack
  aiMap : s₁.aiMap = lastAdded (.calcStackDistAndUpdate a addNewNode :: h)
  tree : TreeSettled (live (.calcStackDistAndUpdate a false :: h)) s₁
  leaf : ∀ {b k}, b ≠ a → lastAdded h b = some k → s₁.tree 0 k = some (leafNode k (lastMark h b))

/-- A call returns what it should, or the comparison with the stack fails because of an earlier
removal. -/
def Answers (h : List Call) (s : StackDistCalc) (c : Call) : Prop :=
  (∃ s', s.call c = .ok (s', expected h c.rAddress) ∧ Inv (c :: h) s' ∧
      s'.verifyStack = s.verifyStack ∧ (s.verifyStack = true → Agrees h c)) ∨
    s.call c = .error .unexpectedStackDistance ∧ s.verifyStack = true ∧ ¬ Agrees h c

theorem inv_new (verifyStack : Bool) : Inv [] (StackDistCalc.new verifyStack) where
  index := rfl
  aiMap := rfl
  leaf hk := by cases hk
  tree := by
    have hlive : live [] = ∅ := rfl
    rw [hlive]
    refine ⟨Nat.zero_lt_one, Nat.zero_le _, .inl rfl, fun k hk => absurd hk (notMem_empty k), ?_⟩
    intro i hi
    obtain rfl : i = 0 := Nat.lt_one_iff.1 hi
    have hroot : set (fun _ _ => none) 1 0 (some {}) 1 = update (fun _ => none) 0 (some {}) :=
      set_layer
    have hnode : NodeOk ∅ 0 1 0 0 {} :=
      ⟨rfl, rfl, rfl, rfl, rfl, nofun, nofun⟩
    change Settled ∅ 0 1 0 1 (set (fun _ _ => none) 1 0 (some {}) 1)
    rw [hroot]
    exact LayerOk.root hnode (update_self _ _ _) (eq_zero_of_update nofun) (by decide)
      fun k hk => absurd hk (notMem_empty k)
  stack _ := Ranked.nil

theorem live_remove (hk : lastAdded h a = some k) :
    live (.calcStackDistAndUpdate a false :: h) = (live h).erase k := by
  ext m
  rw [mem_live_remove, mem_erase, hk, ne_eq, some_inj, eq_comm, and_comm]

theorem live_remove_none (hk : lastAdded h a = none) :
    live (.calcStackDistAndUpdate a false :: h) = live h := by
  ext m
  rw [mem_live_remove, hk]
  exact and_iff_left (some_ne_none m).symm

theorem live_add : live (.calcStackDistAndUpdate a true :: h)
    = insert (additions h) (live (.calcStackDistAndUpdate a false :: h)) := by
  ext m
  rw [mem_live_add, mem_insert]

theorem lastAdded_update : update (lastAdded h) a (if addNewNode then some (additions h) else none)
    = lastAdded (.calcStackDistAndUpdate a addNewNode :: h) := by
  funext b
  rw [update_apply, lastAdded]

theorem Inv.forget (a : ℕ) (addNewNode : Bool) (hi : Inv h s) (hbound : s.index < 2 ^ 31) :
    ∃ s₁, s.forget a addNewNode = .ok (s₁, expected h a) ∧ Forgotten h a addNewNode s s₁ := by
  unfold StackDistCalc.forget expected
  rw [hi.aiMap]
  cases hk : lastAdded h a with
  | none =>
    refine ⟨_, rfl, rfl, rfl, rfl, ?_, ?_, fun _ hb => hi.leaf hb⟩
    · rw [← lastAdded_update, hi.index]
      cases addNewNode with
      | true => rfl
      | false => exact (update_eq_self_iff.2 hk.symm).symm
    · rw [live_remove_none hk]
      exact { hi.tree with }
  | some k =>
    have htree : TreeSettled (live h) { s with
        aiMap := update (lastAdded h) a (if addNewNode then some s.index else none) } :=
      { hi.tree with }
    obtain ⟨s₁, hrun, hrest, hsettled, hleaves⟩ :=
      removeLeaf_spec htree hbound (mem_live.2 ⟨a, hk⟩) (hi.leaf hk)
    rw [← card_addedAfter] at hrun
    refine ⟨s₁, hrun, hrest.index, hrest.stack, hrest.verifyStack, ?_, ?_, fun {b m} hb hm => ?_⟩
    · rw [hrest.aiMap, ← lastAdded_update, hi.index]
    · rw [live_remove hk]
      exact hsettled
    · have hne : m ≠ k := fun heq => hb (lastAdded_inj (heq ▸ hm) hk)
      rw [hleaves m hne]
      exact hi.leaf hm

/-- A call that ends with the comparison with the stack; `finish` is what it does after it. -/
theorem Inv.answers_of_verify {c : Call} {updateStack : Bool}
    {finish : StackDistCalc → StackDistCalc} (hi : Inv h s) (hc : c.isRemoval = false)
    (hstack : s₁.stack = s.stack) (hverifyStack : s₁.verifyStack = s.verifyStack)
    (hcall : s.call c = s₁.verify c.rAddress updateStack (expected h c.rAddress).1 >>=
      fun s' => .ok (finish s', expected h c.rAddress))
    (hfinish : ∀ stack, (s.verifyStack = true → stack = if updateStack then
        (s.stack.reverse.erase c.rAddress).reverse ++ [c.rAddress] else s.stack) →
      Inv (c :: h) (finish { s₁ with stack }) ∧
      (finish { s₁ with stack }).verifyStack = s.verifyStack) : Answers h s c := by
  rw [Answers, hcall, verify, verifyStackDist, hstack]
  by_cases hon : s.verifyStack = true
  · obtain ⟨hinv, hverify⟩ := hfinish _ fun _ => rfl
    rw [if_pos (hverifyStack.trans hon)]
    dsimp only
    rw [(hi.stack hon).distance_eq]
    by_cases heq : (expected (kept h) c.rAddress).1 = (expected h c.rAddress).1
    · rw [if_neg (not_not.2 heq)]
      exact .inl ⟨_, rfl, hinv, hverify, fun _ _ => heq⟩
    · rw [if_pos heq]
      exact .inr ⟨rfl, hon, fun hagrees => heq (hagrees hc)⟩
  · obtain ⟨hinv, hverify⟩ := hfinish s₁.stack fun h => absurd h hon
    rw [if_neg (hverifyStack ▸ hon)]
    exact .inl ⟨_, rfl, hinv, hverify, fun h => absurd h hon⟩

theorem lastMark_of_ne {b : ℕ} (hb : b ≠ a) :
    lastMark (.calcStackDistAndUpdate a addNewNode :: h) b = lastMark h b := if_neg hb

theorem Inv.answers_remove (hi : Inv h s) (hbound : s.index < 2 ^ 31) :
    Answers h s (.calcStackDistAndUpdate a false) := by
  obtain ⟨s₁, hrun, hf⟩ := hi.forget a false hbound
  refine .inl ⟨s₁, ?_, ?_, hf.verifyStack, fun _ hc => by cases hc⟩
  · rw [call, calcStackDistAndUpdate, hrun]
    rfl
  · exact
      { index := hf.index.trans hi.index
        __ := hf
        leaf := by
          intro b k hk
          have hb : b ≠ a := by
            rintro rfl
            rw [lastAdded_remove_self] at hk
            cases hk
          rw [lastMark_of_ne hb]
          exact hf.leaf hb (lastAdded_of_ne hb ▸ hk)
        -- the stack still has the address
        stack := fun hon => hf.stack ▸ hi.stack (hf.verifyStack ▸ hon) }

theorem Inv.answers_add (hi : Inv h s) (hbound : s.index < 2 ^ 31) :
    Answers h s (.calcStackDistAndUpdate a true) := by
  obtain ⟨s₁, hforget, hf⟩ := hi.forget a true hbound
  obtain ⟨s₂, hadd, hrest, hsanity, hsettled, hleaves⟩ := addLeaf_spec hf.tree (hf.index ▸ hbound)
  have hstack : s₂.stack = s.stack := hrest.stack.trans hf.stack
  have hverifyStack : s₂.verifyStack = s.verifyStack := hrest.verifyStack.trans hf.verifyStack
  have hindex : s₁.index = additions h := hf.index.trans hi.index
  have hcall : s.call (.calcStackDistAndUpdate a true) =
      s₂.verify a true (expected h a).1 >>= fun s' =>
      .ok ({ s' with index := s'.index + 1 }, expected h a) := by
    have hcheck : s₂.sanityCheckTree s₂.index = .ok () := hrest.index.symm ▸ hsanity
    rw [call, calcStackDistAndUpdate, hforget]
    change add s₁ a (expected h a).1 >>= _ = _
    rw [add, hadd]
    change (if s₂.verifyStack = true then s₂.sanityCheckTree s₂.index >>= _ else _) >>= _ = _
    rw [hcheck]
    cases s₂.verify a true (expected h a).1 with
    | error e =>
      split
      · rfl
      · rfl
    | ok s' =>
      split
      · rfl
      · rfl
  refine hi.answers_of_verify rfl hstack hverifyStack hcall fun stack hpushed => ⟨?_, hverifyStack⟩
  exact
    { index := congrArg (· + 1) (hrest.index.trans hindex)
      aiMap := hrest.aiMap.trans hf.aiMap
      leaf := by
        intro b k hk
        rw [hleaves]
        by_cases hb : b = a
        · subst hb
          rw [lastAdded_add_self] at hk
          cases hk
          rw [hindex, update_self, lastMark, if_pos rfl]
        · rw [lastAdded_of_ne hb] at hk
          rw [update_of_ne (hindex ▸ (lastAdded_lt hk).ne), lastMark_of_ne hb]
          exact hf.leaf hb hk
      tree := by
        rw [live_add, ← hindex]
        rw [← hrest.index] at hsettled ⊢
        exact { hsettled with }
      stack := by
        intro hon
        have hranked := (hi.stack (hverifyStack ▸ hon)).add (a := a)
        rw [hpushed (hverifyStack ▸ hon), if_pos rfl, reverse_append, reverse_reverse]
        exact hranked }

theorem live_calcStackDist : live (.calcStackDist a mark :: h) = live h := by
  ext m
  rw [mem_live, mem_live]
  rfl

theorem Inv.lookup (a : ℕ) (mark : Bool) (hi : Inv h s) :
    ∃ s₁, s.lookup a mark = .ok (s₁, expected h a) ∧ Inv (.calcStackDist a mark :: h) s₁ ∧
      s₁.stack = s.stack ∧ s₁.verifyStack = s.verifyStack := by
  have hstack : s.verifyStack = true → Ranked (kept (.calcStackDist a mark :: h)) s.stack.reverse :=
    fun hon => (hi.stack hon).calcStackDist
  have htree : TreeSettled (live (.calcStackDist a mark :: h)) s := by
    rw [live_calcStackDist]
    exact hi.tree
  have hfound : s.aiMap a = lastAdded h a := congrFun hi.aiMap a
  unfold StackDistCalc.lookup expected
  rw [hfound]
  cases hk : lastAdded h a with
  | none =>
    refine ⟨s, rfl, ⟨hi.index, hi.aiMap, ?_, htree, hstack⟩, rfl, rfl⟩
    intro b m hm
    have hb : b ≠ a := by
      rintro rfl
      exact some_ne_none m (hm.symm.trans hk)
    rw [lastMark, if_neg hb]
    exact hi.leaf hm
  | some k =>
    have hlayers : ∀ x i, s.tree.set 0 k x (i + 1) = s.tree (i + 1) :=
      fun x i => set_of_ne (succ_ne_zero i)
    have hpath : ∀ x i, 0 ≤ i → i < s.treeDepth →
        OnPath (live h) s.index s.treeDepth i k (s.tree.set 0 k x (i + 1)) := by
      intro x i _ hlt
      rw [hlayers]
      exact (hi.tree.layer i hlt).onPath ((hi.tree.layer i hlt).kept k (mem_live.2 ⟨a, hk⟩))
    have hmarked : (s.tree.set 0 k (some (leafNode k mark))).deref 0 (some k) =
        .ok (leafNode k mark) := by
      apply deref_eq
      rw [set_layer, update_self]
    have hsum := getSum_spec (beyond_root hi.tree.below hi.tree.fits) 0 (Nat.zero_add s.treeDepth)
      hi.tree.pos (hpath (some (leafNode k mark)))
    simp only [Nat.zero_add, pow_one, pow_zero, Nat.div_one, ← card_addedAfter] at hsum
    refine ⟨{ s with tree := s.tree.set 0 k (some (leafNode k mark)) }, ?_, ?_, rfl, rfl⟩
    · dsimp only
      rw [deref_eq (hi.leaf hk)]
      change getSumsLeavesToRoot { s with tree := s.tree.set 0 k (some (leafNode k mark)) }
        k >>= _ = _
      rw [getSumsLeavesToRoot, hmarked]
      change getSum s.treeDepth _ (some (k / 2)) (decide (k % 2 = 0)) 0 0 >>= _ = _
      rw [hsum]
      rfl
    · refine ⟨hi.index, hi.aiMap, ?_, ?_, hstack⟩
      · intro b m hm
        dsimp only
        rw [set_layer]
        by_cases hb : b = a
        · subst hb
          obtain rfl : k = m := some.inj (hk.symm.trans hm)
          rw [update_self, lastMark, if_pos rfl]
        · have hne : m ≠ k := fun heq => hb (lastAdded_inj (heq ▸ hm) hk)
          rw [update_of_ne hne, lastMark, if_neg hb]
          exact hi.leaf hm
      · refine { htree with layer := fun i hlt => ?_ }
        dsimp only
        rw [hlayers]
        exact htree.layer i hlt

theorem Inv.answers_calcStackDist (hi : Inv h s) : Answers h s (.calcStackDist a mark) := by
  obtain ⟨s₁, hrun, hi₁, hstack, hverifyStack⟩ := hi.lookup a mark
  have hcall : s.call (.calcStackDist a mark) =
      s₁.verify a false (expected h a).1 >>= fun s' => .ok (s', expected h a) := by
    rw [call, calcStackDist, hrun]
    rfl
  refine hi.answers_of_verify rfl hstack hverifyStack hcall fun stack hsame =>
    ⟨{ hi₁ with tree := ?_, stack := ?_ }, hverifyStack⟩
  · exact { hi₁.tree with }
  · intro hon
    rw [hsame (hverifyStack ▸ hon), if_neg Bool.false_ne_true, ← hstack]
    exact hi₁.stack hon

/-- Every call returns the distance and the mark of its address, up to the failure of a
comparison. -/
theorem Inv.answers (hi : Inv h s) (hbound : s.index < 2 ^ 31) (c : Call) : Answers h s c := by
  cases c with
  | calcStackDistAndUpdate a addNewNode =>
    cases addNewNode with
    | true => exact hi.answers_add hbound
    | false => exact hi.answers_remove hbound
  | calcStackDist a mark => exact hi.answers_calcStackDist

/-! ## Runs -/

/-- What a sequence of calls returns is right, it stops only where the comparison with the stack
fails, and that happens only if the comparison is made and an address was removed. -/
structure Correct (verifyStack : Bool) (h calls : List Call)
    (run : List (ℕ × Bool) × Result StackDistCalc) : Prop where
  answers : run.1 <+: expectedAnswers h calls
  all : ∀ s, run.2 = .ok s → run.1 = expectedAnswers h calls
  halt : ∀ e, run.2 = .error e → e = .unexpectedStackDistance ∧ verifyStack = true ∧
    ¬ Additive (h ++ calls)

theorem additions_cons (c : Call) (h : List Call) :
    additions (c :: h) = additions [c] + additions h := by
  cases c with
  | calcStackDistAndUpdate a addNewNode =>
    cases addNewNode with
    | true => exact Nat.add_comm _ _
    | false => exact (Nat.zero_add _).symm
  | calcStackDist a mark => exact (Nat.zero_add _).symm

/-- A call that is made leaves the calls to come and joins the history. -/
theorem additions_shift (c : Call) (h calls : List Call) :
    additions (c :: h) + additions calls = additions h + additions (c :: calls) := by
  rw [additions_cons c h, additions_cons c calls, Nat.add_comm (additions [c]), Nat.add_assoc]

theorem Inv.correct {calls : List Call} (hi : Inv h s)
    (hbound : additions h + additions calls < 2 ^ 31) :
    Correct s.verifyStack h calls (s.run calls) := by
  induction calls generalizing h s with
  | nil => exact ⟨prefix_rfl, fun _ _ => rfl, fun e he => by cases he⟩
  | cons c calls ih =>
    have hadditions := additions_shift c h calls
    rcases hi.answers (by rw [hi.index]; omega) c with ⟨s', hcall, hi', hverify, -⟩ |
      ⟨hcall, hon, hnot⟩
    · have hrest := ih hi' (by omega)
      have hrun : s.run (c :: calls) =
          (expected h c.rAddress :: (s'.run calls).1, (s'.run calls).2) := by
        rw [run, hcall]
      rw [hrun]
      refine ⟨List.cons_prefix_cons.2 ⟨rfl, hrest.answers⟩, fun s'' hs => ?_, fun e he => ?_⟩
      · rw [expectedAnswers, ← hrest.all s'' hs]
      · obtain ⟨hhalt, hon, hnot⟩ := hrest.halt e he
        refine ⟨hhalt, hverify ▸ hon, fun hadditive => hnot fun a hmem => hadditive a ?_⟩
        rw [mem_append, List.mem_cons] at hmem ⊢
        tauto
    · have hrun : s.run (c :: calls) = ([], .error .unexpectedStackDistance) := by
        rw [run, hcall]
      rw [hrun]
      refine ⟨List.nil_prefix, fun s' hs => (by cases hs), fun e he => ?_⟩
      cases he
      exact ⟨rfl, hon, fun hadditive =>
        hnot (Additive.agrees (fun a hmem => hadditive a (mem_append_left _ hmem)) c)⟩

/-- For all sequences of calls with fewer than `2 ^ 31` additions, the calculator returns the
distances of the LRU stack and the last marks, and follows no pointer that does not lead to a
node. -/
theorem StackDistCalc.distances_lru (verifyStack : Bool) (calls : List Call)
    (hbound : additions calls < 2 ^ 31) :
    Correct verifyStack [] calls ((StackDistCalc.new verifyStack).run calls) := by
  apply (inv_new verifyStack).correct
  rw [additions, Nat.zero_add]
  exact hbound

/-- An address that is added twice, with a mark set between, and one that is removed. -/
theorem StackDistCalc.distances_lru_reuse :
    Correct false [] [.calcStackDistAndUpdate 64 true, .calcStackDistAndUpdate 128 true,
        .calcStackDist 64 true, .calcStackDistAndUpdate 64 true, .calcStackDistAndUpdate 64 false,
        .calcStackDist 64 false]
      ((StackDistCalc.new false).run [.calcStackDistAndUpdate 64 true,
        .calcStackDistAndUpdate 128 true, .calcStackDist 64 true, .calcStackDistAndUpdate 64 true,
        .calcStackDistAndUpdate 64 false, .calcStackDist 64 false]) ∧
      expectedAnswers [] [.calcStackDistAndUpdate 64 true, .calcStackDistAndUpdate 128 true,
        .calcStackDist 64 true, .calcStackDistAndUpdate 64 true, .calcStackDistAndUpdate 64 false,
        .calcStackDist 64 false]
      = [(Infinity, false), (Infinity, false), (1, false), (1, true), (0, false),
          (Infinity, false)] :=
  ⟨distances_lru false _ (by decide), by decide⟩

end EnocGem5.StackDist
