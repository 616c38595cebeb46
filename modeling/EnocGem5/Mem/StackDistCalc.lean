import Mathlib

/-!
# StackDistCalc — stack distances from a tree of partial sums

The calculator of `mem/stack_dist_calc.cc`. Each addition of an address gets a leaf of a binary
tree, numbered by the counter `index`; an inner node has the numbers of leaves below its left and
below its right half. The stack distance of an address is the sum of the right halves that are
passed on the way from its leaf to the root.

Layers of the tree are maps from indices to nodes, and nodes have pointers to their parents, which
are in the next layer up. A pointer is an index in that layer here; to follow it is to look it up,
and what is not found stops the program, as a null or dangling pointer would. With `verifyStack` the
calculator compares itself with a plain stack of addresses and checks the shape of the tree, and
stops if there is a difference.

The counters are 64-bit numbers, and none of them gets near its bound within the `2 ^ 31` additions
for which `1 << i` is defined for all layers.
-/

namespace EnocGem5.StackDist

open Function

inductive Halt
  /-- A pointer is followed that does not point to a node. -/
  | missing
  /-- `1 << i` is not an `int`. -/
  | undefinedShift
  /-- The panics of the verification. -/
  | errorInSumLeft
  | errorInSumRight
  | sanityCheckFailed
  | unexpectedStackDistance
deriving DecidableEq, Repr

abbrev Result := Except Halt

/-- `std::numeric_limits<uint64_t>::max()`. -/
def Infinity : ℕ := 2 ^ 64 - 1

structure Node where
  sumLeft : ℕ := 0
  sumRight : ℕ := 0
  discardLeft : Bool := false
  discardRight : Bool := false
  nodeIndex : ℕ := 0
  parent : Option ℕ := none
  isLeftNode : Bool := true
  isMarked : Bool := false
deriving DecidableEq, Repr

/-! ## Layers -/

/-- The nodes of each layer, by their indices. -/
abbrev Tree := ℕ → ℕ → Option Node

namespace Tree

/-- `tree[level][j]`, as a pointer. -/
def pointer (tree : Tree) (level j : ℕ) : Option ℕ := (tree level j).map fun _ => j

def deref (tree : Tree) (level : ℕ) : Option ℕ → Result Node
  | none => throw .missing
  | some j =>
    match tree level j with
    | some node => pure node
    | none => throw .missing

def set (tree : Tree) (level j : ℕ) (node : Option Node) : Tree :=
  update tree level (update (tree level) j node)

end Tree

/-- `1 << i`, an `int`. -/
def oneShifted (i : ℕ) : Result ℕ :=
  if i < 31 then pure (2 ^ i) else throw .undefinedShift

/-! ## Sums -/

namespace Node

/-- The checks of a node's sums in `updateSum`. -/
def checkSums (node : Node) (verifyStack : Bool) (level : ℕ) : Result Unit :=
  if verifyStack then do
    if node.sumLeft > (← oneShifted (level - 1)) then throw .errorInSumLeft
    if node.sumRight > (← oneShifted (level - 1)) then throw .errorInSumRight
  else pure ()

/-- The new values of a node that `updateSum` reaches from below. -/
def updated (node : Node) (fromLeft : Bool) (sumFromBelow : ℕ) (discardNode : Bool) : Node :=
  -- sum_from_below == 0 can be a leaf discard operation
  let discarded := discardNode && sumFromBelow == 0
  if fromLeft then
    { node with sumLeft := sumFromBelow, discardLeft := node.discardLeft || discarded }
  else
    { node with sumRight := sumFromBelow, discardRight := node.discardRight || discarded }

def isDiscarded (node : Node) (sumFromBelow : ℕ) (discardNode : Bool) : Bool :=
  node.discardLeft && node.discardRight && discardNode && node.parent.isSome && sumFromBelow == 0

end Node

/-- `updateSum`. The first number is that of the layers above `level`. -/
def updateSum (verifyStack : Bool) : ℕ → Tree → Option ℕ → Bool → ℕ → ℕ → ℕ → Bool →
    Result (Tree × ℕ)
  | 0, _, _, _, _, _, _, _ => throw .missing
  | above + 1, tree, pointer, fromLeft, sumFromBelow, level, stackDist, discardNode => do
    let level := level + 1
    let old ← tree.deref level pointer
    old.checkSums verifyStack level
    -- stack_dist is updated only when arriving from the left
    let stackDist := if fromLeft then stackDist + old.sumRight else stackDist
    let node := old.updated fromLeft sumFromBelow discardNode
    let tree := tree.set level (pointer.getD 0) (some node)
    let discardNode := node.isDiscarded sumFromBelow discardNode
    let tree := if discardNode then tree.set level node.nodeIndex none else tree
    match node.parent with
    | none => pure (tree, stackDist)
    | some parent =>
      updateSum verifyStack above tree (some parent) node.isLeftNode (node.sumLeft + node.sumRight)
        level stackDist discardNode

/-- `getSum`. It is also given the sum from below, and does not use it. -/
def getSum : ℕ → Tree → Option ℕ → Bool → ℕ → ℕ → Result ℕ
  | 0, _, _, _, _, _ => throw .missing
  | above + 1, tree, pointer, fromLeft, stackDist, level => do
    let level := level + 1
    let node ← tree.deref level pointer
    let stackDist := if fromLeft then stackDist + node.sumRight else stackDist
    match node.parent with
    | none => pure stackDist
    | some parent => getSum above tree (some parent) node.isLeftNode stackDist level

/-- The walk of `sanityCheckTree`: the next so many parents exist, and then there is none. -/
def climb (tree : Tree) : ℕ → ℕ → Option ℕ → Result Unit
  | 0, level, nextUp => do
    let node ← tree.deref level nextUp
    if node.parent.isSome then throw .sanityCheckFailed
  | steps + 1, level, nextUp => do
    let node ← tree.deref level nextUp
    match node.parent with
    | none => throw .sanityCheckFailed
    | some parent => climb tree steps (level + 1) (some parent)

/-! ## The calculator -/

/-- `treeDepth` is one less than the number of layers. -/
structure StackDistCalc where
  index : ℕ
  tree : Tree
  treeDepth : ℕ
  aiMap : ℕ → Option ℕ
  nextIndex : ℕ → ℕ
  stack : List ℕ
  verifyStack : Bool

/-- The constructor: an empty layer of leaves, and a root. -/
def StackDistCalc.new (verifyStack : Bool) : StackDistCalc where
  index := 0
  tree := Tree.set (fun _ _ => none) 1 0 (some {})
  treeDepth := 1
  aiMap := fun _ => none
  nextIndex := fun i => if i = 0 then 0 else 1
  stack := []
  verifyStack := verifyStack

def leastSigBit (n : BitVec 64) : BitVec 64 := n &&& ~~~(n - 1)

def isPowerOf2 (n : BitVec 64) : Bool := n != 0 && leastSigBit n == n

namespace StackDistCalc

variable (s : StackDistCalc)

/-- `updateSumsLeavesToRoot`, for the leaf `r`. -/
def updateSumsLeavesToRoot (r : ℕ) (isNewLeaf : Bool) : Result (Tree × ℕ) := do
  let node ← s.tree.deref 0 (some r)
  if isNewLeaf then
    let tree := s.tree.set 0 r (some { node with sumLeft := 1 })
    let (tree, _) ← updateSum s.verifyStack s.treeDepth tree node.parent node.isLeftNode 1 0 0 false
    pure (tree, Infinity)
  else
    let tree := s.tree.set 0 r (some { node with sumLeft := 0 })
    updateSum s.verifyStack s.treeDepth tree node.parent node.isLeftNode 0 0 0 true

def getSumsLeavesToRoot (r : ℕ) : Result ℕ := do
  let node ← s.tree.deref 0 (some r)
  getSum s.treeDepth s.tree node.parent node.isLeftNode 0 0

/-- A new intermediate node in the layer `i`, under the last node of the layer above. -/
def addINode (i : ℕ) : StackDistCalc :=
  let nodeIndex := s.nextIndex i
  let newINode : Node :=
    { nodeIndex
      isLeftNode := nodeIndex % 2 == 0
      parent := s.tree.pointer (i + 1) (s.nextIndex (i + 1) - 1) }
  { s with
    nextIndex := update s.nextIndex i (nodeIndex + 1)
    tree := s.tree.set i nodeIndex (some newINode) }

/-- The loops of `updateTree`, down to the layer above the leaves. `due` says which layers get a
node. -/
def addINodes (due : ℕ → Result Bool) : ℕ → StackDistCalc → Result StackDistCalc
  | 0, s => pure s
  | i + 1, s => do
    let isDue ← due (i + 1)
    addINodes due i (if isDue then s.addINode (i + 1) else s)

/-- The new layer of `updateTree`, with a root above the old one. -/
def addRoot : Result StackDistCalc := do
  let root ← s.tree.deref s.treeDepth (some 0)
  let newRoot : Node :=
    { sumLeft := root.sumRight + root.sumLeft
      discardLeft := root.discardLeft && root.discardRight }
  let depth := s.treeDepth + 1
  let tree := Tree.set (update s.tree depth fun _ => none) depth 0 (some newRoot)
  pure { s with
    treeDepth := depth
    nextIndex := update s.nextIndex depth 1
    tree := tree.set s.treeDepth 0 (some { root with parent := tree.pointer depth 0 }) }

def updateTree : Result StackDistCalc :=
  if isPowerOf2 s.index then do
    let s ← s.addRoot
    s.addINodes (fun _ => pure true) (s.treeDepth - 1)
  else
    s.addINodes (fun i => do return s.index % (← oneShifted i) == 0) (s.treeDepth - 1)

/-- The old leaf of an address in `calcStackDistAndUpdate`: the distance, the mark, and no leaf any
more. -/
def removeLeaf (r : ℕ) : Result (StackDistCalc × ℕ × Bool) := do
  let (tree, stackDist) ← s.updateSumsLeavesToRoot r false
  let leaf ← tree.deref 0 (some r)
  pure ({ s with tree := tree.set 0 r none }, stackDist, leaf.isMarked)

/-- If index%2 == 0 then update tree. -/
def growTree : Result StackDistCalc :=
  if s.index % 2 = 0 then s.updateTree else pure s

/-- The new leaf of `calcStackDistAndUpdate`. -/
def addLeaf : Result StackDistCalc := do
  let s ← s.growTree
  let newLeaf : Node :=
    { nodeIndex := s.index
      isLeftNode := s.index % 2 == 0
      parent := s.tree.pointer 1 (s.nextIndex 1 - 1) }
  let s := { s with
    nextIndex := update s.nextIndex 0 (s.nextIndex 0 + 1)
    tree := s.tree.set 0 s.index (some newLeaf) }
  let (tree, _) ← s.updateSumsLeavesToRoot s.index true
  pure { s with tree }

/-- `sanityCheckTree`, for the leaf `r`. -/
def sanityCheckTree (r : ℕ) : Result Unit := do
  let node ← s.tree.deref 0 (some r)
  climb s.tree (s.treeDepth - 1) 1 node.parent

/-- `verifyStackDist`. The stack is searched from its end. -/
def verifyStackDist (rAddress : ℕ) (updateStack : Bool) : StackDistCalc × ℕ :=
  let fromTop := s.stack.reverse
  let stackDist := if rAddress ∈ fromTop then fromTop.idxOf rAddress else Infinity
  let stack := if updateStack then (fromTop.erase rAddress).reverse ++ [rAddress] else s.stack
  ({ s with stack }, stackDist)

def verify (rAddress : ℕ) (updateStack : Bool) (stackDist : ℕ) : Result StackDistCalc :=
  if s.verifyStack then
    let (s, verifyStackDist) := s.verifyStackDist rAddress updateStack
    if verifyStackDist ≠ stackDist then throw .unexpectedStackDistance else pure s
  else pure s

/-- The first half of `calcStackDistAndUpdate`, about the address as it was recorded before. -/
def forget (rAddress : ℕ) (addNewNode : Bool) : Result (StackDistCalc × ℕ × Bool) :=
  match s.aiMap rAddress with
  | some r =>
    let aiMap := update s.aiMap rAddress (if addNewNode then some s.index else none)
    { s with aiMap }.removeLeaf r
  | none =>
    let aiMap := if addNewNode then update s.aiMap rAddress (some s.index) else s.aiMap
    pure ({ s with aiMap }, Infinity, false)

/-- The second half of `calcStackDistAndUpdate`, for `addNewNode`. -/
def add (rAddress stackDist : ℕ) : Result StackDistCalc := do
  let s ← s.addLeaf
  if s.verifyStack then s.sanityCheckTree s.index
  let s ← s.verify rAddress true stackDist
  pure { s with index := s.index + 1 }

def calcStackDistAndUpdate (rAddress : ℕ) (addNewNode : Bool) :
    Result (StackDistCalc × ℕ × Bool) := do
  let (s, stackDist, mark) ← s.forget rAddress addNewNode
  if addNewNode then
    let s ← s.add rAddress stackDist
    pure (s, stackDist, mark)
  else pure (s, stackDist, mark)

def lookup (rAddress : ℕ) (mark : Bool) : Result (StackDistCalc × ℕ × Bool) :=
  match s.aiMap rAddress with
  | some r => do
    let leaf ← s.tree.deref 0 (some r)
    let s := { s with tree := s.tree.set 0 r (some { leaf with isMarked := mark }) }
    let stackDist ← s.getSumsLeavesToRoot r
    pure (s, stackDist, leaf.isMarked)
  | none => pure (s, Infinity, false)

def calcStackDist (rAddress : ℕ) (mark : Bool) : Result (StackDistCalc × ℕ × Bool) := do
  let (s, stackDist, isMarked) ← s.lookup rAddress mark
  let s ← s.verify rAddress false stackDist
  pure (s, stackDist, isMarked)

end StackDistCalc

/-! ## Runs -/

inductive Call
  | calcStackDistAndUpdate (rAddress : ℕ) (addNewNode : Bool)
  | calcStackDist (rAddress : ℕ) (mark : Bool)
deriving DecidableEq, Repr

def Call.rAddress : Call → ℕ
  | .calcStackDistAndUpdate rAddress _ => rAddress
  | .calcStackDist rAddress _ => rAddress

namespace StackDistCalc

def call (s : StackDistCalc) : Call → Result (StackDistCalc × ℕ × Bool)
  | .calcStackDistAndUpdate rAddress addNewNode => s.calcStackDistAndUpdate rAddress addNewNode
  | .calcStackDist rAddress mark => s.calcStackDist rAddress mark

/-- The distances and marks that a sequence of calls returns, and how it ends. -/
def run : StackDistCalc → List Call → List (ℕ × Bool) × Result StackDistCalc
  | s, [] => ([], .ok s)
  | s, c :: calls =>
    match s.call c with
    | .error halt => ([], .error halt)
    | .ok (s, answer) => ((answer :: (run s calls).1), (run s calls).2)

end StackDistCalc

end EnocGem5.StackDist
