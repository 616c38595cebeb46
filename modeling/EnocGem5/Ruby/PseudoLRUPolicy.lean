import EnocGem5.Lib.VictimTree

/-!
# PseudoLRUPolicy — tree pseudo-LRU replacement

The tree of a set is packed into one word, and `touch` and `getVictim` walk it with arithmetic of
their own. Both are the operations of the tree of depth `m_num_levels` that the word holds
(`treeAt_touchTree`, `victimIndex_eq`), also where the associativity is not a power of two: then the
result is limited to the last way, which is in the upper half.
-/

namespace EnocGem5.Ruby

open Lib Nat BitVec

/-- `m_effective_assoc`, the loop of the constructor: the ceiling power of two. -/
def effectiveAssoc (m_assoc : ℕ) : (fuel m_effective_assoc : ℕ) → ℕ
  | 0, m_effective_assoc => m_effective_assoc
  | fuel + 1, m_effective_assoc =>
    if m_effective_assoc < m_assoc then effectiveAssoc m_assoc fuel (m_effective_assoc <<< 1)
      else m_effective_assoc

/-- `m_num_levels`, the loop of the constructor. -/
def numLevels : (fuel tmp_assoc : ℕ) → ℕ
  | 0, _ => 0
  | fuel + 1, tmp_assoc => if tmp_assoc / 2 = 0 then 0 else numLevels fuel (tmp_assoc / 2) + 1

structure PseudoLRUPolicy where
  m_num_sets : ℕ
  m_assoc : ℕ
  m_effective_assoc : ℕ
  m_num_levels : ℕ
  m_trees : ℕ → BitVec 64
  m_last_ref_ptr : ℕ → ℕ → ℕ

/-- The shift of an `int`, as an operand of a word of 64 bits. -/
def nodeMask (tree_index : ℕ) : BitVec 64 := (1#32 <<< tree_index).signExtend 64

/-- The loop of `touch`, from level `i` down. -/
def touchTree (index : ℕ) : (i tree_index : ℕ) → BitVec 64 → BitVec 64
  | 0, _, tree => tree
  | i + 1, tree_index, tree =>
    if index.testBit i then touchTree index i (tree_index * 2 + 2) (tree ||| nodeMask tree_index)
    else touchTree index i (tree_index * 2 + 1) (tree &&& ~~~ nodeMask tree_index)

/-- What the rest of the loop of `getVictim` adds to the index, with `left` levels to go from level
`i`. -/
def victimIndex (m_effective_assoc : ℕ) (tree : BitVec 64) : (left i tree_index : ℕ) → ℕ
  | 0, _, _ => 0
  | left + 1, i, tree_index =>
    if tree.getLsbD tree_index then victimIndex m_effective_assoc tree left (i + 1)
      (tree_index * 2 + 1)
    else m_effective_assoc >>> (i + 1) + victimIndex m_effective_assoc tree left (i + 1)
      (tree_index * 2 + 2)

namespace PseudoLRUPolicy

/-- The constructor, with its assertions. -/
def new (m_num_sets m_assoc : ℕ) : Option PseudoLRUPolicy :=
  let m_effective_assoc := effectiveAssoc m_assoc m_assoc 1
  let m_num_levels := numLevels m_effective_assoc m_effective_assoc
  if 0 < m_num_sets ∧ 1 < m_assoc ∧ m_assoc ≤ 32 ∧ m_num_levels < 16 then
    some { m_num_sets, m_assoc, m_effective_assoc, m_num_levels, m_trees := fun _ => 0,
           m_last_ref_ptr := fun _ _ => 0 }
  else none

variable (p : PseudoLRUPolicy)

/-- What `touch` does after its assertions. -/
def touched (set index time : ℕ) : PseudoLRUPolicy :=
  { p with
    m_trees := Function.update p.m_trees set (touchTree index p.m_num_levels 0 (p.m_trees set))
    m_last_ref_ptr := Function.update p.m_last_ref_ptr set
      (Function.update (p.m_last_ref_ptr set) index time) }

def touch (set index time : ℕ) : Option PseudoLRUPolicy :=
  if index < p.m_assoc ∧ set < p.m_num_sets then some (p.touched set index time) else none

def getVictim (set : ℕ) : Option ℕ :=
  let index := victimIndex p.m_effective_assoc (p.m_trees set) p.m_num_levels 0 0
  if index < p.m_effective_assoc then some (if index > p.m_assoc - 1 then p.m_assoc - 1 else index)
    else none

structure Touch where
  set : ℕ
  index : ℕ
  time : ℕ

def run : PseudoLRUPolicy → List Touch → Option PseudoLRUPolicy
  | p, [] => some p
  | p, t :: touches => (p.touch t.set t.index t.time).bind (run · touches)

/-- The way of the set that is touched last in the sequence, or `last` if none is. -/
def lastTouched (set : ℕ) : (last : Option ℕ) → List Touch → Option ℕ
  | last, [] => last
  | last, t :: touches => lastTouched set (if t.set = set then some t.index else last) touches

/-- The ways that `n` rounds of `getVictim` and a `touch` of the victim return, at any times. -/
def rounds (set : ℕ) (time : ℕ → ℕ) : (n : ℕ) → PseudoLRUPolicy → Option (List ℕ)
  | 0, _ => some []
  | n + 1, p =>
    (p.getVictim set).bind fun victim =>
      (p.touch set victim (time n)).bind fun p' => (rounds set time n p').map (victim :: ·)

end PseudoLRUPolicy

/-! ## The geometry -/

/-- The tree has room for the ways, and its upper half is used. -/
structure TreeShape (m_assoc m_effective_assoc m_num_levels : ℕ) : Prop where
  pow : m_effective_assoc = 2 ^ m_num_levels
  le : m_assoc ≤ 2 ^ m_num_levels
  half : 2 ^ (m_num_levels - 1) < m_assoc
  pos : 0 < m_num_levels
  small : m_num_levels ≤ 5

theorem treeShape :
    ∀ m_assoc ≤ 32, 1 < m_assoc → TreeShape m_assoc (effectiveAssoc m_assoc m_assoc 1)
    (numLevels (effectiveAssoc m_assoc m_assoc 1) (effectiveAssoc m_assoc m_assoc 1)) := by
  have hall : ∀ m_assoc ≤ 32, 1 < m_assoc →
      let eff := effectiveAssoc m_assoc m_assoc 1
      let levels := numLevels eff eff
      eff = 2 ^ levels ∧ m_assoc ≤ 2 ^ levels ∧ 2 ^ (levels - 1) < m_assoc ∧ 0 < levels ∧
          levels ≤ 5 := by
    decide
  intro m_assoc h32 h1
  obtain ⟨hpow, hle, hhalf, hpos, hsmall⟩ := hall m_assoc h32 h1
  exact ⟨hpow, hle, hhalf, hpos, hsmall⟩

/-- If the associativity is a power of two, it is that of the tree. -/
theorem TreeShape.eq_of_pow {m_assoc m_effective_assoc m_num_levels d : ℕ}
    (h : TreeShape m_assoc m_effective_assoc m_num_levels) (hd : m_assoc = 2 ^ d) :
    m_assoc = 2 ^ m_num_levels := by
  have hle := h.le
  have hhalf := h.half
  rw [hd, Nat.pow_le_pow_iff_right (by decide)] at hle
  rw [hd, Nat.pow_lt_pow_iff_right (by decide)] at hhalf
  rw [hd, show d = m_num_levels by omega]

/-! ## The word and the tree -/

section Word

variable {tree : BitVec 64} {n m i index : ℕ}

theorem nodeMask_eq : ∀ n < 31, nodeMask n = twoPow 64 n := by
  decide

theorem getLsbD_nodeMask (hn : n < 31) (m : ℕ) : (nodeMask n).getLsbD m = decide (m = n) := by
  have h64 : n < 64 := by omega
  rw [nodeMask_eq n hn, getLsbD_twoPow]
  simp [h64, eq_comm]

/-- The mask of a node sets and clears the bit of the node alone. -/
theorem getLsbD_setNode (hn : n < 31) (m : ℕ) :
    (tree ||| nodeMask n).getLsbD m = if m = n then true else tree.getLsbD m := by
  rw [getLsbD_or, getLsbD_nodeMask hn]
  split <;> simp [*]

theorem getLsbD_clearNode (hn : n < 31) (m : ℕ) :
    (tree &&& ~~~ nodeMask n).getLsbD m = if m = n then false else tree.getLsbD m := by
  rw [getLsbD_and, getLsbD_not, getLsbD_nodeMask hn]
  by_cases hm : m = n
  · simp [hm]
  · simpa [hm] using fun hbit : tree.getLsbD m = true => lt_of_getLsbD hbit

/-- The nodes of the subtree of depth `i` at `n` have bits of an `int`. -/
def Fits (i n : ℕ) : Prop := (n + 2) * 2 ^ i ≤ 64

theorem Fits.node (h : Fits (i + 1) n) : n < 31 := by
  have hpow : 2 ≤ 2 ^ (i + 1) := le_self_pow (succ_ne_zero i) 2
  have hle : (n + 2) * 2 ≤ 64 := (mul_le_mul_left (n + 2) hpow).trans h
  omega

theorem Fits.high (h : Fits (i + 1) n) : Fits i (n * 2 + 2) := by
  calc (n * 2 + 2 + 2) * 2 ^ i = (n + 2) * 2 ^ (i + 1) := by ring
    _ ≤ 64 := h

theorem Fits.low (h : Fits (i + 1) n) : Fits i (n * 2 + 1) := by
  calc (n * 2 + 1 + 2) * 2 ^ i ≤ (n * 2 + 2 + 2) * 2 ^ i := mul_le_mul_right _ (by omega)
    _ ≤ 64 := h.high

/-- A touch changes bits of its subtree alone. -/
theorem getLsbD_touchTree (hm : ¬ VictimTree.InSubtree n m) (hfits : Fits i n) :
    (touchTree index i n tree).getLsbD m = tree.getLsbD m := by
  have hne : ∀ {n}, ¬ VictimTree.InSubtree n m → m ≠ n := by
    rintro n hm rfl
    exact hm .root
  fun_induction touchTree index i n tree with
  | case1 => rfl
  | case2 i n tree _ ih =>
    rw [ih (fun h => hm (VictimTree.InSubtree.root.high.trans h)) hfits.high,
      getLsbD_setNode hfits.node, if_neg (hne hm)]
  | case3 i n tree _ ih =>
    rw [ih (fun h => hm (VictimTree.InSubtree.root.low.trans h)) hfits.low,
      getLsbD_clearNode hfits.node, if_neg (hne hm)]

/-- The tree of depth `i` at node `n` of the word. -/
def treeAt (tree : BitVec 64) (i n : ℕ) : VictimTree i := VictimTree.read tree.getLsbD i n

/-- A step of the walk, which writes node `n` and goes on at its child `c`: the tree at the other
child is as it was. -/
theorem treeAt_step {tree' : BitVec 64} {bit : Bool} {c c' : ℕ}
    (hbits : ∀ m, tree'.getLsbD m = if m = n then bit else tree.getLsbD m) (hc : n < c)
    (hc' : n < c') (hdisjoint : ∀ m, VictimTree.InSubtree c' m → ¬ VictimTree.InSubtree c m)
    (hfits : Fits i c) :
    (touchTree index i c tree').getLsbD n = bit ∧ treeAt (touchTree index i c tree') i c' =
      treeAt tree i c' ∧ treeAt tree' i c = treeAt tree i c := by
  refine ⟨?_, VictimTree.read_congr fun m hm => ?_, VictimTree.read_congr fun m hm => ?_⟩
  · rw [getLsbD_touchTree (fun h => absurd h.le (not_le.2 hc)) hfits, hbits, if_pos rfl]
  · rw [getLsbD_touchTree (hdisjoint m hm) hfits, hbits, if_neg (hc'.trans_le hm.le).ne']
  · rw [hbits, if_neg (hc.trans_le hm.le).ne']

theorem mod_pow_succ_testBit (i index : ℕ) :
    index % 2 ^ (i + 1) = index % 2 ^ i + if index.testBit i = true then 2 ^ i else 0 := by
  rw [mod_pow_succ, testBit_eq_decide_div_mod_eq]
  rcases mod_two_eq_zero_or_one (index / 2 ^ i) with h | h <;> simp [h]

/-- The loop of `touch` is the touch of the tree. -/
theorem treeAt_touchTree (hfits : Fits i n) :
    treeAt (touchTree index i n tree) i n = (treeAt tree i n).touch (index % 2 ^ i) := by
  induction i generalizing n tree with
  | zero => rfl
  | succ i ih =>
    have hlow : n < n * 2 + 1 := by omega
    have hhigh : n < n * 2 + 2 := by omega
    have hrest : index % 2 ^ i < 2 ^ i := mod_lt _ (Nat.two_pow_pos i)
    rw [touchTree, mod_pow_succ_testBit]
    by_cases hbit : index.testBit i = true
    · -- the walk goes on in the upper tree
      obtain ⟨hnode, hother, hnext⟩ := treeAt_step (getLsbD_setNode hfits.node) hhigh hlow
        (fun m hm => hm.not_both) hfits.high
      rw [if_pos hbit, if_pos hbit, treeAt, VictimTree.read, hnode]
      change VictimTree.node true (treeAt _ i _) (treeAt _ i _) = _
      rw [hother, ih hfits.high, hnext]
      refine ((if_pos (le_add_left _ _)).trans ?_).symm
      rw [Nat.add_sub_cancel]
      rfl
    · obtain ⟨hnode, hother, hnext⟩ := treeAt_step (getLsbD_clearNode hfits.node) hlow hhigh
        (fun m hm h => h.not_both hm) hfits.low
      rw [if_neg hbit, if_neg hbit, treeAt, VictimTree.read, hnode]
      change VictimTree.node false (treeAt _ i _) (treeAt _ i _) = _
      rw [hother, ih hfits.low, hnext]
      exact (if_neg (not_le.2 hrest)).symm

/-- The loop of `getVictim` finds the victim of the tree. -/
theorem victimIndex_eq : ∀ {left i n : ℕ},
    victimIndex (2 ^ (i + left)) tree left i n = (treeAt tree left n).victim
  | 0, _, _ => rfl
  | left + 1, i, n => by
    have hstride : 2 ^ (i + (left + 1)) >>> (i + 1) = 2 ^ left := by
      rw [shiftRight_eq_div_pow, show i + (left + 1) = left + (i + 1) by ring, pow_add]
      exact Nat.mul_div_cancel _ (Nat.two_pow_pos _)
    have hexp : i + (left + 1) = i + 1 + left := by ring
    rw [victimIndex, hstride, hexp, victimIndex_eq, victimIndex_eq]
    rfl

end Word

/-! ## The policy -/

namespace PseudoLRUPolicy

variable {p : PseudoLRUPolicy} {set index : ℕ} {last : Option ℕ}

/-- What the constructor fixes. -/
def Shaped (p : PseudoLRUPolicy) : Prop := TreeShape p.m_assoc p.m_effective_assoc p.m_num_levels

def tree (p : PseudoLRUPolicy) (set : ℕ) : VictimTree p.m_num_levels :=
  treeAt (p.m_trees set) p.m_num_levels 0

theorem tree_touched_of_ne {set' : ℕ} (hne : set ≠ set') (index time : ℕ) :
    (p.touched set' index time).tree set = p.tree set :=
  congrArg (treeAt · p.m_num_levels 0) (Function.update_of_ne hne _ _)

theorem Shaped.tree_touched (h : p.Shaped) (hindex : index < p.m_assoc) (time : ℕ) :
    (p.touched set index time).tree set = (p.tree set).touch index := by
  have hfits : Fits p.m_num_levels 0 := by
    calc (0 + 2) * 2 ^ p.m_num_levels ≤ 2 * 2 ^ 5 :=
      Nat.mul_le_mul_left 2 (Nat.pow_le_pow_right Nat.two_pos h.small)
      _ ≤ 64 := by decide
  calc treeAt (Function.update p.m_trees set (touchTree index p.m_num_levels 0 (p.m_trees set)) set)
        p.m_num_levels 0
      = treeAt (touchTree index p.m_num_levels 0 (p.m_trees set)) p.m_num_levels 0 := by
        rw [Function.update_self]
    _ = (p.tree set).touch (index % 2 ^ p.m_num_levels) := treeAt_touchTree hfits
    _ = (p.tree set).touch index := by rw [mod_eq_of_lt (hindex.trans_le h.le)]

/-- `getVictim` is the victim of the tree, or the last way if there is no such way. -/
theorem Shaped.getVictim_eq (h : p.Shaped) (set : ℕ) :
    p.getVictim set = some (min (p.tree set).victim (p.m_assoc - 1)) := by
  have hindex : victimIndex p.m_effective_assoc (p.m_trees set) p.m_num_levels 0 0 =
      (p.tree set).victim := by
    rw [h.pow, tree, ← victimIndex_eq, zero_add]
  rw [getVictim, hindex, if_pos (h.pow ▸ (p.tree set).victim_lt)]
  congr 1
  split <;> omega

/-- The victim of the set and the way touched last are in different halves. -/
def Apart (p : PseudoLRUPolicy) (set : ℕ) (last : Option ℕ) : Prop :=
  ∀ way, last = some way → ((p.tree set).victim < 2 ^ (p.m_num_levels - 1) ↔
    2 ^ (p.m_num_levels - 1) ≤ way)

theorem Shaped.victim_ne (h : p.Shaped) (ha : p.Apart set last) :
    ∃ victim, p.getVictim set = some victim ∧ victim < p.m_assoc ∧ last ≠ some victim := by
  have hhalf := h.half
  have hpos := Nat.two_pow_pos (p.m_num_levels - 1)
  refine ⟨_, h.getVictim_eq set, by omega, fun hlast => ?_⟩
  have := ha _ hlast
  -- if the victim is in the upper half, so is the last way
  omega

theorem Shaped.apart_touched (h : p.Shaped) (ha : p.Apart set last) {t : Touch}
    (hindex : t.index < p.m_assoc) :
    (p.touched t.set t.index t.time).Apart set (if t.set = set then some t.index else last) := by
  by_cases hset : t.set = set
  · subst hset
    rw [if_pos rfl]
    rintro _ ⟨⟩
    rw [h.tree_touched hindex]
    exact (p.tree t.set).victim_touch_half h.pos t.index
  · rw [if_neg hset]
    intro way hway
    rw [tree_touched_of_ne (Ne.symm hset)]
    exact ha way hway

theorem Shaped.run {touches : List Touch} (h : p.Shaped) (ha : p.Apart set last)
    (hvalid : ∀ t ∈ touches, t.index < p.m_assoc ∧ t.set < p.m_num_sets) :
    ∃ p' victim, p.run touches = some p' ∧ p'.getVictim set = some victim ∧ victim < p.m_assoc ∧
      lastTouched set last touches ≠ some victim := by
  induction touches generalizing p last with
  | nil =>
    obtain ⟨victim, hvictim, hlt, hne⟩ := h.victim_ne ha
    exact ⟨p, victim, rfl, hvictim, hlt, hne⟩
  | cons t touches ih =>
    rcases List.forall_mem_cons.1 hvalid with ⟨ht, hrest⟩
    have htouch : p.touch t.set t.index t.time = some (p.touched t.set t.index t.time) := if_pos ht
    rw [PseudoLRUPolicy.run, htouch]
    exact ih h (h.apart_touched ha ht.1) hrest

/-- Where the ways fill the tree, rounds of the policy are turns of the tree. -/
theorem Shaped.rounds_eq (time : ℕ → ℕ) :
    ∀ {n : ℕ} {p : PseudoLRUPolicy}, p.Shaped → p.m_assoc = 2 ^ p.m_num_levels →
    set < p.m_num_sets → rounds set time n p = some ((p.tree set).victims n)
  | 0, _, _, _, _ => rfl
  | n + 1, p, h, hfull, hset => by
    have hlt : (p.tree set).victim < p.m_assoc := hfull ▸ (p.tree set).victim_lt
    have hvictim : p.getVictim set = some (p.tree set).victim := by
      rw [h.getVictim_eq, min_eq_left (by omega)]
    have htouch : p.touch set (p.tree set).victim (time n) =
        some (p.touched set (p.tree set).victim (time n)) :=
      if_pos ⟨hlt, hset⟩
    have hrest := @rounds_eq time n (p.touched set (p.tree set).victim (time n)) h hfull hset
    rw [h.tree_touched hlt] at hrest
    rw [rounds, hvictim, Option.bind_some, htouch, Option.bind_some, hrest]
    rfl

theorem Shaped.rounds_nodup {d : ℕ} (h : p.Shaped) (hd : p.m_assoc = 2 ^ d)
    (hset : set < p.m_num_sets) (time : ℕ → ℕ) :
    ∃ victims, rounds set time p.m_assoc p = some victims ∧ victims.length = p.m_assoc ∧
      victims.Nodup ∧ ∀ victim ∈ victims, victim < p.m_assoc := by
  have hfull := h.eq_of_pow hd
  refine ⟨_, h.rounds_eq time hfull hset, VictimTree.length_victims _ _, ?_, ?_⟩
  · rw [hfull]
    exact VictimTree.victims_nodup _
  · rw [hfull]
    exact VictimTree.victims_lt _ _

/-- For each associativity that the constructor allows, the victim after any touches is a way other
than the one touched last, and if it is a power of two, rounds of victims that are touched use each
way once, from any trees. -/
theorem victims_rotate (m_num_sets m_assoc : ℕ) (hsets : 0 < m_num_sets) (h2 : 2 ≤ m_assoc)
    (h32 : m_assoc ≤ 32) : ∃ p, new m_num_sets m_assoc = some p ∧
      (∀ set < m_num_sets, ∀ touches : List Touch,
        (∀ t ∈ touches, t.index < m_assoc ∧ t.set < m_num_sets) →
        ∃ p' victim, p.run touches = some p' ∧ p'.getVictim set = some victim ∧
          victim < m_assoc ∧ lastTouched set none touches ≠ some victim) ∧
      ((∃ d, m_assoc = 2 ^ d) →
        ∀ set < m_num_sets, ∀ (m_trees : ℕ → BitVec 64) (time : ℕ → ℕ),
        ∃ victims, rounds set time m_assoc { p with m_trees } = some victims ∧
          victims.length = m_assoc ∧ victims.Nodup ∧ ∀ victim ∈ victims, victim < m_assoc) := by
  have hshape := treeShape m_assoc h32 h2
  refine ⟨_, if_pos ⟨hsets, h2, h32, hshape.small.trans_lt (by decide)⟩,
    fun set _ touches hvalid => ?_, ?_⟩
  · exact Shaped.run hshape (fun _ hnone => nomatch hnone) hvalid
  · rintro ⟨d, hd⟩ set hset m_trees time
    exact Shaped.rounds_nodup (p := { m_num_sets, m_assoc, m_trees, .. }) hshape hd hset time

/-- Three ways in a tree for four: after way 1 is touched, the victim is the last way. -/
theorem victims_rotate_three :
    ∃ p p' victim, new 1 3 = some p ∧ p.run [⟨0, 2, 10⟩, ⟨0, 1, 20⟩] = some p' ∧
      p'.getVictim 0 = some victim ∧ victim < 3 ∧ victim ≠ 1 := by
  obtain ⟨p, hnew, hvictim, -⟩ := victims_rotate 1 3 (by decide) (by decide) (by decide)
  obtain ⟨p', victim, hrun, hget, hlt, hne⟩ :=
    hvictim 0 (by decide) [⟨0, 2, 10⟩, ⟨0, 1, 20⟩] (by simp)
  exact ⟨p, p', victim, hnew, hrun, hget, hlt, fun heq => hne (congrArg some heq.symm)⟩

end PseudoLRUPolicy

end EnocGem5.Ruby
