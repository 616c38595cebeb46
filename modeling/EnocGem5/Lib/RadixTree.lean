import Mathlib

/-!
# RadixTree — a radix tree in a memory of pages

A memory maps a page and an index to an entry. An entry names a page, and the page 0 means that
there is none. A path of indices leads from a root page to a node; in a `Tree` of depth `d`
different paths of at most `d` indices lead to different pages, so that the entries of the nodes at
depth `d`, the leaves, may be written one by one, and a fresh page may be installed below a node
without any leaf changing.
-/

namespace EnocGem5.Lib

open List Option

universe u

variable {E : Type u} {next : E → ℕ}

/-- The page at the end of a path. -/
def node (next : E → ℕ) (mem : ℕ → ℕ → E) : ℕ → List ℕ → Option ℕ
  | n, [] => some n
  | n, o :: os => if next (mem n o) = 0 then none else node next mem (next (mem n o)) os

def child (next : E → ℕ) (mem : ℕ → ℕ → E) (n o : ℕ) : Option ℕ :=
  if next (mem n o) = 0 then none else some (next (mem n o))

/-- The entry at the end of a path, `zero` if the path ends early. -/
def leaf (next : E → ℕ) (zero : E) (mem : ℕ → ℕ → E) (root : ℕ) (p : List ℕ) (o : ℕ) : E :=
  match node next mem root p with
  | some n => mem n o
  | none => zero

def setEntry (mem : ℕ → ℕ → E) (n o : ℕ) (e : E) : ℕ → ℕ → E :=
  fun n' o' => if n' = n ∧ o' = o then e else mem n' o'

def clearPage (mem : ℕ → ℕ → E) (n : ℕ) (zero : E) : ℕ → ℕ → E :=
  fun n' o' => if n' = n then zero else mem n' o'

theorem node_concat (mem : ℕ → ℕ → E) (p : List ℕ) (o n : ℕ) :
    node next mem n (p ++ [o]) = (node next mem n p).bind fun m => child next mem m o := by
  induction p generalizing n with
  | nil => rfl
  | cons x p ih =>
    rw [cons_append, node, node]
    split
    · rfl
    · exact ih _

structure Tree (next : E → ℕ) (mem : ℕ → ℕ → E) (root d : ℕ) (used : ℕ → Prop) : Prop where
  inj : ∀ {p q n}, p.length ≤ d → q.length ≤ d → node next mem root p = some n →
    node next mem root q = some n → p = q
  inUse : ∀ {p n}, p.length ≤ d → node next mem root p = some n → used n

variable {mem : ℕ → ℕ → E} {root d n o f : ℕ} {used used' : ℕ → Prop} {p q : List ℕ} {e zero : E}

theorem Tree.mono (T : Tree next mem root d used)
    (h : ∀ n, used n → used' n) : Tree next mem root d used' :=
  ⟨T.inj, fun hp hn => h _ (T.inUse hp hn)⟩

theorem node_of_empty (hempty : ∀ o, next (mem root o) = 0) (h : node next mem root p = some n) :
    p = [] ∧ n = root := by
  cases p with
  | nil => exact ⟨rfl, (some.inj h).symm⟩
  | cons o p =>
    rw [node, if_pos (hempty o)] at h
    cases h

/-- A root page without entries. -/
theorem Tree.empty (hempty : ∀ o, next (mem root o) = 0) (hroot : used root) :
    Tree next mem root d used where
  inj := by
    intro p q n _ _ hp hq
    rw [(node_of_empty hempty hp).1, (node_of_empty hempty hq).1]
  inUse := by
    intro p n _ hp
    rw [(node_of_empty hempty hp).2]
    exact hroot

/-! ## A page is installed -/

section Install

/-- The memory after the cleared page `f` is put below the node `n`. -/
def install (mem : ℕ → ℕ → E) (n o f : ℕ) (e zero : E) : ℕ → ℕ → E :=
  setEntry (clearPage mem f zero) n o e

variable (T : Tree next mem root d used) (hp : p.length < d)
    (hn : node next mem root p = some n) (hfree : next (mem n o) = 0) (hf : f ≠ 0)
    (hfresh : ¬ used f) (he : next e = f) (hzero : next zero = 0)

include T hp hn hfree hf hfresh he hzero

/-- Only the path to the new page is new. -/
theorem node_install (hq : q.length ≤ d) :
    node next (install mem n o f e zero) root q =
      if q = p ++ [o] then some f else node next mem root q := by
  -- entries of the nodes that were there have not changed, except for the one at `n`
  have hentry : ∀ {r m x}, r.length ≤ d → node next mem root r = some m →
      install mem n o f e zero m x = if r = p ∧ x = o then e else mem m x := by
    intro r m x hr hm
    have hmf : m ≠ f := fun heq => hfresh (heq ▸ T.inUse hr hm)
    have hmn : m = n ↔ r = p := by
      constructor
      · intro heq
        exact T.inj hr hp.le hm (heq ▸ hn)
      · intro heq
        exact some.inj (hm.symm.trans (heq ▸ hn))
    unfold install setEntry clearPage
    rw [if_neg hmf]
    simp only [hmn]
  induction q using reverseRecOn with
  | nil => rw [if_neg (by simp), node, node]
  | append_singleton q x ih =>
    rw [length_append, length_singleton] at hq
    rw [node_concat, ih (by omega), node_concat]
    by_cases hqp : q = p ++ [o]
    · -- the new page is empty
      have hnf : f ≠ n := fun heq => hfresh (heq ▸ T.inUse hp.le hn)
      have hnew : child next (install mem n o f e zero) f x = none := by
        simp [child, install, setEntry, clearPage, hnf, hzero]
      have hold : node next mem root q = none := by
        rw [hqp, node_concat, hn]
        simp [child, hfree]
      have hne : q ++ [x] ≠ p ++ [o] := by
        intro heq
        have hlen := congrArg length heq
        rw [hqp] at hlen
        simp at hlen
      rw [if_pos hqp, if_neg hne, hold]
      exact hnew
    · rw [if_neg hqp]
      cases hm : node next mem root q with
      | none =>
        have hne : q ++ [x] ≠ p ++ [o] := by
          intro heq
          rw [(append_inj' heq rfl).1, hn] at hm
          cases hm
        rw [if_neg hne]
        rfl
      | some m =>
        have hx := hentry (x := x) (by omega) hm
        show child next (install mem n o f e zero) m x = _
        by_cases hat : q = p ∧ x = o
        · rw [if_pos hat] at hx
          rw [if_pos (by rw [hat.1, hat.2]), child, hx, he, if_neg hf]
        · rw [if_neg hat] at hx
          have hne : q ++ [x] ≠ p ++ [o] := by
            intro heq
            have hsplit := append_inj' heq rfl
            exact hat ⟨hsplit.1, singleton_inj.1 hsplit.2⟩
          rw [if_neg hne, child, hx]
          rfl

theorem Tree.install : Tree next (install mem n o f e zero) root d fun m => used m ∨ m = f where
  inj := by
    intro q q' m hq hq' hm hm'
    rw [node_install T hp hn hfree hf hfresh he hzero hq] at hm
    rw [node_install T hp hn hfree hf hfresh he hzero hq'] at hm'
    split at hm
    case isTrue hqp =>
      split at hm'
      case isTrue hqp' => rw [hqp, hqp']
      case isFalse =>
        cases hm
        exact absurd (T.inUse hq' hm') hfresh
    case isFalse =>
      split at hm'
      case isTrue =>
        cases hm'
        exact absurd (T.inUse hq hm) hfresh
      case isFalse => exact T.inj hq hq' hm hm'
  inUse := by
    intro q m hq hm
    rw [node_install T hp hn hfree hf hfresh he hzero hq] at hm
    split at hm
    case isTrue => exact .inr (some.inj hm).symm
    case isFalse => exact .inl (T.inUse hq hm)

theorem leaf_install (hq : q.length = d) (x : ℕ) :
    leaf next zero (Lib.install mem n o f e zero) root q x = leaf next zero mem root q x := by
  have hnf : f ≠ n := fun heq => hfresh (heq ▸ T.inUse hp.le hn)
  unfold leaf
  rw [node_install T hp hn hfree hf hfresh he hzero hq.le]
  split
  case h_1 m hm =>
    split at hm
    case isTrue hqp =>
      have hold : node next mem root q = none := by
        rw [hqp, node_concat, hn]
        simp [child, hfree]
      cases hm
      rw [hold]
      simp [Lib.install, setEntry, clearPage, hnf]
    case isFalse =>
      -- a leaf is neither the node `n` nor the new page
      have hmf : m ≠ f := fun heq => hfresh (heq ▸ T.inUse hq.le hm)
      have hmn : m ≠ n := by
        intro heq
        have hqp := T.inj hq.le hp.le hm (heq ▸ hn)
        rw [hqp] at hq
        omega
      rw [hm]
      simp [Lib.install, setEntry, clearPage, hmf, hmn]
  case h_2 hm =>
    split at hm
    case isTrue => cases hm
    case isFalse => rw [hm]

end Install

/-! ## A leaf is written -/

variable (T : Tree next mem root d used)
include T

theorem node_setEntry (hp : p.length = d) (hn : node next mem root p = some n) (hq : q.length ≤ d) :
    node next (setEntry mem n o e) root q = node next mem root q := by
  induction q using reverseRecOn with
  | nil => rw [node, node]
  | append_singleton q x ih =>
    rw [length_append, length_singleton] at hq
    rw [node_concat, node_concat, ih (by omega)]
    cases hm : node next mem root q with
    | none => rfl
    | some m =>
      -- a node on the way is not a leaf
      have hmn : m ≠ n := by
        intro heq
        have hqp := T.inj (by omega) hp.le hm (heq ▸ hn)
        rw [hqp] at hq
        omega
      simp [child, setEntry, hmn]

theorem Tree.setEntry (hp : p.length = d)
    (hn : node next mem root p = some n) : Tree next (setEntry mem n o e) root d used where
  inj := by
    intro q q' m hq hq' hm hm'
    rw [node_setEntry T hp hn hq] at hm
    rw [node_setEntry T hp hn hq'] at hm'
    exact T.inj hq hq' hm hm'
  inUse := by
    intro q m hq hm
    rw [node_setEntry T hp hn hq] at hm
    exact T.inUse hq hm

theorem leaf_setEntry (hp : p.length = d)
    (hn : node next mem root p = some n) (hq : q.length = d) (x : ℕ) :
    leaf next zero (Lib.setEntry mem n o e) root q x =
      if q = p ∧ x = o then e else leaf next zero mem root q x := by
  unfold leaf
  rw [node_setEntry T hp hn hq.le]
  cases hm : node next mem root q with
  | none =>
    have hne : ¬ (q = p ∧ x = o) := by
      rintro ⟨rfl, _⟩
      cases hm.symm.trans hn
    rw [if_neg hne]
  | some m =>
    have hmn : m = n ↔ q = p := by
      constructor
      · intro heq
        exact T.inj hq.le hp.le hm (heq ▸ hn)
      · intro heq
        exact some.inj (hm.symm.trans (heq ▸ hn))
    simp only [Lib.setEntry, hmn]

end EnocGem5.Lib
