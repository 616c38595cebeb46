import Mathlib

/-!
# NodeList — linked lists with stable iterators

A doubly linked list whose iterators stay valid while other nodes come and go. A node is a value
with an identity of its own, taken from a counter, and an iterator is such an identity; the erasure
of an iterator that denotes no node of the list has no result.

The identities of the nodes are distinct, and below the counter, by construction. `Tracks` is the
discipline of intrusive lists, whose values keep the iterator of their own node.
-/

namespace EnocGem5.Lib

open List Function Prod

universe u

/-- A list of nodes; `next` is the identity of the next node. -/
structure NodeList (α : Type u) where
  nodes : List (ℕ × α) := []
  next : ℕ := 0
  below : ∀ x ∈ nodes, x.1 < next := by simp
  nodup : (nodes.map fst).Nodup := by simp

namespace NodeList

variable {α : Type u} (L : NodeList α) {k : ℕ} {x : ℕ × α}

def values : List α := L.nodes.map snd

/-- The value that an iterator denotes. -/
def get? (it : ℕ) : Option α := (L.nodes.find? (·.1 = it)).map snd

/-! ## Insertion -/

theorem mem_take_cons_drop {xs : List (ℕ × α)} {y : ℕ × α} :
    y ∈ xs.take k ++ x :: xs.drop k ↔ y = x ∨ y ∈ xs := by
  conv_rhs => rw [← take_append_drop k xs]
  simp only [mem_append, mem_cons]
  tauto

theorem perm_take_cons_drop (xs : List (ℕ × α)) (k : ℕ) (x : ℕ × α) :
    (xs.take k ++ x :: xs.drop k).Perm (x :: xs) := by
  calc (xs.take k ++ x :: xs.drop k).Perm (x :: (xs.take k ++ xs.drop k)) := perm_middle
    _ = x :: xs := by rw [take_append_drop]

/-- A new node at position `k`; its iterator is the old `next`. -/
def insertAt (k : ℕ) (a : α) : NodeList α where
  nodes := L.nodes.take k ++ (L.next, a) :: L.nodes.drop k
  next := L.next + 1
  below := by
    intro x hx
    rcases mem_take_cons_drop.1 hx with rfl | hx
    · exact Nat.lt_succ_self _
    · exact Nat.lt_succ_of_lt (L.below x hx)
  nodup := by
    have hperm := (perm_take_cons_drop L.nodes k (L.next, a)).map fst
    refine hperm.nodup_iff.2 (List.nodup_cons.2 ⟨?_, L.nodup⟩)
    intro hmem
    rcases List.mem_map.1 hmem with ⟨x, hx, hid⟩
    exact Nat.lt_irrefl _ (hid ▸ L.below x hx)

theorem mem_insertAt {L : NodeList α} {a : α} :
    x ∈ (L.insertAt k a).nodes ↔ x = (L.next, a) ∨ x ∈ L.nodes :=
  mem_take_cons_drop

theorem values_insertAt_perm (k : ℕ) (a : α) : (L.insertAt k a).values.Perm (a :: L.values) :=
  (perm_take_cons_drop L.nodes k (L.next, a)).map snd

/-! ## Erasure -/

def erase (it : ℕ) : Option (NodeList α) :=
  if it ∈ L.nodes.map fst then
    some
      { nodes := L.nodes.filter (·.1 ≠ it)
        next := L.next
        below := fun x hx => L.below x (mem_of_mem_filter hx)
        nodup := L.nodup.sublist ((filter_sublist (l := L.nodes)).map fst) }
  else none

variable {L} {L' : NodeList α} {iter iter' : α → Option ℕ} {a b : α} {it : ℕ}

section

variable (h : L.erase it = some L')

include h

theorem erase_nodes : L'.nodes = L.nodes.filter (·.1 ≠ it) := by
  unfold erase at h
  split at h
  · cases h
    rfl
  · cases h

theorem exists_of_erase : ∃ a, (it, a) ∈ L.nodes := by
  unfold erase at h
  split at h
  case isTrue hmem =>
    rcases mem_map.1 hmem with ⟨x, hx, rfl⟩
    exact ⟨x.2, hx⟩
  case isFalse => cases h

theorem mem_erase : x ∈ L'.nodes ↔ x ∈ L.nodes ∧ x.1 ≠ it := by
  rw [erase_nodes h]
  simp

theorem erase_next : L'.next = L.next := by
  unfold erase at h
  split at h
  · cases h
    rfl
  · cases h

end

theorem eq_of_mem (ha : (it, a) ∈ L.nodes) (hb : (it, b) ∈ L.nodes) : a = b := by
  have hinj := inj_on_of_nodup_map L.nodup ha hb rfl
  exact congrArg snd hinj

theorem get?_of_mem (ha : (it, a) ∈ L.nodes) : L.get? it = some a := by
  unfold get?
  cases hfind : L.nodes.find? (·.1 = it) with
  | none =>
    have hnot := List.find?_eq_none.1 hfind (it, a) ha
    simp at hnot
  | some x =>
    have hid : x.1 = it := by simpa using find?_some hfind
    have hx : (it, x.2) ∈ L.nodes := hid ▸ mem_of_find?_eq_some hfind
    rw [Option.map_some, eq_of_mem hx ha]

/-- Erasing the node of `a` removes one occurrence of `a`. -/
theorem values_erase_perm (h : L.erase it = some L') (ha : (it, a) ∈ L.nodes) :
    L.values.Perm (a :: L'.values) := by
  rcases append_of_mem ha with ⟨before, after, hsplit⟩
  have hids := L.nodup
  rw [hsplit, map_append, map_cons] at hids
  have hnot := (nodup_middle.1 hids)
  rw [nodup_cons, mem_append, not_or] at hnot
  have hkeep : ∀ xs : List (ℕ × α), it ∉ xs.map fst → xs.filter (·.1 ≠ it) = xs := by
    intro xs hxs
    apply filter_eq_self.2
    intro x hx
    simpa using fun hid : x.1 = it => hxs (hid ▸ mem_map_of_mem hx)
  have hnodes : L'.nodes = before ++ after := by
    rw [erase_nodes h, hsplit, filter_append, filter_cons_of_neg (by simp),
      hkeep before hnot.1.1, hkeep after hnot.1.2]
  rw [values, values, hsplit, hnodes, map_append, map_append, map_cons]
  exact perm_middle

theorem erase_isSome (ha : (it, a) ∈ L.nodes) : (L.erase it).isSome = true := by
  unfold erase
  rw [if_pos (mem_map.2 ⟨(it, a), ha, rfl⟩)]
  rfl

/-! ## Values that keep their iterator -/

/-- Every value of the list keeps the iterator of its node, and no value keeps that of another one,
not even after its own node is gone. -/
structure Tracks (L : NodeList α) (iter : α → Option ℕ) : Prop where
  node : ∀ x ∈ L.nodes, iter x.2 = some x.1
  old : ∀ a it, iter a = some it → it < L.next
  own : ∀ a b it, iter a = some it → (it, b) ∈ L.nodes → b = a

theorem Tracks.congr (h : L.Tracks iter) (heq : ∀ a, iter' a = iter a) : L.Tracks iter' where
  node := by
    intro x hx
    rw [heq]
    exact h.node x hx
  old := by
    intro a it ha
    rw [heq] at ha
    exact h.old a it ha
  own := by
    intro a b it ha
    rw [heq] at ha
    exact h.own a b it ha

theorem tracks_empty : ({} : NodeList α).Tracks fun _ => none where
  node := by simp
  old := by simp
  own := by simp

theorem mem_values : a ∈ L.values ↔ ∃ it, (it, a) ∈ L.nodes := by
  unfold values
  rw [mem_map]
  constructor
  · rintro ⟨x, hx, rfl⟩
    exact ⟨x.1, hx⟩
  · rintro ⟨it, h⟩
    exact ⟨(it, a), h, rfl⟩

variable (h : L.Tracks iter)
include h

/-- A value of the list keeps an iterator, and the iterator denotes it. -/
theorem Tracks.get? (ha : a ∈ L.values) : ∃ it, iter a = some it ∧ L.get? it = some a := by
  rcases mem_values.1 ha with ⟨it, hmem⟩
  exact ⟨it, h.node _ hmem, get?_of_mem hmem⟩

theorem Tracks.erase_some (ha : a ∈ L.values) :
    ∃ it L', iter a = some it ∧ L.erase it = some L' := by
  rcases mem_values.1 ha with ⟨it, hmem⟩
  rcases Option.isSome_iff_exists.1 (erase_isSome hmem) with ⟨L', hL'⟩
  exact ⟨it, L', h.node _ hmem, hL'⟩

theorem Tracks.nodup : L.values.Nodup := by
  apply Nodup.map_on _ (Nodup.of_map _ L.nodup)
  intro x hx y hy hval
  -- equal values keep one iterator, so their nodes have one identity
  have hid : some x.1 = some y.1 := by rw [← h.node x hx, ← h.node y hy, hval]
  exact Prod.ext (Option.some.inj hid) hval

theorem Tracks.insertAt [DecidableEq α] (k : ℕ) (ha : a ∉ L.values) :
    (L.insertAt k a).Tracks (update iter a (some L.next)) where
  node := by
    intro x hx
    rcases mem_insertAt.1 hx with rfl | hold
    · exact update_self ..
    · have hne : x.2 ≠ a := by
        rintro rfl
        exact ha (mem_values.2 ⟨x.1, hold⟩)
      rw [update_of_ne hne]
      exact h.node x hold
  old := by
    intro b it hb
    by_cases hba : b = a
    · subst hba
      rw [update_self] at hb
      cases hb
      exact Nat.lt_succ_self _
    · rw [update_of_ne hba] at hb
      exact Nat.lt_succ_of_lt (h.old b it hb)
  own := by
    intro b c it hb hc
    by_cases hba : b = a
    · subst hba
      rw [update_self] at hb
      cases hb
      -- the new identity is not that of an old node
      rcases mem_insertAt.1 hc with hnew | hold
      · exact congrArg snd hnew
      · exact absurd (L.below _ hold) (Nat.lt_irrefl _)
    · rw [update_of_ne hba] at hb
      rcases mem_insertAt.1 hc with hnew | hold
      · have hid : it = L.next := congrArg fst hnew
        exact absurd (hid ▸ h.old b it hb) (Nat.lt_irrefl _)
      · exact h.own b c it hb hold

theorem Tracks.erase (hL' : L.erase it = some L') : L'.Tracks iter where
  node := fun x hx => h.node x (NodeList.mem_erase hL' |>.1 hx).1
  old := by
    intro b it' hb
    rw [erase_next hL']
    exact h.old b it' hb
  own := fun b c it' hb hc => h.own b c it' hb (NodeList.mem_erase hL' |>.1 hc).1

/-- Only the iterator of a value of the list can be erased. -/
theorem Tracks.mem_of_erase (hL' : L.erase it = some L')
    (hit : iter a = some it) : (it, a) ∈ L.nodes := by
  rcases exists_of_erase hL' with ⟨b, hb⟩
  exact h.own a b it hit hb ▸ hb

theorem Tracks.mem_erase (hL' : L.erase it = some L')
    (hit : iter a = some it) : b ∈ L'.values ↔ b ∈ L.values ∧ b ≠ a := by
  have hperm := values_erase_perm hL' (h.mem_of_erase hL' hit)
  have hnodup := hperm.nodup_iff.1 h.nodup
  rw [hperm.mem_iff, mem_cons]
  constructor
  · intro hb
    refine ⟨.inr hb, ?_⟩
    rintro rfl
    exact (nodup_cons.1 hnodup).1 hb
  · rintro ⟨rfl | hb, hne⟩
    · exact absurd rfl hne
    · exact hb

end NodeList

end EnocGem5.Lib
