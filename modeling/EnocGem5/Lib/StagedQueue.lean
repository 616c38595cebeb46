import Mathlib

/-!
# StagedQueue — a queue in two stages, with fences

Items wait in the current stage or in the deferred one. An extraction returns a batch of current
items; the deferred ones are merged into the current stage for a later extraction. Some items are
clients, which must be returned in the order of their arrival, some are fences, which no client that
arrived later may overtake.

The queue keeps its history: what was added, and the batches that were returned. `Orderly` says that
nothing is lost or returned twice, that clients stay in order and that fences hold; every operation
keeps it under the condition stated with it.
-/

namespace EnocGem5.Lib

open List

universe u

structure StagedQueue (α : Type u) where
  added : List α := []
  returned : List (List α) := []
  current : List α := []
  deferred : List α := []

namespace StagedQueue

variable {α : Type u}

/-! ## Operations -/

variable (Q : StagedQueue α)

def push (a : α) : StagedQueue α :=
  { Q with added := Q.added ++ [a], current := Q.current ++ [a] }

def defer (a : α) : StagedQueue α :=
  { Q with added := Q.added ++ [a], deferred := Q.deferred ++ [a] }

def merge : StagedQueue α :=
  { Q with current := Q.current ++ Q.deferred, deferred := [] }

/-- The batch `ready` is returned, `left` stays. -/
def extract (ready left : List α) : StagedQueue α :=
  { Q with returned := Q.returned ++ [ready], current := left }

/-! ## The invariant -/

/-- All items, in the order in which the stages hold them. -/
def all : List α := Q.returned.flatten ++ Q.current ++ Q.deferred

structure Orderly (time : α → ℕ) (client fence : α → Bool) (Q : StagedQueue α) : Prop where
  increasing : Q.added.Pairwise (time · < time ·)
  kept : Q.added.Perm Q.all
  inOrder : Q.added.filter client = Q.all.filter client
  deferred_client : ∀ a ∈ Q.deferred, client a = true
  fenced : ∀ f ∈ Q.current, fence f = true →
    ∀ c ∈ Q.returned.flatten ++ Q.current, client c = true → time c < time f
  barrier : ∀ i batch, Q.returned[i]? = some batch → ∀ c ∈ batch, client c = true →
    ∀ f ∈ Q.added, fence f = true → time f < time c → f ∈ (Q.returned.take i).flatten

/-- `current` is split into a batch and what stays: the clients stay in order, no fence stays. -/
structure Split (client fence : α → Bool) (current ready left : List α) : Prop where
  perm : current.Perm (ready ++ left)
  inOrder : current.filter client = ready.filter client ++ left.filter client
  unfenced : ∀ a ∈ left, fence a = false

variable {Q} {a : α} {time : α → ℕ} {client fence : α → Bool} {current ready left : List α}

theorem split_all (current : List α) : Split client fence current current [] where
  perm := by rw [append_nil]
  inOrder := by rw [filter_nil, append_nil]
  unfenced := by simp

theorem Split.cons_ready (h : Split client fence current ready left) (a : α) :
    Split client fence (a :: current) (a :: ready) left where
  perm := h.perm.cons a
  inOrder := by
    cases hclient : client a with
    | true =>
      rw [filter_cons_of_pos hclient, filter_cons_of_pos hclient, h.inOrder]
      rfl
    | false =>
      have hnot : ¬client a = true := by simp [hclient]
      rw [filter_cons_of_neg hnot, filter_cons_of_neg hnot, h.inOrder]
  unfenced := h.unfenced

/-- An item that is not a fence may stay if no client behind it is returned. -/
theorem Split.cons_left (h : Split client fence current ready left)
    (hready : ∀ b ∈ ready, client b = false) (ha : fence a = false) :
    Split client fence (a :: current) ready (a :: left) where
  perm := (h.perm.cons a).trans perm_middle.symm
  inOrder := by
    have hnone : ready.filter client = [] := by simpa using hready
    rw [filter_cons, h.inOrder, hnone, filter_cons]
    rfl
  unfenced := forall_mem_cons.2 ⟨ha, h.unfenced⟩

theorem orderly_empty : Orderly time client fence {} where
  increasing := List.Pairwise.nil
  kept := List.Perm.refl _
  inOrder := rfl
  deferred_client := by simp
  fenced := by simp
  barrier := by simp

theorem Orderly.mem_added (hQ : Q.Orderly time client fence)
    (ha : a ∈ Q.returned.flatten ++ Q.current) : a ∈ Q.added :=
  hQ.kept.mem_iff.2 (mem_append_left _ ha)

/-- A later arrival does not concern the batches that were returned. -/
theorem Orderly.barrier_arrival (hQ : Q.Orderly time client fence)
    (hnew : ∀ b ∈ Q.added, time b < time a) :
    ∀ i batch, Q.returned[i]? = some batch → ∀ c ∈ batch, client c = true →
      ∀ f ∈ Q.added ++ [a], fence f = true → time f < time c →
        f ∈ (Q.returned.take i).flatten := by
  intro i batch hi c hc hclient f hf hfence hlt
  rcases mem_append.1 hf with hold | hlast
  · exact hQ.barrier i batch hi c hc hclient f hold hfence hlt
  · -- the new item is later than everything returned
    have hadded := hQ.mem_added (mem_append_left _ (mem_flatten.2 ⟨batch, mem_of_getElem? hi, hc⟩))
    rw [mem_singleton.1 hlast] at hlt
    exact absurd (hnew c hadded) (Nat.lt_asymm hlt)

theorem pairwise_arrival (h : Q.added.Pairwise (time · < time ·))
    (hnew : ∀ b ∈ Q.added, time b < time a) : (Q.added ++ [a]).Pairwise (time · < time ·) := by
  refine pairwise_append.2 ⟨h, pairwise_singleton .., ?_⟩
  intro b hb c hc
  rw [mem_singleton.1 hc]
  exact hnew b hb

variable (hQ : Q.Orderly time client fence)
include hQ

/-- A client may join the current stage if no client is deferred and no fence is there. -/
theorem Orderly.push
    (hnew : ∀ b ∈ Q.added, time b < time a) (hkind : fence a = true → client a = false)
    (hdeferred : client a = true → Q.deferred = [])
    (hfence : client a = true → ∀ f ∈ Q.current, fence f = false) :
    (Q.push a).Orderly time client fence where
  increasing := pairwise_arrival hQ.increasing hnew
  kept := by
    calc (Q.added ++ [a]).Perm (Q.all ++ [a]) := hQ.kept.append_right [a]
      _ = Q.returned.flatten ++ Q.current ++ (Q.deferred ++ [a]) := append_assoc ..
      Perm _ (Q.returned.flatten ++ Q.current ++ ([a] ++ Q.deferred)) :=
        Perm.append_left _ perm_append_comm
      _ = (Q.push a).all := by simp [all, StagedQueue.push]
  inOrder := by
    cases hclient : client a with
    | true =>
      calc (Q.added ++ [a]).filter client
          = (Q.all ++ [a]).filter client := by
            rw [filter_append, filter_append, hQ.inOrder]
        _ = (Q.push a).all.filter client := by simp [all, StagedQueue.push, hdeferred hclient]
    | false =>
      have hold := hQ.inOrder
      simpa [all, StagedQueue.push, filter_append, hclient] using hold
  deferred_client := hQ.deferred_client
  fenced := by
    intro f hf hff c hc hclient
    have hc : c ∈ Q.returned.flatten ++ Q.current ∨ c = a := by
      simpa [StagedQueue.push, or_assoc] using hc
    rcases mem_append.1 hf with hold | hlast
    · rcases hc with hc | rfl
      · exact hQ.fenced f hold hff c hc hclient
      · rw [hfence hclient f hold] at hff
        cases hff
    · rw [mem_singleton.1 hlast] at hff ⊢
      rcases hc with hc | rfl
      · exact hnew c (hQ.mem_added hc)
      · rw [hkind hff] at hclient
        cases hclient
  barrier := hQ.barrier_arrival hnew

theorem Orderly.defer (hnew : ∀ b ∈ Q.added, time b < time a) (hclient : client a = true) :
    (Q.defer a).Orderly time client fence where
  increasing := pairwise_arrival hQ.increasing hnew
  kept := by
    calc (Q.added ++ [a]).Perm (Q.all ++ [a]) := hQ.kept.append_right [a]
      _ = (Q.defer a).all := append_assoc ..
  inOrder := by
    calc (Q.added ++ [a]).filter client
        = (Q.all ++ [a]).filter client := by
          rw [filter_append, filter_append, hQ.inOrder]
      _ = (Q.defer a).all.filter client := by rw [all, append_assoc]; rfl
  deferred_client := forall_mem_append.2 ⟨hQ.deferred_client, forall_mem_singleton.2 hclient⟩
  fenced := hQ.fenced
  barrier := hQ.barrier_arrival hnew

/-- Deferred items may join the current stage if no fence is there. -/
theorem Orderly.merge (hkind : ∀ a, fence a = true → client a = false)
    (hfence : Q.deferred ≠ [] → ∀ f ∈ Q.current, fence f = false) :
    Q.merge.Orderly time client fence where
  __ := hQ
  kept := by
    have hall : Q.merge.all = Q.all := by simp [all, StagedQueue.merge]
    rw [hall]
    exact hQ.kept
  inOrder := by
    have hall : Q.merge.all = Q.all := by simp [all, StagedQueue.merge]
    rw [hall]
    exact hQ.inOrder
  deferred_client := by simp [StagedQueue.merge]
  fenced := by
    intro f hf hff c hc hclient
    rcases mem_append.1 hf with hcur | hdef
    · by_cases hempty : Q.deferred = []
      · have hc : c ∈ Q.returned.flatten ++ Q.current := by
          simpa [StagedQueue.merge, hempty] using hc
        exact hQ.fenced f hcur hff c hc hclient
      · rw [hfence hempty f hcur] at hff
        cases hff
    · -- a deferred item is a client, not a fence
      have hcl := hQ.deferred_client f hdef
      rw [hkind f hff] at hcl
      cases hcl

theorem Orderly.extract (hkind : ∀ a, fence a = true → client a = false)
    (hsplit : Split client fence Q.current ready left) :
    (Q.extract ready left).Orderly time client fence where
  __ := hQ
  kept := by
    have hperm : Q.all.Perm (Q.returned.flatten ++ (ready ++ left) ++ Q.deferred) :=
      (Perm.append_left _ hsplit.perm).append_right _
    refine hQ.kept.trans (hperm.trans ?_)
    simp [all, StagedQueue.extract]
  inOrder := by
    have hold := hQ.inOrder
    rw [all, filter_append, filter_append, hsplit.inOrder] at hold
    simpa [all, StagedQueue.extract, filter_append] using hold
  fenced := by
    intro f hf hff
    rw [hsplit.unfenced f hf] at hff
    cases hff
  barrier := by
    intro i batch hi c hc hclient f hf hff hlt
    simp only [StagedQueue.extract] at hi hf ⊢
    by_cases hold : i < Q.returned.length
    · rw [getElem?_append_left hold] at hi
      rw [take_append_of_le_length (Nat.le_of_lt hold)]
      exact hQ.barrier i batch hi c hc hclient f hf hff hlt
    · -- the new batch: a fence that arrived before its clients is neither current nor deferred
      have hge := Nat.le_of_not_lt hold
      rw [getElem?_append_right hge] at hi
      obtain ⟨rfl⟩ : batch = ready := by
        have hmem := mem_of_getElem? hi
        exact mem_singleton.1 hmem
      have hcur : c ∈ Q.current := hsplit.perm.mem_iff.2 (mem_append_left _ hc)
      rcases mem_append.1 (hQ.kept.mem_iff.1 hf) with hmem | hdef
      · rcases mem_append.1 hmem with hret | hfcur
        · rw [take_append, flatten_append]
          rw [take_of_length_le hge]
          exact mem_append_left _ hret
        · have hlt' := hQ.fenced f hfcur hff c (mem_append_right _ hcur) hclient
          exact absurd hlt (Nat.lt_asymm hlt')
      · have hcl := hQ.deferred_client f hdef
        rw [hkind f hff] at hcl
        cases hcl

end StagedQueue

end EnocGem5.Lib
