import Mathlib

/-!
# ShortestPath — tables of distances that are improved step by step

A graph is given by its edges `edge u v w`, from `u` to `v` with the weight `w`. A table estimates
the distances: each entry is the length of a walk, or at least as large as a number that stands for
infinity.

* `Estimate.relax` — an entry may be lowered to a sum of two others;
* `Estimate.isDistance` — once no entry can be lowered any more, the entry of a vertex that can be
  reached is its distance, provided that all distances lie below infinity;
* `Estimate.chain` — steps along edges that the table takes for the first edge of a shortest walk
  come closer to the target, and stop nowhere else.
-/

namespace EnocGem5.Lib

open List

universe u

variable {V : Type u} {edge : V → V → ℤ → Prop}

/-! ## Walks and distances -/

inductive Walk (edge : V → V → ℤ → Prop) : V → V → ℤ → Prop
  | nil (v : V) : Walk edge v v 0
  | cons {u v t : V} {w l : ℤ} (h : edge u v w) (rest : Walk edge v t l) : Walk edge u t (w + l)

structure IsDistance (edge : V → V → ℤ → Prop) (s t : V) (d : ℤ) : Prop where
  walk : Walk edge s t d
  le : ∀ l, Walk edge s t l → d ≤ l

theorem Walk.append {s m t : V} {l l' : ℤ} (h : Walk edge s m l) (h' : Walk edge m t l') :
    Walk edge s t (l + l') := by
  induction h with
  | nil v => simpa using h'
  | cons hedge _ ih =>
    rw [add_assoc]
    exact Walk.cons hedge (ih h')

variable {s t : V} {l : ℤ}

section Positive

variable (hpos : ∀ u v w, edge u v w → 0 < w)

include hpos

theorem Walk.nonneg (h : Walk edge s t l) : 0 ≤ l := by
  induction h with
  | nil _ => exact le_rfl
  | cons hedge _ ih =>
    have hw := hpos _ _ _ hedge
    omega

theorem Walk.exists_isDistance (h : Walk edge s t l) : ∃ d, IsDistance edge s t d := by
  classical
  -- lengths are bounded below, so that there is a least one
  rcases Int.exists_least_of_bdd ⟨0, fun l' (h' : Walk edge s t l') => h'.nonneg hpos⟩ ⟨l, h⟩ with
    ⟨d, hd, hleast⟩
  exact ⟨d, hd, hleast⟩

end Positive

/-! ## Estimates -/

structure Estimate (edge : V → V → ℤ → Prop) (infinity : ℤ) (dist : V → V → ℤ) : Prop where
  self : ∀ v, dist v v = 0
  le_edge : ∀ u v w, edge u v w → dist u v ≤ w
  walk : ∀ u v, Walk edge u v (dist u v) ∨ infinity ≤ dist u v

/-- No entry between vertices of `D` can be lowered. -/
def Triangle (D : V → Prop) (dist : V → V → ℤ) : Prop :=
  ∀ i j k, D i → D j → D k → dist i j ≤ dist i k + dist k j

section Estimates

variable {infinity : ℤ} {dist : V → V → ℤ} (hpos : ∀ u v w, edge u v w → 0 < w)

include hpos

variable (h : Estimate edge infinity dist)
include h

theorem Estimate.nonneg (hinf : 0 ≤ infinity) (u v : V) : 0 ≤ dist u v := by
  rcases h.walk u v with hwalk | hle
  · exact hwalk.nonneg hpos
  · exact hinf.trans hle

/-- The sum of two entries is the length of a walk, or infinite. -/
theorem Estimate.walk_add (hinf : 0 ≤ infinity) (i k j : V) :
    Walk edge i j (dist i k + dist k j) ∨ infinity ≤ dist i k + dist k j := by
  have hik := h.nonneg hpos hinf i k
  have hkj := h.nonneg hpos hinf k j
  rcases h.walk i k with hwalk | hle
  · rcases h.walk k j with hwalk' | hle'
    · exact .inl (hwalk.append hwalk')
    · exact .inr (by linarith)
  · exact .inr (by linarith)

theorem Estimate.relax (hinf : 0 ≤ infinity) {i j k : V}
    (hlt : dist i k + dist k j < dist i j) {dist' : V → V → ℤ}
    (hnew : dist' i j = dist i k + dist k j)
    (hold : ∀ u v, ¬ (u = i ∧ v = j) → dist' u v = dist u v) : Estimate edge infinity dist' := by
  have hle : ∀ u v, dist' u v ≤ dist u v := by
    intro u v
    by_cases huv : u = i ∧ v = j
    · rcases huv with ⟨rfl, rfl⟩
      rw [hnew]
      exact hlt.le
    · rw [hold u v huv]
  refine ⟨fun v => ?_, fun u v w hw => (hle u v).trans (h.le_edge u v w hw), fun u v => ?_⟩
  · rw [hold v v]
    · exact h.self v
    · -- an entry of the diagonal is zero and cannot be lowered
      rintro ⟨rfl, rfl⟩
      have hik := h.nonneg hpos hinf v k
      have hkj := h.nonneg hpos hinf k v
      have hself := h.self v
      linarith
  · by_cases huv : u = i ∧ v = j
    · rcases huv with ⟨rfl, rfl⟩
      rw [hnew]
      exact h.walk_add hpos hinf u k v
    · rw [hold u v huv]
      exact h.walk u v

end Estimates

variable {infinity : ℤ} {dist : V → V → ℤ} {D : V → Prop} (hedges : ∀ u v w, edge u v w → D u ∧ D v)

include hedges

/-- A walk does not move, or it ends in `D`. -/
theorem Walk.target (h : Walk edge s t l) : (s = t ∧ l = 0) ∨ D t := by
  induction h with
  | nil v => exact .inl ⟨rfl, rfl⟩
  | cons hedge _ ih =>
    rcases ih with ⟨rfl, -⟩ | ht
    · exact .inr (hedges _ _ _ hedge).2
    · exact .inr ht

variable (hpos : ∀ u v w, edge u v w → 0 < w)
  (hfinite : ∀ s t d, IsDistance edge s t d → d < infinity) (h : Estimate edge infinity dist)
  (htri : Triangle D dist)

include h htri

/-- A settled table is at most the length of any walk. -/
theorem Estimate.le_walk (hwalk : Walk edge s t l) : dist s t ≤ l := by
  rcases hwalk.target hedges with ⟨rfl, rfl⟩ | ht
  · exact (h.self s).le
  · induction hwalk with
    | nil v => exact (h.self v).le
    | @cons u v t w l hedge _ ih =>
      rcases hedges u v w hedge with ⟨hu, hv⟩
      calc dist u t ≤ dist u v + dist v t := htri u t v hu ht hv
        _ ≤ w + l := add_le_add (h.le_edge u v w hedge) (ih ht)

include hpos hfinite

theorem Estimate.isDistance (hwalk : Walk edge s t l) : IsDistance edge s t (dist s t) := by
  refine ⟨?_, fun l' hl' => h.le_walk hedges htri hl'⟩
  rcases hwalk.exists_isDistance hpos with ⟨d, hd⟩
  have hlt : dist s t < infinity :=
    lt_of_le_of_lt (h.le_walk hedges htri hd.walk) (hfinite s t d hd)
  exact (h.walk s t).resolve_right (not_le_of_gt hlt)

/-- The first edge of a shortest walk passes the test that the tables are made from. -/
theorem Estimate.exists_next (hwalk : Walk edge s t l) (hne : s ≠ t) :
    ∃ n w, edge s n w ∧ w + dist n t = dist s t ∧ w < infinity := by
  have hdist := h.isDistance hedges hpos hfinite htri hwalk
  have hlt := hfinite s t _ hdist
  generalize hd : dist s t = d at hdist hlt
  rcases hdist with ⟨hwalk', hleast⟩
  cases hwalk' with
  | nil => exact absurd rfl hne
  | @cons _ n _ w l hedge rest =>
    have hrest : dist n t ≤ l := h.le_walk hedges htri rest
    have hnext := (h.isDistance hedges hpos hfinite htri rest).walk
    have hge : w + l ≤ w + dist n t := hleast _ (Walk.cons hedge hnext)
    have hnonneg : 0 ≤ l := rest.nonneg hpos
    exact ⟨n, w, hedge, by linarith, by linarith⟩

theorem Estimate.next {n : V} {w : ℤ}
    (hwalk : Walk edge s t l) (hedge : edge s n w) (htest : w + dist n t = dist s t) :
    dist n t < dist s t ∧ Walk edge n t (dist n t) := by
  have hw := hpos s n w hedge
  have hlt := hfinite s t _ (h.isDistance hedges hpos hfinite htri hwalk)
  refine ⟨by linarith, (h.walk n t).resolve_right ?_⟩
  linarith

/-- Steps that pass the test come closer to the target, each by one at least. -/
theorem Estimate.chain {next : V → V → Prop}
    (hnext : ∀ u v, next u v → ∃ w, edge u v w ∧ w + dist v t = dist u t)
    (hwalk : Walk edge s t l) {steps : List V} (hsteps : List.IsChain next (s :: steps)) :
    (s :: steps).Pairwise (fun u v => dist v t < dist u t) ∧ steps.length ≤ dist s t ∧
      ∀ v ∈ s :: steps, Walk edge v t (dist v t) := by
  induction steps generalizing s l with
  | nil =>
    have hdist := h.isDistance hedges hpos hfinite htri hwalk
    refine ⟨pairwise_singleton _ _, ?_, fun v hv => ?_⟩
    · exact hdist.walk.nonneg hpos
    · rw [List.mem_singleton.1 hv]
      exact hdist.walk
  | cons n rest ih =>
    rcases List.isChain_cons_cons.1 hsteps with ⟨hfirst, hrest⟩
    rcases hnext s n hfirst with ⟨w, hedge, htest⟩
    rcases h.next hedges hpos hfinite htri hwalk hedge htest with ⟨hlt, hwalk'⟩
    rcases ih hwalk' hrest with ⟨hdecreasing, hlength, hwalks⟩
    refine ⟨List.pairwise_cons.2 ⟨List.forall_mem_cons.2 ⟨hlt, fun v hv => ?_⟩, hdecreasing⟩,
      ?_, ?_⟩
    · exact ((List.pairwise_cons.1 hdecreasing).1 v hv).trans hlt
    · rw [length_cons]
      push_cast
      linarith
    · exact List.forall_mem_cons.2 ⟨(h.isDistance hedges hpos hfinite htri hwalk).walk, hwalks⟩

end EnocGem5.Lib
