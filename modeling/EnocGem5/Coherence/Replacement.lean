import EnocGem5.Lib.Run
import EnocGem5.Coherence.Cache

/-!
# Replacement — the LRU bits of a set

`updateLRU` lowers the bits from 0 to `WAYS - 1` by one and gives the used way `WAYS`, which no
later call lowers. So a way that was used keeps `WAYS`, and the bits of the others fall with each
way that is used for the first time. `checkLRU` finds bits 0 at the way whose number is the number
of ways used so far, unless that way was used.
-/

namespace EnocGem5.Coherence.CacheSet

open List Function

/-- A line whose LRU bits are below `n` is lowered. -/
def lowered (n : ℕ) (line : CacheLine) : CacheLine :=
  { line with
    LRUbits := if 0 ≤ line.LRUbits ∧ line.LRUbits < n then line.LRUbits - 1 else line.LRUbits }

/-- At most one line has LRU bits `t`. -/
def OnceAt (set : CacheSet) (t : ℤ) : Prop := set.Pairwise fun a b => a.LRUbits = t → b.LRUbits ≠ t

/-- The LRU bits after the ways in `used` were updated. -/
def bitsAfter (ways : ℕ) (used : Finset ℕ) (way : ℕ) : ℤ :=
  if way ∈ used then ways else if way < used.card then -1 else way - used.card

def setAfter (ways : ℕ) (used : Finset ℕ) : CacheSet :=
  (range ways).map fun way => { MESIbits := .I, LRUbits := bitsAfter ways used way, tag := 0 }

/-- Way `w` was updated least recently: a way never updated is older than the others, a lower one
first. -/
def Oldest (ways : ℕ) (calls : List ℕ) (w : ℕ) : Prop :=
  w < ways ∧ ∀ v < ways, calls.reverse.idxOf v < calls.reverse.idxOf w ∨
    (calls.reverse.idxOf v = calls.reverse.idxOf w ∧ w ≤ v)

variable {set : CacheSet} {ways w t : ℕ} {used : Finset ℕ} {calls : List ℕ}

theorem lowered_succ {line : CacheLine} (h : line.LRUbits ≠ t) :
    lowered (t + 1) line = lowered t line := by
  unfold lowered
  congr 1
  split_ifs <;> omega

theorem decrementLRU_lowered (h : set.OnceAt t) :
    decrementLRU (set.map (lowered t)) t = set.map (lowered (t + 1)) := by
  induction set with
  | nil => rfl
  | cons line set ih =>
    rcases pairwise_cons.1 h with ⟨hline, hset⟩
    by_cases hbits : line.LRUbits = t
    · have hfirst : lowered t line = line := by rw [lowered, if_neg (by omega)]
      have hrest : set.map (lowered (t + 1)) = set.map (lowered t) :=
        map_congr_left fun x hx => lowered_succ (hline x hx hbits)
      have hlast : lowered (t + 1) line = { line with LRUbits := line.LRUbits - 1 } := by
        rw [lowered, if_pos (by omega)]
      rw [map_cons, map_cons, hfirst, hrest, hlast]
      simp [decrementLRU, findIdx_cons, hbits]
    · have hfirst : (lowered t line).LRUbits ≠ t := by
        simp only [lowered]
        split_ifs <;> omega
      rw [map_cons, map_cons, lowered_succ hbits, ← ih hset]
      simp [decrementLRU, findIdx_cons, hfirst]

theorem foldl_decrementLRU (n : ℕ) (h : ∀ t < n, set.OnceAt t) :
    (range n).foldl decrementLRU set = set.map (lowered n) := by
  induction n with
  | zero =>
    have hnone : lowered 0 = id := by
      funext line
      rw [lowered, if_neg (by omega)]
      rfl
    rw [hnone, map_id]
    rfl
  | succ n ih =>
    rw [range_succ, foldl_concat, ih fun t ht => h t (by omega)]
    exact decrementLRU_lowered (h n (by omega))

theorem updateLRU_setAfter (hw : w < ways) :
    (setAfter ways used).updateLRU w = some (setAfter ways (insert w used)) := by
  have hget : (setAfter ways used)[w]? =
      some { MESIbits := .I, LRUbits := bitsAfter ways used w, tag := 0 } := by
    simp [setAfter, hw]
  have hlen : (setAfter ways used).length = ways := by simp [setAfter]
  unfold updateLRU
  rw [hget, hlen]
  by_cases hmem : w ∈ used
  · rw [Finset.insert_eq_of_mem hmem]
    simp [bitsAfter, hmem]
  · have hbits : bitsAfter ways used w ≠ ways := by
      unfold bitsAfter
      split_ifs <;> omega
    have honce : ∀ t < ways, (setAfter ways used).OnceAt t := by
      intro t ht
      refine pairwise_map.2 ((pairwise_lt_range (n := ways)).imp fun {v x} hlt heq => ?_)
      simp only [bitsAfter] at heq ⊢
      split_ifs at heq ⊢ <;> omega
    simp only [if_neg hbits]
    rw [foldl_decrementLRU ways honce]
    congr 1
    apply ext_getElem?
    intro v
    simp only [setAfter, map_map, getElem?_modify, getElem?_map]
    rcases lt_or_ge v ways with hv | hv
    · have hcard := Finset.card_insert_of_notMem hmem
      rw [getElem?_range hv]
      by_cases hwv : w = v
      · simp [hwv, bitsAfter, lowered]
      · have hmem' : v ∈ insert w used ↔ v ∈ used := by simp [Ne.symm hwv]
        simp only [lowered, bitsAfter, hmem', hcard, if_neg hwv, Option.map_some, Option.map_eq_map,
          comp_apply]
        congr 2
        split_ifs <;> omega
    · rw [getElem?_eq_none (by simpa using hv)]
      rfl

theorem run_updateLRU (hcalls : ∀ w ∈ calls, w < ways) :
    calls.foldlM updateLRU (setAfter ways used) = some (setAfter ways (used ∪ calls.toFinset)) := by
  induction calls generalizing used with
  | nil => simp
  | cons w calls ih =>
    have hset : used ∪ (w :: calls).toFinset = insert w used ∪ calls.toFinset := by
      ext
      simp
    rw [foldlM_cons, updateLRU_setAfter (hcalls w mem_cons_self), hset]
    exact ih fun v hv => hcalls v (mem_cons_of_mem w hv)

theorem setLRUbitsToWay_eq (ways : ℕ) : setLRUbitsToWay ways = setAfter ways ∅ := by
  simp [setLRUbitsToWay, setAfter, bitsAfter, map_eq_flatMap, flatMap_assoc]

theorem checkLRU_eq_iff (hw : w < ways) : (setAfter ways used).checkLRU = w ↔ w = used.card ∧
    w ∉ used := by
  have hzero : ∀ v, bitsAfter ways used v = 0 ↔ v = used.card ∧ v ∉ used := by
    intro v
    unfold bitsAfter
    split_ifs with hmem <;> simp [hmem] <;> omega
  rw [checkLRU, findIdx_eq (by simpa [setAfter] using hw)]
  simp only [setAfter, getElem_map, getElem_range, hzero, decide_eq_true_eq,
    decide_eq_false_iff_not]
  constructor
  · exact fun h => h.1
  · exact fun h => ⟨h, fun v hv hv' => absurd hv'.1 (by omega)⟩

/-- `checkLRU` finds the least recently used way exactly while the ways used are the lowest ones,
and not all. -/
theorem checkLRU_oldest_iff (ways : ℕ) (calls : List ℕ) (hcalls : ∀ w ∈ calls, w < ways) :
    ∃ set, calls.foldlM updateLRU (setLRUbitsToWay ways) = some set ∧
      (Oldest ways calls set.checkLRU ↔ ∃ k < ways, ∀ w, w ∈ calls ↔ w < k) := by
  refine ⟨_, setLRUbitsToWay_eq ways ▸ run_updateLRU hcalls, ?_⟩
  rw [Finset.empty_union]
  have hnever : ∀ v, v ∉ calls → calls.reverse.idxOf v = calls.reverse.length := by
    intro v hv
    rwa [idxOf_eq_length_iff, mem_reverse]
  constructor
  · rintro ⟨hlt, hold⟩
    generalize hw : (setAfter ways calls.toFinset).checkLRU = w at hlt hold
    rcases (checkLRU_eq_iff hlt).1 hw with ⟨hcard, hmem⟩
    rw [mem_toFinset] at hmem
    -- the lower ways were all used, and there are as many of them as ways used
    have hlower : Finset.range w ⊆ calls.toFinset := by
      intro v hv
      rw [Finset.mem_range] at hv
      rw [mem_toFinset]
      by_contra hnot
      have := hold v (by omega)
      rw [hnever v hnot, hnever w hmem] at this
      omega
    have heq := Finset.eq_of_subset_of_card_le hlower (by simp [← hcard])
    refine ⟨w, hlt, fun v => ?_⟩
    rw [← mem_toFinset, ← heq, Finset.mem_range]
  · rintro ⟨k, hk, hiff⟩
    have hset : calls.toFinset = Finset.range k := by
      ext v
      rw [mem_toFinset, Finset.mem_range, hiff]
    have hfound : (setAfter ways calls.toFinset).checkLRU = k :=
      (checkLRU_eq_iff hk).2 (by simp [hset])
    rw [hfound]
    refine ⟨hk, fun v _ => ?_⟩
    rw [hnever k (by simp [hiff])]
    by_cases hv : v ∈ calls
    · exact .inl (idxOf_lt_length_iff.2 (mem_reverse.2 hv))
    · exact .inr ⟨hnever v hv, not_lt.1 (mt (hiff v).2 hv)⟩

theorem checkLRU_firstWay : ∃ set, [0].foldlM updateLRU (setLRUbitsToWay 2) = some set ∧
    (Oldest 2 [0] set.checkLRU ↔ ∃ k < 2, ∀ w, w ∈ [0] ↔ w < k) :=
  checkLRU_oldest_iff 2 [0] (by decide)

/-- After way 1 of two was used, way 0 should be replaced; no way has LRU bits 0. -/
theorem checkLRU_misses :
    ∃ set, [1].foldlM updateLRU (setLRUbitsToWay 2) = some set ∧ set.checkLRU = 2 ∧
    Oldest 2 [1] 0 :=
  ⟨_, rfl, rfl, by decide, by decide⟩

end EnocGem5.Coherence.CacheSet
