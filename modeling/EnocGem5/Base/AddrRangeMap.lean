import EnocGem5.Base.AddrRange
import EnocGem5.Lib.FirstPart
import EnocGem5.Lib.Run

/-!
# AddrRangeMap — address decoding by an ordered map of ranges

`AddrRangeMap` keeps ranges in a `std::map` ordered by `AddrRange::operator<`. `find` looks at the
predecessor of the query in that order, or at the first range if there is none, and steps backwards
through the stripes of an interleaved range only.

An iterator is the entry it denotes, `none` for `end()`; the result of a call is `none` if the
intersection test panics.
-/

namespace EnocGem5.Base

open Lib List AddrRange Option

/-! ## The map -/

/-- `AddrRangeMap`: the entries in the order of their keys. -/
structure AddrRangeMap (V : Type*) where
  tree : List (AddrRange × V) := []
  sorted : tree.Pairwise (fun x y => x.1.lt y.1 = true) := by simp

namespace AddrRangeMap

variable {V : Type*} {a : ℕ} {d : V}

/-- The entry `i`, if its range intersects `r`. -/
def probe (r : AddrRange) (i : AddrRange × V) : Option (Option (AddrRange × V)) :=
  (i.1.intersects r).map fun hit => if hit then some i else none

/-- The loop of `find`, at entry `i` with the entries before it, last one first. -/
def stepBack (r origRange : AddrRange) (i : AddrRange × V) :
    List (AddrRange × V) → Option (Option (AddrRange × V))
  -- the loop can be left at the first entry, which must still be checked
  | [] => probe r i
  | j :: before =>
    if i.1.mergesWith origRange then
      match probe r j with
      | some none => stepBack r origRange j before
      | result => result
    else probe r i

variable (M : AddrRangeMap V) (r : AddrRange)

/-- The entries that `upper_bound` of `r` passes over. -/
def below : List (AddrRange × V) :=
  M.tree.takeWhile fun i => !r.lt i.1

/-- The entries from `upper_bound` of `r` on. -/
def above : List (AddrRange × V) :=
  M.tree.dropWhile fun i => !r.lt i.1

def find : Option (Option (AddrRange × V)) :=
  match (M.below r).reverse with
  | [] =>
    match M.above r with
    | [] => some none
    | i :: _ => probe r i
  | i :: before =>
    match probe r i with
    | some none => if i.1.interleaved then stepBack r i.1 i before else some none
    | result => result

def findAddr (a : ℕ) : Option (Option (AddrRange × V)) :=
  M.find (rangeSize a 1)

def intersect : Option Bool := (M.find r).map (·.isSome)

/-- `std::map::insert`: an entry with an equivalent key is kept. -/
def treeInsert (x : AddrRange × V) : List (AddrRange × V) → List (AddrRange × V)
  | [] => [x]
  | y :: ys =>
    if x.1.lt y.1 then x :: y :: ys
    else if y.1.lt x.1 then y :: treeInsert x ys
    else y :: ys

variable {ys before rest : List (AddrRange × V)} {x y : AddrRange × V} {r p q : AddrRange}
  {i j e : AddrRange × V}

theorem mem_treeInsert (h : y ∈ treeInsert x ys) : y = x ∨ y ∈ ys := by
  fun_induction treeInsert x ys with
  | case1 => simpa using h
  | case2 => simpa using h
  | case3 z zs hxz hzx ih =>
    rcases mem_cons.1 h with rfl | hmem
    · exact .inr mem_cons_self
    · exact (ih hmem).imp_right (mem_cons_of_mem z)
  | case4 => exact .inr h

theorem sorted_treeInsert (h : ys.Pairwise (fun x y => x.1.lt y.1 = true)) :
    (treeInsert x ys).Pairwise (fun x y => x.1.lt y.1 = true) := by
  fun_induction treeInsert x ys with
  | case1 => exact pairwise_singleton _ _
  | case2 y ys hxy =>
    refine pairwise_cons.2 ⟨forall_mem_cons.2 ⟨hxy, fun z hz => ?_⟩, h⟩
    exact lt_trans hxy ((pairwise_cons.1 h).1 z hz)
  | case3 y ys hxy hyx ih =>
    rcases pairwise_cons.1 h with ⟨hy, hys⟩
    refine pairwise_cons.2 ⟨?_, ih hys⟩
    intro z hz
    rcases mem_treeInsert hz with rfl | hz
    · exact hyx
    · exact hy z hz
  | case4 => exact h

variable (M : AddrRangeMap V)

/-- `insert`, with the flag that says whether it refused the range. -/
def insert (r : AddrRange) (d : V) : Option (AddrRangeMap V × Bool) :=
  (M.intersect r).map fun refused =>
    if refused then (M, true) else (⟨treeInsert (r, d) M.tree, sorted_treeInsert M.sorted⟩, false)

theorem sublist_take_drop (xs : List (AddrRange × V)) {p q : ℕ} (hpq : p ≤ q) :
    (xs.take p ++ xs.drop q).Sublist xs := by
  calc (xs.take p ++ xs.drop q).Sublist (xs.take p ++ xs.drop p) :=
        (List.Sublist.refl _).append (drop_sublist_drop_left xs hpq)
    _ = xs := take_append_drop p xs

/-- `erase` of the entries from position `p` up to, but without, position `q`. The erasure of one
entry and `clear` are the cases `q = p + 1` and the whole list. -/
def erase (p q : ℕ) : Option (AddrRangeMap V) :=
  if h : p ≤ q ∧ q ≤ M.tree.length then
    some ⟨M.tree.take p ++ M.tree.drop q, M.sorted.sublist (sublist_take_drop M.tree h.1)⟩
  else none

/-! ## The two sides of a query -/

theorem start_le_of_lt (h : p.lt q = true) : p._start ≤ q._start := by
  rw [lt_iff] at h
  omega

theorem start_le_of_not_lt (h : p.lt q = false) : q._start ≤ p._start := by
  rw [Bool.eq_false_iff, ne_eq, lt_iff] at h
  omega

section Sides

variable {M : AddrRangeMap V}

theorem below_append_above (M : AddrRangeMap V) (r : AddrRange) : M.below r ++ M.above r = M.tree :=
  takeWhile_append_dropWhile

/-- The entries that the query does not precede are the first ones. -/
theorem firstPart (M : AddrRangeMap V) (r : AddrRange) :
    M.tree.Pairwise fun i j => (!r.lt j.1) = true → (!r.lt i.1) = true := by
  refine M.sorted.imp fun hij hj => ?_
  by_contra hi
  rw [lt_trans (by simpa using hi) hij] at hj
  cases hj

theorem mem_below : i ∈ M.below r ↔ i ∈ M.tree ∧ r.lt i.1 = false := by
  rw [below, takeWhile_eq_filter (firstPart M r), mem_filter, Bool.not_eq_true']

theorem mem_above : i ∈ M.above r ↔ i ∈ M.tree ∧ r.lt i.1 = true := by
  rw [above, dropWhile_eq_filter_not (firstPart M r), mem_filter, Bool.not_not]

/-- Without entries below the query, the first entry of the map starts before all others. -/
theorem head_above (h : M.below r = []) (habove : M.above r = i :: rest)
    (hj : j ∈ M.tree) : i.1._start ≤ j.1._start := by
  have htree : M.tree = i :: rest := by rw [← below_append_above M r, h, habove, nil_append]
  have hsorted := M.sorted
  rw [htree] at hj hsorted
  rcases mem_cons.1 hj with rfl | hj
  · exact le_rfl
  · exact start_le_of_lt ((pairwise_cons.1 hsorted).1 j hj)

theorem reverse_below_sorted (M : AddrRangeMap V) (r : AddrRange) :
    (M.below r).reverse.Pairwise (fun x y => y.1.lt x.1 = true) := by
  rw [pairwise_reverse]
  exact M.sorted.sublist (takeWhile_sublist _)

/-- The predecessor of the query is above all other entries below it. -/
theorem last_below (h : (M.below r).reverse = i :: before)
    (hj : j ∈ M.below r) : j = i ∨ j.1.lt i.1 = true := by
  have hsorted := reverse_below_sorted M r
  have hj : j ∈ i :: before := h ▸ mem_reverse.2 hj
  rw [h] at hsorted
  rcases mem_cons.1 hj with rfl | hj
  · exact .inl rfl
  · exact .inr ((pairwise_cons.1 hsorted).1 j hj)

theorem mem_of_reverse_below (h : (M.below r).reverse = i :: before) : i ∈ M.below r :=
  mem_reverse.1 (h ▸ mem_cons_self)

end Sides

/-! ## Disjointness -/

/-- No address is in two entries. -/
def Disjoint : Prop :=
  M.tree.Pairwise fun x y => ∀ a, ¬ (x.1.contains a = true ∧ y.1.contains a = true)

theorem Disjoint.eq_of_contains {M : AddrRangeMap V} (hM : M.Disjoint)
    (hx : x ∈ M.tree) (hy : y ∈ M.tree) (hxa : x.1.contains a = true)
    (hya : y.1.contains a = true) : x = y := by
  by_contra hne
  have hsymm : Std.Symm fun x y : AddrRange × V =>
      ∀ a, ¬ (x.1.contains a = true ∧ y.1.contains a = true) :=
    ⟨fun _ _ h a hboth => h a hboth.symm⟩
  exact hM.forall hx hy hne a ⟨hxa, hya⟩

def Meets (p r : AddrRange) : Prop := ∃ a, p.contains a = true ∧ r.contains a = true

/-- A valid range that is not interleaved. -/
def Plain (r : AddrRange) : Prop := r.interleaved = false ∧ r.valid = true

theorem Plain.contains_iff (hr : Plain r) : r.contains a = true ↔ r._start ≤ a ∧ a ≤ r._end := by
  rw [AddrRange.contains_iff]
  simp [hr.1]

theorem Plain.start_le_end (hr : Plain r) : r._start ≤ r._end := by
  simpa [AddrRange.valid] using hr.2

theorem meets_iff (hp : Plain p) (hr : Plain r) :
    Meets p r ↔ p._start ≤ r._end ∧ r._start ≤ p._end := by
  have hp' := hp.start_le_end
  have hr' := hr.start_le_end
  constructor
  · rintro ⟨a, hpa, hra⟩
    rw [hp.contains_iff] at hpa
    rw [hr.contains_iff] at hra
    omega
  · intro h
    -- the later of the two starts is in both
    refine ⟨max p._start r._start, hp.contains_iff.2 ?_, hr.contains_iff.2 ?_⟩ <;> omega

open Classical in
theorem probe_plain (hi : Plain i.1) (hr : Plain r) :
    probe r i = some (if Meets i.1 r then some i else none) := by
  rw [probe, intersects_plain hi.1 hr.1, map_some]
  by_cases h : Meets i.1 r
  · rw [if_pos h, if_pos (by simpa using (meets_iff hi hr).1 h)]
  · rw [if_neg h, if_neg (by simpa using fun hs he => h ((meets_iff hi hr).2 ⟨hs, he⟩))]

/-! ## Maps of plain ranges -/

/-- A range that starts within `r` does not hide behind a predecessor that ends before `r`. -/
def NoneHidden (r : AddrRange) : Prop :=
  ∀ e ∈ M.tree, r.lt e.1 = true → e.1._start ≤ r._end →
    (∀ p ∈ M.tree, r.lt p.1 = true) ∨ ∃ p ∈ M.tree, r.lt p.1 = false ∧ r._start ≤ p.1._end

instance (r : AddrRange) : Decidable (M.NoneHidden r) :=
  inferInstanceAs (Decidable (∀ e ∈ M.tree, _ → _ → _ ∨ ∃ p ∈ M.tree, _ ∧ _))

def AllPlain : Prop := ∀ e ∈ M.tree, Plain e.1

section Plain

variable {M : AddrRangeMap V}

/-- Of the disjoint entries below a query, none but the last can reach it. -/
theorem end_lt_of_last (hplain : M.AllPlain) (hM : M.Disjoint) {p : AddrRange × V}
    (hi : i ∈ M.tree) (hp : p ∈ M.tree) (hlast : p = i ∨ p.1.lt i.1 = true)
    (hend : i.1._end < r._start) : p.1._end < r._start := by
  rcases hlast with rfl | hlt
  · exact hend
  · by_contra hreach
    have hstart := start_le_of_lt hlt
    have hvalid := (hplain i hi).start_le_end
    -- otherwise both contain the start of `i`
    have hpi : p.1.contains i.1._start = true := (hplain p hp).contains_iff.2 (by omega)
    have hii : i.1.contains i.1._start = true := (hplain i hi).contains_iff.2 (by omega)
    have heq : p = i := hM.eq_of_contains hp hi hpi hii
    subst heq
    rw [lt_asymm hlt] at hlt
    cases hlt

/-- `find` tells whether a stored range meets the query exactly if none is hidden from it. -/
theorem find_plain (hplain : M.AllPlain) (hM : M.Disjoint) (hr : Plain r) :
    ∃ result, M.find r = some result ∧ (∀ e, result = some e → e ∈ M.tree ∧ Meets e.1 r) ∧
      ((result = none → ∀ e ∈ M.tree, ¬ Meets e.1 r) ↔ M.NoneHidden r) := by
  have hvalid := hr.start_le_end
  cases hbelow : (M.below r).reverse with
  | nil =>
    have hnil : M.below r = [] := reverse_eq_nil_iff.1 hbelow
    have hall : ∀ e ∈ M.tree, r.lt e.1 = true := by
      intro e he
      rw [← below_append_above M r, hnil, nil_append] at he
      exact (mem_above.1 he).2
    have hnone : M.NoneHidden r := fun _ _ _ _ => .inl hall
    cases habove : M.above r with
    | nil =>
      refine ⟨none, by simp [find, hbelow, habove], by simp, iff_of_true ?_ hnone⟩
      intro _ e he
      rw [← below_append_above M r, hnil, habove] at he
      cases he
    | cons i rest =>
      have hi : i ∈ M.tree := (mem_above.1 (habove ▸ mem_cons_self)).1
      classical
      refine ⟨if Meets i.1 r then some i else none, ?_, ?_, iff_of_true ?_ hnone⟩
      · simp only [find, hbelow, habove]
        exact probe_plain (hplain i hi) hr
      · intro e he
        split at he
        · cases he
          exact ⟨hi, ‹_›⟩
        · cases he
      · -- the first entry starts before every other one
        intro hresult e he hmeets
        have hnot : ¬ Meets i.1 r := by
          intro h
          simp [h] at hresult
        apply hnot
        have hi' := (hplain i hi).start_le_end
        have hstart := head_above hnil habove he
        have hfirst := start_le_of_lt (hall i hi)
        rw [meets_iff (hplain e he) hr] at hmeets
        rw [meets_iff (hplain i hi) hr]
        omega
  | cons i before =>
    have hibelow := mem_below.1 (mem_of_reverse_below hbelow)
    have hi : i ∈ M.tree := hibelow.1
    have hstart := start_le_of_not_lt hibelow.2
    classical
    refine ⟨if Meets i.1 r then some i else none, ?_, ?_, ?_⟩
    · simp only [find, hbelow, probe_plain (hplain i hi) hr, (hplain i hi).1]
      split <;> simp_all
    · intro e he
      split at he
      · cases he
        exact ⟨hi, ‹_›⟩
      · cases he
    · by_cases hmeets : Meets i.1 r
      · -- the predecessor reaches the query
        refine iff_of_true (by simp [hmeets]) ?_
        intro e _ _ _
        exact .inr ⟨i, hi, hibelow.2, ((meets_iff (hplain i hi) hr).1 hmeets).2⟩
      · have hend : i.1._end < r._start := by
          rw [meets_iff (hplain i hi) hr] at hmeets
          omega
        have hreach : ∀ p ∈ M.tree, r.lt p.1 = false → p.1._end < r._start := by
          intro p hp hlt
          exact end_lt_of_last hplain hM hi hp (last_below hbelow (mem_below.2 ⟨hp, hlt⟩)) hend
        simp only [hmeets, if_false, forall_const]
        constructor
        · intro hno e he hlt hin
          have he' := (hplain e he).start_le_end
          have hafter := start_le_of_lt hlt
          exact absurd ((meets_iff (hplain e he) hr).2 ⟨hin, by omega⟩) (hno e he)
        · intro hhidden e he hmeet
          rw [meets_iff (hplain e he) hr] at hmeet
          cases hlt : r.lt e.1 with
          | false =>
            have := hreach e he hlt
            omega
          | true =>
            rcases hhidden e he hlt hmeet.1 with hall | ⟨p, hp, hplt, hpend⟩
            · rw [hall i hi] at hibelow
              cases hibelow.2
            · have := hreach p hp hplt
              omega

end Plain

/-! ## Runs of insertions and erasures -/

inductive Call (V : Type*)
  | insert (r : AddrRange) (d : V)
  | erase (p q : ℕ)
  | find (r : AddrRange)

def Call.Plain : Call V → Prop
  | .insert r _ => AddrRangeMap.Plain r
  | .erase _ _ => True
  | .find r => AddrRangeMap.Plain r

def step : Call V → Option (AddrRangeMap V)
  | .insert r d => (M.insert r d).map (·.1)
  | .erase p q => M.erase p q
  | .find r => (M.find r).map fun _ => M

/-- `insert` refuses a range exactly if a stored one meets it, and `find` fails only if none
does. -/
def Correct : Call V → Prop
  | .insert r d => ∀ M' refused, M.insert r d = some (M', refused) →
      (refused = true ↔ ∃ e ∈ M.tree, Meets e.1 r)
  | .erase _ _ => True
  | .find r => M.find r = some none → ∀ e ∈ M.tree, ¬ Meets e.1 r

/-- The guard of a call: no stored range is hidden from the query. -/
def Unhidden : Call V → Prop
  | .insert r _ => M.NoneHidden r
  | .erase _ _ => True
  | .find r => M.NoneHidden r

instance (c : Call V) : Decidable (M.Unhidden c) :=
  match c with
  | .insert r _ | .find r => inferInstanceAs (Decidable (M.NoneHidden r))
  | .erase _ _ => isTrue trivial

section Runs

variable {M M' : AddrRangeMap V} {c : Call V}

theorem insert_some {refused : Bool} (h : M.insert r d = some (M', refused)) :
    ∃ result, M.find r = some result ∧ refused = result.isSome ∧
      M'.tree = if refused then M.tree else treeInsert (r, d) M.tree := by
  rcases map_eq_some_iff.1 h with ⟨hit, hhit, hM'⟩
  rcases map_eq_some_iff.1 hhit with ⟨result, hfind, rfl⟩
  refine ⟨result, hfind, ?_⟩
  cases result with
  | none =>
    cases hM'
    exact ⟨rfl, rfl⟩
  | some e =>
    cases hM'
    exact ⟨rfl, rfl⟩

theorem insert_of_find {result : Option (AddrRange × V)}
    (h : M.find r = some result) : ∃ M', M.insert r d = some (M', result.isSome) := by
  simp only [insert, intersect, h, map_some]
  cases result with
  | none => exact ⟨_, rfl⟩
  | some e => exact ⟨_, rfl⟩

theorem correct_iff_unhidden (hplain : M.AllPlain) (hM : M.Disjoint) (hc : c.Plain) :
    M.Correct c ↔ M.Unhidden c := by
  cases c with
  | erase p q => exact Iff.rfl
  | find r =>
    rcases find_plain hplain hM hc with ⟨result, hfind, _, hiff⟩
    refine Iff.trans ?_ hiff
    simp only [Correct, hfind, some.injEq]
  | insert r d =>
    rcases find_plain hplain hM hc with ⟨result, hfind, hsound, hiff⟩
    refine Iff.trans ?_ hiff
    constructor
    · intro hcorrect hnone e he hmeets
      rcases insert_of_find hfind with ⟨M', hinsert⟩
      have hrefused := (hcorrect M' _ hinsert).2 ⟨e, he, hmeets⟩
      rw [hnone] at hrefused
      cases hrefused
    · intro hcomplete M' refused hinsert
      rcases insert_some hinsert with ⟨result', hfind', hrefused, _⟩
      obtain rfl : result = result' := some.inj (hfind.symm.trans hfind')
      rw [hrefused]
      cases result with
      | none =>
        refine iff_of_false (by simp) ?_
        rintro ⟨e, he, hmeets⟩
        exact hcomplete rfl e he hmeets
      | some e => exact iff_of_true rfl ⟨e, hsound e rfl⟩

theorem disjoint_treeInsert
    (hys : ys.Pairwise fun x y => ∀ a, ¬ (x.1.contains a = true ∧ y.1.contains a = true))
    (hx : ∀ y ∈ ys, ¬ Meets y.1 x.1) :
    (treeInsert x ys).Pairwise
      fun x y => ∀ a, ¬ (x.1.contains a = true ∧ y.1.contains a = true) := by
  fun_induction treeInsert x ys with
  | case1 => exact pairwise_singleton _ _
  | case2 y ys _ =>
    refine pairwise_cons.2 ⟨?_, hys⟩
    intro z hz a hboth
    exact hx z hz ⟨a, hboth.2, hboth.1⟩
  | case3 y ys hxy hyx ih =>
    rcases pairwise_cons.1 hys with ⟨hy, hrest⟩
    refine pairwise_cons.2 ⟨?_, ih hrest fun z hz => hx z (mem_cons_of_mem y hz)⟩
    intro z hz a hboth
    rcases mem_treeInsert hz with rfl | hz
    · exact hx y mem_cons_self ⟨a, hboth⟩
    · exact hy z hz a hboth
  | case4 => exact hys

theorem step_keeps (hplain : M.AllPlain) (hM : M.Disjoint) (hc : c.Plain) (hguard : M.Unhidden c)
    (h : M.step c = some M') : M'.AllPlain ∧ M'.Disjoint := by
  cases c with
  | find r =>
    rcases map_eq_some_iff.1 h with ⟨_, _, rfl⟩
    exact ⟨hplain, hM⟩
  | erase p q =>
    simp only [step, erase] at h
    split at h
    case isFalse => cases h
    case isTrue hpq =>
      cases h
      have hsub := sublist_take_drop M.tree hpq.1
      exact ⟨fun e he => hplain e (hsub.subset he), List.Pairwise.sublist hsub hM⟩
  | insert r d =>
    rcases map_eq_some_iff.1 h with ⟨⟨M', refused⟩, hinsert, rfl⟩
    rcases insert_some hinsert with ⟨result, _, hrefused, htree⟩
    cases refused with
    | true =>
      have hsame : M'.tree = M.tree := by simpa using htree
      exact ⟨fun e he => hplain e (hsame ▸ he), by rw [Disjoint, hsame]; exact hM⟩
    | false =>
      have hnone : ∀ e ∈ M.tree, ¬ Meets e.1 r := by
        have hcorrect := (correct_iff_unhidden hplain hM hc).2 hguard
        intro e he hmeets
        have := (hcorrect M' false hinsert).2 ⟨e, he, hmeets⟩
        cases this
      have hnew : M'.tree = treeInsert (r, d) M.tree := by simpa using htree
      constructor
      · intro e he
        rw [hnew] at he
        rcases mem_treeInsert he with rfl | he
        · exact hc
        · exact hplain e he
      · rw [Disjoint, hnew]
        exact disjoint_treeInsert hM hnone

end Runs

/-- In every sequence of calls with plain ranges, the ranges stay disjoint and every call answers
correctly exactly if no stored range is ever hidden from a query. -/
theorem disjoint_iff_unhidden (calls : List (Call V)) (hcalls : ∀ c ∈ calls, c.Plain) :
    (Always step Disjoint {} calls ∧ Throughout step Correct {} calls) ↔
      Throughout step Unhidden ({} : AddrRangeMap V) calls := by
  have hstart : AllPlain ({} : AddrRangeMap V) ∧ Disjoint ({} : AddrRangeMap V) :=
    ⟨fun e he => (by cases he), List.Pairwise.nil⟩
  have hcongr := throughout_congr (fun c hc _ _ hM => step_keeps hM.1 hM.2 (hcalls c hc))
    (fun c hc M hM => correct_iff_unhidden hM.1 hM.2 (hcalls c hc)) hstart
  constructor
  · rintro ⟨_, hcorrect⟩
    exact hcongr.1 hcorrect
  · intro hguards
    have hplain : Throughout step (fun (_ : AddrRangeMap V) c => c.Plain) {} calls :=
      Throughout.of_forall_mem fun c hc _ => hcalls c hc
    refine ⟨?_, hcongr.2 hguards⟩
    exact Always.of_throughout (fun _ h => h.2)
      (fun M c M' hM hguard h => step_keeps hM.1 hM.2 hguard.2 hguard.1 h) hstart
      (hguards.and hplain)

/-- The insertions of the unit test, one of which is refused. -/
theorem disjoint_unitTest :
    Always step Disjoint ({} : AddrRangeMap ℕ) [.insert (rangeIn 10 40) 5,
        .insert (rangeIn 60 90) 3, .insert (rangeIn 0 12) 1, .insert (rangeIn 0 9) 1] ∧
      Throughout step Correct ({} : AddrRangeMap ℕ) [.insert (rangeIn 10 40) 5,
        .insert (rangeIn 60 90) 3, .insert (rangeIn 0 12) 1, .insert (rangeIn 0 9) 1] := by
  refine (disjoint_iff_unhidden _ ?_).2 (by decide)
  intro c hc
  simp only [mem_cons, not_mem_nil, or_false] at hc
  rcases hc with rfl | rfl | rfl | rfl <;> exact ⟨rfl, rfl⟩

/-- With a range before it, an insertion does not notice the ranges that it covers. -/
theorem insert_overlapping :
    ∃ M : AddrRangeMap ℕ, [Call.insert (rangeIn 0 1) 0, .insert (rangeIn 10 11) 1,
        .insert (rangeIn 5 20) 2].foldlM step {} = some M ∧
      M.tree = [(rangeIn 0 1, 0), (rangeIn 5 20, 2), (rangeIn 10 11, 1)] ∧ ¬ M.Disjoint := by
  have hrun : ([Call.insert (rangeIn 0 1) 0, .insert (rangeIn 10 11) 1,
      .insert (rangeIn 5 20) 2].foldlM step ({} : AddrRangeMap ℕ)).map (·.tree) =
        some [(rangeIn 0 1, 0), (rangeIn 5 20, 2), (rangeIn 10 11, 1)] := by
    decide
  rcases map_eq_some_iff.1 hrun with ⟨M, hM, htree⟩
  refine ⟨M, hM, htree, ?_⟩
  intro hdisjoint
  have heq := hdisjoint.eq_of_contains (x := (rangeIn 5 20, 2)) (y := (rangeIn 10 11, 1)) (a := 10)
    (by rw [htree]; decide) (by rw [htree]; decide) rfl rfl
  exact absurd heq (by decide)

/-! ## Decoding an address -/

/-- What a map for address decoding stores: valid ranges, pairwise disjoint, with all stripes of an
interleaved range. -/
structure Complete (M : AddrRangeMap V) : Prop where
  valid : ∀ e ∈ M.tree, e.1.valid = true
  disjoint : M.Disjoint
  stripes : ∀ e ∈ M.tree, e.1.interleaved = true → ∀ m < 2 ^ e.1.intlvBits,
    ∃ v, ({ e.1 with intlvMatch := m }, v) ∈ M.tree

/-- The entry that contains `a` is found, and none if there is none. -/
def Decodes (a : ℕ) : Prop :=
  (∀ e ∈ M.tree, e.1.contains a = true → M.findAddr a = some (some e)) ∧
    ((∀ e ∈ M.tree, e.1.contains a = false) → M.findAddr a = some none)

/-- If the entry that contains `a` starts at `a`, its match value is zero, unless it is the
first. -/
def PlainStart (a : ℕ) : Prop :=
  ∀ e ∈ M.tree, e.1.contains a = true → e.1._start = a →
    e.1.intlvMatch = 0 ∨ ∀ p ∈ M.tree, (rangeSize a 1).lt p.1 = true

section Decoding

variable {M : AddrRangeMap V} {a : ℕ}

theorem probe_point (a : ℕ) (i : AddrRange × V) :
    probe (rangeSize a 1) i = some (if i.1.contains a then some i else none) := by
  rw [probe, intersects_point, map_some]

theorem stepBack_sound (a : ℕ) (origRange : AddrRange) (i : AddrRange × V)
    (before : List (AddrRange × V)) :
    ∃ result, stepBack (rangeSize a 1) origRange i before = some result ∧
      ∀ e, result = some e → e ∈ i :: before ∧ e.1.contains a = true := by
  -- what looking at one entry returns
  have hprobe : ∀ (j : AddrRange × V) {js : List (AddrRange × V)}, j ∈ js → ∃ result,
      probe (rangeSize a 1) j = some result ∧
      ∀ e, result = some e → e ∈ js ∧ e.1.contains a = true := by
    intro j js hj
    refine ⟨_, probe_point a j, ?_⟩
    intro e he
    rcases ite_none_right_eq_some.1 he with ⟨hcontains, he⟩
    cases he
    exact ⟨hj, hcontains⟩
  fun_induction stepBack (rangeSize a 1) origRange i before with
  | case1 i => exact hprobe i mem_cons_self
  | case2 i j before _ _ ih =>
    rcases ih with ⟨result, hresult, hsound⟩
    exact ⟨result, hresult, fun e he => (hsound e he).imp_left (mem_cons_of_mem i)⟩
  | case3 i j before _ _ => exact hprobe j (by simp)
  | case4 i j before _ => exact hprobe i mem_cons_self

/-- The loop reaches an entry that contains the address through stripes of the same range. -/
theorem stepBack_finds {origRange : AddrRange}
    {stripes : List (AddrRange × V)} (hi : i.1.mergesWith origRange = true)
    (hmerge : ∀ j ∈ stripes, j.1.mergesWith origRange = true)
    (hmiss : ∀ j ∈ stripes, j.1.contains a = false) (he : e.1.contains a = true) :
    stepBack (rangeSize a 1) origRange i (stripes ++ e :: rest) = some (some e) := by
  induction stripes generalizing i with
  | nil => simp [stepBack, hi, probe_point, he]
  | cons j stripes ih =>
    have hj : j.1.contains a = false := hmiss j mem_cons_self
    simp only [cons_append, stepBack, hi, if_true, probe_point, hj]
    exact ih (hmerge j mem_cons_self)
      (fun k hk => hmerge k (mem_cons_of_mem j hk))
      (fun k hk => hmiss k (mem_cons_of_mem j hk))

/-- Whatever is found contains the address, and is not after the query if anything is not. -/
theorem findAddr_sound (M : AddrRangeMap V) (a : ℕ) :
    ∃ result, M.findAddr a = some result ∧
      ∀ e, result = some e → e ∈ M.tree ∧ e.1.contains a = true ∧
        (M.below (rangeSize a 1) ≠ [] → e ∈ M.below (rangeSize a 1)) := by
  unfold findAddr find
  cases hbelow : (M.below (rangeSize a 1)).reverse with
  | nil =>
    have hnil : M.below (rangeSize a 1) = [] := reverse_eq_nil_iff.1 hbelow
    cases habove : M.above (rangeSize a 1) with
    | nil => exact ⟨none, rfl, by simp⟩
    | cons i rest =>
      refine ⟨_, probe_point a i, ?_⟩
      intro e he
      split at he
      · cases he
        exact ⟨(mem_above.1 (habove ▸ mem_cons_self)).1, ‹_›, fun h => absurd hnil h⟩
      · cases he
  | cons i before =>
    have hmem : ∀ e ∈ i :: before, e ∈ M.tree ∧ e ∈ M.below (rangeSize a 1) := by
      intro e he
      have hb : e ∈ M.below (rangeSize a 1) := mem_reverse.1 (hbelow ▸ he)
      exact ⟨(mem_below.1 hb).1, hb⟩
    simp only [probe_point]
    cases hi : i.1.contains a with
    | true =>
      refine ⟨some i, rfl, ?_⟩
      intro e he
      cases he
      rcases hmem i mem_cons_self with ⟨htree, hb⟩
      exact ⟨htree, hi, fun _ => hb⟩
    | false =>
      simp only [Bool.false_eq_true, if_false]
      split
      · rcases stepBack_sound a i.1 i before with ⟨result, hresult, hsound⟩
        refine ⟨result, hresult, ?_⟩
        intro e he
        rcases hmem e (hsound e he).1 with ⟨htree, hb⟩
        exact ⟨htree, (hsound e he).2, fun _ => hb⟩
      · exact ⟨none, rfl, by simp⟩

theorem mergesWith_iff :
    p.mergesWith q = true ↔ { p with intlvMatch := 0 } = { q with intlvMatch := 0 } := by
  simp only [mergesWith, Bool.and_eq_true, decide_eq_true_iff, AddrRange.mk.injEq]
  constructor
  · rintro ⟨⟨⟨⟨h1, h2⟩, h3⟩, h4⟩, h5⟩
    exact ⟨h1.symm, h2.symm, h3.symm, h4.symm, h5.symm, trivial⟩
  · rintro ⟨h1, h2, h3, h4, h5, _⟩
    exact ⟨⟨⟨⟨h1.symm, h2.symm⟩, h3.symm⟩, h4.symm⟩, h5.symm⟩

theorem interleaved_of_mergesWith (h : p.mergesWith q = true) : p.interleaved = q.interleaved := by
  simp only [mergesWith, Bool.and_eq_true, decide_eq_true_iff] at h
  rw [interleaved, interleaved, h.2]

/-- Every address within the bounds of an entry is in an entry of the same chunk. -/
theorem Complete.cover (hM : M.Complete) (hx : x ∈ M.tree) {s : ℕ}
    (hstart : x.1._start ≤ s) (hend : s ≤ x.1._end) :
    ∃ y ∈ M.tree, y.1.contains s = true ∧ y.1.mergesWith x.1 = true ∧
      (x.1.interleaved = false → y = x) := by
  cases hintlv : x.1.interleaved with
  | false =>
    refine ⟨x, hx, ?_, mergesWith_iff.2 rfl, fun _ => rfl⟩
    rw [AddrRange.contains_iff]
    exact ⟨hstart, hend, by simp [hintlv]⟩
  | true =>
    -- the stripe selected by the address
    rcases hM.stripes x hx hintlv _ (x.1.selected_lt s) with ⟨v, hv⟩
    refine ⟨_, hv, ?_, mergesWith_iff.2 rfl, by simp⟩
    rw [AddrRange.contains_iff]
    exact ⟨hstart, hend, fun _ => rfl⟩

/-- Between the entry that contains `a` and the query there are only stripes of the same range. -/
theorem Complete.same_chunk (hM : M.Complete) (he : e ∈ M.tree)
    (hea : e.1.contains a = true) (hj : j ∈ M.below (rangeSize a 1)) (hej : e.1.lt j.1 = true) :
    j.1.mergesWith e.1 = true ∧ e.1.interleaved = true := by
  rcases mem_below.1 hj with ⟨hjtree, hjlt⟩
  have hja : j.1._start ≤ a := start_le_of_not_lt hjlt
  have hstart := start_le_of_lt hej
  have hvalid : j.1._start ≤ j.1._end := by simpa [AddrRange.valid] using hM.valid j hjtree
  rcases AddrRange.contains_iff.1 hea with ⟨_, hend, _⟩
  -- both chunks contain the start of `j`, so they are the same
  rcases hM.cover he hstart (hja.trans hend) with ⟨x, hx, hxs, hxe, hxplain⟩
  rcases hM.cover hjtree (Nat.le_refl _) hvalid with ⟨y, hy, hys, hyj, hyplain⟩
  obtain rfl : x = y := hM.disjoint.eq_of_contains hx hy hxs hys
  have hmerge : j.1.mergesWith e.1 = true :=
    mergesWith_iff.2 ((mergesWith_iff.1 hyj).symm.trans (mergesWith_iff.1 hxe))
  refine ⟨hmerge, ?_⟩
  by_contra hplain
  have heplain : e.1.interleaved = false := by simpa using hplain
  have hjplain := (interleaved_of_mergesWith hmerge).trans heplain
  rw [← hxplain heplain, ← hyplain hjplain, lt_iff] at hej
  omega

theorem ne_of_lt (h : e.1.lt j.1 = true) : j ≠ e := by
  rintro rfl
  rw [lt_iff] at h
  omega

theorem Complete.findAddr_below (hM : M.Complete)
    (he : e ∈ M.below (rangeSize a 1)) (hea : e.1.contains a = true) :
    M.findAddr a = some (some e) := by
  have hetree : e ∈ M.tree := (mem_below.1 he).1
  have hmiss : ∀ j ∈ M.tree, e.1.lt j.1 = true → j.1.contains a = false := by
    intro j hj hlt
    by_contra hcontains
    exact ne_of_lt hlt (hM.disjoint.eq_of_contains hj hetree (by simpa using hcontains) hea)
  unfold findAddr find
  cases hbelow : (M.below (rangeSize a 1)).reverse with
  | nil =>
    rw [reverse_eq_nil_iff.1 hbelow] at he
    cases he
  | cons i before =>
    have hi := mem_of_reverse_below hbelow
    rcases last_below hbelow he with rfl | hlt
    · simp [probe_point, hea]
    · rcases hM.same_chunk hetree hea hi hlt with ⟨hmerge, hintlv⟩
      have hi_intlv := (interleaved_of_mergesWith hmerge).trans hintlv
      simp only [probe_point, hmiss i (mem_below.1 hi).1 hlt, hi_intlv, if_true]
      -- the entries between the predecessor and `e` are stripes that miss the address
      have hmem : e ∈ before := by
        have hcons : e ∈ i :: before := hbelow ▸ mem_reverse.2 he
        exact (mem_cons.1 hcons).resolve_left (ne_of_lt hlt).symm
      rcases append_of_mem hmem with ⟨stripes, rest, rfl⟩
      have hsorted := reverse_below_sorted M (rangeSize a 1)
      rw [hbelow] at hsorted
      have hbetween : ∀ j ∈ stripes, j ∈ M.below (rangeSize a 1) ∧ e.1.lt j.1 = true := by
        intro j hj
        constructor
        · apply mem_reverse.1
          rw [hbelow]
          simp [hj]
        · have htail := (pairwise_cons.1 hsorted).2
          exact (pairwise_append.1 htail).2.2 j hj e mem_cons_self
      apply stepBack_finds (mergesWith_iff.2 rfl) _ _ hea
      · intro j hj
        rcases hbetween j hj with ⟨hjb, hjlt⟩
        have hjmerge := (hM.same_chunk hetree hea hjb hjlt).1
        exact mergesWith_iff.2 ((mergesWith_iff.1 hjmerge).trans (mergesWith_iff.1 hmerge).symm)
      · intro j hj
        rcases hbetween j hj with ⟨hjb, hjlt⟩
        exact hmiss j (mem_below.1 hjb).1 hjlt

theorem lt_point_iff :
    (rangeSize a 1).lt p = true ↔ a < p._start ∨ (a = p._start ∧ 0 < p.intlvMatch) :=
  lt_iff

/-- The first entry of the map is found even if it starts at `a` with another match value. -/
theorem Complete.findAddr_first (hM : M.Complete) (he : e ∈ M.tree)
    (hea : e.1.contains a = true) (hall : ∀ p ∈ M.tree, (rangeSize a 1).lt p.1 = true) :
    M.findAddr a = some (some e) := by
  have hnil : M.below (rangeSize a 1) = [] := by
    apply eq_nil_iff_forall_not_mem.2
    intro p hp
    rcases mem_below.1 hp with ⟨hptree, hplt⟩
    rw [hall p hptree] at hplt
    cases hplt
  rcases AddrRange.contains_iff.1 hea with ⟨hestart, _, _⟩
  cases habove : M.above (rangeSize a 1) with
  | nil =>
    rw [← below_append_above M (rangeSize a 1), hnil, habove] at he
    cases he
  | cons i rest =>
    have hi : i ∈ M.tree := (mem_above.1 (habove ▸ mem_cons_self)).1
    have hstart : i.1._start = a := by
      have hlow := lt_point_iff.1 (hall i hi)
      have hhigh := head_above hnil habove he
      omega
    have hplain : i.1.interleaved = false := by
      -- the first stripe of an interleaved range would not be after the query
      by_contra hintlv
      rcases hM.stripes i hi (by simpa using hintlv) 0 (Nat.two_pow_pos _) with ⟨v, hv⟩
      have hlt := lt_point_iff.1 (hall _ hv)
      simp only at hlt
      omega
    have hia : i.1.contains a = true := hstart ▸ contains_start hplain (hM.valid i hi)
    obtain rfl : i = e := hM.disjoint.eq_of_contains hi he hia hea
    simp [findAddr, find, hnil, habove, probe_point, hia]

end Decoding

/-- In a complete map of disjoint ranges an address is decoded exactly if it is not the start of the
range that contains it with a match value other than zero. -/
theorem decodes_iff_plainStart (hM : M.Complete) (a : ℕ) : M.Decodes a ↔ M.PlainStart a := by
  rcases findAddr_sound M a with ⟨result, hfind, hsound⟩
  constructor
  · rintro ⟨hfound, _⟩ e he hea hstart
    by_contra hboth
    rcases not_or.1 hboth with ⟨hmatch, hall⟩
    -- something is not after the query, so what is found is not either, but `e` is
    rcases not_forall.1 hall with ⟨p, hp⟩
    rcases Classical.not_imp.1 hp with ⟨hptree, hplt⟩
    have hne : M.below (rangeSize a 1) ≠ [] :=
      ne_nil_of_mem (mem_below.2 ⟨hptree, by simpa using hplt⟩)
    have hresult : result = some e := some.inj (hfind.symm.trans (hfound e he hea))
    have hlt := (mem_below.1 ((hsound e hresult).2.2 hne)).2
    rw [lt_point_iff.2 (.inr ⟨hstart.symm, Nat.pos_of_ne_zero hmatch⟩)] at hlt
    cases hlt
  · intro hplain
    constructor
    · intro e he hea
      cases hlt : (rangeSize a 1).lt e.1 with
      | false => exact hM.findAddr_below (mem_below.2 ⟨he, hlt⟩) hea
      | true =>
        rcases AddrRange.contains_iff.1 hea with ⟨hstart, _, _⟩
        have horder := lt_point_iff.1 hlt
        rcases hplain e he hea (by omega) with hzero | hall
        · omega
        · exact hM.findAddr_first he hea hall
    · intro hnone
      cases result with
      | none => exact hfind
      | some e =>
        rcases hsound e rfl with ⟨he, hea, _⟩
        rw [hnone e he] at hea
        cases hea

/-- The two stripes of a range, told apart by bit 6. -/
def twoStripes (start finish : ℕ) : AddrRangeMap ℕ where
  tree := [(⟨start, finish, 6, 0, 1, 0⟩, 0), (⟨start, finish, 6, 0, 1, 1⟩, 1)]
  sorted := by simp [AddrRange.lt]

theorem complete_twoStripes {start finish : ℕ} (h : start ≤ finish) :
    (twoStripes start finish).Complete where
  valid := by simp [twoStripes, AddrRange.valid, h]
  disjoint := by
    refine pairwise_cons.2 ⟨?_, pairwise_singleton _ _⟩
    intro y hy a hboth
    obtain rfl : y = (⟨start, finish, 6, 0, 1, 1⟩, 1) := by simpa using hy
    have hzero := (AddrRange.contains_iff.1 hboth.1).2.2 rfl
    have hone := (AddrRange.contains_iff.1 hboth.2).2.2 rfl
    -- the same bit of the address would be 0 and 1
    exact Nat.zero_ne_one (hzero.symm.trans hone)
  stripes := by
    intro e he _ m hm
    simp only [twoStripes, mem_cons, not_mem_nil, or_false] at he
    have hbit : m = 0 ∨ m = 1 := by
      rcases he with rfl | rfl <;> simp only at hm <;> omega
    rcases he with rfl | rfl <;> rcases hbit with rfl | rfl <;> simp [twoStripes]

theorem decodes_twoStripes : (twoStripes 0 127).Complete ∧ (twoStripes 0 127).Decodes 64 := by
  have hcomplete : (twoStripes 0 127).Complete := complete_twoStripes (by decide)
  refine ⟨hcomplete, (decodes_iff_plainStart _ hcomplete 64).2 ?_⟩
  intro e he _ hstart
  simp only [twoStripes, mem_cons, not_mem_nil, or_false] at he
  rcases he with rfl | rfl <;> exact absurd hstart (by decide)

/-- The first address of the two stripes from 64 on is in the second one, but is not found. -/
theorem twoStripes_startMissed :
    (twoStripes 64 191).Complete ∧ (twoStripes 64 191).findAddr 64 = some none ∧
      ((⟨64, 191, 6, 0, 1, 1⟩, 1) ∈ (twoStripes 64 191).tree) ∧
      contains ⟨64, 191, 6, 0, 1, 1⟩ 64 = true ∧ ¬ (twoStripes 64 191).Decodes 64 := by
  have hfind : (twoStripes 64 191).findAddr 64 = some none := by decide
  have hmem : (⟨64, 191, 6, 0, 1, 1⟩, 1) ∈ (twoStripes 64 191).tree := by decide
  have hcontains : contains ⟨64, 191, 6, 0, 1, 1⟩ 64 = true := by decide
  refine ⟨complete_twoStripes (by decide), hfind, hmem, hcontains, ?_⟩
  intro hdecodes
  have hfound := hdecodes.1 _ hmem hcontains
  cases hfound

end AddrRangeMap

end EnocGem5.Base
