import Mathlib

/-!
# AddrRange — contiguous and interleaved address ranges

An `AddrRange` is an interval of addresses, both ends included, or one stripe of such an interval:
the addresses whose interleaving bits, possibly hashed by a second slice of the address, have a
given value. Addresses are 64-bit in the source and natural numbers here.
-/

namespace EnocGem5.Base

/-- `bits(val, first, last)`: the slice `val[first:last]`, right justified. -/
def bits (val first last : ℕ) : ℕ := (val >>> last) % 2 ^ (first + 1 - last)

structure AddrRange where
  _start : ℕ
  _end : ℕ
  intlvHighBit : ℕ := 0
  xorHighBit : ℕ := 0
  intlvBits : ℕ := 0
  intlvMatch : ℕ := 0
  deriving DecidableEq, Repr

def rangeIn (start finish : ℕ) : AddrRange := { _start := start, _end := finish }

def rangeSize (start size : ℕ) : AddrRange := { _start := start, _end := start + size - 1 }

namespace AddrRange

variable (r : AddrRange)

def interleaved : Bool := r.intlvBits ≠ 0

def hashed : Bool := r.interleaved && r.xorHighBit ≠ 0

def size : ℕ := (r._end + 1 - r._start) >>> r.intlvBits

def valid : Bool := r._start ≤ r._end

def mergesWith (this r : AddrRange) : Bool :=
  r._start = this._start && r._end = this._end && r.intlvHighBit = this.intlvHighBit &&
    r.xorHighBit = this.xorHighBit && r.intlvBits = this.intlvBits

/-- The value that is compared with `intlvMatch`. A slice that would reach below bit 0, which the
constructor does not exclude, is cut off there. -/
def selected (a : ℕ) : ℕ :=
  let slice := bits a r.intlvHighBit (r.intlvHighBit + 1 - r.intlvBits)
  if r.hashed then slice ^^^ bits a r.xorHighBit (r.xorHighBit + 1 - r.intlvBits) else slice

def contains (a : ℕ) : Bool :=
  let inRange := r._start ≤ a && a ≤ r._end
  if r.interleaved then inRange && r.selected a = r.intlvMatch else inRange

/-- `intersects`; `none` when it panics. -/
def intersects (this r : AddrRange) : Option Bool :=
  -- the simple case of no overlap at all, applicable even if the ranges are interleaved
  if r._end < this._start ∨ this._end < r._start then some false
  else if !this.interleaved && !r.interleaved then some true
  else if r.size = 1 then some (this.contains r._start)
  -- restrict the check to ranges that belong to the same chunk
  else if this.mergesWith r then some (this.intlvMatch = r.intlvMatch)
  else none

/-- `operator<`, the order of the map. -/
def lt (this r : AddrRange) : Bool :=
  if this._start ≠ r._start then this._start < r._start else this.intlvMatch < r.intlvMatch

/-! ## The order -/

theorem lt_iff {p q : AddrRange} : p.lt q = true ↔
    p._start < q._start ∨ (p._start = q._start ∧ p.intlvMatch < q.intlvMatch) := by
  unfold lt
  split
  case isTrue hne =>
    rw [decide_eq_true_iff]
    exact ⟨Or.inl, fun h => h.resolve_right fun hboth => hne hboth.1⟩
  case isFalse heq =>
    rw [decide_eq_true_iff]
    omega

theorem lt_trans {p q r : AddrRange} (hpq : p.lt q = true) (hqr : q.lt r = true) :
    p.lt r = true := by
  rw [lt_iff] at *
  omega

theorem lt_asymm {p q : AddrRange} (hpq : p.lt q = true) : q.lt p = false := by
  rw [Bool.eq_false_iff, ne_eq, lt_iff]
  rw [lt_iff] at hpq
  omega

/-! ## Membership -/

theorem contains_iff {r : AddrRange} {a : ℕ} : r.contains a = true ↔
    r._start ≤ a ∧ a ≤ r._end ∧ (r.interleaved = true → r.selected a = r.intlvMatch) := by
  unfold contains
  cases r.interleaved <;> simp [and_assoc]

theorem contains_start {r : AddrRange} (hplain : r.interleaved = false) (hvalid : r.valid = true) :
    r.contains r._start = true := by
  rw [contains_iff]
  exact ⟨Nat.le_refl _, by simpa [valid] using hvalid, by simp [hplain]⟩

theorem bits_lt (a high n : ℕ) : bits a high (high + 1 - n) < 2 ^ n := by
  have hpos : 0 < 2 ^ (high + 1 - (high + 1 - n)) := Nat.two_pow_pos _
  have hle : 2 ^ (high + 1 - (high + 1 - n)) ≤ 2 ^ n :=
    Nat.pow_le_pow_right (by decide) (by omega)
  exact (Nat.mod_lt _ hpos).trans_le hle

/-- The selected value fits in the interleaving bits, hashed or not. -/
theorem selected_lt (a : ℕ) : r.selected a < 2 ^ r.intlvBits := by
  simp only [selected]
  split
  · exact Nat.xor_lt_two_pow (bits_lt a _ _) (bits_lt a _ _)
  · exact bits_lt a _ _

/-- The query for one address is answered by `contains`, whatever is stored. -/
theorem intersects_point (a : ℕ) : r.intersects (rangeSize a 1) = some (r.contains a) := by
  unfold intersects
  split
  case isTrue hout =>
    have hnot : ¬ r.contains a = true := by
      rw [contains_iff]
      simp only [rangeSize] at hout
      omega
    simp [hnot]
  case isFalse hin =>
    split
    case isTrue hplain =>
      have hcontains : r.contains a = true := by
        rw [contains_iff]
        simp only [rangeSize] at hin
        refine ⟨by omega, by omega, ?_⟩
        intro hintlv
        simp [hintlv] at hplain
      rw [hcontains]
    case isFalse =>
      have hsize : (rangeSize a 1).size = 1 := by simp [rangeSize, size]
      rw [if_pos hsize]
      rfl

/-- Two plain ranges meet when neither ends before the other starts. -/
theorem intersects_plain {p r : AddrRange} (hp : p.interleaved = false)
    (hr : r.interleaved = false) :
    p.intersects r = some (decide (p._start ≤ r._end ∧ r._start ≤ p._end)) := by
  unfold intersects
  split
  case isTrue hout =>
    have hnot : ¬ (p._start ≤ r._end ∧ r._start ≤ p._end) := by omega
    simp [hnot]
  case isFalse hin =>
    have hmeet : p._start ≤ r._end ∧ r._start ≤ p._end := by omega
    simp [hp, hr, hmeet]

/-! ## Merging -/

/-- The constructor that merges ranges; `none` when it calls `fatal`. The expected match value is an
8-bit counter. -/
def merge : List AddrRange → Option AddrRange
  | [] => some (rangeIn 1 0)
  | r :: rs =>
    if (r :: rs).length = 2 ^ r.intlvBits ∧
        (r :: rs).zipIdx.all fun (s, i) => r.mergesWith s && s.intlvMatch = i % 2 ^ 8 then
      some (rangeIn r._start r._end)
    else none

/-- Each address of the merged range, and no other, is in one of the ranges, and in one only. -/
def Partitions (ranges : List AddrRange) (m : AddrRange) : Prop :=
  ∀ a, (m.contains a = true ↔ ∃ r ∈ ranges, r.contains a = true) ∧
    (m.contains a = true → ∃! i : ℕ, ∃ r ∈ ranges[i]?, r.contains a = true)

/-- The ranges of an accepted vector differ in their match values only. -/
theorem contains_of_mergesWith {r s : AddrRange} {a i : ℕ}
    (h : (r.mergesWith s && s.intlvMatch = i) = true) :
    s.contains a = true ↔ (rangeIn r._start r._end).contains a = true ∧
    (r.interleaved = true → r.selected a = i) := by
  simp only [mergesWith, Bool.and_eq_true, decide_eq_true_eq] at h
  simp [contains_iff, rangeIn, interleaved, hashed, selected, h, and_assoc]

theorem not_contains_of_lt {r : AddrRange} (h : r._end < r._start) (a : ℕ) :
    ¬r.contains a = true := by
  rw [contains_iff]
  omega

/-- More ranges than the counter can tell apart have match values in common. -/
theorem merge_partitions_iff {ranges : List AddrRange} {m : AddrRange} (h : merge ranges = some m) :
    Partitions ranges m ↔ ranges.length ≤ 2 ^ 8 ∨ ∃ r ∈ ranges.head?, r._end < r._start := by
  cases ranges with
  | nil =>
    cases h
    refine iff_of_true (fun a => ?_) (.inl (Nat.zero_le _))
    simp [not_contains_of_lt (r := rangeIn 1 0) (by decide)]
  | cons r rs =>
    obtain ⟨⟨hlength, hall⟩, hm⟩ := Option.ite_none_right_eq_some.1 h
    cases hm
    have hempty : (∃ s ∈ (r :: rs).head?, s._end < s._start) ↔
        (rangeIn r._start r._end)._end < (rangeIn r._start r._end)._start := by
      simp [rangeIn]
    rw [hempty]
    set ranges := r :: rs
    have hstripe : ∀ a i, (∃ s ∈ ranges[i]?, s.contains a = true) ↔ i < ranges.length ∧
        (rangeIn r._start r._end).contains a = true ∧
        (r.interleaved = true → r.selected a = i % 2 ^ 8) := by
      intro a i
      constructor
      · rintro ⟨s, hs, hcontains⟩
        have hmem := List.all_eq_true.1 hall (s, i) (List.mk_mem_zipIdx_iff_getElem?.2 hs)
        exact ⟨(List.getElem?_eq_some_iff.1 hs).1, (contains_of_mergesWith hmem).1 hcontains⟩
      · rintro ⟨hi, hcontains⟩
        have hs := List.getElem?_eq_getElem hi
        have hmem := List.all_eq_true.1 hall (ranges[i], i) (List.mk_mem_zipIdx_iff_getElem?.2 hs)
        exact ⟨ranges[i], hs, (contains_of_mergesWith hmem).2 hcontains⟩
    constructor
    · intro hpart
      by_contra hboth
      rw [not_or, not_le, not_lt] at hboth
      have hbits : 8 < r.intlvBits := (Nat.pow_lt_pow_iff_right (by decide)).1 (hlength ▸ hboth.1)
      have hlarge : 2 ^ 9 ≤ ranges.length := hlength ▸ Nat.pow_le_pow_right (by decide) hbits
      -- the first address is in two ranges, or in none
      have hin : (rangeIn r._start r._end).contains r._start = true :=
        contains_start rfl (by simpa [valid] using hboth.2)
      obtain ⟨i, hi, hunique⟩ := (hpart r._start).2 hin
      have hmatch := ((hstripe _ _).1 hi).2.2
      have hlow :=
        hunique (i % 2 ^ 8) ((hstripe _ _).2 ⟨by omega, hin, fun hr => by rw [hmatch hr]; omega⟩)
      have hhigh :=
        hunique (i % 2 ^ 8 + 2 ^ 8) ((hstripe _ _).2 ⟨by omega, hin,
          fun hr => by rw [hmatch hr]; omega⟩)
      omega
    · intro hsmall a
      have hunique : (rangeIn r._start r._end).contains a = true →
          ∃! i : ℕ, ∃ s ∈ ranges[i]?, s.contains a = true := by
        intro hin
        have hle := hsmall.resolve_right fun hlt => not_contains_of_lt hlt a hin
        have hselected := r.selected_lt a
        refine ⟨r.selected a, (hstripe _ _).2 ⟨by omega, hin, fun _ => by omega⟩, fun j hj => ?_⟩
        obtain ⟨hj, -, hmatch⟩ := (hstripe _ _).1 hj
        cases hr : r.interleaved with
        | true =>
          have := hmatch hr
          omega
        | false =>
          -- without interleaving there is one range
          have hzero : r.intlvBits = 0 := by simpa [interleaved] using hr
          rw [hzero] at hlength hselected
          omega
      refine ⟨⟨fun hin => ?_, ?_⟩, hunique⟩
      · obtain ⟨i, ⟨s, hs, hcontains⟩, -⟩ := hunique hin
        exact ⟨s, List.mem_of_getElem? hs, hcontains⟩
      · rintro ⟨s, hs, hcontains⟩
        obtain ⟨i, hi⟩ := List.mem_iff_getElem?.1 hs
        exact ((hstripe a i).1 ⟨s, hi, hcontains⟩).2.1

/-- Two stripes of 64 bytes. -/
theorem merge_partitions_twoStripes :
    Partitions [⟨0, 127, 6, 0, 1, 0⟩, ⟨0, 127, 6, 0, 1, 1⟩] (rangeIn 0 127) :=
  (merge_partitions_iff (by decide)).2 (.inl (by decide))

/-- With nine interleaving bits, address 0 is in the ranges 0 and 256. -/
theorem merge_overlapping :
    let ranges : List AddrRange := (List.range 512).map fun i => ⟨0, 511, 8, 0, 9, i % 2 ^ 8⟩
    merge ranges = some (rangeIn 0 511) ∧ ¬Partitions ranges (rangeIn 0 511) := by
  refine ⟨by decide +kernel, fun h => ?_⟩
  obtain ⟨i, -, hunique⟩ := (h 0).2 (by decide)
  have hfirst := hunique 0 ⟨⟨0, 511, 8, 0, 9, 0⟩, by simp, by decide⟩
  have hsecond := hunique 256 ⟨⟨0, 511, 8, 0, 9, 0⟩, by simp, by decide⟩
  omega

end AddrRange

end EnocGem5.Base
