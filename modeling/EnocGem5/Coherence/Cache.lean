import Mathlib

/-!
# Cache — `ENoCCache`

A cache is an array of sets, a set is the list of its ways. `checkTag` and `checkLRU` return the
first way that matches and the number of ways if there is none, as in the source; the callers test
for it or write out of bounds.

`copy` is the view of a set that coherence is about: the state of the way that `checkTag` finds.
`Unambiguous` says that no other way of the set can hold the tag in a valid state.
-/

namespace EnocGem5.Coherence

open Option List Nat Function

/-- The macros `M`, `E`, `S`, `I`. -/
inductive MESI
  | M
  | E
  | S
  | I
  deriving DecidableEq, Repr

/-- The values of the macros, as a directory row stores them. -/
def MESI.bits : MESI → ℤ
  | .M => 0
  | .E => 1
  | .S => 2
  | .I => 3

/-- The three caches of a node. -/
inductive Level
  | L1D
  | L1I
  | L2
  deriving DecidableEq, Repr

/-- `LINES` of the caches that `TrafficManager` makes. -/
def Level.LINES : Level → ℕ
  | .L2 => 32968
  | _ => 16484

def Level.WAYS : Level → ℕ
  | .L2 => 16
  | _ => 8

/-- The conversion of an unsigned 64-bit value to `int`. -/
@[irreducible]
def toInt (n : ℕ) : ℤ := Int.bmod n (2 ^ 32)

def tagOf (addr : ℕ) : ℤ := toInt (addr >>> 20)

@[irreducible]
def Level.index (l : Level) (addr : ℕ) : ℕ := (addr >>> 6) &&& (l.LINES - 1)

/-! ## The block of an address -/

theorem toInt_of_lt {n : ℕ} (h : n < 2 ^ 31) : toInt n = n := by
  unfold toInt
  rw [Int.bmod_def]
  omega

theorem tagOf_eq {addr : ℕ} (h : addr < 2 ^ 32) : tagOf addr = (addr >>> 20 : ℕ) := by
  apply toInt_of_lt
  rw [shiftRight_eq_div_pow]
  omega

/-- Index and tag determine the block up to the bits below the tag that `LINES - 1` lacks. -/
theorem sameBlock_iff (l : Level) {a b : ℕ} (ha : a < 2 ^ 32) (hb : b < 2 ^ 32)
    (hindex : l.index a = l.index b) (htag : tagOf a = tagOf b) :
    a / 64 = b / 64 ↔
      ∀ i < 14, (l.LINES - 1).testBit i = false → (a >>> 6).testBit i = (b >>> 6).testBit i := by
  have hblock : ∀ n : ℕ, n / 64 = n >>> 6 := fun n => (shiftRight_eq_div_pow n 6).symm
  rw [hblock, hblock]
  constructor
  · intro h i _ _
    rw [h]
  · intro h
    apply eq_of_testBit_eq
    intro i
    rcases lt_or_ge i 14 with hi | hi
    · cases hbit : (l.LINES - 1).testBit i with
      | false => exact h i hi hbit
      | true =>
        unfold Level.index at hindex
        have hand := congrArg (testBit · i) hindex
        simpa [hbit] using hand
    · -- the tag has the bits from 14 on
      rw [tagOf_eq ha, tagOf_eq hb] at htag
      have hbit := congrArg (testBit · (i - 14)) (Int.ofNat_inj.1 htag)
      simp only [testBit_shiftRight] at hbit ⊢
      have hsum : 20 + (i - 14) = 6 + i := by omega
      rwa [hsum] at hbit

theorem sameBlock_firstBlock : (0 : ℕ) / 64 = 63 / 64 ↔
    ∀ i < 14, (Level.L2.LINES - 1).testBit i = false → (0 >>> 6).testBit i = (63 >>> 6).testBit i :=
  sameBlock_iff .L2 (by decide) (by decide) (by unfold Level.index; rfl) (by simp [tagOf])

/-- Addresses 0 and 512 are in different blocks, which no cache tells apart. -/
theorem blocks_share_line :
    (0 : ℕ) / 64 ≠ 512 / 64 ∧ tagOf 0 = tagOf 512 ∧ ∀ l : Level, l.index 0 = l.index 512 := by
  refine ⟨by decide, by simp [tagOf], fun l => ?_⟩
  unfold Level.index
  cases l <;> rfl

/-! ## The ways of one index -/

/-- `cacheline`; its `address` and `data` are written and never tested. -/
structure CacheLine where
  MESIbits : MESI
  LRUbits : ℤ
  tag : ℤ
  deriving DecidableEq, Repr

/-- The ways of one index. -/
abbrev CacheSet := List CacheLine

namespace CacheSet

/-- `setLRUbitsToWay`, for one index. -/
def setLRUbitsToWay (ways : ℕ) : CacheSet :=
  (range ways).map fun way => { MESIbits := .I, LRUbits := way, tag := 0 }

variable (set : CacheSet)

def checkTag (tag : ℤ) : ℕ := set.findIdx fun line => line.tag = tag

def checkLRU : ℕ := set.findIdx fun line => line.LRUbits = 0

/-- The inner loop of `updateLRU`: the first way with these LRU bits is decremented. -/
def decrementLRU (testbits : ℕ) : CacheSet :=
  set.modify (set.findIdx fun line => line.LRUbits = (testbits : ℤ))
    fun line => { line with LRUbits := line.LRUbits - 1 }

/-- `updateLRU`; `none` if there is no such way. -/
def updateLRU (ourway : ℕ) : Option CacheSet :=
  match set[ourway]? with
  | none => none
  | some line =>
    if line.LRUbits = set.length then some set
    else some (((range set.length).foldl decrementLRU set).modify ourway
      fun line => { line with LRUbits := set.length })

def setMESI (way : ℕ) (x : MESI) : CacheSet :=
  set.modify way fun line => { line with MESIbits := x }

def setTag (way : ℕ) (tag : ℤ) : CacheSet :=
  set.modify way fun line => { line with tag := tag }

/-! ## The state of a tag -/

/-- The set holds the tag in state `x`, in whichever way. -/
def Holds (tag : ℤ) (x : MESI) : Prop :=
  ∃ line ∈ set, line.tag = tag ∧ line.MESIbits = x

instance (tag : ℤ) (x : MESI) : Decidable (Holds set tag x) :=
  inferInstanceAs (Decidable (∃ line ∈ set, _))

/-- The state of the way that `checkTag` finds; `I` if there is none. -/
def copy (tag : ℤ) : MESI :=
  match set[set.checkTag tag]? with
  | some line => line.MESIbits
  | none => .I

/-- A valid line is the first one with its tag. -/
def Unambiguous : Prop :=
  ∀ (i j : ℕ) (line line' : CacheLine), set[i]? = some line → set[j]? = some line' →
    line'.tag = line.tag → line.MESIbits ≠ .I → i ≤ j

section Lemmas

variable {set set' : CacheSet} {tag : ℤ} {way : ℕ}

variable {i : ℕ} {line : CacheLine}

theorem tag_of_checkTag (hline : set[set.checkTag tag]? = some line) : line.tag = tag := by
  rcases List.getElem?_eq_some_iff.1 hline with ⟨hlt, rfl⟩
  exact of_decide_eq_true (findIdx_getElem (w := hlt))

theorem checkTag_lt (h : set.checkTag tag < set.length) :
    ∃ line, set[set.checkTag tag]? = some line ∧ line.tag = tag :=
  ⟨_, getElem?_eq_getElem h, tag_of_checkTag (getElem?_eq_getElem h)⟩

theorem not_tag_of_lt_checkTag (hi : i < set.checkTag tag)
    (hline : set[i]? = some line) : line.tag ≠ tag := by
  obtain ⟨hlen, rfl⟩ := List.getElem?_eq_some_iff.1 hline
  exact of_decide_eq_false (not_of_lt_findIdx hi)

theorem not_tag_of_absent (h : ¬ set.checkTag tag < set.length)
    (hline : set[i]? = some line) : line.tag ≠ tag := by
  have hlt := (List.getElem?_eq_some_iff.1 hline).1
  exact not_tag_of_lt_checkTag (by omega) hline

/-- The way that `checkTag` finds, from its two properties. -/
theorem checkTag_eq (hline : set[i]? = some line)
    (htag : line.tag = tag) (hfirst : ∀ j line', set[j]? = some line' → line'.tag = tag → i ≤ j) :
    set.checkTag tag = i := by
  have hle : set.checkTag tag ≤ i := by
    by_contra hlt
    exact not_tag_of_lt_checkTag (by omega) hline htag
  have hlen : i < set.length := (List.getElem?_eq_some_iff.1 hline).1
  obtain ⟨line', hline', htag'⟩ := checkTag_lt (by omega : set.checkTag tag < set.length)
  have hge := hfirst _ line' hline' htag'
  omega

theorem copy_eq (hline : set[i]? = some line)
    (htag : line.tag = tag) (hfirst : ∀ j line', set[j]? = some line' → line'.tag = tag → i ≤ j) :
    copy set tag = line.MESIbits := by
  rw [copy, checkTag_eq hline htag hfirst, hline]

theorem copy_absent (h : ∀ line ∈ set, line.tag ≠ tag) : copy set tag = .I := by
  unfold copy
  cases hline : set[set.checkTag tag]? with
  | none => rfl
  | some line => exact absurd (tag_of_checkTag hline) (h line (mem_of_getElem? hline))

/-- In an unambiguous set `Holds` is about the way that `checkTag` finds. -/
theorem holds_iff (hU : Unambiguous set) {x : MESI} (hx : x ≠ .I) :
    Holds set tag x ↔ copy set tag = x := by
  constructor
  · rintro ⟨line, hmem, htag, hstate⟩
    obtain ⟨i, hi⟩ := getElem?_of_mem hmem
    have hvalid : line.MESIbits ≠ .I := hstate ▸ hx
    rw [copy_eq hi htag fun j line' hj htag' =>
      hU i j line line' hi hj (htag'.trans htag.symm) hvalid]
    exact hstate
  · intro h
    unfold copy at h
    cases hline : set[set.checkTag tag]? with
    | none =>
      rw [hline] at h
      exact absurd h.symm hx
    | some line =>
      rw [hline] at h
      exact ⟨line, mem_of_getElem? hline, tag_of_checkTag hline, h⟩

theorem checkTag_congr (h : set'.map CacheLine.tag = set.map CacheLine.tag) (tag : ℤ) :
    set'.checkTag tag = set.checkTag tag := by
  have hfind := congrArg (findIdx fun y : ℤ => decide (y = tag)) h
  simpa [findIdx_map, checkTag, comp_def] using hfind

def SameLines (set set' : CacheSet) : Prop :=
  set'.map (fun line => (line.tag, line.MESIbits)) = set.map fun line => (line.tag, line.MESIbits)

section SameLines

variable (h : SameLines set set')
include h

theorem SameLines.getElem? {line' : CacheLine} (hline' : set'[i]? = some line') :
    ∃ line, set[i]? = some line ∧ line.tag = line'.tag ∧ line.MESIbits = line'.MESIbits := by
  have hi := congrArg (·[i]?) h
  simp only [getElem?_map, hline', map_some] at hi
  obtain ⟨line, hline, heq⟩ := map_eq_some_iff.1 hi.symm
  exact ⟨line, hline, congrArg Prod.fst heq, congrArg Prod.snd heq⟩

theorem SameLines.trans {set'' : CacheSet} (h' : SameLines set' set'') :
    SameLines set set'' := Eq.trans h' h

theorem SameLines.length : set'.length = set.length := by
  simpa using congrArg List.length h

theorem SameLines.tags : set'.map CacheLine.tag = set.map CacheLine.tag := by
  have hmap := congrArg (map Prod.fst) h
  simpa [comp_def] using hmap

theorem SameLines.copy : copy set' = copy set := by
  funext tag
  have hi := congrArg (·[set.checkTag tag]?) h
  simp only [getElem?_map] at hi
  simp only [CacheSet.copy, checkTag_congr h.tags]
  cases hset : set[set.checkTag tag]? with
  | none =>
    rw [hset] at hi
    rw [map_eq_none_iff.1 hi]
  | some line =>
    rw [hset] at hi
    obtain ⟨line', hline', heq⟩ := map_eq_some_iff.1 hi
    rw [hline']
    exact congrArg Prod.snd heq

theorem SameLines.unambiguous (hU : Unambiguous set) : Unambiguous set' := by
  intro i j line line' hi hj htag hvalid
  obtain ⟨l, hl, hltag, hlstate⟩ := h.getElem? hi
  obtain ⟨l', hl', hl'tag, _⟩ := h.getElem? hj
  exact hU i j l l' hl hl' (by rw [hl'tag, htag, hltag]) (hlstate ▸ hvalid)

end SameLines

theorem sameLines_modify {f : CacheLine → CacheLine} (i : ℕ)
    (hf : ∀ line, (f line).tag = line.tag ∧ (f line).MESIbits = line.MESIbits) :
    SameLines set (set.modify i f) := by
  apply ext_getElem?
  intro j
  simp only [getElem?_map, getElem?_modify]
  cases set[j]? with
  | none => rfl
  | some line =>
    by_cases hij : i = j
    · simp [hij, hf line]
    · simp [hij]

theorem updateLRU_sameLines (h : set.updateLRU way = some set') : SameLines set set' := by
  unfold updateLRU at h
  split at h
  · cases h
  · split_ifs at h
    · cases h
      rfl
    · cases h
      have hloop : SameLines set ((range set.length).foldl decrementLRU set) :=
        foldlRecOn _ _ rfl fun s hs b _ => hs.trans (sameLines_modify _ fun _ => ⟨rfl, rfl⟩)
      exact hloop.trans (sameLines_modify way fun _ => ⟨rfl, rfl⟩)

/-! ## Writing a state and claiming a way -/

theorem getElem?_setMESI (x : MESI) (i : ℕ) :
    (set.setMESI way x)[i]? =
      if way = i then set[i]?.map fun line => { line with MESIbits := x } else set[i]? := by
  rw [setMESI, getElem?_modify]
  split_ifs <;> simp

theorem tags_setMESI (set : CacheSet) (way : ℕ) (x : MESI) :
    (set.setMESI way x).map CacheLine.tag = set.map CacheLine.tag := by
  apply ext_getElem?
  intro j
  rw [getElem?_map, getElem?_setMESI, getElem?_map]
  split_ifs
  · cases set[j]? <;> rfl
  · rfl

/-- Writing the state of the way that holds a tag changes the copy of this tag only. -/
theorem copy_setMESI (h : set.checkTag tag < set.length) (x : MESI) :
    copy (set.setMESI (set.checkTag tag) x) = Function.update (copy set) tag x := by
  obtain ⟨line, hline, htag⟩ := checkTag_lt h
  funext σ
  rw [copy, checkTag_congr (tags_setMESI set _ x), getElem?_setMESI]
  by_cases hσ : σ = tag
  · rw [hσ, if_pos rfl, hline, update_self]
    rfl
  · rw [update_of_ne hσ, copy]
    split_ifs with hway
    · -- one way cannot be the first one for two tags
      rw [hway] at hline
      exact absurd ((tag_of_checkTag hline).symm.trans htag) hσ
    · rfl

theorem unambiguous_setMESI (hU : Unambiguous set) (x : MESI) :
    Unambiguous (set.setMESI (set.checkTag tag) x) := by
  intro i j line line' hi hj htag hvalid
  rw [getElem?_setMESI] at hi hj
  have hj' : ∃ l', set[j]? = some l' ∧ l'.tag = line'.tag := by
    split_ifs at hj
    · obtain ⟨l', hl', rfl⟩ := map_eq_some_iff.1 hj
      exact ⟨l', hl', rfl⟩
    · exact ⟨line', hj, rfl⟩
  obtain ⟨l', hl', hl'tag⟩ := hj'
  split_ifs at hi with hway
  · -- the written way is the first one with its tag
    obtain ⟨l, hl, rfl⟩ := map_eq_some_iff.1 hi
    rw [← hway] at hl
    by_contra hlt
    refine not_tag_of_lt_checkTag (by omega : j < set.checkTag tag) hl' ?_
    rw [hl'tag, htag, ← tag_of_checkTag hl]
  · exact hU i j line l' hi hl' (hl'tag.trans htag) hvalid

theorem getElem?_setTag (i : ℕ) :
    (set.setTag way tag)[i]? =
      if way = i then set[i]?.map fun line => { line with tag := tag } else set[i]? := by
  rw [setTag, getElem?_modify]
  split_ifs <;> simp

/-- A way claimed for an absent tag is the one that `checkTag` then finds. -/
theorem checkTag_setTag (habsent : ¬ set.checkTag tag < set.length) (hway : way < set.length) :
    (set.setTag way tag).checkTag tag = way := by
  have hline : (set.setTag way tag)[way]? = some { set[way] with tag := tag } := by
    rw [getElem?_setTag, if_pos rfl, getElem?_eq_getElem hway]
    rfl
  refine checkTag_eq hline rfl ?_
  intro j line' hj htag'
  rw [getElem?_setTag] at hj
  split_ifs at hj with hwj
  · omega
  · exact absurd htag' (not_tag_of_absent habsent hj)

theorem unambiguous_setTag (hU : Unambiguous set) (habsent : ¬ set.checkTag tag < set.length) :
    Unambiguous (set.setTag way tag) := by
  intro i j line line' hi hj htag hvalid
  rw [getElem?_setTag] at hi hj
  split_ifs at hi hj with hwi hwj
  · omega
  · obtain ⟨l, _, rfl⟩ := map_eq_some_iff.1 hi
    exact absurd htag (not_tag_of_absent habsent hj)
  · obtain ⟨l', _, rfl⟩ := map_eq_some_iff.1 hj
    exact absurd htag.symm (not_tag_of_absent habsent hi)
  · exact hU i j line line' hi hj htag hvalid

/-- The tag whose way was claimed is gone; other tags keep their state. -/
theorem copy_setTag (hU : Unambiguous set) {σ : ℤ} (hσ : σ ≠ tag) :
    copy (set.setTag way tag) σ = copy set σ ∨ copy (set.setTag way tag) σ = .I := by
  by_cases hI : copy (set.setTag way tag) σ = .I
  · exact Or.inr hI
  refine Or.inl ?_
  -- a valid line of the new set is one of the old set
  unfold copy at hI ⊢
  cases hline : (set.setTag way tag)[(set.setTag way tag).checkTag σ]? with
  | none =>
    rw [hline] at hI
    exact absurd rfl hI
  | some line =>
    rw [hline] at hI
    have htag' := tag_of_checkTag hline
    rw [getElem?_setTag] at hline
    split_ifs at hline with hway
    · obtain ⟨l, _, rfl⟩ := map_eq_some_iff.1 hline
      exact absurd htag'.symm hσ
    · have hcopy : copy set σ = line.MESIbits :=
        copy_eq hline htag' fun j line' hj hj' =>
          hU _ j line line' hline hj (hj'.trans htag'.symm) hI
      exact hcopy.symm

theorem length_setTag : (set.setTag way tag).length = set.length := by
  simp [setTag]

end Lemmas

theorem unambiguous_setLRUbitsToWay (ways : ℕ) : Unambiguous (setLRUbitsToWay ways) := by
  intro i j line line' hi _ _ hvalid
  simp only [setLRUbitsToWay, getElem?_map] at hi
  obtain ⟨_, _, rfl⟩ := map_eq_some_iff.1 hi
  exact absurd rfl hvalid

end CacheSet
end EnocGem5.Coherence
