import EnocGem5.Lib.Dyadic
import EnocGem5.Mem.StackDistCalc

/-!
# StackDistHistory — what stack distances are

Stack distances in terms of the calls that were made: additions are numbered, and `lastAdded` is the
number of the last addition of an address, if it was not removed since. The addresses that have such
a number are `recorded`. The distance of a recorded address is the number of addresses that are
recorded and were added after it.

The numbers in use make a finite set of naturals, `live`, and the distance of an address counts the
members of this set that are greater than its own number (`card_addedAfter`). In the LRU stack,
which is a list of the recorded addresses with the one that was added last in front, it is the
position of the address (`Ranked.idxOf_eq`).

Histories have the last call first.
-/

namespace EnocGem5.StackDist

open Lib List

/-! ## Histories -/

def additions : List Call → ℕ
  | [] => 0
  | .calcStackDistAndUpdate _ true :: earlier => additions earlier + 1
  | _ :: earlier => additions earlier

/-- The number of the last addition of an address. A removal takes it away. -/
def lastAdded : List Call → ℕ → Option ℕ
  | [], _ => none
  | .calcStackDistAndUpdate b addNewNode :: earlier, a =>
    if a = b then (if addNewNode then some (additions earlier) else none) else lastAdded earlier a
  | .calcStackDist _ _ :: earlier, a => lastAdded earlier a

/-- The mark that was set last, since the address was added or removed. -/
def lastMark : List Call → ℕ → Bool
  | [], _ => false
  | .calcStackDistAndUpdate b _ :: earlier, a => if a = b then false else lastMark earlier a
  | .calcStackDist b mark :: earlier, a => if a = b then mark else lastMark earlier a

def recorded (h : List Call) : Finset ℕ :=
  (h.map Call.rAddress).toFinset.filter fun a => (lastAdded h a).isSome

/-- The recorded addresses whose last addition is later than the addition `t`. -/
def addedAfter (h : List Call) (t : ℕ) : Finset ℕ :=
  (recorded h).filter fun a => (lastAdded h a).any (t < ·)

def expected (h : List Call) (a : ℕ) : ℕ × Bool :=
  match lastAdded h a with
  | none => (Infinity, false)
  | some t => ((addedAfter h t).card, lastMark h a)

/-- What calls return, after the history `h`. -/
def expectedAnswers : List Call → List Call → List (ℕ × Bool)
  | _, [] => []
  | h, c :: calls => expected h c.rAddress :: expectedAnswers (c :: h) calls

/-- No address is removed without being added again. -/
def Additive (h : List Call) : Prop := ∀ a, .calcStackDistAndUpdate a false ∉ h

def Call.isRemoval : Call → Bool
  | .calcStackDistAndUpdate _ false => true
  | _ => false

/-- The history as the stack of the verification has it: a removal does not reach it. -/
def kept (h : List Call) : List Call := h.filter (!·.isRemoval)

theorem Additive.kept_eq {h : List Call} (hadd : Additive h) : kept h = h := by
  refine filter_eq_self.2 fun c hc => ?_
  match c with
  | .calcStackDistAndUpdate a false => exact absurd hc (hadd a)
  | .calcStackDistAndUpdate _ true => rfl
  | .calcStackDist _ _ => rfl

/-- The comparison with the stack, if the call makes one, finds no difference. -/
def Agrees (h : List Call) (c : Call) : Prop :=
  c.isRemoval = false → (expected (kept h) c.rAddress).1 = (expected h c.rAddress).1

theorem Additive.agrees {h : List Call} (hadd : Additive h) (c : Call) : Agrees h c :=
  fun _ => by rw [hadd.kept_eq]

variable {h : List Call} {l : List ℕ} {a b k t : ℕ} {addNewNode mark : Bool}

@[simp] theorem lastAdded_add_self :
    lastAdded (.calcStackDistAndUpdate a true :: h) a = some (additions h) := by
  rw [lastAdded, if_pos rfl, if_pos rfl]

@[simp] theorem lastAdded_remove_self :
    lastAdded (.calcStackDistAndUpdate a false :: h) a = none := by
  rw [lastAdded, if_pos rfl, if_neg Bool.false_ne_true]

theorem lastAdded_of_ne (hab : a ≠ b) :
    lastAdded (.calcStackDistAndUpdate b addNewNode :: h) a = lastAdded h a := by
  rw [lastAdded, if_neg hab]

theorem lastAdded_eq_none_of_notMem (hnot : a ∉ h.map Call.rAddress) : lastAdded h a = none := by
  induction h with
  | nil => rfl
  | cons c h ih =>
    rw [map_cons, mem_cons, not_or] at hnot
    cases c with
    | calcStackDistAndUpdate b addNewNode => exact (lastAdded_of_ne hnot.1).trans (ih hnot.2)
    | calcStackDist b mark => exact ih hnot.2

theorem mem_recorded : a ∈ recorded h ↔ ∃ k, lastAdded h a = some k := by
  rw [recorded, Finset.mem_filter, mem_toFinset, Option.isSome_iff_exists]
  constructor
  · exact fun hmem => hmem.2
  · rintro ⟨k, hk⟩
    refine ⟨?_, k, hk⟩
    by_contra hnot
    exact Option.some_ne_none k (hk.symm.trans (lastAdded_eq_none_of_notMem hnot))

theorem mem_addedAfter : a ∈ addedAfter h t ↔ ∃ k, lastAdded h a = some k ∧ t < k := by
  rw [addedAfter, Finset.mem_filter, mem_recorded]
  constructor
  · rintro ⟨⟨k, hk⟩, hlt⟩
    rw [hk, Option.any_some, decide_eq_true_iff] at hlt
    exact ⟨k, hk, hlt⟩
  · rintro ⟨k, hk, hlt⟩
    refine ⟨⟨k, hk⟩, ?_⟩
    rw [hk, Option.any_some, decide_eq_true_iff]
    exact hlt

theorem additions_le_cons (c : Call) : additions h ≤ additions (c :: h) := by
  cases c with
  | calcStackDistAndUpdate b addNewNode =>
    cases addNewNode with
    | true => exact Nat.le_succ _
    | false => exact le_rfl
  | calcStackDist b mark => exact le_rfl

/-- Numbers that are in use are those of earlier additions. -/
theorem lastAdded_lt (hk : lastAdded h a = some k) : k < additions h := by
  induction h with
  | nil => cases hk
  | cons c h ih =>
    cases c with
    | calcStackDist b mark => exact ih hk
    | calcStackDistAndUpdate b addNewNode =>
      by_cases hab : a = b
      · subst hab
        cases addNewNode with
        | true =>
          rw [lastAdded_add_self] at hk
          cases hk
          exact Nat.lt_succ_self _
        | false =>
          rw [lastAdded_remove_self] at hk
          cases hk
      · rw [lastAdded_of_ne hab] at hk
        exact lt_of_lt_of_le (ih hk) (additions_le_cons _)

theorem lastAdded_ne_newest (hab : a ≠ b) :
    lastAdded (.calcStackDistAndUpdate b addNewNode :: h) a ≠ some (additions h) := by
  rw [lastAdded_of_ne hab]
  exact fun heq => lt_irrefl _ (lastAdded_lt heq)

theorem lastAdded_inj (ha : lastAdded h a = some k) (hb : lastAdded h b = some k) : a = b := by
  induction h with
  | nil => cases ha
  | cons c h ih =>
    cases c with
    | calcStackDist c mark => exact ih ha hb
    | calcStackDistAndUpdate c addNewNode =>
      by_contra hab
      -- one of the two is not the address of this call
      by_cases hac : a = c
      · subst hac
        cases addNewNode with
        | true =>
          rw [lastAdded_add_self] at ha
          cases ha
          exact lastAdded_ne_newest (Ne.symm hab) hb
        | false =>
          rw [lastAdded_remove_self] at ha
          cases ha
      · by_cases hbc : b = c
        · subst hbc
          cases addNewNode with
          | true =>
            rw [lastAdded_add_self] at hb
            cases hb
            exact lastAdded_ne_newest hab ha
          | false =>
            rw [lastAdded_remove_self] at hb
            cases hb
        · rw [lastAdded_of_ne hac] at ha
          rw [lastAdded_of_ne hbc] at hb
          exact hab (ih ha hb)

/-! ## The numbers in use -/

def live (h : List Call) : Finset ℕ := (recorded h).image fun a => (lastAdded h a).getD 0

theorem mem_live : k ∈ live h ↔ ∃ a, lastAdded h a = some k := by
  rw [live, Finset.mem_image]
  constructor
  · rintro ⟨a, ha, rfl⟩
    obtain ⟨k, hk⟩ := mem_recorded.1 ha
    exact ⟨a, by rw [hk, Option.getD_some]⟩
  · rintro ⟨a, ha⟩
    exact ⟨a, mem_recorded.2 ⟨k, ha⟩, by rw [ha, Option.getD_some]⟩

/-- The distance counts the greater numbers. -/
theorem card_addedAfter : (addedAfter h k).card = beyond (live h) 0 k := by
  have himage : (addedAfter h k).image (fun a => (lastAdded h a).getD 0) =
      (live h).filter (k < ·) := by
    ext m
    rw [Finset.mem_image, Finset.mem_filter, mem_live]
    constructor
    · rintro ⟨a, ha, rfl⟩
      obtain ⟨m, hm, hlt⟩ := mem_addedAfter.1 ha
      rw [hm, Option.getD_some]
      exact ⟨⟨a, hm⟩, hlt⟩
    · rintro ⟨⟨a, hm⟩, hlt⟩
      exact ⟨a, mem_addedAfter.2 ⟨m, hm, hlt⟩, by rw [hm, Option.getD_some]⟩
  rw [beyond_zero, ← himage, Finset.card_image_of_injOn]
  intro a ha b hb hab
  obtain ⟨m, hm, -⟩ := mem_addedAfter.1 ha
  obtain ⟨m', hm', -⟩ := mem_addedAfter.1 hb
  have hmm : m = m' := by simpa only [hm, hm', Option.getD_some] using hab
  subst hmm
  exact lastAdded_inj hm hm'

/-- An update takes the number of the address out of use, and may put a new one in use. -/
theorem mem_live_cons : k ∈ live (.calcStackDistAndUpdate a addNewNode :: h) ↔
    lastAdded (.calcStackDistAndUpdate a addNewNode :: h) a = some k ∨ k ∈ live h ∧
    lastAdded h a ≠ some k := by
  rw [mem_live, mem_live]
  constructor
  · rintro ⟨b, hb⟩
    by_cases hba : b = a
    · exact Or.inl (hba ▸ hb)
    · rw [lastAdded_of_ne hba] at hb
      exact Or.inr ⟨⟨b, hb⟩, fun ha => hba (lastAdded_inj hb ha)⟩
  · rintro (ha | ⟨⟨b, hb⟩, ha⟩)
    · exact ⟨a, ha⟩
    · have hba : b ≠ a := fun heq => ha (heq ▸ hb)
      exact ⟨b, (lastAdded_of_ne hba).trans hb⟩

theorem mem_live_remove :
    k ∈ live (.calcStackDistAndUpdate a false :: h) ↔ k ∈ live h ∧ lastAdded h a ≠ some k := by
  simp [mem_live_cons]

theorem mem_live_add : k ∈ live (.calcStackDistAndUpdate a true :: h) ↔
    k = additions h ∨ k ∈ live (.calcStackDistAndUpdate a false :: h) := by
  rw [mem_live_cons, mem_live_remove, lastAdded_add_self, Option.some_inj, eq_comm]

/-! ## The LRU stack -/

/-- A list of the recorded addresses, with the one that was added last in front. -/
structure Ranked (h : List Call) (l : List ℕ) : Prop where
  mem : ∀ a, a ∈ l ↔ a ∈ recorded h
  order : l.Pairwise fun a b => ∀ k m, lastAdded h a = some k → lastAdded h b = some m → m < k

theorem Ranked.nodup (hl : Ranked h l) : l.Nodup := by
  have hmem : ∀ x ∈ l, ∃ k, lastAdded h x = some k := fun x hx => mem_recorded.1 ((hl.mem x).1 hx)
  refine List.Pairwise.imp_of_mem (fun {x y} hx _ hlt heq => ?_) hl.order
  obtain ⟨k, hk⟩ := hmem x hx
  exact lt_irrefl k (hlt k k hk (heq ▸ hk))

/-- In the LRU stack, the distance of an address is its position. -/
theorem Ranked.idxOf_eq (hl : Ranked h l) (ha : lastAdded h a = some t) :
    l.idxOf a = (addedAfter h t).card := by
  obtain ⟨front, back, rfl⟩ := append_of_mem ((hl.mem a).2 (mem_recorded.2 ⟨t, ha⟩))
  have hnodup := hl.nodup
  rw [nodup_append] at hnodup
  obtain ⟨hfront, -, hne⟩ := hnodup
  have hnot : a ∉ front := fun hmem => hne a hmem a mem_cons_self rfl
  obtain ⟨-, hback, hcross⟩ := pairwise_append.1 hl.order
  have hafter : addedAfter h t = front.toFinset := by
    ext b
    rw [mem_addedAfter, mem_toFinset]
    constructor
    · rintro ⟨k, hk, hlt⟩
      have hb := (hl.mem b).2 (mem_recorded.2 ⟨k, hk⟩)
      rcases mem_append.1 hb with hb | hb
      · exact hb
      · rcases mem_cons.1 hb with rfl | hb
        · have hkt : k = t := Option.some.inj (hk.symm.trans ha)
          exact absurd hlt (hkt ▸ lt_irrefl _)
        · exact absurd ((pairwise_cons.1 hback).1 b hb t k ha hk) hlt.asymm
    · intro hb
      obtain ⟨k, hk⟩ := mem_recorded.1 ((hl.mem b).1 (mem_append_left _ hb))
      exact ⟨k, hk, hcross b hb a mem_cons_self k t hk ha⟩
  rw [idxOf_append_of_notMem hnot, idxOf_cons_self, Nat.add_zero, hafter,
    toFinset_card_of_nodup hfront]

/-- What `verifyStackDist` finds in the LRU stack. -/
theorem Ranked.distance_eq (hl : Ranked h l) :
    (if a ∈ l then l.idxOf a else Infinity) = (expected h a).1 := by
  unfold expected
  by_cases hmem : a ∈ l
  · obtain ⟨t, ht⟩ := mem_recorded.1 ((hl.mem a).1 hmem)
    rw [if_pos hmem, ht]
    exact hl.idxOf_eq ht
  · have hnone : lastAdded h a = none := by
      rw [Option.eq_none_iff_forall_ne_some]
      exact fun t ht => hmem ((hl.mem a).2 (mem_recorded.2 ⟨t, ht⟩))
    rw [if_neg hmem, hnone]

theorem Ranked.nil : Ranked [] [] where
  mem a := by
    rw [mem_recorded]
    constructor
    · exact fun hmem => absurd hmem not_mem_nil
    · rintro ⟨k, hk⟩
      cases hk
  order := List.Pairwise.nil

theorem Ranked.add (hl : Ranked h l) :
    Ranked (.calcStackDistAndUpdate a true :: h) (a :: l.erase a) where
  mem b := by
    rw [mem_cons, hl.nodup.mem_erase_iff, hl.mem, mem_recorded, mem_recorded]
    by_cases hba : b = a
    · subst hba
      exact iff_of_true (Or.inl rfl) ⟨additions h, lastAdded_add_self⟩
    · simp [hba, lastAdded_of_ne hba]
  order := by
    have hother : ∀ b ∈ l.erase a, lastAdded (.calcStackDistAndUpdate a true :: h) b =
        lastAdded h b := by
      intro b hb
      exact lastAdded_of_ne (hl.nodup.mem_erase_iff.1 hb).1
    rw [pairwise_cons]
    constructor
    · intro b hb k m hk hm
      rw [lastAdded_add_self] at hk
      rw [hother b hb] at hm
      cases hk
      exact lastAdded_lt hm
    · refine List.Pairwise.imp_of_mem (fun {x y} hx hy hlt k m hk hm => ?_)
        (hl.order.sublist erase_sublist)
      rw [hother x hx] at hk
      rw [hother y hy] at hm
      exact hlt k m hk hm

/-- Marks do not move anything. -/
theorem Ranked.calcStackDist (hl : Ranked h l) : Ranked (.calcStackDist a mark :: h) l where
  mem b := by
    rw [hl.mem, mem_recorded, mem_recorded]
    rfl
  order := hl.order

end EnocGem5.StackDist
