import Mathlib

/-!
# BinQueue — a priority queue of stacks

Items with equal keys are kept on one stack, a *bin*; the bins are in the order of their keys. An
item is inserted on top of the bin of its key. So the top of the first bin is, among the items with
the least key, the one that was inserted last.
-/

namespace EnocGem5.Lib

open List

universe u v

/-- A stack that is not empty. -/
structure Bin (α : Type u) where
  top : α
  rest : List α

namespace Bin

variable {α : Type u} {a : α}

def toList (b : Bin α) : List α := b.top :: b.rest

/-- The items of all bins, the first bin first. -/
def items (bins : List (Bin α)) : List α := bins.flatMap toList

/-- The bin without an item; an empty bin vanishes. -/
def erase [DecidableEq α] (b : Bin α) (a : α) : List (Bin α) :=
  match b.toList.erase a with
  | [] => []
  | top :: rest => [⟨top, rest⟩]

theorem items_cons (b : Bin α) (bs : List (Bin α)) : items (b :: bs) = b.toList ++ items bs :=
  flatMap_cons

theorem items_append (bs cs : List (Bin α)) : items (bs ++ cs) = items bs ++ items cs :=
  flatMap_append

theorem mem_items {bins : List (Bin α)} : a ∈ items bins ↔ ∃ b ∈ bins, a ∈ b.toList :=
  mem_flatMap

theorem items_erase [DecidableEq α] (b : Bin α) (a : α) : items (b.erase a) = b.toList.erase a := by
  unfold erase
  cases b.toList.erase a with
  | nil => rfl
  | cons top rest => simp [items, toList]

theorem mem_erase [DecidableEq α] {b c : Bin α} (h : c ∈ b.erase a) :
    c.toList = b.toList.erase a := by
  unfold erase at h
  cases herase : b.toList.erase a with
  | nil =>
    rw [herase] at h
    cases h
  | cons top rest =>
    rw [herase] at h
    rw [mem_singleton.1 h]
    rfl

/-! ## Insertion and removal -/

section Operations

variable {κ : Type v} [LinearOrder κ] (key : α → κ)

def before (k : κ) (bins : List (Bin α)) : List (Bin α) := bins.takeWhile fun b => key b.top < k

def after (k : κ) (bins : List (Bin α)) : List (Bin α) := bins.dropWhile fun b => key b.top < k

/-- The item is put before the first bin, or on top of it. -/
def push (a : α) : List (Bin α) → List (Bin α)
  | [] => [⟨a, []⟩]
  | b :: bs => if key a < key b.top then ⟨a, []⟩ :: b :: bs else ⟨a, b.toList⟩ :: bs

/-- The item is taken out of the first bin. -/
def pull [DecidableEq α] (a : α) : List (Bin α) → List (Bin α)
  | [] => []
  | b :: bs => b.erase a ++ bs

def insert (a : α) (bins : List (Bin α)) : List (Bin α) :=
  before key (key a) bins ++ push key a (after key (key a) bins)

def remove [DecidableEq α] (a : α) (bins : List (Bin α)) : List (Bin α) :=
  before key (key a) bins ++ pull a (after key (key a) bins)

/-- Every item is in one bin once, the items of a bin have one key, and the keys increase. -/
structure Binned (bins : List (Bin α)) : Prop where
  same : ∀ b ∈ bins, ∀ a ∈ b.toList, key a = key b.top
  increasing : (bins.map fun b => key b.top).Pairwise (· < ·)
  nodup : (items bins).Nodup

end Operations

/-- In every bin the items are in the reverse order of their insertion. -/
def Recent (time : α → ℕ) (bins : List (Bin α)) : Prop :=
  ∀ b ∈ bins, b.toList.Pairwise fun x y => time y < time x

variable {κ : Type v} [LinearOrder κ] {key key' : α → κ} {b : Bin α} {bins bs : List (Bin α)}
  {a : α} {k : κ}

theorem before_append_after : before key k bins ++ after key k bins = bins :=
  takeWhile_append_dropWhile

theorem mem_of_mem_before (hb : b ∈ before key k bins) : b ∈ bins :=
  (takeWhile_sublist _).subset hb

theorem mem_of_mem_after (hb : b ∈ after key k bins) : b ∈ bins :=
  (dropWhile_sublist _).subset hb

theorem lt_of_mem_before (hb : b ∈ before key k bins) : key b.top < k := by
  simpa using mem_takeWhile_imp hb

theorem Binned.congr (h : Binned key bins) (heq : ∀ a ∈ items bins, key' a = key a) :
    Binned key' bins where
  same := by
    intro b hb a ha
    rw [heq a (mem_items.2 ⟨b, hb, ha⟩), heq b.top (mem_items.2 ⟨b, hb, mem_cons_self⟩)]
    exact h.same b hb a ha
  increasing := by
    have hkeys : (bins.map fun b => key' b.top) = bins.map fun b => key b.top := by
      apply map_congr_left
      intro b hb
      exact heq b.top (mem_items.2 ⟨b, hb, mem_cons_self⟩)
    rw [hkeys]
    exact h.increasing
  nodup := h.nodup

theorem tops_sublist : ∀ bins : List (Bin α), (bins.map top).Sublist (items bins)
  | [] => Sublist.refl _
  | b :: bs => by
    rw [items_cons]
    exact ((tops_sublist bs).trans (sublist_append_right ..)).cons_cons b.top

/-- The first bin that does not have a smaller key, and the ones after it. -/
theorem Binned.after_cons (h : Binned key bins) (hafter : after key k bins = b :: bs) :
    k ≤ key b.top ∧ ∀ c ∈ bs, key b.top < key c.top := by
  have hstop := head?_dropWhile_not (fun b : Bin α => decide (key b.top < k)) bins
  have hsub : (b :: bs).Sublist bins := hafter ▸ dropWhile_sublist _
  have hsorted := h.increasing.sublist (hsub.map fun b => key b.top)
  rw [map_cons, pairwise_cons] at hsorted
  constructor
  · rw [show bins.dropWhile _ = b :: bs from hafter] at hstop
    simpa using hstop
  · intro c hc
    exact hsorted.1 _ (mem_map.2 ⟨c, hc, rfl⟩)

/-- The bin of an item is the first one that does not have a smaller key. -/
theorem Binned.locate (h : Binned key bins) (ha : a ∈ items bins) :
    ∃ b bs, after key (key a) bins = b :: bs ∧ a ∈ b.toList ∧ key b.top = key a := by
  have hsplit : a ∈ items (before key (key a) bins) ∨ a ∈ items (after key (key a) bins) := by
    rw [← mem_append, ← items_append, before_append_after]
    exact ha
  rcases hsplit with hfront | hback
  · rcases mem_items.1 hfront with ⟨b, hb, hab⟩
    have hkey := h.same b (mem_of_mem_before hb) a hab
    exact absurd (lt_of_mem_before hb) (hkey ▸ lt_irrefl _)
  · cases hafter : after key (key a) bins with
    | nil =>
      rw [hafter] at hback
      cases hback
    | cons b bs =>
      rcases h.after_cons hafter with ⟨hle, hlater⟩
      rw [hafter] at hback
      rcases mem_items.1 hback with ⟨c, hc, hac⟩
      have hmem : c ∈ bins := mem_of_mem_after (hafter ▸ hc)
      have hkey := h.same c hmem a hac
      rcases mem_cons.1 hc with rfl | hc
      · exact ⟨c, bs, rfl, hac, hkey.symm⟩
      · exact absurd (hlater c hc) (not_lt_of_ge (hkey ▸ hle))

theorem items_insert : items (insert key a bins) =
    items (before key (key a) bins) ++ a :: items (after key (key a) bins) := by
  rw [insert, items_append]
  congr 1
  unfold push
  split
  case h_1 hafter =>
    rw [hafter]
    rfl
  case h_2 b bs hafter =>
    rw [hafter]
    split
    · rfl
    · rfl

theorem items_insert_perm : (items (insert key a bins)).Perm (a :: items bins) := by
  calc (items (insert key a bins))
      = items (before key (key a) bins) ++ a :: items (after key (key a) bins) := items_insert
    Perm _ (a :: (items (before key (key a) bins) ++ items (after key (key a) bins))) :=
      perm_middle
    _ = a :: items bins := by rw [← items_append, before_append_after]

/-- A bin is an old one, or holds the new item, alone or on top of a stack with a key that is not
larger. -/
theorem mem_insert (hb : b ∈ insert key a bins) : b ∈ bins ∨ b = ⟨a, []⟩ ∨
    ∃ c cs, after key (key a) bins = c :: cs ∧ key c.top ≤ key a ∧ b = ⟨a, c.toList⟩ := by
  rcases mem_append.1 hb with hfront | hback
  · exact .inl (mem_of_mem_before hfront)
  · unfold push at hback
    split at hback
    case h_1 => exact .inr (.inl (mem_singleton.1 hback))
    case h_2 c cs hafter =>
      split at hback
      case isTrue =>
        rcases mem_cons.1 hback with hnew | hold
        · exact .inr (.inl hnew)
        · exact .inl (mem_of_mem_after (hafter ▸ hold))
      case isFalse hge =>
        rcases mem_cons.1 hback with hnew | hold
        · exact .inr (.inr ⟨c, cs, hafter, not_lt.1 hge, hnew⟩)
        · exact .inl (mem_of_mem_after (hafter ▸ mem_cons_of_mem c hold))

theorem Binned.insert (h : Binned key bins) (ha : a ∉ items bins) :
    Binned key (insert key a bins) where
  same := by
    intro b hb x hx
    rcases mem_insert hb with hb | rfl | ⟨c, cs, hafter, hge, rfl⟩
    · exact h.same b hb x hx
    · rw [mem_singleton.1 hx]
    · rcases mem_cons.1 hx with rfl | hx
      · rfl
      · -- the stack on which the item is put has its key
        rw [h.same c (mem_of_mem_after (hafter ▸ mem_cons_self)) x hx]
        exact le_antisymm hge (h.after_cons hafter).1
  increasing := by
    have hsorted := h.increasing
    have hsplit : before key (key a) bins ++ after key (key a) bins = bins := before_append_after
    rw [← hsplit, map_append, pairwise_append] at hsorted
    rcases hsorted with ⟨hfront, hback, hcross⟩
    rw [Bin.insert, push.eq_def, map_append, pairwise_append]
    refine ⟨hfront, ?_, ?_⟩
    · split
      case h_1 => exact pairwise_singleton ..
      case h_2 c cs hafter =>
        rw [hafter] at hback
        rcases h.after_cons hafter with ⟨hle, hlater⟩
        split
        case isTrue hlt =>
          refine pairwise_cons.2 ⟨?_, hback⟩
          intro j hj
          rcases mem_cons.1 hj with rfl | hj
          · exact hlt
          · rcases mem_map.1 hj with ⟨d, hd, rfl⟩
            exact lt_of_le_of_lt hle (hlater d hd)
        case isFalse =>
          refine pairwise_cons.2 ⟨?_, (pairwise_cons.1 hback).2⟩
          intro j hj
          rcases mem_map.1 hj with ⟨d, hd, rfl⟩
          exact lt_of_le_of_lt hle (hlater d hd)
    · intro i hi j hj
      rcases mem_map.1 hi with ⟨b, hb, rfl⟩
      have hlt := lt_of_mem_before hb
      split at hj
      case h_1 =>
        rw [mem_singleton.1 hj]
        exact hlt
      case h_2 c cs hafter =>
        split at hj
        case isTrue =>
          rcases mem_cons.1 hj with rfl | hj
          · exact hlt
          · exact hcross _ hi j (by rw [hafter]; exact hj)
        case isFalse =>
          rcases mem_cons.1 hj with rfl | hj
          · exact hlt
          · exact hcross _ hi j (by rw [hafter]; exact mem_cons_of_mem _ hj)
  nodup := items_insert_perm.nodup_iff.2 (nodup_cons.2 ⟨ha, h.nodup⟩)

section Remove

variable [DecidableEq α]

theorem Binned.items_remove (h : Binned key bins) (ha : a ∈ items bins) :
    items (remove key a bins) = (items bins).erase a := by
  rcases h.locate ha with ⟨b, bs, hafter, hab, _⟩
  have hfront : a ∉ items (before key (key a) bins) := by
    intro hmem
    rcases mem_items.1 hmem with ⟨c, hc, hac⟩
    have hkey := h.same c (mem_of_mem_before hc) a hac
    exact absurd (lt_of_mem_before hc) (hkey ▸ lt_irrefl _)
  calc items (remove key a bins)
      = items (before key (key a) bins) ++ (b.toList.erase a ++ items bs) := by
        rw [remove, hafter, items_append, pull, items_append, items_erase]
    _ = items (before key (key a) bins) ++ (b.toList ++ items bs).erase a := by
        rw [erase_append_left _ hab]
    _ = (items (before key (key a) bins) ++ (b.toList ++ items bs)).erase a := by
        rw [erase_append_right _ hfront]
    _ = (items bins).erase a := by
        rw [← items_cons, ← hafter, ← items_append, before_append_after]

/-- A bin is an old one, or what is left of one. -/
theorem mem_remove (hb : b ∈ remove key a bins) : b ∈ bins ∨ ∃ c ∈ bins, b ∈ c.erase a := by
  rcases mem_append.1 hb with hfront | hback
  · exact .inl (mem_of_mem_before hfront)
  · unfold pull at hback
    split at hback
    case h_1 => cases hback
    case h_2 c cs hafter =>
      rcases mem_append.1 hback with herase | hlater
      · exact .inr ⟨c, mem_of_mem_after (hafter ▸ mem_cons_self), herase⟩
      · exact .inl (mem_of_mem_after (hafter ▸ mem_cons_of_mem c hlater))

theorem Binned.remove (h : Binned key bins) (ha : a ∈ items bins) :
    Binned key (remove key a bins) := by
  rcases h.locate ha with ⟨b, bs, hafter, _, _⟩
  have hb : b ∈ bins := mem_of_mem_after (hafter ▸ mem_cons_self)
  refine ⟨?_, ?_, ?_⟩
  · intro c hc x hx
    rcases mem_remove hc with hc | ⟨b, hb, herase⟩
    · exact h.same c hc x hx
    · have hmem : ∀ y ∈ c.toList, y ∈ b.toList :=
        fun y hy => mem_of_mem_erase (mem_erase herase ▸ hy)
      rw [h.same b hb x (hmem x hx), h.same b hb c.top (hmem _ mem_cons_self)]
  · -- the keys of the bins are those of before, without that of a bin that vanishes
    refine List.Pairwise.sublist ?_ h.increasing
    have hkeys : (b.erase a).map (fun c => key c.top) = [] ∨
        (b.erase a).map (fun c => key c.top) = [key b.top] := by
      cases herase : b.toList.erase a with
      | nil => exact .inl (by simp [Bin.erase, herase])
      | cons top rest =>
        have htop : top ∈ b.toList := mem_of_mem_erase (herase ▸ mem_cons_self)
        exact .inr (by simp [Bin.erase, herase, h.same b hb top htop])
    have hsplit : before key (key a) bins ++ after key (key a) bins = bins := before_append_after
    rw [Bin.remove]
    conv_rhs => rw [← hsplit]
    rw [hafter, pull, map_append, map_append, map_append, map_cons]
    apply Sublist.append_left
    rcases hkeys with hnone | hone
    · rw [hnone]
      exact sublist_cons_self ..
    · rw [hone]
      exact Sublist.refl _
  · rw [h.items_remove ha]
    exact h.nodup.erase a

theorem remove_top : remove key b.top (b :: bs) = b.erase b.top ++ bs := by
  simp [remove, before, after, pull]

end Remove

theorem Binned.least (h : Binned key (b :: bs))
    (ha : a ∈ items (b :: bs)) : key b.top < key a ∨ (key b.top = key a ∧ a ∈ b.toList) := by
  rcases mem_items.1 ha with ⟨c, hc, hac⟩
  rcases mem_cons.1 hc with rfl | hlater
  · exact .inr ⟨(h.same c hc a hac).symm, hac⟩
  · rw [h.same c hc a hac]
    exact .inl ((pairwise_cons.1 h.increasing).1 _ (mem_map.2 ⟨c, hlater, rfl⟩))

/-! ## The order of insertion -/

variable {time time' : α → ℕ} (h : Recent time bins)
include h

theorem Recent.congr (heq : ∀ a ∈ items bins, time' a = time a) : Recent time' bins := by
  intro b hb
  apply (h b hb).imp_of_mem
  intro x y hx hy hlt
  rw [heq x (mem_items.2 ⟨b, hb, hx⟩), heq y (mem_items.2 ⟨b, hb, hy⟩)]
  exact hlt

theorem Recent.insert (hnew : ∀ x ∈ items bins, time x < time a) :
    Recent time (insert key a bins) := by
  intro b hb
  rcases mem_insert hb with hb | rfl | ⟨c, cs, hafter, -, rfl⟩
  · exact h b hb
  · exact pairwise_singleton ..
  · have hc : c ∈ bins := mem_of_mem_after (hafter ▸ mem_cons_self)
    refine pairwise_cons.2 ⟨?_, h c hc⟩
    intro x hx
    exact hnew x (mem_items.2 ⟨c, hc, hx⟩)

theorem Recent.remove [DecidableEq α] : Recent time (remove key a bins) := by
  intro b hb
  rcases mem_remove hb with hb | ⟨c, hc, herase⟩
  · exact h b hb
  · rw [mem_erase herase]
    exact (h c hc).sublist erase_sublist

theorem Recent.le_top (hb : b ∈ bins) (ha : a ∈ b.toList) : time a ≤ time b.top := by
  rcases mem_cons.1 ha with rfl | hrest
  · exact Nat.le_refl _
  · exact Nat.le_of_lt ((pairwise_cons.1 (h b hb)).1 a hrest)

end Bin

end EnocGem5.Lib
