import Mathlib

/-!
# Register — histories of an atomic register

An access of a register lasts from its start to its stop, and is open until it stops. A history
gives the accesses by their names. It is linearizable if its completed accesses, together with some
of the open writes, can be performed one after the other: in an order that respects real time, with
each read giving the value that the register then has.

Two facts are all that a checker of histories needs:

* `Linearizable.of_upTo` — the part of a linearizable history up to some time is linearizable;
* `Linearization.source` — where the value of a completed read comes from, in terms of real time
  only.
-/

namespace EnocGem5.Lib

open List Function Option

universe u v

structure Access (α : Type v) where
  start : ℕ
  stop : Option ℕ
  isWrite : Bool
  value : α
  deriving DecidableEq, Repr

abbrev History (ι : Type u) (α : Type v) := ι → Option (Access α)

variable {ι : Type u} {α : Type v}

/-- The first access stops no later than the second one starts. -/
def Precedes (H : History ι α) (i j : ι) : Prop :=
  ∃ a b c, H i = some a ∧ H j = some b ∧ a.stop = some c ∧ c ≤ b.start

def perform (H : History ι α) (v : α) (i : ι) : α :=
  match H i with
  | some a => if a.isWrite then a.value else v
  | none => v

/-- Performed in this order, all reads give the value of the register. -/
def Legal (H : History ι α) : α → List ι → Prop
  | _, [] => True
  | v, i :: is => (∀ a, H i = some a → a.isWrite = false → a.value = v) ∧ Legal H (perform H v i) is

/-- An order that explains a history. Open reads are left out, open writes may be. -/
structure Linearization (H : History ι α) (init : α) (order : List ι) : Prop where
  nodup : order.Nodup
  known : ∀ i ∈ order, ∃ a, H i = some a ∧ (a.isWrite = true ∨ a.stop.isSome = true)
  completed : ∀ i a, H i = some a → a.stop.isSome = true → i ∈ order
  realTime : order.Pairwise fun i j => ¬ Precedes H j i
  legal : Legal H init order

def Linearizable (H : History ι α) : Prop := ∃ init order, Linearization H init order

/-! ## Reads of a legal order -/

variable {H h : History ι α} {v : α} {front back order : List ι} {i j : ι} {a : Access α} {now : ℕ}

theorem legal_append :
    Legal H v (front ++ back) ↔ Legal H v front ∧ Legal H (front.foldl (perform H) v) back := by
  induction front generalizing v with
  | nil => exact ⟨fun h => ⟨trivial, h⟩, fun h => h.2⟩
  | cons i is ih =>
    rw [cons_append, Legal, Legal, ih, foldl_cons, and_assoc]

/-- A read gives what the accesses before it leave. -/
theorem Legal.read
    (h : Legal H v (front ++ i :: back)) (hi : H i = some a) (hread : a.isWrite = false) :
    a.value = front.foldl (perform H) v :=
  (legal_append.1 h).2.1 a hi hread

theorem legal_of_reads
    (h : ∀ front i back a, order = front ++ i :: back → H i = some a → a.isWrite = false →
      a.value = front.foldl (perform H) v) : Legal H v order := by
  induction order generalizing v with
  | nil => trivial
  | cons i is ih =>
    refine ⟨fun a ha hread => h [] i is a rfl ha hread, ih ?_⟩
    intro front j back a hsplit hj hread
    have hsplit' : i :: is = (i :: front) ++ j :: back := by rw [hsplit, cons_append]
    exact h (i :: front) j back a hsplit' hj hread

theorem perform_of_write (hi : H i = some a)
    (hwrite : a.isWrite = true) : perform H v i = a.value := by
  simp [perform, hi, hwrite]

theorem perform_of_not_write (h : ∀ a, H i = some a → a.isWrite = false) : perform H v i = v := by
  unfold perform
  split
  case h_1 a ha =>
    rw [h a ha]
    rfl
  case h_2 => rfl

theorem foldl_perform_of_not_write
    (h : ∀ i ∈ order, ∀ a, H i = some a → a.isWrite = false) : order.foldl (perform H) v = v := by
  induction order generalizing v with
  | nil => rfl
  | cons i is ih =>
    rw [foldl_cons, perform_of_not_write (h i mem_cons_self)]
    exact ih fun j hj => h j (mem_cons_of_mem i hj)

/-- The value comes from the last write, if there is one. -/
theorem last_write (H : History ι α) (v : α) (order : List ι) :
    (∀ i ∈ order, ∀ a, H i = some a → a.isWrite = false) ∨
      ∃ front w back W, order = front ++ w :: back ∧ H w = some W ∧ W.isWrite = true ∧
        (∀ i ∈ back, ∀ a, H i = some a → a.isWrite = false) ∧
        order.foldl (perform H) v = W.value := by
  -- from the end of the order towards its front
  induction order using reverseRecOn with
  | nil => exact .inl (forall_mem_nil _)
  | append_singleton is i ih =>
    by_cases hi : ∀ a, H i = some a → a.isWrite = false
    · rcases ih with hnone | ⟨front, w, back, W, rfl, hw, hwrite, hback, hval⟩
      · exact .inl (forall_mem_append.2 ⟨hnone, forall_mem_singleton.2 hi⟩)
      · refine .inr ⟨front, w, back ++ [i], W, by simp, hw, hwrite, ?_, ?_⟩
        · exact forall_mem_append.2 ⟨hback, forall_mem_singleton.2 hi⟩
        · rw [foldl_append, hval]
          exact perform_of_not_write hi
    · push Not at hi
      rcases hi with ⟨W, hw, hwrite⟩
      have hwrite : W.isWrite = true := by simpa using hwrite
      refine .inr ⟨is, i, [], W, rfl, hw, hwrite, forall_mem_nil _, ?_⟩
      rw [foldl_append]
      exact perform_of_write hw hwrite

/-! ## Where a read has its value from -/

namespace Linearization

variable {H : History ι α} {init : α} {order : List ι}

variable (hL : Linearization H init order)
include hL

theorem mem_of_precedes (h : Precedes H i j) : i ∈ order := by
  rcases h with ⟨a, b, c, hi, -, hstop, -⟩
  exact hL.completed i a hi (by rw [hstop]; rfl)

theorem not_precedes (horder : order = front ++ j :: back) (hi : i ∈ front) : ¬ Precedes H j i := by
  have hpair := hL.realTime
  rw [horder] at hpair
  exact (pairwise_append.1 hpair).2.2 i hi j mem_cons_self

theorem mem_front
    (horder : order = front ++ j :: back) (h : Precedes H i j) (hne : i ≠ j) : i ∈ front := by
  have hmem := hL.mem_of_precedes h
  rw [horder] at hmem
  rcases mem_append.1 hmem with hfront | hrest
  · exact hfront
  · rcases mem_cons.1 hrest with heq | hback
    · exact absurd heq hne
    · -- otherwise `j` would stand before `i`, which precedes it
      have hpair := hL.realTime
      rw [horder] at hpair
      exact absurd h ((pairwise_cons.1 (pairwise_append.1 hpair).2.1).1 i hback)

end Linearization

/-- Where a read `r` of `v` has its value from: no write precedes it, or some write is the last one.
Both cases say what the reads that precede `r` have seen. -/
inductive Source (H : History ι α) (r : ι) (v : α) : Prop
  | init
      (hwrite : ∀ i a, H i = some a → a.isWrite = true → ¬ Precedes H i r)
      (hread : ∀ i a, H i = some a → a.isWrite = false → Precedes H i r → a.value = v)
  | write (w : ι) (W : Access α) (hw : H w = some W) (hwrite : W.isWrite = true)
      (hvalue : W.value = v) (hlast : ∀ i a, H i = some a → a.isWrite = true → i ≠ w →
      Precedes H w i →
      ¬ Precedes H i r) (hseen : ∀ i a, H i = some a → a.isWrite = false → Precedes H w i →
      Precedes H i r → a.value = v)

theorem Linearization.source {init : α}
    (hL : Linearization H init order) {r : ι} {R : Access α} (hr : H r = some R)
    (hread : R.isWrite = false) (hstop : R.stop.isSome = true) : Source H r R.value := by
  rcases append_of_mem (hL.completed r R hr hstop) with ⟨front, back, horder⟩
  have hvalue : R.value = front.foldl (perform H) init := (horder ▸ hL.legal).read hr hread
  have hbefore : ∀ i a, H i = some a → a.isWrite = true → Precedes H i r → i ∈ front := by
    intro i a hi hwrite hprec
    apply hL.mem_front horder hprec
    rintro rfl
    rw [some.inj (hi.symm.trans hr), hread] at hwrite
    cases hwrite
  rcases last_write H init front with hnone |
    ⟨front', w, between, W, hfront, hw, hwrite, hbetween, hlast⟩
  · -- nothing is written before `r`: it and all reads before it see the initial value
    apply Source.init
    · intro i a hi hwrite hprec
      have hnot := hnone i (hbefore i a hi hwrite hprec) a hi
      rw [hwrite] at hnot
      cases hnot
    · intro i a hi hread' hprec
      by_cases hir : i = r
      · subst hir
        rw [some.inj (hi.symm.trans hr)]
      · rcases append_of_mem (hL.mem_front horder hprec hir) with ⟨first, second, hsplit⟩
        have hlegal := horder ▸ hL.legal
        rw [hsplit, append_assoc] at hlegal
        rw [hlegal.read hi hread', hvalue, foldl_perform_of_not_write hnone]
        refine foldl_perform_of_not_write fun j hj => hnone j ?_
        rw [hsplit]
        exact mem_append_left _ hj
  · have horder' : order = front' ++ w :: (between ++ r :: back) := by rw [horder, hfront]; simp
    -- what stands between `w` and `r` is preceded by `w`
    have hafter : ∀ i, i ≠ w → Precedes H w i → i ∈ front → i ∈ between := by
      intro i hne hprec hi
      rw [hfront] at hi
      rcases mem_append.1 hi with hi | hi
      · exact absurd hprec (hL.not_precedes horder' hi)
      · exact (mem_cons.1 hi).resolve_left hne
    apply Source.write w W hw hwrite (hlast.symm.trans hvalue.symm)
    · intro i a hi hwrite' hne hprec hprec'
      have hnot := hbetween i (hafter i hne hprec (hbefore i a hi hwrite' hprec')) a hi
      rw [hwrite'] at hnot
      cases hnot
    · intro i a hi hread' hprec hprec'
      by_cases hir : i = r
      · subst hir
        rw [some.inj (hi.symm.trans hr)]
      · have hne : i ≠ w := by
          rintro rfl
          rw [some.inj (hi.symm.trans hw), hwrite] at hread'
          cases hread'
        have hmem := hafter i hne hprec (hL.mem_front horder hprec' hir)
        rcases append_of_mem hmem with ⟨first, second, hsplit⟩
        have hlegal := horder' ▸ hL.legal
        have hassoc : front' ++ w :: (between ++ r :: back)
            = (front' ++ w :: first) ++ i :: (second ++ r :: back) := by rw [hsplit]; simp
        rw [hassoc] at hlegal
        have hquiet : ∀ j ∈ first, ∀ b, H j = some b → b.isWrite = false := by
          intro j hj
          apply hbetween j
          rw [hsplit]
          exact mem_append_left _ hj
        calc a.value = (front' ++ w :: first).foldl (perform H) init := hlegal.read hi hread'
          _ = first.foldl (perform H) W.value := by
              rw [foldl_append, foldl_cons, perform_of_write hw hwrite]
          _ = W.value := foldl_perform_of_not_write hquiet
          _ = R.value := hlast.symm.trans hvalue.symm

/-! ## The history up to some time -/

/-- `h` is the part of `H` up to the time `now`: what has stopped is the same, what is open may stop
or vanish, what is new starts later. -/
structure UpTo (now : ℕ) (h H : History ι α) : Prop where
  stopped : ∀ i a c, h i = some a → a.stop = some c → c ≤ now
  completed : ∀ i a, h i = some a → a.stop.isSome = true → H i = some a
  started : ∀ i a b, h i = some a → H i = some b →
    a.start = b.start ∧ a.isWrite = b.isWrite ∧ (a.isWrite = true → a.value = b.value)
  fresh : ∀ i b, h i = none → H i = some b → now ≤ b.start

theorem UpTo.start [DecidableEq ι] {b : Access α}
    (hstopped : ∀ j a c, H j = some a → a.stop = some c → c ≤ now) (hi : H i = none)
    (hb : b.start = now) : UpTo now H (Function.update H i (some b)) := by
  have hother : ∀ j a, H j = some a → Function.update H i (some b) j = some a := by
    intro j a hj
    have hne : j ≠ i := by
      rintro rfl
      rw [hi] at hj
      cases hj
    rw [update_of_ne hne]
    exact hj
  refine ⟨hstopped, fun j a hj _ => hother j a hj, fun j a a' hj hj' => ?_, fun j a' hj hj' => ?_⟩
  · obtain rfl : a = a' := some.inj ((hother j a hj).symm.trans hj')
    exact ⟨rfl, rfl, fun _ => rfl⟩
  · by_cases hji : j = i
    · subst hji
      rw [update_self] at hj'
      cases hj'
      exact Nat.le_of_eq hb.symm
    · rw [update_of_ne hji, hj] at hj'
      cases hj'

theorem UpTo.stop [DecidableEq ι] {b : Option (Access α)}
    (hstopped : ∀ j a c, H j = some a → a.stop = some c → c ≤ now) (hi : H i = some a)
    (hopen : a.stop = none) (hb : ∀ b', b = some b' →
      a.start = b'.start ∧ a.isWrite = b'.isWrite ∧ (a.isWrite = true → a.value = b'.value)) :
    UpTo now H (Function.update H i b) := by
  refine ⟨hstopped, fun j a' hj hstop => ?_, fun j a' b' hj hj' => ?_, fun j b' hj hj' => ?_⟩
  · have hne : j ≠ i := by
      rintro rfl
      rw [← some.inj (hi.symm.trans hj), hopen] at hstop
      cases hstop
    rw [update_of_ne hne]
    exact hj
  · by_cases hji : j = i
    · subst hji
      rw [update_self] at hj'
      obtain rfl : a = a' := some.inj (hi.symm.trans hj)
      exact hb b' hj'
    · rw [update_of_ne hji, hj] at hj'
      cases hj'
      exact ⟨rfl, rfl, fun _ => rfl⟩
  · have hne : j ≠ i := by
      rintro rfl
      rw [hi] at hj
      cases hj
    rw [update_of_ne hne, hj] at hj'
    cases hj'

/-- The accesses that a linearization of `h` may contain. -/
def counts (h : History ι α) (i : ι) : Bool := (h i).any fun a => a.isWrite || a.stop.isSome

theorem counts_iff :
    counts h i = true ↔ ∃ a, h i = some a ∧ (a.isWrite = true ∨ a.stop.isSome = true) := by
  unfold counts
  rw [Option.any_eq_true]
  simp only [Bool.or_eq_true]

theorem UpTo.precedes (hup : UpTo now h H)
    (hprec : Precedes h i j) (hj : ∃ b, H j = some b) : Precedes H i j := by
  rcases hprec with ⟨a, b, c, hi, hj', hstop, hle⟩
  rcases hj with ⟨b', hb'⟩
  refine ⟨a, b', c, hup.completed i a hi (by rw [hstop]; rfl), hb', hstop, ?_⟩
  rw [← (hup.started j b b' hj' hb').1]
  exact hle

/-- What stands before a read that stopped in time leaves the same value when the later accesses are
left out. -/
theorem UpTo.foldl_perform (hup : UpTo now h H)
    (hwrites : ∀ i ∈ order, ∀ b, H i = some b → b.isWrite = true → ∃ a, h i = some a)
    (hknown : ∀ i ∈ order, ∃ b, H i = some b) :
    (order.filter (counts h)).foldl (perform h) v = order.foldl (perform H) v := by
  induction order generalizing v with
  | nil => rfl
  | cons i is ih =>
    have ih' := fun w => ih (v := w) (fun j hj => hwrites j (mem_cons_of_mem i hj))
      (fun j hj => hknown j (mem_cons_of_mem i hj))
    rcases hknown i mem_cons_self with ⟨b, hb⟩
    cases hwrite : b.isWrite with
    | true =>
      -- a write is known in `h`, with the same value
      rcases hwrites i mem_cons_self b hb hwrite with ⟨a, ha⟩
      rcases hup.started i a b ha hb with ⟨-, hkind, hvalue⟩
      have hwritea : a.isWrite = true := hkind.trans hwrite
      have hcounts : counts h i = true := counts_iff.2 ⟨a, ha, .inl hwritea⟩
      rw [filter_cons_of_pos hcounts, foldl_cons, foldl_cons,
        perform_of_write ha hwritea, perform_of_write hb hwrite, hvalue hwritea, ih']
    | false =>
      -- a read changes nothing, whether it is kept or not
      have hskip : perform H v i = v := by
        apply perform_of_not_write
        intro b' hb'
        rw [some.inj (hb'.symm.trans hb), hwrite]
      have hskip' : perform h v i = v := by
        apply perform_of_not_write
        intro a ha
        rw [(hup.started i a b ha hb).2.1, hwrite]
      rw [foldl_cons, hskip, ← ih', filter_cons]
      split
      · rw [foldl_cons, hskip']
      · rfl

theorem Linearizable.of_upTo (hH : Linearizable H) (hup : UpTo now h H) : Linearizable h := by
  rcases hH with ⟨init, order, hL⟩
  refine ⟨init, order.filter (counts h), hL.nodup.filter _, ?_, ?_, ?_, ?_⟩
  · intro i hi
    exact counts_iff.1 (mem_filter.1 hi).2
  · intro i a hi hstop
    refine mem_filter.2 ⟨?_, counts_iff.2 ⟨a, hi, .inr hstop⟩⟩
    exact hL.completed i a (hup.completed i a hi hstop) hstop
  · have hpair : order.Pairwise fun i j => ¬ Precedes h j i := by
      apply hL.realTime.imp_of_mem
      intro i j hi _ hnot hprec
      rcases hL.known i hi with ⟨b, hb, -⟩
      exact hnot (hup.precedes hprec ⟨b, hb⟩)
    exact hpair.filter _
  · apply legal_of_reads
    intro front i back a hsplit hi hread
    rcases filter_eq_append_iff.1 hsplit with ⟨front', rest, rfl, rfl, hrest⟩
    rcases filter_eq_cons_iff.1 hrest with ⟨skipped, back', rfl, hskipped, hcounts, rfl⟩
    rcases counts_iff.1 hcounts with ⟨a', ha', hkind⟩
    obtain rfl : a = a' := some.inj (hi.symm.trans ha')
    have hstop : a.stop.isSome = true := hkind.resolve_left (by simp [hread])
    have hiH : H i = some a := hup.completed i a hi hstop
    have horder : front' ++ (skipped ++ i :: back') = (front' ++ skipped) ++ i :: back' := by simp
    have hnone : skipped.filter (counts h) = [] := filter_eq_nil_iff.2 fun j hj => by
      simpa using hskipped j hj
    have hfilter : front'.filter (counts h) = (front' ++ skipped).filter (counts h) := by
      rw [filter_append, hnone, append_nil]
    have hlegal : Legal H init ((front' ++ skipped) ++ i :: back') := horder ▸ hL.legal
    rw [hlegal.read hiH hread, hfilter]
    symm
    apply hup.foldl_perform
    · -- a write that is unknown in `h` starts after `i` has stopped, and so cannot stand before it
      intro j hj b hb _
      by_contra hunknown
      have hnew : h j = none := eq_none_iff_forall_ne_some.2 fun a' ha => hunknown ⟨a', ha⟩
      have hfresh : now ≤ b.start := hup.fresh j b hnew hb
      rcases isSome_iff_exists.1 hstop with ⟨c, hc⟩
      have hprec : Precedes H i j :=
        ⟨a, b, c, hiH, hb, hc, Nat.le_trans (hup.stopped i a c hi hc) hfresh⟩
      exact hL.not_precedes horder hj hprec
    · intro j hj
      have hmem : j ∈ front' ++ (skipped ++ i :: back') := by
        rw [horder]
        exact mem_append_left _ hj
      rcases hL.known j hmem with ⟨b, hb, -⟩
      exact ⟨b, hb⟩

end EnocGem5.Lib
