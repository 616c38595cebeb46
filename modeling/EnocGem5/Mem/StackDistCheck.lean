import EnocGem5.Lib.Run
import EnocGem5.Mem.StackDistLru

/-!
# StackDistCheck — the self-check of the stack distances

With `verifyStack` the calculator compares each distance with that in a plain stack. The stack
learns of additions only: an address that is removed from the tree stays in it. The comparison then
fails as soon as the address is looked up or added again, or another one below it in the stack is.
So the check is safe exactly when the addresses that are removed were not recorded.
-/

namespace EnocGem5.StackDist

open StackDistCalc Finset

/-- All comparisons of the calls find no difference, after the history `h`. -/
def Checks : List Call → List Call → Prop
  | _, [] => True
  | h, c :: calls => Agrees h c ∧ Checks (c :: h) calls

/-- Each removal is of an address that is not recorded. -/
def RemovesAbsent : List Call → List Call → Prop
  | _, [] => True
  | h, c :: calls => (c.isRemoval = true → lastAdded h c.rAddress = none) ∧
    RemovesAbsent (c :: h) calls

instance : ∀ h calls : List Call, Decidable (RemovesAbsent h calls)
  | _, [] => isTrue trivial
  | h, c :: calls =>
    have := instDecidableRemovesAbsent (c :: h) calls
    inferInstanceAs (Decidable (_ ∧ _))

variable {h calls : List Call} {a b : ℕ} {c : Call}

/-! ## The calculator stops where a comparison fails -/

theorem Inv.run_ok_iff : ∀ {calls h : List Call} {s : StackDistCalc}, Inv h s →
    s.verifyStack = true → additions h + additions calls < 2 ^ 31 →
    ((∃ s', (s.run calls).2 = .ok s') ↔ Checks h calls) := by
  intro calls
  induction calls with
  | nil => exact fun {_ s} _ _ _ => iff_of_true ⟨s, rfl⟩ trivial
  | cons c calls ih =>
    intro h s hi hon hbound
    have hadditions := additions_shift c h calls
    rcases hi.answers (by rw [hi.index]; omega) c with ⟨s', hcall, hi', hverify, hagrees⟩ |
      ⟨hcall, -, hnot⟩
    · have hrun : (s.run (c :: calls)).2 = (s'.run calls).2 := by rw [run, hcall]
      rw [hrun, ih hi' (hverify.trans hon) (by omega)]
      exact ⟨fun hrest => ⟨hagrees hon, hrest⟩, fun hall => hall.2⟩
    · have hrun : (s.run (c :: calls)).2 = .error .unexpectedStackDistance := by rw [run, hcall]
      rw [hrun]
      refine iff_of_false ?_ fun hall => hnot hall.1
      rintro ⟨_, herror⟩
      cases herror

/-! ## The two histories -/

theorem additions_kept (h : List Call) : additions (kept h) = additions h := by
  induction h with
  | nil => rfl
  | cons c h ih =>
    match c with
    | .calcStackDistAndUpdate _ true => exact congrArg (· + 1) ih
    | .calcStackDistAndUpdate _ false => exact ih
    | .calcStackDist _ _ => exact ih

theorem lastAdded_removal : lastAdded (.calcStackDistAndUpdate a false :: h) b = if b = a then none
    else lastAdded h b :=
  rfl

/-- An addition means the same in both. -/
theorem lastAdded_kept_add (hb : b ≠ a → lastAdded (kept h) b = lastAdded h b) :
    lastAdded (kept (.calcStackDistAndUpdate a true :: h)) b =
    lastAdded (.calcStackDistAndUpdate a true :: h) b := by
  change lastAdded (.calcStackDistAndUpdate a true :: kept h) b = _
  by_cases hba : b = a
  · subst hba
    rw [lastAdded_add_self, lastAdded_add_self, additions_kept]
  · rw [lastAdded_of_ne hba, lastAdded_of_ne hba, hb hba]

/-- The distances depend on the last additions alone. -/
theorem agrees_of_lastAdded (hsame : ∀ b, lastAdded (kept h) b = lastAdded h b) (c : Call) :
    Agrees h c := by
  intro _
  have hafter : ∀ t, addedAfter (kept h) t = addedAfter h t := by
    intro t
    ext b
    rw [mem_addedAfter, mem_addedAfter, hsame]
  unfold expected
  rw [hsame]
  cases lastAdded h c.rAddress with
  | none => rfl
  | some t => exact congrArg card (hafter t)

theorem lastAdded_kept_cons (hsame : ∀ b, lastAdded (kept h) b = lastAdded h b)
    (hc : c.isRemoval = true → lastAdded h c.rAddress = none) (b : ℕ) :
    lastAdded (kept (c :: h)) b = lastAdded (c :: h) b := by
  match c with
  | .calcStackDistAndUpdate a true => exact lastAdded_kept_add fun _ => hsame b
  | .calcStackDist _ _ => exact hsame b
  | .calcStackDistAndUpdate a false =>
    change lastAdded (kept h) b = _
    rw [lastAdded_removal, hsame]
    split
    · rename_i hba
      exact hba ▸ hc rfl
    · rfl

/-- An address that is in the stack but not in the tree. -/
structure Ghost (h : List Call) (a : ℕ) : Prop where
  stacked : lastAdded (kept h) a ≠ none
  gone : lastAdded h a = none

theorem card_addedAfter_le (h : List Call) (t : ℕ) : (addedAfter h t).card ≤ additions h := by
  -- no two addresses have the same last addition
  rw [← card_range (additions h)]
  refine card_le_card_of_injOn (fun b => (lastAdded h b).getD 0) ?_ ?_
  · intro b hb
    obtain ⟨k, hk, -⟩ := mem_addedAfter.1 hb
    simp only [hk, Option.getD_some]
    exact Finset.mem_coe.2 (Finset.mem_range.2 (lastAdded_lt hk))
  · intro b hb b' hb' heq
    obtain ⟨k, hk, -⟩ := mem_addedAfter.1 hb
    obtain ⟨k', hk', -⟩ := mem_addedAfter.1 hb'
    simp only [hk, hk', Option.getD_some] at heq
    exact lastAdded_inj hk (heq ▸ hk')

/-- The comparison for such an address fails: the tree says that it was never seen. -/
theorem Ghost.not_agrees (hg : Ghost h a) (hbound : additions h < 2 ^ 31) (hc : c.isRemoval = false)
    (ha : c.rAddress = a) : ¬ Agrees h c := by
  intro hagrees
  obtain ⟨t, ht⟩ := Option.ne_none_iff_exists'.1 hg.stacked
  have hdistance := hagrees hc
  rw [ha, expected, expected, ht, hg.gone] at hdistance
  have hle := card_addedAfter_le (kept h) t
  rw [additions_kept] at hle
  -- the stack counts the addresses above, which is less than `Infinity`
  have hinfinity : additions h < Infinity := hbound.trans (by decide)
  exact absurd hdistance (hle.trans_lt hinfinity).ne

/-- It stays one, as long as no comparison fails. -/
theorem Ghost.cons (hg : Ghost h a) (hbound : additions h < 2 ^ 31) (hagrees : Agrees h c) :
    Ghost (c :: h) a := by
  match c with
  | .calcStackDist _ _ => exact { hg with }
  | .calcStackDistAndUpdate b false =>
    refine ⟨hg.stacked, ?_⟩
    rw [lastAdded_removal, hg.gone, ite_self]
  | .calcStackDistAndUpdate b true =>
    -- adding the address itself would bring the two together, but the comparison comes first
    have hab : a ≠ b := by
      rintro rfl
      exact hg.not_agrees hbound rfl rfl hagrees
    constructor
    · change lastAdded (.calcStackDistAndUpdate b true :: kept h) a ≠ none
      rw [lastAdded_of_ne hab]
      exact hg.stacked
    · rw [lastAdded_of_ne hab]
      exact hg.gone

theorem Ghost.not_checks (hg : Ghost h a)
    (hbound : additions h + additions calls < 2 ^ 31) : ¬ ∀ c, Checks h (calls ++ [c]) := by
  intro hall
  induction calls generalizing h with
  | nil => exact hg.not_agrees (by omega) rfl rfl (hall (.calcStackDist a false)).1
  | cons c calls ih =>
    have hadditions := additions_shift c h calls
    have hagrees := (hall (.calcStackDist a false)).1
    exact ih (hg.cons (by omega) hagrees) (by omega) fun d => (hall d).2

theorem checks_iff : ∀ {calls h : List Call}, (∀ b, lastAdded (kept h) b = lastAdded h b) →
    additions h + additions calls < 2 ^ 31 →
    ((∀ c, Checks h (calls ++ [c])) ↔ RemovesAbsent h calls) := by
  intro calls
  induction calls with
  | nil =>
    exact fun hsame _ => iff_of_true (fun c => ⟨agrees_of_lastAdded hsame c, trivial⟩) trivial
  | cons c calls ih =>
    intro h hsame hbound
    have hadditions := additions_shift c h calls
    by_cases hc : c.isRemoval = true → lastAdded h c.rAddress = none
    · have hrest := ih (lastAdded_kept_cons hsame hc) (by omega)
      constructor
      · exact fun hall => ⟨hc, hrest.1 fun d => (hall d).2⟩
      · exact fun hall d => ⟨agrees_of_lastAdded hsame c, hrest.2 hall.2 d⟩
    · -- the address that is removed haunts the stack
      refine iff_of_false (fun hall => ?_) fun hall => hc hall.1
      obtain ⟨hremoval, hpresent⟩ := Classical.not_imp.1 hc
      have hghost : Ghost (c :: h) c.rAddress := by
        match c, hremoval with
        | .calcStackDistAndUpdate a false, _ => exact ⟨hsame a ▸ hpresent, lastAdded_remove_self⟩
      exact hghost.not_checks (by omega) fun d => (hall d).2

/-- With `verifyStack`, a sequence of calls and any call after it run without a panic, exactly when
the sequence removes no address that is recorded. -/
theorem StackDistCalc.selfCheck_iff (calls : List Call) (hbound : additions calls + 1 < 2 ^ 31) :
    (∀ c, ∃ s, ((StackDistCalc.new true).run (calls ++ [c])).2 = .ok s) ↔
    RemovesAbsent [] calls := by
  have hlast : ∀ c, additions (calls ++ [c]) ≤ additions calls + 1 := by
    intro c
    induction calls with
    | nil => match c with
      | .calcStackDistAndUpdate _ true => exact le_rfl
      | .calcStackDistAndUpdate _ false => exact Nat.zero_le _
      | .calcStackDist _ _ => exact Nat.zero_le _
    | cons d calls ih =>
      rw [List.cons_append, additions_cons, additions_cons d calls]
      have := ih (by rw [additions_cons d calls] at hbound; omega)
      omega
  have hrun : ∀ c, (∃ s, ((new true).run (calls ++ [c])).2 = .ok s) ↔ Checks [] (calls ++ [c]) := by
    intro c
    refine (inv_new true).run_ok_iff rfl ?_
    rw [additions, Nat.zero_add]
    exact (hlast c).trans_lt hbound
  rw [forall_congr' hrun]
  refine checks_iff (fun _ => rfl) ?_
  rw [additions, Nat.zero_add]
  omega

/-- An address that is removed before it was ever added, and then used. -/
theorem StackDistCalc.selfCheck_absent :
    additions [.calcStackDistAndUpdate 64 false, .calcStackDistAndUpdate 64 true,
      .calcStackDist 64 true] + 1 < 2 ^ 31 ∧ ∀ c, ∃ s, ((StackDistCalc.new true).run
        ([.calcStackDistAndUpdate 64 false, .calcStackDistAndUpdate 64 true,
        .calcStackDist 64 true] ++ [c])).2 = .ok s :=
  ⟨by decide, (selfCheck_iff _ (by decide)).2 (by decide)⟩

/-- An address that is added, removed and looked up: the stack still has it. -/
theorem StackDistCalc.selfCheck_misfires :
    ((StackDistCalc.new true).run
      [.calcStackDistAndUpdate 64 true, .calcStackDistAndUpdate 64 false,
      .calcStackDist 64 false]).2 = .error .unexpectedStackDistance := by
  rfl

end EnocGem5.StackDist
