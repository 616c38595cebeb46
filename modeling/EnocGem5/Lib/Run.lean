import Mathlib

/-!
# Run — partial step functions and guarded runs

A component is given by a step function `step : σ → α → Option σ`: `none` means that the call has no
result (an assertion fails, a pointer is null, an index is out of bounds).  The notions below say
what holds along a whole sequence of calls:

* `Always step P s as` — every state the run passes through satisfies `P`;
* `Throughout step G s as` — every step the run takes satisfies the guard `G` in the state before
  it.

The rules are the usual induction on the sequence, stated once: an invariant that each guarded step
keeps holds always, and a property that a step keeps exactly when its guard holds is equivalent to
the guard holding throughout.
-/

namespace EnocGem5.Lib

open List Option

universe u v

variable {σ : Type u} {α : Type v} {a : α}

/-! ## Runs -/

/-- Every state reached while executing `as` from `s` (the first one included) satisfies `P`. -/
def Always (step : σ → α → Option σ) (P : σ → Prop) : σ → List α → Prop
  | s, [] => P s
  | s, a :: as => P s ∧ ∀ s', step s a = some s' → Always step P s' as

/-- Every step taken while executing `as` from `s` satisfies `G` in the state before it. -/
def Throughout (step : σ → α → Option σ) (G : σ → α → Prop) : σ → List α → Prop
  | _, [] => True
  | s, a :: as => ∀ s', step s a = some s' → G s a ∧ Throughout step G s' as

/-- Guards of concrete runs can be evaluated. -/
instance Throughout.decidable (step : σ → α → Option σ) (G : σ → α → Prop)
    [∀ s a, Decidable (G s a)] : ∀ (s : σ) (as : List α), Decidable (Throughout step G s as)
  | _, [] => isTrue trivial
  | s, a :: as =>
    match h : step s a with
    | none => isTrue fun s' hs' => absurd (h.symm.trans hs') (by simp)
    | some t =>
      have := Throughout.decidable step G t as
      decidable_of_iff (G s a ∧ Throughout step G t as)
        ⟨fun hG s' hs' => some.inj (h.symm.trans hs') ▸ hG, fun hG => hG t h⟩

variable {s s' t : σ} {as : List α}

theorem foldlM_cons_some {f : σ → α → Option σ} (h : (a :: as).foldlM f s = some s') :
    ∃ t, f s a = some t ∧ as.foldlM f t = some s' := by
  simpa [foldlM_cons, bind_eq_some_iff] using h

variable {step f : σ → α → Option σ} {P Inv : σ → Prop} {G : σ → α → Prop}

theorem Always.start (h : Always step P s as) : P s := by
  cases as with
  | nil => exact h
  | cons a as => exact h.1

theorem Throughout.of_forall_mem (hG : ∀ a ∈ as, ∀ s, G s a) : Throughout step G s as := by
  induction as generalizing s with
  | nil => trivial
  | cons a as ih =>
    intro s' _
    exact ⟨hG a mem_cons_self s, ih fun b hb => hG b (mem_cons_of_mem a hb)⟩

theorem Throughout.of_forall (hG : ∀ s a, G s a) (as : List α) (s : σ) : Throughout step G s as :=
  Throughout.of_forall_mem fun a _ s => hG s a

theorem Throughout.and {G' : σ → α → Prop} (h : Throughout step G s as)
    (h' : Throughout step G' s as) : Throughout step (fun s a => G s a ∧ G' s a) s as := by
  induction as generalizing s with
  | nil => trivial
  | cons a as ih =>
    intro s' hs'
    rcases h s' hs' with ⟨hG, hrest⟩
    rcases h' s' hs' with ⟨hG', hrest'⟩
    exact ⟨⟨hG, hG'⟩, ih hrest hrest'⟩

/-- Guards that agree in the states of an invariant hold along the same runs. -/
theorem throughout_congr {H : σ → α → Prop}
    (hinv : ∀ a ∈ as, ∀ s s', Inv s → H s a → step s a = some s' → Inv s')
    (hiff : ∀ a ∈ as, ∀ s, Inv s → (G s a ↔ H s a)) (hs : Inv s) :
    Throughout step G s as ↔ Throughout step H s as := by
  induction as generalizing s with
  | nil => exact Iff.rfl
  | cons a as ih =>
    refine forall₂_congr fun s' hs' => ?_
    rw [hiff a mem_cons_self s hs]
    refine and_congr_right fun hH => ?_
    exact ih (fun b hb => hinv b (mem_cons_of_mem a hb)) (fun b hb => hiff b (mem_cons_of_mem a hb))
      (hinv a mem_cons_self s s' hs hH hs')

/-- An invariant that implies `P` and survives every guarded step gives `P` along the run. -/
theorem Always.of_throughout (hP : ∀ s, Inv s → P s)
    (hstep : ∀ s a s', Inv s → G s a → step s a = some s' → Inv s') (hs : Inv s)
    (hG : Throughout step G s as) : Always step P s as := by
  induction as generalizing s with
  | nil => exact hP s hs
  | cons a as ih =>
    refine ⟨hP s hs, ?_⟩
    intro s' hs'
    rcases hG s' hs' with ⟨hGa, hrest⟩
    exact ih (hstep s a s' hs hGa hs') hrest

/-- The same for an invariant that every step keeps. -/
theorem Always.of_invariant (hP : ∀ s, Inv s → P s)
    (hstep : ∀ s a s', Inv s → step s a = some s' → Inv s') (hs : Inv s) : Always step P s as :=
  Always.of_throughout hP (fun s a s' hs _ => hstep s a s' hs) hs
    (Throughout.of_forall (fun _ _ => trivial) as s)

/-- If a step that leads to `P` meets its guard, then so do all steps of a run along which `P`
holds. -/
theorem Throughout.of_always (hinv : ∀ s a s', Inv s → step s a = some s' → Inv s')
    (hG : ∀ s a s', Inv s → step s a = some s' → P s' → G s a) (hs : Inv s)
    (h : Always step P s as) : Throughout step G s as := by
  induction as generalizing s with
  | nil => trivial
  | cons a as ih =>
    intro s' hs'
    have hrest : Always step P s' as := h.2 s' hs'
    exact ⟨hG s a s' hs hs' hrest.start, ih (hinv s a s' hs hs') hrest⟩

/-- In runs whose steps are all allowed (`A`): if, from an invariant state satisfying `P`, an
allowed step keeps `P` exactly when its guard holds, then `P` holds along the run exactly when the
guard holds throughout it. -/
theorem always_iff_of_throughout {A : σ → α → Prop}
    (hinv : ∀ s a s', Inv s → A s a → step s a = some s' → Inv s')
    (hiff : ∀ s a s', Inv s → P s → A s a → step s a = some s' → (P s' ↔ G s a))
    (hs : Inv s) (hP : P s) (hA : Throughout step A s as) :
    Always step P s as ↔ Throughout step G s as := by
  induction as generalizing s with
  | nil => exact ⟨fun _ => trivial, fun _ => hP⟩
  | cons a as ih =>
    constructor
    · intro h s' hs'
      rcases hA s' hs' with ⟨hAa, hArest⟩
      have hrest : Always step P s' as := h.2 s' hs'
      have hP' : P s' := hrest.start
      exact ⟨(hiff s a s' hs hP hAa hs').1 hP', (ih (hinv s a s' hs hAa hs') hP' hArest).1 hrest⟩
    · intro h
      refine ⟨hP, ?_⟩
      intro s' hs'
      rcases hA s' hs' with ⟨hAa, hArest⟩
      rcases h s' hs' with ⟨hGa, hrest⟩
      have hP' : P s' := (hiff s a s' hs hP hAa hs').2 hGa
      exact (ih (hinv s a s' hs hAa hs') hP' hArest).2 hrest

/-- The same for runs in which every step is allowed. -/
theorem always_iff_throughout (hinv : ∀ s a s', Inv s → step s a = some s' → Inv s')
    (hiff : ∀ s a s', Inv s → P s → step s a = some s' → (P s' ↔ G s a))
    (hs : Inv s) (hP : P s) : Always step P s as ↔ Throughout step G s as := by
  refine always_iff_of_throughout (A := fun _ _ => True) ?_ ?_ hs hP (Throughout.of_forall ?_ as s)
  · intro s a s' hs _ hs'
    exact hinv s a s' hs hs'
  · intro s a s' hs hP _ hs'
    exact hiff s a s' hs hP hs'
  · intro _ _
    trivial

theorem Always.last (h : Always step P s as) (hrun : as.foldlM step s = some s') : P s' := by
  induction as generalizing s with
  | nil =>
    cases hrun
    exact h
  | cons a as ih =>
    rcases foldlM_cons_some hrun with ⟨t, ht, hrest⟩
    exact ih (h.2 t ht) hrest

/-! ## Loops

A loop of the source that runs over a list is `List.foldlM` in `Option`. -/

variable {bs : List α}

theorem Throughout.append (hG : Throughout f G s (as ++ bs))
    (h : as.foldlM f s = some t) : Throughout f G s as ∧ Throughout f G t bs := by
  induction as generalizing s with
  | nil =>
    cases h
    exact ⟨trivial, hG⟩
  | cons a as ih =>
    rcases foldlM_cons_some h with ⟨u, hu, hrest⟩
    rcases hG u hu with ⟨hGa, hGrest⟩
    rcases ih hGrest hrest with ⟨hfirst, hsecond⟩
    refine ⟨fun v hv => ?_, hsecond⟩
    have huv : u = v := some.inj (hu.symm.trans hv)
    exact ⟨hGa, huv ▸ hfirst⟩

theorem Throughout.at {u : σ} (hG : Throughout f G s (as ++ a :: bs))
    (h : as.foldlM f s = some t) (hu : f t a = some u) : G t a :=
  ((hG.append h).2 u hu).1

/-- Iterations that do nothing, and meet their guard, may be left out. -/
theorem foldlM_filter (p : α → Bool) (as : List α) (s : σ)
    (hskip : ∀ s, ∀ a ∈ as, Inv s → p a = false → f s a = some s ∧ G s a)
    (hstep : ∀ s s', ∀ a ∈ as, Inv s → p a = true → f s a = some s' → Inv s') (hs : Inv s) :
    as.foldlM f s = (as.filter p).foldlM f s ∧
    (Throughout f G s (as.filter p) → Throughout f G s as) := by
  induction as generalizing s with
  | nil => exact ⟨rfl, id⟩
  | cons a as ih =>
    have hskip' := fun t b hb => hskip t b (mem_cons_of_mem a hb)
    have hstep' := fun t t' b hb => hstep t t' b (mem_cons_of_mem a hb)
    cases hp : p a with
    | false =>
      rcases hskip s a mem_cons_self hs hp with ⟨hsame, hGa⟩
      rcases ih s hskip' hstep' hs with ⟨hrun, hguard⟩
      rw [filter_cons_of_neg (by simp [hp]), foldlM_cons, hsame]
      refine ⟨hrun, fun hG s' hs' => ⟨hGa, ?_⟩⟩
      obtain rfl : s = s' := some.inj (hsame.symm.trans hs')
      exact hguard hG
    | true =>
      have hrest := fun s' hs' => ih s' hskip' hstep' (hstep s s' a mem_cons_self hs hp hs')
      rw [filter_cons_of_pos hp, foldlM_cons, foldlM_cons]
      constructor
      · cases hfa : f s a with
        | none => rfl
        | some s' => exact (hrest s' hfa).1
      · intro hG s' hs'
        rcases hG s' hs' with ⟨hGa, hGrest⟩
        exact ⟨hGa, (hrest s' hs').2 hGrest⟩

/-- A loop whose iterations all do nothing does nothing. -/
theorem foldlM_idle (h : ∀ a ∈ as, f s a = some s) : as.foldlM f s = some s := by
  induction as with
  | nil => rfl
  | cons a as ih =>
    rw [foldlM_cons, h a mem_cons_self]
    exact ih fun b hb => h b (mem_cons_of_mem a hb)

/-- A loop whose iterations meet their guard keeps whatever each guarded iteration keeps. -/
theorem foldlM_invariant_of_throughout
    (hstep : ∀ a ∈ as, ∀ s s', Inv s → G s a → f s a = some s' → Inv s')
    (hs : Inv s) (hG : Throughout f G s as) (h : as.foldlM f s = some s') : Inv s' := by
  induction as generalizing s with
  | nil =>
    cases h
    exact hs
  | cons a as ih =>
    rcases foldlM_cons_some h with ⟨t, ht, hrest⟩
    rcases hG t ht with ⟨hGa, hGrest⟩
    have htInv : Inv t := hstep a (by simp) s t hs hGa ht
    exact ih (fun b hb => hstep b (by simp [hb])) htInv hGrest hrest

theorem foldlM_invariant (hstep : ∀ a ∈ as, ∀ s s', Inv s → f s a = some s' → Inv s')
    (hs : Inv s) (h : as.foldlM f s = some s') : Inv s' :=
  foldlM_invariant_of_throughout (fun a ha s s' hs _ => hstep a ha s s' hs) hs
    (Throughout.of_forall (fun _ _ => trivial) as s) h

/-- Two loops over the same list keep a relation that each pair of iterations keeps. -/
theorem foldlM_simulation {τ : Type u} {g : τ → α → Option τ} {R : σ → τ → Prop} {t t' : τ}
    (hstep : ∀ a ∈ as, ∀ s s' t t', R s t → f s a = some s' → g t a = some t' → R s' t')
    (hR : R s t) (hf : as.foldlM f s = some s') (hg : as.foldlM g t = some t') : R s' t' := by
  induction as generalizing s t with
  | nil =>
    cases hf
    cases hg
    exact hR
  | cons a as ih =>
    rcases foldlM_cons_some hf with ⟨s1, hs1, hfrest⟩
    rcases foldlM_cons_some hg with ⟨t1, ht1, hgrest⟩
    have hR1 : R s1 t1 := hstep a mem_cons_self s s1 t t1 hR hs1 ht1
    exact ih (fun b hb => hstep b (mem_cons_of_mem a hb)) hR1 hfrest hgrest

/-- If an iteration from a state with `P` keeps `P` exactly when its guard holds, and `P` once lost
is lost for good, then `P` survives a loop exactly when all its iterations meet their guards. -/
theorem foldlM_iff_throughout (hinv : ∀ a ∈ as, ∀ s s', Inv s → f s a = some s' → Inv s')
    (hlost : ∀ a ∈ as, ∀ s s', Inv s → ¬ P s → f s a = some s' → ¬ P s')
    (hiff : ∀ a ∈ as, ∀ s s', Inv s → P s → f s a = some s' → (P s' ↔ G s a))
    (hs : Inv s) (hP : P s) (h : as.foldlM f s = some s') : P s' ↔ Throughout f G s as := by
  induction as generalizing s with
  | nil =>
    cases h
    exact ⟨fun _ => trivial, fun _ => hP⟩
  | cons a as ih =>
    rcases foldlM_cons_some h with ⟨t, ht, hrest⟩
    have htInv : Inv t := hinv a (by simp) s t hs ht
    have hinv' := fun b hb => hinv b (mem_cons_of_mem a hb)
    have hlost' := fun b hb => hlost b (mem_cons_of_mem a hb)
    have hiff' := fun b hb => hiff b (mem_cons_of_mem a hb)
    have hstep : P t ↔ G s a := hiff a (by simp) s t hs hP ht
    constructor
    · intro hP' u hu
      obtain rfl : t = u := some.inj (ht.symm.trans hu)
      have hPt : P t := by
        by_contra hnot
        -- `P` is lost at `t`, and stays lost to the end of the loop
        have hkeep : ∀ b ∈ as, ∀ x y, (Inv x ∧ ¬ P x) → f x b = some y → (Inv y ∧ ¬ P y) := by
          intro b hb x y hx hxy
          exact ⟨hinv' b hb x y hx.1 hxy, hlost' b hb x y hx.1 hx.2 hxy⟩
        exact (foldlM_invariant hkeep ⟨htInv, hnot⟩ hrest).2 hP'
      exact ⟨hstep.1 hPt, (ih hinv' hlost' hiff' htInv hPt hrest).1 hP'⟩
    · intro hG
      rcases hG t ht with ⟨hGa, hGrest⟩
      have hPt : P t := hstep.2 hGa
      exact (ih hinv' hlost' hiff' htInv hPt hrest).2 hGrest

end EnocGem5.Lib
