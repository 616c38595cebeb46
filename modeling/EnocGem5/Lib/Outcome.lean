import Mathlib

/-!
# Outcome — programs that may stop with an error

A program that may stop is a value of `Except ε α`. Some errors are bad (a failed assertion), others
end the program in an orderly way. `Safe bad P x` says that `x` does not stop with a bad error and
that its result, if there is one, satisfies `P`. The rules are those of pre- and postconditions: a
result, a sequence, a loop.
-/

namespace EnocGem5.Lib

universe u v w

variable {ε : Type u} {α β σ : Type v} {bad : ε → Prop}

def Safe (bad : ε → Prop) (P : α → Prop) : Except ε α → Prop
  | .ok a => P a
  | .error e => ¬ bad e

variable {P : α → Prop} {x : Except ε α} {a : α} {b : β} {e : ε} {f : α → Except ε β}

theorem Safe.ok (h : Safe bad P x) (hx : x = .ok a) : P a := by
  rw [hx] at h
  exact h

theorem Safe.not_bad (h : Safe bad P x) (hx : x = .error e) : ¬ bad e := by
  rw [hx] at h
  exact h

theorem Safe.mono {Q : α → Prop} (h : Safe bad P x) (hPQ : ∀ a, P a → Q a) : Safe bad Q x := by
  cases x with
  | ok a => exact hPQ a h
  | error e => exact h

theorem Safe.bind {Q : β → Prop}
    (h : Safe bad P x) (hf : ∀ a, P a → Safe bad Q (f a)) : Safe bad Q (x >>= f) := by
  cases x with
  | ok a => exact hf a h
  | error e => exact h

theorem bind_ok (h : x >>= f = .ok b) : ∃ a, x = .ok a ∧ f a = .ok b := by
  cases x with
  | ok a => exact ⟨a, rfl, h⟩
  | error e => cases h

theorem bind_error (h : x >>= f = .error e) : x = .error e ∨ ∃ a, x = .ok a ∧ f a = .error e := by
  cases x with
  | ok a => exact .inr ⟨a, rfl, h⟩
  | error e' =>
    cases h
    exact .inl rfl

theorem of_ite_ok {c : Prop} [Decidable c] {b : α}
    (h : (if c then .ok a else .error e : Except ε α) = .ok b) : c := by
  split at h
  case isTrue hc => exact hc
  case isFalse => cases h

theorem toOption_some (h : x.toOption = some a) : x = .ok a := by
  cases x with
  | ok b =>
    cases h
    rfl
  | error e => cases h

/-- A loop: the invariant may speak about the iterations that are left. -/
theorem Safe.foldlM {ι : Type w} {Inv : List ι → σ → Prop} {f : σ → ι → Except ε σ}
    (hstep : ∀ i is s, Inv (i :: is) s → Safe bad (Inv is) (f s i)) {is : List ι} {s : σ}
    (hs : Inv is s) : Safe bad (Inv []) (is.foldlM f s) := by
  induction is generalizing s with
  | nil => exact hs
  | cons i is ih =>
    exact (hstep i is s hs).bind fun t ht => ih ht

end EnocGem5.Lib
