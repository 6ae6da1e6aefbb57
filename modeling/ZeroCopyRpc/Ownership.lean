import Mathlib.Data.List.Basic

/-!
# Resources that are shared out

The resources below a number are each in a common stock or owned by one party.
Ownership changes when a party takes one out of the stock or puts one back.
-/
namespace Ownership

variable {τ : Type} {size : Nat} {stock stock' : List Nat} {owns owns' : τ → Nat → Prop} {t : τ} {i : Nat}

structure SharedOut (size : Nat) (stock : List Nat) (owns : τ → Nat → Prop) : Prop where
  unique : ∀ t u i, owns t i → owns u i → t = u
  bound : ∀ t i, owns t i → i < size
  cover : ∀ i, i < size → (i ∉ stock ↔ ∃ t, owns t i)

theorem SharedOut.not_owned (h : SharedOut size stock owns) (hi : i ∈ stock) (u : τ) : ¬ owns u i := by
  intro hu
  exact ((h.cover i (h.bound u i hu)).mpr ⟨u, hu⟩) hi

theorem SharedOut.not_stocked (h : SharedOut size stock owns) (ht : owns t i) : i ∉ stock :=
  fun hi => h.not_owned hi t ht

theorem SharedOut.congr (h : SharedOut size stock owns) (hstock : ∀ j, j ∈ stock' ↔ j ∈ stock)
    (howns : ∀ u j, owns' u j ↔ owns u j) : SharedOut size stock' owns' := by
  refine ⟨?_, ?_, ?_⟩
  · intro u v j hu hv
    exact h.unique u v j ((howns u j).mp hu) ((howns v j).mp hv)
  · intro u j hu
    exact h.bound u j ((howns u j).mp hu)
  · intro j hj
    simp only [hstock, howns]
    exact h.cover j hj

/-- One resource goes from the stock to a party. -/
theorem SharedOut.take (h : SharedOut size stock owns) (hi : i ∈ stock) (hlt : i < size)
    (hstock : ∀ j, j ∈ stock' ↔ j ∈ stock ∧ j ≠ i)
    (howns : ∀ u j, owns' u j ↔ owns u j ∨ (u = t ∧ j = i)) :
    SharedOut size stock' owns' := by
  refine ⟨?_, ?_, ?_⟩
  · intro u v j hu hv
    rcases (howns u j).mp hu with hu | ⟨rfl, rfl⟩
    · rcases (howns v j).mp hv with hv | ⟨rfl, rfl⟩
      · exact h.unique u v j hu hv
      · exact absurd hu (h.not_owned hi u)
    · rcases (howns v j).mp hv with hv | ⟨rfl, -⟩
      · exact absurd hv (h.not_owned hi v)
      · rfl
  · intro u j hu
    rcases (howns u j).mp hu with hu | ⟨-, rfl⟩
    · exact h.bound u j hu
    · exact hlt
  · intro j hj
    simp only [hstock, howns]
    by_cases hji : j = i
    · subst hji
      exact ⟨fun _ => ⟨t, Or.inr ⟨rfl, rfl⟩⟩, fun _ hin => hin.2 rfl⟩
    · simp only [hji, and_false, or_false, ne_eq, not_false_eq_true, and_true]
      exact h.cover j hj

/-- One resource goes from its owner back to the stock. -/
theorem SharedOut.give (h : SharedOut size stock owns) (ht : owns t i)
    (hstock : ∀ j, j ∈ stock' ↔ j ∈ stock ∨ j = i)
    (howns : ∀ u j, owns' u j ↔ owns u j ∧ ¬ (u = t ∧ j = i)) :
    SharedOut size stock' owns' := by
  refine ⟨?_, ?_, ?_⟩
  · intro u v j hu hv
    exact h.unique u v j ((howns u j).mp hu).1 ((howns v j).mp hv).1
  · intro u j hu
    exact h.bound u j ((howns u j).mp hu).1
  · intro j hj
    simp only [hstock, howns]
    by_cases hji : j = i
    · subst hji
      refine ⟨fun hout => absurd (Or.inr rfl) hout, ?_⟩
      rintro ⟨u, hu, hother⟩
      exact absurd ⟨h.unique u t j hu ht, rfl⟩ hother
    · simp only [hji, and_false, or_false, not_false_eq_true, and_true]
      exact h.cover j hj

end Ownership
