import Mathlib.Data.List.Basic
import Mathlib.Data.List.Infix

/-!
# The places of a list

A relation that holds at each place of a list, between what comes before and
the element there, and the one place where a property of prefixes turns true.
-/
namespace Splits

variable {α : Type} {l : List α} {x : α}

def Each (R : List α → α → Prop) (l : List α) : Prop := ∀ pre x post, l = pre ++ x :: post → R pre x

theorem each_nil (R : List α → α → Prop) : Each R [] := by
  intro pre x post h
  simp at h

theorem each_snoc {R : List α → α → Prop} : Each R (l ++ [x]) ↔ Each R l ∧ R l x := by
  constructor
  · intro h
    refine ⟨?_, h l x [] rfl⟩
    intro pre y post he
    apply h pre y (post ++ [x])
    rw [he, List.append_assoc, List.cons_append]
  · rintro ⟨h, hx⟩ pre y post he
    rcases List.eq_nil_or_concat post with rfl | ⟨post, z, rfl⟩
    · obtain ⟨rfl, hy⟩ := List.append_inj' he rfl
      cases hy
      exact hx
    · rw [List.concat_eq_append, ← List.cons_append, ← List.append_assoc] at he
      exact h pre y post (List.append_inj' he rfl).1

/-- A property of prefixes, once true, stays true; so it turns true at one place. -/
theorem exists_unique_turn {P : List α → Prop} (hmono : ∀ a b, P a → P (a ++ b)) (hnil : ¬ P []) (hl : P l) :
    ∃! pre, ∃ x post, l = pre ++ x :: post ∧ ¬ P pre ∧ P (pre ++ [x]) := by
  have hexists : ∃ pre x post, l = pre ++ x :: post ∧ ¬ P pre ∧ P (pre ++ [x]) := by
    induction l using List.reverseRecOn with
    | nil => exact absurd hl hnil
    | append_singleton l x ih =>
      by_cases hprefix : P l
      · obtain ⟨pre, y, post, he, h⟩ := ih hprefix
        exact ⟨pre, y, post ++ [x], by rw [he, List.append_assoc, List.cons_append], h⟩
      · exact ⟨l, x, [], rfl, hprefix, hl⟩
  have hbefore : ∀ {pre pre' x x' post post'}, l = pre ++ x :: post → l = pre' ++ x' :: post' → ¬ P pre' →
      P (pre ++ [x]) → pre'.length ≤ pre.length := by
    intro pre pre' x x' post post' he he' hnot hturn
    by_contra hlt
    have hprefix : pre ++ [x] <+: pre' := by
      have hfirst : pre ++ [x] <+: l := ⟨post, by rw [he, List.append_assoc]; rfl⟩
      have hsecond : pre' <+: l := ⟨x' :: post', he'.symm⟩
      apply List.prefix_of_prefix_length_le hfirst hsecond
      rw [List.length_append, List.length_singleton]
      omega
    obtain ⟨rest, rfl⟩ := hprefix
    exact hnot (hmono _ _ hturn)
  obtain ⟨pre, x, post, he, hnot, hturn⟩ := hexists
  refine ⟨pre, ⟨x, post, he, hnot, hturn⟩, ?_⟩
  rintro pre' ⟨x', post', he', hnot', hturn'⟩
  have hlength := Nat.le_antisymm (hbefore he he' hnot' hturn) (hbefore he' he hnot hturn')
  exact (List.append_inj (he'.symm.trans he) hlength).1

end Splits
