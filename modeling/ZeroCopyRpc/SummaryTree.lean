import Mathlib.Logic.Function.Basic

/-!
# Complete binary trees that summarise their leaves

A tree with `leaves` leaves lies in an array of `2 * leaves - 1` cells: the
children of cell `p` are the cells `2 * p + 1` and `2 * p + 2`, and the leaves
come last. Each inner cell holds an operation's value on its two children. When
that operation gives the value `full` exactly on two full arguments, the root
is full exactly when all leaves are.
-/
namespace SummaryTree

variable {α : Type} (op : α → α → α)

def summary (tree : Nat → α) (p : Nat) : α := op (tree (2 * p + 1)) (tree (2 * p + 2))

/-- Climb from a cell to the root, and stop where the parent keeps its value. -/
def updateParents [DecidableEq α] : Nat → (Nat → α) → Nat → (Nat → α)
  | 0, tree, _ => tree
  | fuel + 1, tree, current =>
    if current = 0 then tree
    else
      let parent := (current - 1) / 2
      let updated := Function.update tree parent (summary op tree parent)
      if tree parent = updated parent then updated else updateParents fuel updated parent

/-- Every inner cell is the summary of its children, the parent of cell `c` perhaps excepted. -/
def ConsistentExcept (leaves : Nat) (tree : Nat → α) (c : Nat) : Prop :=
  ∀ p, p + 1 < leaves → (0 < c → p ≠ (c - 1) / 2) → tree p = summary op tree p

def Consistent (leaves : Nat) (tree : Nat → α) : Prop := ∀ p, p + 1 < leaves → tree p = summary op tree p

variable {op} {leaves : Nat} {tree : Nat → α} {full : α}

theorem summary_update {p q : Nat} (value : α) (hleft : 2 * q + 1 ≠ p) (hright : 2 * q + 2 ≠ p) :
    summary op (Function.update tree p value) q = summary op tree q := by
  simp [summary, hleft, hright]

/-- Refreshing a cell leaves its own parent as the only one that may be out of date. -/
theorem consistent_update {p : Nat} (h : ∀ q, q + 1 < leaves → q ≠ p → tree q = summary op tree q) :
    ConsistentExcept op leaves (Function.update tree p (summary op tree p)) p := by
  intro q hq hne
  by_cases hqp : q = p
  · subst hqp
    rw [summary_update _ (by omega) (by omega), Function.update_self]
  · have hchild : 0 < p → (p - 1) / 2 ≠ q := fun hp he => hne hp he.symm
    rw [summary_update _ (by omega) (by omega), Function.update_of_ne hqp]
    exact h q hq hqp

/-- After the climb the tree is consistent again, and no leaf has changed. -/
theorem updateParents_consistent [DecidableEq α] (fuel c : Nat) (hfuel : c ≤ fuel) (hc : c + 1 < 2 * leaves)
    (h : ConsistentExcept op leaves tree c) :
    Consistent op leaves (updateParents op fuel tree c) ∧
    ∀ i, leaves ≤ i + 1 → updateParents op fuel tree c i = tree i := by
  induction fuel generalizing tree c with
  | zero => exact ⟨fun p hp => h p hp (by omega), fun i _ => rfl⟩
  | succ fuel ih =>
    unfold updateParents
    by_cases hzero : c = 0
    · rw [if_pos hzero]
      exact ⟨fun p hp => h p hp (by omega), fun i _ => rfl⟩
    · rw [if_neg hzero]
      let parent := (c - 1) / 2
      let updated := Function.update tree parent (summary op tree parent)
      have hself : updated parent = summary op tree parent := Function.update_self ..
      have hlt : parent < c ∧ parent + 1 < leaves := by
        have : parent = (c - 1) / 2 := rfl
        omega
      have hother : ∀ q, q + 1 < leaves → q ≠ parent → tree q = summary op tree q :=
        fun q hq hne => h q hq (fun _ => hne)
      have hkeep : ∀ i, leaves ≤ i + 1 → updated i = tree i := fun i hi => Function.update_of_ne (by omega) ..
      change Consistent op leaves (if tree parent = updated parent then updated
        else updateParents op fuel updated parent) ∧
        ∀ i, leaves ≤ i + 1 →
          (if tree parent = updated parent then updated else updateParents op fuel updated parent) i = tree i
      split
      · rename_i hsame
        -- the parent has kept its value, so nothing above it can be out of date
        have hid : updated = tree := Function.update_eq_self_iff.mpr (hself.symm.trans hsame.symm)
        refine ⟨?_, hkeep⟩
        rw [hid]
        intro p hp
        by_cases hpp : p = parent
        · rw [hpp, hsame, hself]
        · exact hother p hp hpp
      · obtain ⟨hconsistent, hrest⟩ := ih parent (by omega) (by omega) (consistent_update hother)
        exact ⟨hconsistent, fun i hi => (hrest i hi).trans (hkeep i hi)⟩

/-- The root of a consistent tree is full exactly when all leaves are. -/
theorem root_full_iff (hop : ∀ a b, op a b = full ↔ a = full ∧ b = full) (hleaves : 0 < leaves)
    (h : Consistent op leaves tree) :
    tree 0 = full ↔ ∀ i, i < leaves → tree (leaves - 1 + i) = full := by
  constructor
  · intro hroot
    have hall : ∀ i, i < 2 * leaves - 1 → tree i = full := by
      intro i
      induction i using Nat.strongRecOn with
      | ind i ih =>
        intro hi
        by_cases hi0 : i = 0
        · rw [hi0]
          exact hroot
        · have hparent := ih ((i - 1) / 2) (by omega) (by omega)
          rw [h ((i - 1) / 2) (by omega), summary, hop] at hparent
          by_cases hodd : i = 2 * ((i - 1) / 2) + 1
          · rw [hodd]
            exact hparent.1
          · rw [show i = 2 * ((i - 1) / 2) + 2 by omega]
            exact hparent.2
    exact fun i hi => hall _ (by omega)
  · intro hfull
    have hall : ∀ k i, i + k = 2 * leaves - 2 → tree i = full := by
      intro k
      induction k using Nat.strongRecOn with
      | ind k ih =>
        intro i hi
        by_cases hinner : i + 1 < leaves
        · rw [h i hinner, summary, hop]
          exact ⟨ih (2 * leaves - 2 - (2 * i + 1)) (by omega) _ (by omega),
            ih (2 * leaves - 2 - (2 * i + 2)) (by omega) _ (by omega)⟩
        · have hleaf := hfull (i - (leaves - 1)) (by omega)
          rwa [show leaves - 1 + (i - (leaves - 1)) = i by omega] at hleaf
    exact hall (2 * leaves - 2) 0 (by omega)

end SummaryTree
