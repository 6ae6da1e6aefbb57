import Mathlib.Data.List.Basic
import Mathlib.Logic.Function.Basic

/-!
# Flat memories

A memory is a total function from addresses to cells. `store` overwrites a
run of consecutive cells and `slice` reads one. The lemmas say what a read
sees after a write: inside the written run, beside it, and across pieces.
-/
namespace Cells

variable {α : Type}

/-- Overwrite the cells from `position` on with the given values. -/
def store (memory : Nat → α) (position : Nat) (values : List α) : Nat → α :=
  fun i => if position ≤ i then (values[i - position]?).getD (memory i) else memory i

/-- Read `count` cells from `position` on. -/
def slice (memory : Nat → α) (position count : Nat) : List α :=
  (List.range count).map (fun i => memory (position + i))

@[simp] theorem slice_length (memory : Nat → α) (position count : Nat) :
    (slice memory position count).length = count := by simp [slice]

theorem store_inside (memory : Nat → α) (position : Nat) (values : List α) (i : Nat)
    (h : i < values.length) : store memory position values (position + i) = values[i] := by
  simp [store, h]

theorem store_outside (memory : Nat → α) (position : Nat) (values : List α) (i : Nat)
    (h : i < position ∨ position + values.length ≤ i) : store memory position values i = memory i := by
  unfold store
  split
  · rw [List.getElem?_eq_none (by omega)]
    rfl
  · rfl

theorem slice_getElem? (memory : Nat → α) (position count i : Nat) (h : i < count) :
    (slice memory position count)[i]? = some (memory (position + i)) := by
  simp [slice, h]

/-- A slice is determined by its cells. -/
theorem slice_eq_iff (memory : Nat → α) (position : Nat) (values : List α) :
    slice memory position values.length = values ↔
      ∀ i (h : i < values.length), memory (position + i) = values[i] := by
  constructor
  · intro he i h
    have hi := slice_getElem? memory position values.length i h
    rw [he, List.getElem?_eq_getElem h] at hi
    exact (Option.some.inj hi).symm
  · intro hc
    apply List.ext_getElem (by simp)
    intro i h₁ h₂
    simpa [slice] using hc i h₂

/-- Equal cells give equal slices. -/
theorem slice_congr {m m' : Nat → α} {position count : Nat}
    (h : ∀ i, position ≤ i → i < position + count → m i = m' i) :
    slice m position count = slice m' position count := by
  apply List.map_congr_left
  intro i hi
  rw [List.mem_range] at hi
  exact h (position + i) (by omega) (by omega)

/-- A write beside the slice does not show in it. -/
theorem slice_store_disjoint (memory : Nat → α) (position count target : Nat) (values : List α)
    (h : position + count ≤ target ∨ target + values.length ≤ position) :
    slice (store memory target values) position count = slice memory position count := by
  apply slice_congr
  intro i h₁ h₂
  exact store_outside memory target values i (by omega)

/-- The written run reads back as the values written. -/
theorem slice_store_same (memory : Nat → α) (position : Nat) (values : List α) :
    slice (store memory position values) position values.length = values := by
  rw [slice_eq_iff]
  intro i h
  exact store_inside memory position values i h

end Cells
