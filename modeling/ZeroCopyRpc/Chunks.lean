import ZeroCopyRpc.Cells

/-!
# Lists cut into chunks of one size

Chunk `k` of a list begins at `k * p` and has `p` elements, the last one fewer.
A memory that holds every chunk at its place holds the list.
-/
namespace Chunks

open Cells

variable {α : Type}

def chunk (p : Nat) (l : List α) (k : Nat) : List α := (l.drop (k * p)).take p

def count (p n : Nat) : Nat := (n + p - 1) / p

theorem lt_count {p n k : Nat} (hp : 0 < p) : k < count p n ↔ k * p < n := by
  rw [count, Nat.lt_iff_add_one_le, Nat.le_div_iff_mul_le hp, Nat.succ_mul]
  omega

theorem one_lt_count {p n : Nat} (hp : 0 < p) : 1 < count p n ↔ p < n := by
  rw [lt_count hp, Nat.one_mul]

theorem count_le {p : Nat} (hp : 0 < p) (n : Nat) : count p n ≤ n := by
  by_contra h
  have hlt := (lt_count hp).mp (Nat.lt_of_not_le h)
  have hmul := Nat.le_mul_of_pos_right n hp
  omega

theorem chunk_length (p : Nat) (l : List α) (k : Nat) : (chunk p l k).length = min p (l.length - k * p) := by
  rw [chunk, List.length_take, List.length_drop]

theorem chunk_whole {p : Nat} {l : List α} (h : l.length ≤ p) : chunk p l 0 = l := by
  rw [chunk, Nat.zero_mul, List.drop_zero, List.take_of_length_le h]

theorem drop_chunk (p : Nat) (l : List α) (k : Nat) : l.drop (k * p) = chunk p l k ++ l.drop ((k + 1) * p) := by
  rw [chunk, Nat.succ_mul, ← List.drop_drop, List.take_append_drop]

/-- The chunks from one on, joined, are the rest of the list. -/
theorem flatten_chunks {p : Nat} (hp : 0 < p) (l : List α) {k n : Nat} (h : k + n = count p l.length) :
    ((List.range' k n).map (chunk p l)).flatten = l.drop (k * p) := by
  induction n generalizing k with
  | zero =>
    have hend : ¬ k * p < l.length := fun hlt => by
      have := (lt_count hp).mpr hlt
      omega
    rw [List.drop_eq_nil_of_le (Nat.le_of_not_lt hend)]
    rfl
  | succ n ih => rw [List.range'_succ, List.map_cons, List.flatten_cons, ih (by omega), drop_chunk p l k]

/-- Different chunks lie in different cells. -/
theorem slice_other_chunk (memory : Nat → α) (start p : Nat) (l l' : List α) {j k : Nat} (h : j ≠ k) :
    slice (store memory (start + j * p) (chunk p l j)) (start + k * p) (chunk p l' k).length =
      slice memory (start + k * p) (chunk p l' k).length := by
  apply slice_store_disjoint
  rw [chunk_length, chunk_length]
  rcases Nat.lt_or_gt_of_ne h with hlt | hgt
  · have := Nat.mul_le_mul_right p (Nat.succ_le_of_lt hlt)
    rw [Nat.succ_mul] at this
    omega
  · have := Nat.mul_le_mul_right p (Nat.succ_le_of_lt hgt)
    rw [Nat.succ_mul] at this
    omega

/-- Chunks at their places make up the list. -/
theorem slice_of_chunks {memory : Nat → α} {start p : Nat} {l : List α} (hp : 0 < p)
    (h : ∀ k, k < count p l.length → slice memory (start + k * p) (chunk p l k).length = chunk p l k) :
    slice memory start l.length = l := by
  rw [slice_eq_iff]
  intro i hi
  have hdiv : i / p * p + i % p = i := by
    rw [Nat.mul_comm]
    exact Nat.div_add_mod i p
  have hmod := Nat.mod_lt i hp
  have hk : i / p < count p l.length := (lt_count hp).mpr (by omega)
  have hlen : i % p < (chunk p l (i / p)).length := by
    rw [chunk_length]
    omega
  have hcell := (slice_eq_iff memory (start + i / p * p) (chunk p l (i / p))).mp (h _ hk) (i % p) hlen
  rw [Nat.add_assoc, hdiv] at hcell
  rw [hcell]
  simp only [chunk, List.getElem_take, List.getElem_drop, hdiv]

end Chunks
