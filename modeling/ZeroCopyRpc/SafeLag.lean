import Mathlib.Data.Nat.Basic

/-!
# The safe lag of a bump allocator that starts over at zero

An arena of `size` cells is handed out from a moving position. A request keeps
the position, when the rest of the arena is long enough, or starts over at
zero. The region in use runs from `base` to `tip`, and only its tip grows.

A block allocated earlier stays intact as long as its length, the total length
`spent` of the regions used since and the largest request `asked` since fit
into the arena together. `Clear` is the invariant that proves it: either the
allocator has not started over yet and works above the block, or it has and
works below the block, with too little spent to come back up to it.
-/
namespace SafeLag

/-- Where the region `base..tip` lies relative to the block at `start` of length `length`. -/
def Clear (size start length spent asked base tip : Nat) : Prop :=
  (start + length ≤ base ∧ tip ≤ start + length + spent) ∨
  (size + tip < start + length + asked + spent ∧ tip ≤ spent)

variable {size start length spent asked base tip : Nat}

/-- A block is clear of the region that begins right behind it. -/
theorem clear_fresh (size start length : Nat) :
    Clear size start length 0 0 (start + length) (start + length) := by
  left
  omega

/-- A larger request in the past does no harm. -/
theorem clear_asked (asked' : Nat) (h : Clear size start length spent asked base tip)
    (ha : asked ≤ asked') : Clear size start length spent asked' base tip := by
  rcases h with h | h
  · exact Or.inl h
  · right
    omega

/-- Growing the region's tip is paid for by the amount spent. -/
theorem clear_extend (tip' : Nat) {spent' : Nat} (h : Clear size start length spent asked base tip)
    (ht : tip ≤ tip') (hs : spent' = spent + (tip' - tip)) :
    Clear size start length spent' asked base tip' := by
  rcases h with h | h
  · left
    omega
  · right
    omega

/-- The next region begins inside the last one, where its committed part ends. -/
theorem clear_seal {base' : Nat} (h : Clear size start length spent asked base tip)
    (hb : base ≤ base') (ht : base' ≤ tip) : Clear size start length spent asked base' base' := by
  rcases h with h | h
  · left
    omega
  · right
    omega

/-- Starting over happens only when the rest is too short for the request, so
it can happen at most once while the block is still within the safe lag. -/
theorem clear_restart {request : Nat} (h : Clear size start length spent asked tip tip)
    (hr : request ≤ asked) (hshort : size < tip + request)
    (hfit : length + spent + asked ≤ size) : Clear size start length spent asked 0 0 := by
  rcases h with h | h
  · right
    omega
  · omega

/-- Within the safe lag the region in use does not meet the block. -/
theorem clear_disjoint (h : Clear size start length spent asked base tip)
    (hfit : length + spent + asked ≤ size) : start + length ≤ base ∨ tip ≤ start := by
  rcases h with h | h
  · left
    omega
  · right
    omega

end SafeLag
