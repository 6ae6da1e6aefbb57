import ZeroCopyRpc.SummaryTree

/-!
# The bit set that knows when it is full

The bits lie in the leaves of a complete binary tree of 64-bit blocks; each
inner block is the conjunction of its children, so the set is complete when the
root's bits are all set. The last leaf is padded with set bits.
-/
open SummaryTree

inductive BitSetError where
  | sizeNotPositive | outOfRange
  deriving DecidableEq, Repr

/-- The texts of `std::invalid_argument` and `std::out_of_range`. -/
def BitSetError.what : BitSetError → String
  | .sizeNotPositive => "BitSet size must be positive"
  | .outOfRange => "Bit index out of range"

structure FastBitSet where
  tree : Nat → BitVec 64
  numBits : Nat
  numLeafNodes : Nat
  firstLeafIndex : Nat

namespace FastBitSet

def initializeTree (numBits : Nat) : FastBitSet :=
  let numLeafNodes := (numBits + 64 - 1) / 64
  let treeSize := numLeafNodes * 2 - 1
  let tree : Nat → BitVec 64 := fun _ => 0
  let lastLeafBits := numBits % 64
  let mask : BitVec 64 := 1#64 <<< lastLeafBits - 1
  { tree := if numBits % 64 ≠ 0 then Function.update tree (treeSize - 1) (tree (treeSize - 1) ||| ~~~mask) else tree
    numBits := numBits
    numLeafNodes := numLeafNodes
    firstLeafIndex := numLeafNodes - 1 }

def new (bits : Nat) : Except BitSetError FastBitSet :=
  if bits = 0 then .error .sizeNotPositive else .ok (initializeTree bits)

def getLeafIndex (b : FastBitSet) (bitIndex : Nat) : Nat := b.firstLeafIndex + bitIndex / 64

def setBit (b : FastBitSet) (index : Nat) : Except BitSetError FastBitSet :=
  if b.numBits ≤ index then .error .outOfRange
  else
    let leafIndex := b.getLeafIndex index
    let tree := Function.update b.tree leafIndex (b.tree leafIndex ||| 1#64 <<< (index % 64))
    .ok { b with tree := updateParents (· &&& ·) leafIndex tree leafIndex }

def isComplete (b : FastBitSet) : Bool := b.tree 0 == ~~~0#64

def getBit (b : FastBitSet) (index : Nat) : Except BitSetError Bool :=
  if b.numBits ≤ index then .error .outOfRange
  else .ok (b.tree (b.getLeafIndex index) &&& 1#64 <<< (index % 64) != 0)

/-- The bit at a position of the leaves, padding included. -/
def bit (b : FastBitSet) (k : Nat) : Bool := (b.tree (b.getLeafIndex k)).getLsbD (k % 64)

/-- The shape that the constructor builds and every operation keeps. -/
structure Wf (b : FastBitSet) : Prop where
  pos : 0 < b.numBits
  leaves : b.numLeafNodes = (b.numBits + 63) / 64
  first : b.firstLeafIndex = b.numLeafNodes - 1
  consistent : Consistent (· &&& ·) b.numLeafNodes b.tree
  padded : ∀ k, b.numBits ≤ k → k < 64 * b.numLeafNodes → b.bit k = true

theorem getLsbD_mask (n i : Nat) (hn : n < 64) (hi : i < 64) :
    (~~~(1#64 <<< n - 1)).getLsbD i = decide (n ≤ i) := by
  have h : ∀ n i : Fin 64, (~~~(1#64 <<< n.1 - 1)).getLsbD i.1 = decide (n.1 ≤ i.1) := by decide +kernel
  exact h ⟨n, hn⟩ ⟨i, hi⟩

theorem getLsbD_one (n i : Nat) (hn : n < 64) : (1#64 <<< n).getLsbD i = decide (n = i) := by
  rw [← BitVec.twoPow_eq, BitVec.getLsbD_twoPow, decide_eq_true hn, Bool.true_and]

theorem and_one (x : BitVec 64) (n : Nat) (hn : n < 64) : (x &&& 1#64 <<< n != 0) = x.getLsbD n := by
  have hne : BitVec.twoPow 64 n ≠ 0 := by
    intro h
    have hbit := congrArg (fun y => BitVec.getLsbD y n) h
    simp [hn] at hbit
  rw [← BitVec.twoPow_eq, BitVec.and_twoPow]
  cases x.getLsbD n with
  | true => simpa using hne
  | false => rfl

theorem all_ones_iff (x : BitVec 64) : x = ~~~0#64 ↔ ∀ i, i < 64 → x.getLsbD i = true := by
  have hones : ∀ i, i < 64 → (~~~0#64).getLsbD i = true := by
    intro i hi
    rw [BitVec.getLsbD_not, decide_eq_true hi, BitVec.getLsbD_zero]
    rfl
  constructor
  · intro h i hi
    rw [h, hones i hi]
  · intro h
    apply BitVec.eq_of_getLsbD_eq
    intro i hi
    rw [h i hi, hones i hi]

theorem and_all_ones (a b : BitVec 64) : a &&& b = ~~~0#64 ↔ a = ~~~0#64 ∧ b = ~~~0#64 := by
  simp only [all_ones_iff, BitVec.getLsbD_and, Bool.and_eq_true]
  exact ⟨fun h => ⟨fun i hi => (h i hi).1, fun i hi => (h i hi).2⟩, fun h i hi => ⟨h.1 i hi, h.2 i hi⟩⟩

/-- The set is complete exactly when each of its bits is set. -/
theorem isComplete_iff {b : FastBitSet} (h : b.Wf) : b.isComplete = true ↔
    ∀ k, k < b.numBits → b.bit k = true := by
  have hpos := h.pos
  have hleaves := h.leaves
  have hroot := root_full_iff and_all_ones (by omega) h.consistent
  rw [isComplete, beq_iff_eq, hroot, ← h.first]
  constructor
  · intro hfull k hk
    have hleaf := (all_ones_iff _).mp (hfull (k / 64) (by omega))
    exact hleaf (k % 64) (by omega)
  · intro hall i hi
    rw [all_ones_iff]
    intro j hj
    have hbit : b.bit (64 * i + j) = true := by
      by_cases hk : 64 * i + j < b.numBits
      · exact hall _ hk
      · exact h.padded _ (by omega) (by omega)
    rw [bit, getLeafIndex, show (64 * i + j) / 64 = i by omega, show (64 * i + j) % 64 = j by omega] at hbit
    exact hbit

theorem getBit_ok {b : FastBitSet} {k : Nat} (hk : k < b.numBits) : b.getBit k = .ok (b.bit k) := by
  rw [getBit, if_neg (by omega), and_one _ _ (by omega), bit]

theorem leafIndex_range {b : FastBitSet} (h : b.Wf) {k : Nat} (hk : k < b.numBits) :
    b.numLeafNodes ≤ b.getLeafIndex k + 1 ∧ b.getLeafIndex k + 1 < 2 * b.numLeafNodes := by
  have hleaves := h.leaves
  have hpos := h.pos
  rw [getLeafIndex, h.first]
  omega

/-- Setting a bit sets that bit and no other. -/
theorem setBit_ok {b : FastBitSet} {k : Nat} (h : b.Wf) (hk : k < b.numBits) :
    ∃ c, b.setBit k = .ok c ∧ c.Wf ∧ c.numBits = b.numBits ∧ ∀ j, c.bit j = (decide (j = k) || b.bit j) := by
  let leaf := b.getLeafIndex k
  let tree := Function.update b.tree leaf (b.tree leaf ||| 1#64 <<< (k % 64))
  obtain ⟨hinner, hlast⟩ := leafIndex_range h hk
  have hexcept : ConsistentExcept (· &&& ·) b.numLeafNodes tree leaf := by
    intro p hp hne
    have hp' : p ≠ leaf := by
      have : leaf = b.getLeafIndex k := rfl
      omega
    have hsum : summary (· &&& ·) tree p = summary (· &&& ·) b.tree p :=
      summary_update _ (fun he => hne (by omega) (by omega)) (fun he => hne (by omega) (by omega))
    have htree : tree p = b.tree p := Function.update_of_ne hp' ..
    rw [hsum, htree]
    exact h.consistent p hp
  obtain ⟨hconsistent, hkeep⟩ := updateParents_consistent leaf leaf (Nat.le_refl _) hlast hexcept
  have hbit : ∀ j, ({ b with tree := updateParents (· &&& ·) leaf tree leaf } : FastBitSet).bit j =
      (decide (j = k) || b.bit j) := by
    intro j
    have hj : b.numLeafNodes ≤ b.getLeafIndex j + 1 := by
      rw [getLeafIndex, h.first]
      omega
    change (updateParents (· &&& ·) leaf tree leaf (b.getLeafIndex j)).getLsbD (j % 64) = _
    rw [hkeep _ hj]
    by_cases hleaf : b.getLeafIndex j = leaf
    · have hdiv : j / 64 = k / 64 := by
        have : b.firstLeafIndex + j / 64 = b.firstLeafIndex + k / 64 := hleaf
        omega
      have htree : tree (b.getLeafIndex j) = b.tree (b.getLeafIndex j) ||| 1#64 <<< (k % 64) := by
        rw [hleaf]
        exact Function.update_self ..
      rw [htree, BitVec.getLsbD_or, getLsbD_one _ _ (by omega), Bool.or_comm, bit]
      congr 1
      exact decide_eq_decide.mpr (by omega)
    · have htree : tree (b.getLeafIndex j) = b.tree (b.getLeafIndex j) := Function.update_of_ne hleaf ..
      have hne : j ≠ k := fun he => hleaf (by rw [he])
      rw [htree, decide_eq_false hne, Bool.false_or, bit]
  refine ⟨{ b with tree := updateParents (· &&& ·) leaf tree leaf }, ?_,
    ⟨h.pos, h.leaves, h.first, hconsistent, ?_⟩, rfl, hbit⟩
  · rw [setBit, if_neg (by omega)]
  · intro j hj hlt
    rw [hbit, h.padded j hj hlt, Bool.or_true]

theorem initializeTree_cell {bits i : Nat} (hb : 0 < bits) :
    (initializeTree bits).tree i =
      if bits % 64 ≠ 0 ∧ i = (bits + 63) / 64 * 2 - 2 then ~~~(1#64 <<< (bits % 64) - 1) else 0 := by
  have hlast : (bits + 63) / 64 * 2 - 1 - 1 = (bits + 63) / 64 * 2 - 2 := by omega
  by_cases hm : bits % 64 ≠ 0
  · by_cases hi : i = (bits + 63) / 64 * 2 - 2
    · rw [if_pos ⟨hm, hi⟩, hi]
      simp [initializeTree, hm, hlast]
    · rw [if_neg (fun h => hi h.2)]
      simp [initializeTree, hm, hlast, hi]
  · rw [if_neg (fun h => hm h.1)]
    simp [initializeTree, not_not.mp hm]

/-- A new set has no bit set but the padding. -/
theorem new_ok {bits : Nat} (hb : 0 < bits) :
    ∃ b, new bits = .ok b ∧ b.Wf ∧ b.numBits = bits ∧ ∀ k, k < bits → b.bit k = false := by
  have hbit : ∀ k, (initializeTree bits).bit k =
      (decide (bits % 64 ≠ 0 ∧ k / 64 = (bits + 63) / 64 - 1) && decide (bits % 64 ≤ k % 64)) := by
    intro k
    have hindex : (initializeTree bits).getLeafIndex k = (bits + 63) / 64 - 1 + k / 64 := rfl
    have hsame : (initializeTree bits).getLeafIndex k = (bits + 63) / 64 * 2 - 2 ↔
        k / 64 = (bits + 63) / 64 - 1 := by
      rw [hindex]
      omega
    rw [bit, initializeTree_cell hb]
    simp only [hsame]
    split
    · rename_i hpad
      rw [getLsbD_mask _ _ (by omega) (by omega), decide_eq_true hpad, Bool.true_and]
    · rename_i hpad
      rw [decide_eq_false hpad, Bool.false_and]
      exact BitVec.getLsbD_zero
  refine ⟨initializeTree bits, if_neg (by omega), ⟨hb, rfl, rfl, ?_, ?_⟩, rfl, ?_⟩
  · intro p hp
    have hp : p + 1 < (bits + 63) / 64 := hp
    -- the padded leaf has a sibling without any bit
    have hsibling : (initializeTree bits).tree (2 * p + 1) = 0 := by
      rw [initializeTree_cell hb, if_neg (by omega)]
    rw [initializeTree_cell hb, if_neg (by omega), summary, hsibling]
    exact (BitVec.zero_and).symm
  · intro k hk hlt
    have hlt : k < 64 * ((bits + 63) / 64) := hlt
    have hk : bits ≤ k := hk
    rw [hbit, Bool.and_eq_true, decide_eq_true_iff, decide_eq_true_iff]
    omega
  · intro k hk
    rw [hbit, Bool.and_eq_false_iff, decide_eq_false_iff_not, decide_eq_false_iff_not]
    omega

theorem setBit_refused {b : FastBitSet} {k : Nat} (hk : b.numBits ≤ k) : b.setBit k = .error .outOfRange := if_pos hk

theorem getBit_refused {b : FastBitSet} {k : Nat} (hk : b.numBits ≤ k) : b.getBit k = .error .outOfRange := if_pos hk

/-- A call that returned was in range. -/
theorem getBit_lt {b : FastBitSet} {k : Nat} {v : Bool} (h : b.getBit k = .ok v) : k < b.numBits := by
  by_contra hk
  rw [getBit_refused (Nat.not_lt.mp hk)] at h
  cases h

/-- What a call that returned has done. -/
theorem setBit_spec {b c : FastBitSet} {k : Nat} (h : b.Wf) (hset : b.setBit k = .ok c) :
    c.Wf ∧ c.numBits = b.numBits ∧ ∀ j, c.bit j = (decide (j = k) || b.bit j) := by
  have hk : k < b.numBits := by
    by_contra hk
    rw [setBit_refused (Nat.not_lt.mp hk)] at hset
    cases hset
  obtain ⟨c', hset', hspec⟩ := setBit_ok h hk
  rw [hset, Except.ok.injEq] at hset'
  subst hset'
  exact hspec

/-- The bit just set was the last one missing. -/
theorem isComplete_set {b c : FastBitSet} {k : Nat} (h : b.Wf) (hset : b.setBit k = .ok c) :
    c.isComplete = true ↔ ∀ j, j < b.numBits → j ≠ k → b.getBit j = .ok true := by
  obtain ⟨hwf, hn, hbit⟩ := setBit_spec h hset
  rw [isComplete_iff hwf, hn]
  refine forall_congr' fun j => forall_congr' fun hj => ?_
  rw [hbit, getBit_ok hj, Except.ok.injEq, Bool.or_eq_true, decide_eq_true_iff]
  constructor
  · rintro (he | hold) hne
    · exact absurd he hne
    · exact hold
  · intro hrest
    by_cases he : j = k
    · exact Or.inl he
    · exact Or.inr (hrest he)

/-- A call as its caller sees it: one that throws has changed nothing. -/
def attempt (b : FastBitSet) (index : Nat) : FastBitSet := (b.setBit index).toOption.getD b

def setBits (b : FastBitSet) (indices : List Nat) : FastBitSet := indices.foldl attempt b

/-- One call, in range or not. -/
theorem attempt_ok {b : FastBitSet} (h : b.Wf) (k : Nat) :
    (b.attempt k).Wf ∧ (b.attempt k).numBits = b.numBits ∧
    ∀ j, j < b.numBits → (b.attempt k).bit j = (decide (j = k) || b.bit j) := by
  by_cases hk : k < b.numBits
  · obtain ⟨c, hc, hwf, hn, hbit⟩ := setBit_ok h hk
    have hattempt : b.attempt k = c := by
      rw [attempt, hc]
      rfl
    rw [hattempt]
    exact ⟨hwf, hn, fun j _ => hbit j⟩
  · have hattempt : b.attempt k = b := by
      rw [attempt, setBit_refused (Nat.not_lt.mp hk)]
      rfl
    rw [hattempt]
    refine ⟨h, rfl, fun j hj => ?_⟩
    rw [decide_eq_false (by omega), Bool.false_or]

theorem setBits_ok {b : FastBitSet} (h : b.Wf) (indices : List Nat) :
    (b.setBits indices).Wf ∧ (b.setBits indices).numBits = b.numBits ∧
    ∀ j, j < b.numBits → ((b.setBits indices).bit j = true ↔ j ∈ indices ∨ b.bit j = true) := by
  induction indices generalizing b with
  | nil => exact ⟨h, rfl, fun j _ => by simp [setBits]⟩
  | cons k indices ih =>
    obtain ⟨hwf, hn, hbit⟩ := attempt_ok h k
    obtain ⟨hwf', hn', hbit'⟩ := ih hwf
    refine ⟨hwf', hn'.trans hn, fun j hj => ?_⟩
    have hstep := hbit' j (hn ▸ hj)
    rw [hbit j hj, Bool.or_eq_true, decide_eq_true_iff] at hstep
    rw [List.mem_cons, or_comm (a := j = k), or_assoc]
    exact hstep

/-- Whatever calls were made on a set of `n` bits: a bit reads as set exactly when
it is one of the `n` and some call set it, the set is complete exactly when every
one of them was set, each inner block is the conjunction of its children, and the
last leaf is padded with set bits. -/
theorem completeness_exact (n : Nat) (hn : 1 ≤ n) (indices : List Nat) :
    ∃ b, new n = .ok b ∧
      (∀ i, (b.setBits indices).getBit i = .ok true ↔ i < n ∧ i ∈ indices) ∧
      ((b.setBits indices).isComplete = true ↔ ∀ i, i < n → i ∈ indices) ∧
      (∀ i, (b.setBits indices).setBit i = .error .outOfRange ↔ n ≤ i) ∧
      (b.setBits indices).numLeafNodes = (n + 63) / 64 ∧
      (∀ p, p + 1 < (b.setBits indices).numLeafNodes → (b.setBits indices).tree p =
        (b.setBits indices).tree (2 * p + 1) &&& (b.setBits indices).tree (2 * p + 2)) ∧
      ∀ k, n ≤ k → k < 64 * (b.setBits indices).numLeafNodes →
        ((b.setBits indices).tree ((b.setBits indices).getLeafIndex k)).getLsbD (k % 64) = true := by
  obtain ⟨b, hb, hwf, hsize, hclear⟩ := new_ok hn
  obtain ⟨hwf', hsize', hbit⟩ := setBits_ok hwf indices
  have hsize'' := hsize'.trans hsize
  have hset : ∀ i, i < n → ((b.setBits indices).bit i = true ↔ i ∈ indices) := by
    intro i hi
    rw [hbit i (by omega), hclear i hi]
    simp
  refine ⟨b, hb, fun i => ?_, ?_, fun i => ?_, ?_, hwf'.consistent, ?_⟩
  · by_cases hi : i < n
    · rw [getBit_ok (by omega), Except.ok.injEq, hset i hi]
      exact (and_iff_right hi).symm
    · rw [getBit_refused (by omega)]
      simp [hi]
  · rw [isComplete_iff hwf', hsize'']
    exact forall₂_congr hset
  · by_cases hi : i < n
    · obtain ⟨c, hc, -⟩ := setBit_ok hwf' (k := i) (by omega)
      rw [hc]
      simpa using hi
    · rw [setBit_refused (by omega)]
      simpa using hi
  · rw [hwf'.leaves, hsize'']
  · rw [← hsize'']
    exact hwf'.padded

/-- 70 bits over two leaves; the call for bit 200 throws. -/
theorem completeness_exact_two_leaves : ∃ b, new 70 = .ok b ∧
    (b.setBits [0, 200, 65]).getBit 65 = .ok true ∧ (b.setBits [0, 200, 65]).getBit 1 ≠ .ok true ∧
    (b.setBits [0, 200, 65]).isComplete = false := by
  obtain ⟨b, hb, hbit, hcomplete, -⟩ := completeness_exact 70 (by decide) [0, 200, 65]
  refine ⟨b, hb, (hbit 65).mpr (by decide), fun h => absurd ((hbit 1).mp h) (by decide), ?_⟩
  rw [← Bool.not_eq_true, hcomplete]
  exact fun h => absurd (h 1 (by decide)) (by decide)

end FastBitSet
