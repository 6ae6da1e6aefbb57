import Mathlib.Algebra.GroupWithZero.Nat
import Mathlib.Data.List.Nodup
import Mathlib.Data.List.Perm.Subperm
import ZeroCopyRpc.Cells
import ZeroCopyRpc.LittleEndian

/-!
# Words and flags in a byte memory

A memory is a total function from addresses to bytes. A word is eight bytes, the
lowest first, and a flag is one byte, set when it is not zero. A word that was
stored reads back, and a store beside a word or a flag does not show in it.
Regions without a common address take no more room together than they lie in.
-/
namespace WordMemory

open Cells LittleEndian

/-- A run of bytes: where it starts and how long it is. -/
structure Region where
  start : Nat
  length : Nat
  deriving DecidableEq, Repr

/-- Two runs without a common address. -/
def Apart (r t : Region) : Prop := r.start + r.length ≤ t.start ∨ t.start + t.length ≤ r.start

/-- The address lies in the run. -/
def Region.Has (r : Region) (a : Nat) : Prop := r.start ≤ a ∧ a < r.start + r.length

def Region.addresses (r : Region) : List Nat := List.range' r.start r.length

theorem Region.mem_addresses {r : Region} {a : Nat} : a ∈ r.addresses ↔ r.Has a := List.mem_range'_1

/-- Regions that add up to more than the range they lie in share an address. -/
theorem exists_shared {l : List Region} {n : Nat} (hin : ∀ r ∈ l, r.start + r.length ≤ n)
    (hsum : n < (l.map Region.length).sum) :
    ∃ i j, ∃ (hj : j < l.length) (hi : i < j), ∃ a, l[i].Has a ∧ l[j].Has a := by
  by_contra hnone
  have hnodup : (l.flatMap Region.addresses).Nodup := by
    rw [List.nodup_flatMap]
    refine ⟨fun r _ => List.nodup_range', List.pairwise_iff_getElem.mpr ?_⟩
    intro i j hi hj hij a ha ha'
    exact hnone ⟨i, j, hj, hij, a, Region.mem_addresses.mp ha, Region.mem_addresses.mp ha'⟩
  have hinside : l.flatMap Region.addresses ⊆ List.range n := by
    intro a ha
    obtain ⟨r, hr, har⟩ := List.mem_flatMap.mp ha
    have hhas := (Region.mem_addresses.mp har).2
    rw [List.mem_range]
    exact Nat.lt_of_lt_of_le hhas (hin r hr)
  have hcount := (List.subperm_of_subset hnodup hinside).length_le
  have hlengths : l.map (fun r => r.addresses.length) = l.map Region.length :=
    List.map_congr_left fun r _ => List.length_range'
  rw [List.length_flatMap, List.length_range, hlengths] at hcount
  omega

def load (m : Nat → UInt8) (a : Nat) : Nat := ofBytes (slice m a 8)

def put (m : Nat → UInt8) (a v : Nat) : Nat → UInt8 := store m a (toBytes 8 v)

def flag (m : Nat → UInt8) (a : Nat) : Bool := m a != 0

def putFlag (m : Nat → UInt8) (a : Nat) (v : Bool) : Nat → UInt8 := store m a [if v then 1 else 0]

variable {m m' : Nat → UInt8} {a b v : Nat}

theorem load_congr (h : ∀ i, a ≤ i → i < a + 8 → m i = m' i) : load m a = load m' a := by
  rw [load, load, slice_congr h]

theorem flag_congr (h : m a = m' a) : flag m a = flag m' a := by rw [flag, flag, h]

theorem load_zero (h : ∀ i, a ≤ i → i < a + 8 → m i = 0) : load m a = 0 := by
  have hbytes : slice m a 8 = (List.range 8).map fun _ => 0 := by
    apply List.map_congr_left
    intro i hi
    rw [List.mem_range] at hi
    exact h _ (Nat.le_add_right _ _) (by omega)
  rw [load, hbytes]
  rfl

@[simp] theorem load_put (m : Nat → UInt8) (a : Nat) (h : v < 0x10000000000000000) : load (put m a v) a = v := by
  have hbytes := slice_store_same m a (toBytes 8 v)
  rw [toBytes_length] at hbytes
  rw [load, put, hbytes, ofBytes_toBytes (fits_long h)]

@[simp] theorem flag_putFlag (m : Nat → UInt8) (a : Nat) (v : Bool) : flag (putFlag m a v) a = v := by
  have hbyte : putFlag m a v a = if v then 1 else 0 := store_inside m a [if v then 1 else 0] 0 Nat.one_pos
  rw [flag, hbyte]
  cases v <;> rfl

/-- The memories differ at most inside the region. -/
def Kept (r : Region) (m m' : Nat → UInt8) : Prop := ∀ a, ¬ r.Has a → m' a = m a

/-- One run lies inside another. -/
def Within (r t : Region) : Prop := t.start ≤ r.start ∧ r.start + r.length ≤ t.start + t.length

theorem Kept.trans {m'' : Nat → UInt8} {r : Region} (h : Kept r m m') (h' : Kept r m' m'') : Kept r m m'' :=
  fun a ha => (h' a ha).trans (h a ha)

theorem Apart.not_has {r t : Region} (h : Apart r t) {i : Nat} (hi : t.Has i) : ¬ r.Has i := by
  rintro ⟨hle, hlt⟩
  obtain ⟨hle', hlt'⟩ := hi
  rcases h with h | h <;> omega

theorem kept_store (m : Nat → UInt8) (data : List UInt8) {r : Region} (h : Within ⟨a, data.length⟩ r) :
    Kept r m (store m a data) := by
  intro i hi
  obtain ⟨hstart, hend⟩ := h
  simp only at hstart hend
  refine store_outside m a data i ?_
  by_contra hinside
  exact hi ⟨by omega, by omega⟩

theorem kept_put (m : Nat → UInt8) (v : Nat) {r : Region} (h : Within ⟨a, 8⟩ r) : Kept r m (put m a v) := by
  have hlength : Within ⟨a, (toBytes 8 v).length⟩ r := by
    rw [toBytes_length]
    exact h
  exact kept_store m _ hlength

theorem kept_putFlag (m : Nat → UInt8) (v : Bool) {r : Region} (h : Within ⟨a, 1⟩ r) :
    Kept r m (putFlag m a v) :=
  kept_store m _ h

theorem Kept.load {r : Region} (h : Kept r m m') (ha : Apart r ⟨a, 8⟩) : load m' a = load m a :=
  load_congr fun i hle hlt => h i (ha.not_has ⟨hle, hlt⟩)

theorem within_refl (r : Region) : Within r r := ⟨Nat.le_refl _, Nat.le_refl _⟩

theorem load_put_other (h : Apart ⟨a, 8⟩ ⟨b, 8⟩) : load (put m a v) b = load m b :=
  (kept_put m v (within_refl _)).load h

theorem load_putFlag {v : Bool} (h : Apart ⟨a, 1⟩ ⟨b, 8⟩) : load (putFlag m a v) b = load m b :=
  (kept_putFlag m v (within_refl _)).load h

end WordMemory
