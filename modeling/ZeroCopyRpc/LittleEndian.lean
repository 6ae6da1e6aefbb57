import Mathlib.Data.List.Basic

/-!
# Numbers as bytes, the lowest byte first

A number that fits into a field of `n` bytes comes back from the bytes of the
field. `Fits` is the field's bound by repeated division.
-/
namespace LittleEndian

def toBytes : Nat → Nat → List UInt8
  | 0, _ => []
  | n + 1, v => UInt8.ofNat v :: toBytes n (v / 256)

def ofBytes : List UInt8 → Nat
  | [] => 0
  | b :: bs => b.toNat + 256 * ofBytes bs

def Fits : Nat → Nat → Prop
  | 0, v => v = 0
  | n + 1, v => Fits n (v / 256)

@[simp] theorem toBytes_length (n v : Nat) : (toBytes n v).length = n := by
  induction n generalizing v with
  | zero => rfl
  | succ n ih => rw [toBytes, List.length_cons, ih]

theorem ofBytes_toBytes {n v : Nat} (h : Fits n v) : ofBytes (toBytes n v) = v := by
  induction n generalizing v with
  | zero =>
    rw [Fits] at h
    rw [h]
    rfl
  | succ n ih =>
    have hb : (UInt8.ofNat v).toNat = v % 256 := rfl
    rw [toBytes, ofBytes, ih h, hb]
    omega

theorem fits_word {v : Nat} (h : v < 0x100000000) : Fits 4 v := by
  simp only [Fits]
  omega

theorem fits_long {v : Nat} (h : v < 0x10000000000000000) : Fits 8 v := by
  simp only [Fits]
  omega

theorem fits_succ {n v : Nat} (h : Fits n v) : Fits (n + 1) v := by
  induction n generalizing v with
  | zero =>
    rw [Fits] at h
    rw [h]
    rfl
  | succ n ih => exact ih h

/-- A longer field takes what a shorter one does. -/
theorem fits_le {n k v : Nat} (h : Fits n v) (hle : n ≤ k) : Fits k v := by
  induction k with
  | zero =>
    rw [Nat.le_zero.mp hle] at h
    exact h
  | succ k ih =>
    by_cases hn : n = k + 1
    · exact hn ▸ h
    · exact fits_succ (ih (by omega))

theorem fits_byte {v : Nat} (h : v < 256) : Fits 1 v := by
  simp only [Fits]
  omega

/-- The bytes of a field make a number that fits the field. -/
theorem fits_ofBytes (bytes : List UInt8) : Fits bytes.length (ofBytes bytes) := by
  induction bytes with
  | nil => rfl
  | cons b bytes ih =>
    have hdiv : (b.toNat + 256 * ofBytes bytes) / 256 = ofBytes bytes := by
      have := b.toNat_lt
      omega
    change Fits bytes.length ((b.toNat + 256 * ofBytes bytes) / 256)
    rw [hdiv]
    exact ih

/-- Fields of one length that read alike hold the same bytes. -/
theorem ofBytes_injective {a b : List UInt8} (hlength : a.length = b.length) (h : ofBytes a = ofBytes b) : a = b := by
  induction a generalizing b with
  | nil => exact (List.eq_nil_of_length_eq_zero hlength.symm).symm
  | cons x a ih =>
    cases b with
    | nil => cases hlength
    | cons y b =>
      rw [ofBytes, ofBytes] at h
      have hx := x.toNat_lt
      have hy := y.toNat_lt
      have hhead : x = y := UInt8.toNat_inj.mp (by omega)
      rw [hhead, ih (Nat.succ.inj hlength) (by omega)]

theorem toBytes_ofBytes (bytes : List UInt8) : toBytes bytes.length (ofBytes bytes) = bytes :=
  ofBytes_injective (toBytes_length _ _) (ofBytes_toBytes (fits_ofBytes bytes))

theorem lt_of_fits_word {v : Nat} (h : Fits 4 v) : v < 0x100000000 := by
  simp only [Fits] at h
  omega

end LittleEndian
