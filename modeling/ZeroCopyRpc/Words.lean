import Mathlib.Data.Nat.Basic

/-!
# Unsigned 64-bit words

`ulong` and `size_t` are 64 bits wide; a word is a natural number below 2^64
and the operations wrap. Each operation agrees with ordinary arithmetic as
long as the exact result fits.
-/
namespace Words

def addWord (a b : Nat) : Nat := (a + b) % 0x10000000000000000

def subWord (a b : Nat) : Nat := (a + (0x10000000000000000 - b % 0x10000000000000000)) % 0x10000000000000000

theorem addWord_exact {a b : Nat} (h : a + b < 0x10000000000000000) : addWord a b = a + b := Nat.mod_eq_of_lt h

theorem subWord_exact {a b : Nat} (h : b ≤ a) (ha : a < 0x10000000000000000) : subWord a b = a - b := by
  unfold subWord
  omega

end Words
