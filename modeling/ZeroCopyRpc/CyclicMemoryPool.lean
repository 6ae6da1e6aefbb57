import ZeroCopyRpc.Cells
import ZeroCopyRpc.Words

/-!
# The cyclic memory pool

Payload bytes live in one flat buffer. A writer takes the pool's lock with
`GetWriteSpan`, which reserves everything from the current offset on, or the
whole buffer from offset zero when the rest is too short. `Commit` moves the
offset forward and the span's destructor releases the lock. This file is the
pool as one thread at a time uses it.
-/
open Cells Words

inductive PoolError where
  | requestExceedsCapacity | alreadyInUse | commitExceedsSpan
  deriving DecidableEq, Repr

/-- The texts of the runtime errors. -/
def PoolError.what : PoolError → String
  | .requestExceedsCapacity => "Requested size exceeds buffer capacity."
  | .alreadyInUse => "Buffer is already in use."
  | .commitExceedsSpan => "Commit size exceeds reserved span."

/-- The pool's shared state and its payload bytes. -/
structure CyclicMemoryPool where
  offset : Nat
  size : Nat
  inUse : Bool
  buffer : Nat → UInt8

/-- A reserved run of bytes; `start` is the position of `Start` in the buffer. -/
structure Span where
  start : Nat
  size : Nat
  committed : Nat
  deriving DecidableEq, Repr

namespace CyclicMemoryPool

/-- A pool of the given size over bytes of arbitrary content. -/
def new (size : Nat) (buffer : Nat → UInt8) : CyclicMemoryPool := ⟨0, size, false, buffer⟩

def remaining (p : CyclicMemoryPool) : Nat := subWord p.size p.offset

def getWriteSpan (p : CyclicMemoryPool) (minSize : Nat) : Except PoolError (Span × CyclicMemoryPool) :=
  if p.size < minSize then .error .requestExceedsCapacity
  else
    let freeSpace := p.remaining
    if p.inUse then .error .alreadyInUse
    else
      let p := { p with inUse := true }
      if freeSpace < minSize then
        let p := { p with offset := 0 }
        .ok (⟨p.offset, p.size, 0⟩, p)
      else .ok (⟨p.offset, freeSpace, 0⟩, p)

/-- The source's compare-exchange is the weak one, which may also fail by itself on a
held lock; this is the call in which it does not. -/
def unlock (p : CyclicMemoryPool) : Bool × CyclicMemoryPool :=
  if p.inUse then (true, { p with inUse := false }) else (false, p)

/-- Copy bytes to a position of the buffer. -/
def copy (p : CyclicMemoryPool) (position : Nat) (data : List UInt8) : CyclicMemoryPool :=
  { p with buffer := store p.buffer position data }

/-- The span's destructor. -/
def release (p : CyclicMemoryPool) : CyclicMemoryPool := { p with inUse := false }

/-- The offset lies inside the buffer, whose size is a word. -/
structure Bounded (p : CyclicMemoryPool) : Prop where
  offset_le : p.offset ≤ p.size
  size_lt : p.size < 0x10000000000000000

@[simp] theorem copy_offset (p : CyclicMemoryPool) (position : Nat) (data : List UInt8) :
    (p.copy position data).offset = p.offset := rfl
@[simp] theorem copy_size (p : CyclicMemoryPool) (position : Nat) (data : List UInt8) :
    (p.copy position data).size = p.size := rfl
@[simp] theorem copy_inUse (p : CyclicMemoryPool) (position : Nat) (data : List UInt8) :
    (p.copy position data).inUse = p.inUse := rfl
@[simp] theorem copy_buffer (p : CyclicMemoryPool) (position : Nat) (data : List UInt8) :
    (p.copy position data).buffer = store p.buffer position data := rfl
@[simp] theorem release_offset (p : CyclicMemoryPool) : p.release.offset = p.offset := rfl
@[simp] theorem release_size (p : CyclicMemoryPool) : p.release.size = p.size := rfl
@[simp] theorem release_inUse (p : CyclicMemoryPool) : p.release.inUse = false := rfl
@[simp] theorem release_buffer (p : CyclicMemoryPool) : p.release.buffer = p.buffer := rfl

theorem remaining_eq {p : CyclicMemoryPool} (h : p.Bounded) : p.remaining = p.size - p.offset :=
  subWord_exact h.offset_le h.size_lt

theorem new_bounded {size : Nat} (h : size < 0x10000000000000000) (buffer : Nat → UInt8) :
    (new size buffer).Bounded := ⟨Nat.zero_le _, h⟩

/-- A request fails exactly when it is too large or the lock is held. -/
theorem getWriteSpan_error_iff (p : CyclicMemoryPool) (minSize : Nat) :
    (∃ e, p.getWriteSpan minSize = .error e) ↔ p.size < minSize ∨ p.inUse = true := by
  unfold getWriteSpan
  by_cases h₁ : p.size < minSize
  · simp [h₁]
  · by_cases h₂ : p.inUse = true
    · simp [h₁, h₂]
    · by_cases h₃ : p.remaining < minSize <;> simp [h₁, h₂, h₃]

/-- All a granted request does: it takes the free lock and either keeps the
offset, when the rest is long enough, or goes back to zero. -/
theorem getWriteSpan_ok {p p' : CyclicMemoryPool} {s : Span} {minSize : Nat}
    (h : p.getWriteSpan minSize = .ok (s, p')) :
    minSize ≤ p.size ∧ p.inUse = false ∧
    ((minSize ≤ p.remaining ∧ s = ⟨p.offset, p.remaining, 0⟩ ∧ p' = { p with inUse := true }) ∨
      (p.remaining < minSize ∧ s = ⟨0, p.size, 0⟩ ∧ p' = { p with inUse := true, offset := 0 })) := by
  unfold getWriteSpan at h
  by_cases h₁ : p.size < minSize
  · simp [h₁] at h
  · by_cases h₂ : p.inUse = true
    · simp [h₁, h₂] at h
    · by_cases h₃ : p.remaining < minSize
      · simp only [h₁, h₂, h₃, ↓reduceIte, Bool.false_eq_true, Except.ok.injEq, Prod.mk.injEq] at h
        refine ⟨by omega, by simpa using h₂, Or.inr ⟨h₃, h.1.symm, ?_⟩⟩
        rw [← h.2]
      · simp only [h₁, h₂, h₃, ↓reduceIte, Bool.false_eq_true, Except.ok.injEq, Prod.mk.injEq] at h
        refine ⟨by omega, by simpa using h₂, Or.inl ⟨by omega, h.1.symm, ?_⟩⟩
        rw [← h.2]

/-- A small enough request on a free pool is granted. -/
theorem getWriteSpan_granted {p : CyclicMemoryPool} {minSize : Nat} (h₁ : minSize ≤ p.size)
    (h₂ : p.inUse = false) : ∃ s p', p.getWriteSpan minSize = .ok (s, p') := by
  cases h : p.getWriteSpan minSize with
  | ok r => exact ⟨r.1, r.2, rfl⟩
  | error e =>
    rcases (getWriteSpan_error_iff p minSize).mp ⟨e, h⟩ with h' | h'
    · omega
    · simp [h₂] at h'

end CyclicMemoryPool

namespace Span

open CyclicMemoryPool

def commit (s : Span) (p : CyclicMemoryPool) (size : Nat) : Except PoolError (Span × CyclicMemoryPool) :=
  if subWord s.size s.committed < size then .error .commitExceedsSpan
  else .ok ({ s with committed := addWord s.committed size }, { p with offset := addWord p.offset size })

/-- A live span: the lock is held, the span lies in the buffer, is no shorter
than what was asked for, and its committed part ends at the pool's offset. -/
structure Live (s : Span) (p : CyclicMemoryPool) (minSize : Nat) : Prop where
  locked : p.inUse = true
  bound : s.start + s.size ≤ p.size
  long : minSize ≤ s.size
  committed_le : s.committed ≤ s.size
  offset_eq : p.offset = s.start + s.committed

theorem live_of_getWriteSpan {p p' : CyclicMemoryPool} {s : Span} {minSize : Nat} (hp : p.Bounded)
    (h : p.getWriteSpan minSize = .ok (s, p')) : p'.Bounded ∧ s.Live p' minSize := by
  obtain ⟨hm, _, ⟨hr, rfl, rfl⟩ | ⟨hr, rfl, rfl⟩⟩ := getWriteSpan_ok h
  · have hq := remaining_eq hp
    have := hp.offset_le
    exact ⟨⟨hp.offset_le, hp.size_lt⟩, ⟨rfl, by simp only; omega, hr, Nat.zero_le _, rfl⟩⟩
  · exact ⟨⟨Nat.zero_le _, hp.size_lt⟩, ⟨rfl, by simp, hm, Nat.zero_le _, rfl⟩⟩

/-- A commit is accepted exactly when it fits the rest of the span, and then
moves the span's committed part and the pool's offset by the same amount. -/
theorem commit_of_live {p : CyclicMemoryPool} {s : Span} {minSize size : Nat} (hp : p.Bounded)
    (hs : s.Live p minSize) :
    s.commit p size = if s.size < s.committed + size then .error .commitExceedsSpan
      else .ok ({ s with committed := s.committed + size }, { p with offset := p.offset + size }) := by
  have h₁ := hs.committed_le
  have h₂ := hs.bound
  have h₃ := hs.offset_eq
  have h₄ := hp.size_lt
  unfold commit
  rw [subWord_exact h₁ (by omega)]
  by_cases h : s.size < s.committed + size
  · rw [if_pos (by omega), if_pos h]
  · rw [if_neg (by omega), if_neg h, addWord_exact (by omega), addWord_exact (by omega)]

theorem commit_live {p p' : CyclicMemoryPool} {s s' : Span} {minSize size : Nat} (hp : p.Bounded)
    (hs : s.Live p minSize) (h : s.commit p size = .ok (s', p')) :
    p'.Bounded ∧ s'.Live p' minSize ∧ s' = { s with committed := s.committed + size } ∧
    p' = { p with offset := p.offset + size } := by
  rw [commit_of_live hp hs] at h
  have h₁ := hs.bound
  have h₂ := hs.offset_eq
  by_cases hf : s.size < s.committed + size
  · simp [hf] at h
  · simp only [hf, ↓reduceIte, Except.ok.injEq, Prod.mk.injEq] at h
    obtain ⟨rfl, rfl⟩ := h
    refine ⟨⟨?_, hp.size_lt⟩, ⟨hs.locked, hs.bound, hs.long, ?_, ?_⟩, rfl, rfl⟩ <;> simp only <;> omega

end Span
