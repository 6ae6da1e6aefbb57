import Mathlib.Data.List.GetD
import ZeroCopyRpc.CyclicMemoryPool

/-!
# The cyclic buffer of entries

A ring of `capacity` entry slots over a cyclic memory pool. A write scope
reserves pool bytes; its destructor fills the slot of the next index, when
something was committed, and raises the index. Cursors chase the index and
compare by unsigned subtraction, so a cursor opened at zero starts at 2^64 - 1.

`log` is a history variable: the entries in the order they were published,
each with the bytes its region held then. No operation reads it.
-/
open Cells Words

/-- A published entry as a reader should see it. -/
structure Message where
  type : UInt64
  bytes : List UInt8
  deriving DecidableEq, Repr

/-- A slot of the entry ring. -/
structure Entry where
  size : Nat
  type : UInt64
  offset : Nat
  deriving DecidableEq, Repr

structure CyclicBuffer where
  nextIndex : Nat
  currentSize : Nat
  capacity : Nat
  items : Nat → Entry
  memory : CyclicMemoryPool
  log : List Message

structure WriterScope where
  span : Span
  type : UInt64
  deriving DecidableEq, Repr

structure Cursor where
  index : Nat
  deriving DecidableEq, Repr

/-- What `Cursor::Data` hands out: the slot and the payload buffer. -/
structure Accessor where
  item : Entry
  buffer : Nat → UInt8

namespace Accessor

/-- `Accessor::Size` narrows the slot's size to 32 bits. -/
def size (a : Accessor) : UInt32 := UInt32.ofNat a.item.size

def type (a : Accessor) : UInt64 := a.item.type

/-- The byte at distance `i` from the pointer `Get` returns. -/
def get (a : Accessor) (i : Nat) : UInt8 := a.buffer (a.item.offset + i)

end Accessor

namespace CyclicBuffer

/-- A new buffer; slots and payload bytes have arbitrary content. -/
def new (capacity size : Nat) (items : Nat → Entry) (bytes : Nat → UInt8) : CyclicBuffer :=
  ⟨0, 0, capacity, items, .new size bytes, []⟩

def writeScope (b : CyclicBuffer) (minSize : Nat) (type : UInt64) :
    Except PoolError (WriterScope × CyclicBuffer) :=
  match b.memory.getWriteSpan minSize with
  | .error e => .error e
  | .ok (span, memory) => .ok (⟨span, type⟩, { b with memory := memory })

def openCursorAt (index : Nat) : Cursor := ⟨subWord index 1⟩

def openCursor (b : CyclicBuffer) : Cursor := openCursorAt b.nextIndex

/-- Copy bytes into the payload buffer. -/
def copy (b : CyclicBuffer) (position : Nat) (data : List UInt8) : CyclicBuffer :=
  { b with memory := b.memory.copy position data }

def bufferItemsSize (b : CyclicBuffer) : Nat := b.currentSize

end CyclicBuffer

namespace WriterScope

/-- `scope.Span.Commit(size)`. -/
def commit (w : WriterScope) (b : CyclicBuffer) (size : Nat) : Except PoolError (WriterScope × CyclicBuffer) :=
  match w.span.commit b.memory size with
  | .error e => .error e
  | .ok (span, memory) => .ok ({ w with span := span }, { b with memory := memory })

/-- What the scope's committed region holds. -/
def content (w : WriterScope) (b : CyclicBuffer) : Message :=
  ⟨w.type, slice b.memory.buffer w.span.start w.span.committed⟩

/-- The body of the scope's destructor: fill the slot, then raise the index. -/
def publish (w : WriterScope) (b : CyclicBuffer) : CyclicBuffer :=
  let written := w.span.committed
  if 0 < written then
    let nx := b.nextIndex
    let prvSize := if b.capacity ≤ nx then (b.items (subWord nx b.capacity % b.capacity)).size else 0
    { b with
      currentSize := subWord (addWord b.currentSize written) prvSize
      items := Function.update b.items (nx % b.capacity) ⟨written, w.type, w.span.start⟩
      nextIndex := addWord nx 1
      log := b.log ++ [w.content b] }
  else b

/-- The destructor: its body, then the span's destructor. -/
def destroy (w : WriterScope) (b : CyclicBuffer) : CyclicBuffer :=
  { w.publish b with memory := (w.publish b).memory.release }

end WriterScope

namespace Cursor

def remaining (c : Cursor) (b : CyclicBuffer) : Nat := subWord (subWord b.nextIndex c.index) 1

def tryRead (c : Cursor) (b : CyclicBuffer) : Bool × Cursor :=
  let diff := subWord b.nextIndex c.index
  if 1 < diff then (true, ⟨addWord c.index 1⟩) else (false, c)

def data (c : Cursor) (b : CyclicBuffer) : Accessor := ⟨b.items (c.index % b.capacity), b.memory.buffer⟩

end Cursor

namespace WriterScope

@[simp] theorem publish_memory (w : WriterScope) (b : CyclicBuffer) : (w.publish b).memory = b.memory := by
  by_cases h : 0 < w.span.committed <;> simp [publish, h]

@[simp] theorem publish_capacity (w : WriterScope) (b : CyclicBuffer) : (w.publish b).capacity = b.capacity := by
  by_cases h : 0 < w.span.committed <;> simp [publish, h]

@[simp] theorem destroy_memory (w : WriterScope) (b : CyclicBuffer) :
    (w.destroy b).memory = b.memory.release := by simp [destroy]

@[simp] theorem destroy_capacity (w : WriterScope) (b : CyclicBuffer) :
    (w.destroy b).capacity = b.capacity := by simp [destroy]

/-- A scope that committed nothing only releases the lock. -/
theorem destroy_uncommitted (w : WriterScope) (b : CyclicBuffer) (h : w.span.committed = 0) :
    w.destroy b = { b with memory := b.memory.release } := by
  simp [destroy, publish, h]

/-- A scope that committed something publishes its region. -/
theorem destroy_log (w : WriterScope) (b : CyclicBuffer) :
    (w.destroy b).log = if 0 < w.span.committed then b.log ++ [w.content b] else b.log := by
  by_cases h : 0 < w.span.committed <;> simp [destroy, publish, h]

theorem destroy_nextIndex (w : WriterScope) (b : CyclicBuffer) :
    (w.destroy b).nextIndex = if 0 < w.span.committed then addWord b.nextIndex 1 else b.nextIndex := by
  by_cases h : 0 < w.span.committed <;> simp [destroy, publish, h]

theorem destroy_items (w : WriterScope) (b : CyclicBuffer) (h : 0 < w.span.committed) :
    (w.destroy b).items =
      Function.update b.items (b.nextIndex % b.capacity) ⟨w.span.committed, w.type, w.span.start⟩ := by
  simp [destroy, publish, h]

end WriterScope

namespace Cursor

/-- A cursor that has read up to index `i` (the next one it wants), seen from a
buffer with `n` entries: the unread count, and when the next read succeeds. -/
theorem remaining_eq {b : CyclicBuffer} {i : Nat} (hn : b.nextIndex < 0x10000000000000000) (hi : i ≤ b.nextIndex) :
    (⟨subWord i 1⟩ : Cursor).remaining b = b.nextIndex - i := by
  simp only [remaining, subWord]
  omega

theorem tryRead_eq {b : CyclicBuffer} {i : Nat} (hn : b.nextIndex < 0x10000000000000000) (hi : i ≤ b.nextIndex) :
    (⟨subWord i 1⟩ : Cursor).tryRead b =
      if i < b.nextIndex ∧ b.nextIndex - i ≠ 0xffffffffffffffff then (true, ⟨i⟩)
        else (false, ⟨subWord i 1⟩) := by
  have hd : 1 < subWord b.nextIndex (subWord i 1) ↔ i < b.nextIndex ∧ b.nextIndex - i ≠ 0xffffffffffffffff := by
    simp only [subWord]
    omega
  have ha : i < b.nextIndex → addWord (subWord i 1) 1 = i := by
    intro h
    simp only [subWord, addWord]
    omega
  simp only [tryRead, hd]
  split
  · rename_i h
    rw [ha h.1]
  · rfl

end Cursor
