import ZeroCopyRpc.CyclicBuffer
import ZeroCopyRpc.WordMemory

/-!
# The buffer in a topic segment

The server lays a segment out from its arguments; everyone else has the base
address alone and finds the parts by the numbers that lie in the segment. The
objects below hold addresses only, and their operations read and write the
segment's bytes. Addresses count from the start of the segment. The sizes are
those of the structures on a 64-bit target, where no sum below wraps for 32-bit
arguments.
-/
open Words WordMemory

/-- The bytes of a segment. -/
abbrev Bytes := Nat → UInt8

def sizeOfTopicMetadata : Nat := 32
def sizeOfSubscriptionSharedData : Nat := 24
def sizeOfState : Nat := 24
def sizeOfEntry : Nat := 24
/-- The pool object itself, which `SizeOf` counts although it does not lie in the segment. -/
def sizeOfPool : Nat := 48
def sizeOfPoolState : Nat := 24

structure TopicMetadata where
  totalBufferSize : Nat
  subscribesTableSize : Nat
  bufferItemCapacity : Nat
  bufferSize : Nat
  deriving DecidableEq, Repr

namespace TopicMetadata

def totalSize (m : TopicMetadata) : Nat := sizeOfTopicMetadata + m.totalBufferSize + m.subscribesTableSize

def subscribersTableAddress (_ : TopicMetadata) (base : Nat) : Nat := base + sizeOfTopicMetadata

def bufferAddress (m : TopicMetadata) (base : Nat) : Nat := base + sizeOfTopicMetadata + m.subscribesTableSize

/-- `*(TopicMetadata*)base = m`. -/
def write (m : TopicMetadata) (bytes : Bytes) (base : Nat) : Bytes :=
  put (put (put (put bytes base m.totalBufferSize) (base + 8) m.subscribesTableSize) (base + 16) m.bufferItemCapacity)
    (base + 24) m.bufferSize

def read (bytes : Bytes) (base : Nat) : TopicMetadata :=
  ⟨load bytes base, load bytes (base + 8), load bytes (base + 16), load bytes (base + 24)⟩

end TopicMetadata

/-- The pool object: where its state (offset, size, lock) and its bytes begin. -/
structure MappedPool where
  state : Nat
  buffer : Nat
  deriving DecidableEq, Repr

/-- `start` is an address; `startOffset` is its distance from the pool's first byte. -/
structure MappedSpan where
  start : Nat
  size : Nat
  committed : Nat
  parent : MappedPool
  deriving DecidableEq, Repr

/-- The buffer object: where its state (next index, current size, capacity) and its entries begin. -/
structure MappedBuffer where
  state : Nat
  items : Nat
  memory : MappedPool
  deriving DecidableEq, Repr

structure MappedScope where
  span : MappedSpan
  type : UInt64
  parent : MappedBuffer
  deriving DecidableEq, Repr

structure MappedCursor where
  index : Nat
  parent : MappedBuffer
  deriving DecidableEq, Repr

namespace MappedPool

def sizeOf (size : Nat) : Nat := sizeOfPool + sizeOfPoolState + size

/-- Over a state that is there. -/
def attach (buffer : Nat) : MappedPool := ⟨buffer, buffer + sizeOfPoolState⟩

/-- Over a new state. -/
def create (m : Bytes) (externalBuffer size : Nat) : MappedPool × Bytes :=
  (⟨externalBuffer, externalBuffer + sizeOfPoolState⟩,
    putFlag (put (put m externalBuffer 0) (externalBuffer + 8) size) (externalBuffer + 16) false)

def offset (p : MappedPool) (m : Bytes) : Nat := load m p.state

def size (p : MappedPool) (m : Bytes) : Nat := load m (p.state + 8)

def inUse (p : MappedPool) (m : Bytes) : Bool := flag m (p.state + 16)

def remaining (p : MappedPool) (m : Bytes) : Nat := subWord (p.size m) (p.offset m)

def getWriteSpan (p : MappedPool) (m : Bytes) (minSize : Nat) : Except PoolError (MappedSpan × Bytes) :=
  if p.size m < minSize then .error .requestExceedsCapacity
  else
    let freeSpace := p.remaining m
    if p.inUse m then .error .alreadyInUse
    else
      let m := putFlag m (p.state + 16) true
      if freeSpace < minSize then
        let m := put m p.state 0
        .ok (⟨p.buffer + p.offset m, p.size m, 0, p⟩, m)
      else .ok (⟨p.buffer + p.offset m, freeSpace, 0, p⟩, m)

/-- The source's compare-exchange is the weak one, which may also fail by itself on a
held lock; this is the call in which it does not. -/
def unlock (p : MappedPool) (m : Bytes) : Bool × Bytes :=
  if p.inUse m then (true, putFlag m (p.state + 16) false) else (false, m)

end MappedPool

namespace MappedSpan

def startOffset (s : MappedSpan) : Nat := s.start - s.parent.buffer

def commit (s : MappedSpan) (m : Bytes) (size : Nat) : Except PoolError (MappedSpan × Bytes) :=
  if subWord s.size s.committed < size then .error .commitExceedsSpan
  else .ok ({ s with committed := addWord s.committed size }, put m s.parent.state (addWord (s.parent.offset m) size))

/-- The span's destructor. -/
def release (s : MappedSpan) (m : Bytes) : Bytes := putFlag m (s.parent.state + 16) false

end MappedSpan

namespace MappedBuffer

def itemsOffset : Nat := sizeOfState

def memoryPoolOffset (capacity : Nat) : Nat := itemsOffset + capacity * sizeOfEntry

def sizeOf (capacity size : Nat) : Nat := sizeOfState + capacity * sizeOfEntry + MappedPool.sizeOf size

/-- `CyclicBuffer(byte*)`: the pool is found by the capacity that lies in the segment. -/
def attach (m : Bytes) (externalBuffer : Nat) : MappedBuffer where
  state := externalBuffer
  items := externalBuffer + itemsOffset
  memory := .attach (externalBuffer + memoryPoolOffset (load m (externalBuffer + 16)))

/-- `CyclicBuffer(byte*, capacity, size)`: the state is made new, and the pool is found by the argument. -/
def create (m : Bytes) (externalBuffer capacity size : Nat) : MappedBuffer × Bytes :=
  let m := put (put (put m externalBuffer 0) (externalBuffer + 8) 0) (externalBuffer + 16) capacity
  let memory := MappedPool.create m (externalBuffer + memoryPoolOffset capacity) size
  (⟨externalBuffer, externalBuffer + itemsOffset, memory.1⟩, put memory.2 externalBuffer 0)

def nextIndex (b : MappedBuffer) (m : Bytes) : Nat := load m b.state

def bufferItemsSize (b : MappedBuffer) (m : Bytes) : Nat := load m (b.state + 8)

def capacity (b : MappedBuffer) (m : Bytes) : Nat := load m (b.state + 16)

def item (b : MappedBuffer) (m : Bytes) (i : Nat) : Entry where
  size := load m (b.items + i * sizeOfEntry)
  type := UInt64.ofNat (load m (b.items + i * sizeOfEntry + 8))
  offset := load m (b.items + i * sizeOfEntry + 16)

def putItem (b : MappedBuffer) (m : Bytes) (i : Nat) (e : Entry) : Bytes :=
  put (put (put m (b.items + i * sizeOfEntry) e.size) (b.items + i * sizeOfEntry + 8) e.type.toNat)
    (b.items + i * sizeOfEntry + 16) e.offset

def writeScope (b : MappedBuffer) (m : Bytes) (minSize : Nat) (type : UInt64) :
    Except PoolError (MappedScope × Bytes) :=
  match b.memory.getWriteSpan m minSize with
  | .error e => .error e
  | .ok (span, m) => .ok (⟨span, type, b⟩, m)

def openCursorAt (b : MappedBuffer) (index : Nat) : MappedCursor := ⟨subWord index 1, b⟩

def openCursor (b : MappedBuffer) (m : Bytes) : MappedCursor := b.openCursorAt (b.nextIndex m)

end MappedBuffer

namespace MappedScope

/-- `scope.Span.Commit(size)`. -/
def commit (w : MappedScope) (m : Bytes) (size : Nat) : Except PoolError (MappedScope × Bytes) :=
  match w.span.commit m size with
  | .error e => .error e
  | .ok (span, m) => .ok ({ w with span := span }, m)

/-- The body of the scope's destructor. -/
def publish (w : MappedScope) (m : Bytes) : Bytes :=
  let written := w.span.committed
  if 0 < written then
    let nx := w.parent.nextIndex m
    let capacity := w.parent.capacity m
    let prvSize := if capacity ≤ nx then (w.parent.item m (subWord nx capacity % capacity)).size else 0
    let m := put m (w.parent.state + 8) (subWord (addWord (w.parent.bufferItemsSize m) written) prvSize)
    let m := w.parent.putItem m (nx % capacity) ⟨written, w.type, w.span.startOffset⟩
    put m w.parent.state (addWord nx 1)
  else m

def destroy (w : MappedScope) (m : Bytes) : Bytes := w.span.release (w.publish m)

end MappedScope

namespace MappedCursor

def remaining (c : MappedCursor) (m : Bytes) : Nat := subWord (subWord (c.parent.nextIndex m) c.index) 1

def tryRead (c : MappedCursor) (m : Bytes) : Bool × MappedCursor :=
  let diff := subWord (c.parent.nextIndex m) c.index
  if 1 < diff then (true, { c with index := addWord c.index 1 }) else (false, c)

/-- `Cursor::Data`: the entry and the address that `Get` returns. -/
def data (c : MappedCursor) (m : Bytes) : Entry × Nat :=
  let item := c.parent.item m (c.index % c.parent.capacity m)
  (item, c.parent.memory.buffer + item.offset)

end MappedCursor
