import ZeroCopyRpc.MappedBuffer

/-!
# The segment of a topic

The constructor of the service lays out a segment that it finds empty and reuses
one that has a size: it takes the metadata that lie there and attaches to the
buffer. `ClearIfExists` prepares an existing segment for other arguments: it sets
as many bytes to zero as the segment had before, and writes the metadata.
-/
open Words WordMemory

/-- A shared memory object: its size, and its bytes up to there. -/
structure SharedMemoryObject where
  size : Nat
  bytes : Bytes

namespace SharedMemoryObject

/-- What an object gains in size is zero. -/
def truncate (s : SharedMemoryObject) (length : Nat) : SharedMemoryObject :=
  ⟨length, fun a => if a < s.size then s.bytes a else 0⟩

end SharedMemoryObject

def memset (bytes : Bytes) (value : UInt8) (num : Nat) : Bytes := fun a => if a < num then value else bytes a

def topicMetadata (messageCount bufferSize : Nat) : TopicMetadata where
  totalBufferSize := MappedBuffer.sizeOf messageCount bufferSize
  subscribesTableSize := sizeOfSubscriptionSharedData * 256
  bufferItemCapacity := messageCount
  bufferSize := bufferSize

theorem topicMetadata_totalSize (messageCount bufferSize : Nat) :
    (topicMetadata messageCount bufferSize).totalSize = 6272 + messageCount * 24 + bufferSize := by
  simp only [TopicMetadata.totalSize, topicMetadata, MappedBuffer.sizeOf, MappedPool.sizeOf, sizeOfTopicMetadata,
    sizeOfSubscriptionSharedData, sizeOfState, sizeOfEntry, sizeOfPoolState, sizeOfPool]
  omega

/-- What the constructor has made of a segment. -/
structure TopicSegment where
  shm : SharedMemoryObject
  subscribers : Nat
  buffer : MappedBuffer

namespace TopicSegment

/-- `TopicService::TopicService`, up to the table of the subscriptions. -/
def new (shm : SharedMemoryObject) (messageCount bufferSize : Nat) : TopicSegment :=
  let m := topicMetadata messageCount bufferSize
  if shm.size = 0 then
    let shm := shm.truncate m.totalSize
    let bytes := m.write (memset shm.bytes 0 m.totalSize) 0
    let buffer := MappedBuffer.create bytes (m.bufferAddress 0) messageCount bufferSize
    ⟨{ shm with bytes := buffer.2 }, m.subscribersTableAddress 0, buffer.1⟩
  else
    let m := TopicMetadata.read shm.bytes 0
    let buffer := MappedBuffer.attach shm.bytes (m.bufferAddress 0)
    ⟨{ shm with bytes := (buffer.memory.unlock shm.bytes).2 }, m.subscribersTableAddress 0, buffer⟩

/-- Metadata, subscriptions, state of the ring, entries, state of the pool, and bytes. -/
def regions (t : TopicSegment) (messageCount bufferSize : Nat) : List Region :=
  [⟨0, sizeOfTopicMetadata⟩, ⟨t.subscribers, 256 * sizeOfSubscriptionSharedData⟩,
    ⟨t.buffer.state, sizeOfState⟩, ⟨t.buffer.items, messageCount * sizeOfEntry⟩,
    ⟨t.buffer.memory.state, sizeOfPoolState⟩, ⟨t.buffer.memory.buffer, bufferSize⟩]

end TopicSegment

/-- What `ClearIfExists` does: its result, the segment afterwards, and the runs of
bytes that it wrote through the mapping. -/
structure Cleared where
  result : Bool
  shm : Option SharedMemoryObject
  writes : List Region

/-- `none` is a segment that does not exist, so that opening it throws. -/
def clearIfExists (shm : Option SharedMemoryObject) (messageCount bufferSize : Nat) : Cleared :=
  match shm with
  | none => ⟨false, none, []⟩
  | some shm =>
    let m := topicMetadata messageCount bufferSize
    if 0 < shm.size then
      let region := if shm.size ≠ m.totalSize then shm.truncate m.totalSize else shm
      let bytes := m.write (memset region.bytes 0 shm.size) 0
      ⟨true, some { region with bytes := bytes }, [⟨0, shm.size⟩, ⟨0, sizeOfTopicMetadata⟩]⟩
    else ⟨false, some shm, []⟩
