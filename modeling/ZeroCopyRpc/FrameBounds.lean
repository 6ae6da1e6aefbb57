import ZeroCopyRpc.Chunks
import ZeroCopyRpc.FrameContracts
import ZeroCopyRpc.LittleEndian

/-!
# Where a received datagram is written

The receive loop hands over the start of its buffer and the number of bytes that
came in. The header is read from the first 16 bytes, also when fewer came in, and
the length of the rest is an unsigned difference. A call copies at most once.
-/
namespace FrameBounds

open FrameOutcomes FrameContracts Reassembly Cells LittleEndian Words

/-- The header that lies at the start of the received bytes; its 16th byte is padding. -/
def headerAt (memory : Nat → UInt8) : UdpReplicationMessageHeader where
  created := ofBytes (slice memory 0 8)
  size := ofBytes (slice memory 8 4)
  sequence := ofBytes (slice memory 12 2)
  type := memory 14

/-- The span that a call copies into, and the place in it. -/
def copyOf (s : UdpFrameDefragmentator) (d : Datagram) : Option (Span × Nat) :=
  if d.header.size = d.data.length then
    match s.buffer.writeScope d.header.size d.header.type.toUInt64 with
    | .error _ => none
    | .ok (scope, _) => some (scope.span, 0)
  else match addressed s d.header.created with
    | some (_, f) =>
      if f.receivedChunks.getBit d.header.sequence = .ok false then
        some (f.scope.span, d.header.sequence * s.maxPayloadSize)
      else none
    | none =>
      if s.currentFrameCreated < d.header.created ∧ 0 < d.header.size then
        match s.buffer.writeScope d.header.size d.header.type.toUInt64 with
        | .error _ => none
        | .ok (scope, _) => some (scope.span, d.header.sequence * s.maxPayloadSize)
      else none

/-- The pool's bytes after such a copy. -/
def written (bytes : Nat → UInt8) (data : List UInt8) : Option (Span × Nat) → Nat → UInt8
  | none => bytes
  | some (span, offset) => store bytes (span.start + offset) data

/-- The chunks of the frame that the datagram is for, or would open. -/
def chunksFor (s : UdpFrameDefragmentator) (d : Datagram) : Nat :=
  match addressed s d.header.created with
  | some (_, f) => f.receivedChunks.numBits
  | none => chunkCount s d.header.size

/-- The length of the chunk with the datagram's number, in a message of its size. -/
def chunkLength (s : UdpFrameDefragmentator) (d : Datagram) : Nat :=
  min s.maxPayloadSize (d.header.size - d.header.sequence * s.maxPayloadSize)

/-- A datagram shorter than its header, or a fragment that has no chunk of its frame to be or is longer. -/
def Unfit (s : UdpFrameDefragmentator) (msgSize : Nat) (d : Datagram) : Prop :=
  msgSize < 16 ∨ (Fragment d ∧ (chunksFor s d ≤ d.header.sequence ∨ chunkLength s d < d.data.length))

/-- The pool's bytes, the frames and their stamps. -/
structure Untouched (s t : UdpFrameDefragmentator) : Prop where
  bytes : t.buffer.memory.buffer = s.buffer.memory.buffer
  current : t.currentFrame = s.currentFrame
  previous : t.previousFrame = s.previousFrame
  currentCreated : t.currentFrameCreated = s.currentFrameCreated
  previousCreated : t.previousFrameCreated = s.previousFrameCreated

/-- The copy of the call ends inside its span, and what does not fit leaves no trace. -/
def Contained (s : UdpFrameDefragmentator) (msgSize : Nat) (d : Datagram) : Prop :=
  (∀ span offset, copyOf s d = some (span, offset) → offset + d.data.length ≤ span.size) ∧
  (Unfit s msgSize d → Untouched s (s.processFragment d).2)

variable {s t : UdpFrameDefragmentator} {d : Datagram} {slot : Slot} {f : FrameState} {msgSize : Nat}

theorem size_lt (memory : Nat → UInt8) : (headerAt memory).size < 0x100000000 := by
  have hfits := fits_ofBytes (slice memory 8 4)
  rw [slice_length] at hfits
  exact lt_of_fits_word hfits

section Copies

theorem copyOf_whole {scope : WriterScope} {b : CyclicBuffer} (hd : ¬ Fragment d)
    (hscope : s.buffer.writeScope d.header.size d.header.type.toUInt64 = .ok (scope, b)) :
    copyOf s d = some (scope.span, 0) := by
  rw [copyOf, if_pos (not_not.mp hd), hscope]

theorem copyOf_wholeRefused {e : PoolError} (hd : ¬ Fragment d)
    (hscope : s.buffer.writeScope d.header.size d.header.type.toUInt64 = .error e) : copyOf s d = none := by
  rw [copyOf, if_pos (not_not.mp hd), hscope]

theorem copyOf_addressed (hd : Fragment d) (ha : addressed s d.header.created = some (slot, f)) : copyOf s d =
    if f.receivedChunks.getBit d.header.sequence = .ok false then
      some (f.scope.span, d.header.sequence * s.maxPayloadSize) else none := by
  rw [copyOf, if_neg hd, ha]

theorem copyOf_opening {scope : WriterScope} {b : CyclicBuffer} (hn : Newer s d) (hpos : 0 < d.header.size)
    (hscope : s.buffer.writeScope d.header.size d.header.type.toUInt64 = .ok (scope, b)) :
    copyOf s d = some (scope.span, d.header.sequence * s.maxPayloadSize) := by
  rw [copyOf, if_neg hn.fragment, hn.unaddressed]
  simp only
  rw [if_pos ⟨hn.newer, hpos⟩, hscope]

theorem copyOf_none (hd : Fragment d) (ha : addressed s d.header.created = none)
    (h : s.currentFrameCreated < d.header.created → 0 < d.header.size →
      ∃ e, s.buffer.writeScope d.header.size d.header.type.toUInt64 = .error e) : copyOf s d = none := by
  rw [copyOf, if_neg hd, ha]
  simp only
  by_cases hn : s.currentFrameCreated < d.header.created ∧ 0 < d.header.size
  · obtain ⟨e, he⟩ := h hn.1 hn.2
    rw [if_pos hn, he]
  · rw [if_neg hn]

end Copies

section Traces

variable {r : Except UdpError Bool}

theorem chunksFor_unaddressed (ha : addressed s d.header.created = none) :
    chunksFor s d = chunkCount s d.header.size := by
  rw [chunksFor, ha]

end Traces

end FrameBounds
