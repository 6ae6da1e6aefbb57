import ZeroCopyRpc.CyclicBuffer
import ZeroCopyRpc.FastBitSet
import ZeroCopyRpc.UdpFrameIterator

/-!
# The receiver's side of a fragmented message

An incomplete message is a frame: an open write scope and the set of the
sequence numbers received. There may be a current and a previous frame. A
message of one datagram is written at once. A call that throws leaves the
state that its second component says.
-/

inductive UdpError where
  | pool (e : PoolError)
  | bitSet (e : BitSetError)
  deriving DecidableEq, Repr

def UdpError.what : UdpError → String
  | .pool e => e.what
  | .bitSet e => e.what

structure FrameState where
  scope : WriterScope
  receivedChunks : FastBitSet
  lastActivity : Nat
  receivedCount : Nat
  expectedChunks : Nat

structure UdpFrameDefragmentator where
  buffer : CyclicBuffer
  currentFrame : Option FrameState
  previousFrame : Option FrameState
  currentFrameCreated : Nat
  previousFrameCreated : Nat
  nextFrameMessages : Nat
  mtu : Nat
  maxPayloadSize : Nat

namespace FrameState

def isComplete (f : FrameState) : Bool := f.receivedChunks.isComplete

end FrameState

namespace UdpFrameDefragmentator

def maxNextFrameMessages : Nat := 16

def new (buffer : CyclicBuffer) (mtu : Nat) : UdpFrameDefragmentator :=
  ⟨buffer, none, none, 0, 0, 0, mtu, mtu - 16⟩

/-- `currentFrame_.reset()`: the scope's destructor runs. -/
def resetCurrent (s : UdpFrameDefragmentator) : UdpFrameDefragmentator :=
  match s.currentFrame with
  | none => s
  | some frame => { s with buffer := frame.scope.destroy s.buffer, currentFrame := none }

def resetPrevious (s : UdpFrameDefragmentator) : UdpFrameDefragmentator :=
  match s.previousFrame with
  | none => s
  | some frame => { s with buffer := frame.scope.destroy s.buffer, previousFrame := none }

/-- The bytes are copied before the sequence number is checked. -/
def writeChunk (maxPayloadSize : Nat) (frame : FrameState) (buffer : CyclicBuffer)
    (header : UdpReplicationMessageHeader) (data : List UInt8) :
    Except UdpError Unit × FrameState × CyclicBuffer :=
  let offset := header.sequence * maxPayloadSize
  let buffer := buffer.copy (frame.scope.span.start + offset) data
  match frame.receivedChunks.setBit header.sequence with
  | .error e => (.error (.bitSet e), frame, buffer)
  | .ok receivedChunks => (.ok (), { frame with
      receivedChunks := receivedChunks
      receivedCount := (frame.receivedCount + 1) % 0x10000
      lastActivity := header.created }, buffer)

/-- `put` stores the frame back where the reference points. -/
def processFrameFragment (put : FrameState → UdpFrameDefragmentator → UdpFrameDefragmentator)
    (s : UdpFrameDefragmentator) (frame : FrameState) (header : UdpReplicationMessageHeader) (data : List UInt8) :
    Except UdpError Bool × UdpFrameDefragmentator :=
  match frame.receivedChunks.getBit header.sequence with
  | .error e => (.error (.bitSet e), s)
  | .ok true => (.ok false, s)
  | .ok false =>
    match writeChunk s.maxPayloadSize frame s.buffer header data with
    | (.error e, frame, buffer) => (.error e, put frame { s with buffer := buffer })
    | (.ok _, frame, buffer) =>
      if frame.isComplete then
        match frame.scope.commit buffer header.size with
        | .error e => (.error (.pool e), put frame { s with buffer := buffer })
        | .ok (scope, buffer) =>
          -- the current frame goes, also when the complete one is the previous
          (.ok true, (put { frame with scope := scope } { s with buffer := buffer }).resetCurrent)
      else (.ok false, put frame { s with buffer := buffer })

def initializeNewFrame (s : UdpFrameDefragmentator) (header : UdpReplicationMessageHeader) (data : List UInt8) :
    Except UdpError Unit × UdpFrameDefragmentator :=
  match s.buffer.writeScope header.size header.type.toUInt64 with
  | .error e => (.error (.pool e), s)
  | .ok (scope, buffer) =>
    let numChunks := (header.size + s.maxPayloadSize - 1) / s.maxPayloadSize
    match FastBitSet.new numChunks with
    | .error e => (.error (.bitSet e), { s with buffer := scope.destroy buffer })
    | .ok receivedChunks =>
      let s := { s with buffer := buffer }.resetCurrent
      let (result, frame, buffer) := writeChunk s.maxPayloadSize
        ⟨scope, receivedChunks, 0, 0, numChunks % 0x10000⟩ s.buffer header data
      (result, { s with buffer := buffer, currentFrame := some frame, currentFrameCreated := header.created })

/-- A new frame pushes the current one to the previous place, whose frame goes. -/
def newFrame (s : UdpFrameDefragmentator) (header : UdpReplicationMessageHeader) (data : List UInt8) :
    Except UdpError Bool × UdpFrameDefragmentator :=
  let s := match s.currentFrame with
    | some frame => { s.resetPrevious with
        previousFrame := some frame
        currentFrame := none
        previousFrameCreated := s.currentFrameCreated
        nextFrameMessages := 1 }
    | none => s
  match s.initializeNewFrame header data with
  | (.error e, s) => (.error e, s)
  | (.ok _, s) => (.ok false, s)

/-- A fragment that belongs to no frame and is not newer than the current one. -/
def countStale (s : UdpFrameDefragmentator) (header : UdpReplicationMessageHeader) : UdpFrameDefragmentator :=
  if s.currentFrame.isSome ∧ s.previousFrameCreated < header.created then
    let s := { s with nextFrameMessages := (s.nextFrameMessages + 1) % 0x10000 }
    if maxNextFrameMessages < s.nextFrameMessages ∧ s.previousFrame.isSome then s.resetPrevious else s
  else s

/-- A message that came in one datagram. -/
def wholeMessage (s : UdpFrameDefragmentator) (header : UdpReplicationMessageHeader) (data : List UInt8) :
    Except UdpError Bool × UdpFrameDefragmentator :=
  match s.buffer.writeScope header.size header.type.toUInt64 with
  | .error e => (.error (.pool e), s)
  | .ok (scope, buffer) =>
    let buffer := buffer.copy scope.span.start data
    match scope.commit buffer header.size with
    | .error e => (.error (.pool e), { s with buffer := scope.destroy buffer })
    | .ok (scope, buffer) => (.ok true, { s with buffer := scope.destroy buffer })

def currentFragment (s : UdpFrameDefragmentator) (header : UdpReplicationMessageHeader) (data : List UInt8) :
    Except UdpError Bool × UdpFrameDefragmentator :=
  match s.currentFrame with
  | some frame =>
    if header.created = s.currentFrameCreated then
      processFrameFragment (fun frame s => { s with currentFrame := some frame }) s frame header data
    else if s.currentFrameCreated < header.created then s.newFrame header data
    else (.ok false, s.countStale header)
  | none =>
    if s.currentFrameCreated < header.created then s.newFrame header data else (.ok false, s.countStale header)

def processFragment (s : UdpFrameDefragmentator) (d : Datagram) : Except UdpError Bool × UdpFrameDefragmentator :=
  if d.header.size = d.data.length then s.wholeMessage d.header d.data
  else
    match s.previousFrame with
    | some frame =>
      if d.header.created = s.previousFrameCreated then
        match processFrameFragment (fun frame s => { s with previousFrame := some frame }) s frame d.header d.data with
        | (.ok true, s) => (.ok true, s.resetPrevious)
        | (result, s) => (result, s)
      else s.currentFragment d.header d.data
    | none => s.currentFragment d.header d.data

end UdpFrameDefragmentator
