import ZeroCopyRpc.SharedMemoryServer
import ZeroCopyRpc.TopicClearing

/-!
# What is left in the receive buffer

`DispatchMessages` receives every message into one buffer of 1024 bytes. A
message shorter than the buffer leaves the end of the earlier ones behind it, and
the switch reads the buffer as an envelope without looking at the size received.

`none` is an exception that leaves the dispatcher thread, or a blocking send into
a full queue.
-/
namespace ReceiveBuffer

open LittleEndian Transitions

/-- A message; the queue takes none that is longer. -/
structure Packet where
  bytes : List UInt8
  fits : bytes.length ≤ 1024

structure Buffer where
  bytes : List UInt8
  size : bytes.length = 1024

/-- The message is copied to the front. -/
def Buffer.receive (b : Buffer) (m : Packet) : Buffer where
  bytes := m.bytes ++ b.bytes.drop m.bytes.length
  size := by
    have := m.fits
    rw [List.length_append, List.length_drop, b.size]
    omega

/-- What the constructor of a service finds under its name: a segment, which is new
where its size is 0, or the one that a service removed earlier has left. -/
inductive Remains where
  | object (shm : SharedMemoryObject) (os : Semaphores SemaphoreName)
  | left (t : TopicService)

/-- The server with what lies outside of it: the queues of the clients, and what is left
under the names that have no topic. -/
structure Channel where
  server : SharedMemoryServer
  queues : ResponseQueues
  remains : TopicName → Remains

/-- What a promise is set to; a `TopicService*` is the key of its topic. -/
inductive Result where
  | topic (name : TopicName)
  | removed (found : Bool)
  deriving DecidableEq, Repr

/-- What one iteration leaves, with the pointer and the value of the promise it set. -/
structure Effect where
  channel : Channel
  promise : Option (Nat × Result)

/-- A packed number of `n` bytes. -/
def field (memory : List UInt8) (offset n : Nat) : Nat := ofBytes ((memory.drop offset).take n)

/-- A `const char*` into the buffer. -/
def text (memory : List UInt8) (offset : Nat) : TopicName := (memory.drop offset).takeWhile (· ≠ 0)

def messageType (memory : List UInt8) : Nat := field memory 0 8

def requestEnvelope (memory : List UInt8) (request : Command) : RequestEnvelope :=
  ⟨field memory 8 16, field memory 24 4, request⟩

/-- `TopicService::TopicService`. -/
def Remains.construct (r : Remains) (messageCount bufferSize : Nat) (running : Nat → Bool) :
    Except TopicError TopicService :=
  match r with
  | .object shm os => TopicClearing.construct shm messageCount bufferSize os 0 running
  | .left t => t.rebuild running

namespace Channel

def onCreateTopic (c : Channel) (topicName : TopicName) (messageCount bufferSize : Nat) (running : Nat → Bool) :
    Option (TopicName × Channel) :=
  match c.server.topics topicName with
  | some _ => some (topicName, c)
  | none =>
    -- the constructor divides by the count before it does anything else
    if messageCount = 0 then none
    else match (c.remains topicName).construct messageCount bufferSize running with
      | .error _ => none
      | .ok topic => some (topicName, { c with
          server := { c.server with topics := Function.update c.server.topics topicName (some topic) } })

/-- The destructor of the service removes the segment unless a subscription is left. -/
def removeSubscription (c : Channel) (topicName : TopicName) : Bool × Channel :=
  match c.server.topics topicName with
  | some topic =>
    (true, { c with
      server := { c.server with topics := Function.update c.server.topics topicName none }
      remains := Function.update c.remains topicName
        (if topic.subscriptions.empty then .object ⟨0, fun _ => 0⟩ topic.semaphores else .left topic) })
  | none => (false, c)

/-- The commands that are answered through the client's queue. -/
def answer (c : Channel) (env : RequestEnvelope) (chance : Chance) : Option Effect :=
  (c.server.dispatchMessage c.queues env chance).map fun d =>
    ⟨{ c with server := d.server, queues := d.queues }, none⟩

/-- The switch of `DispatchMessages`; `memory` is the buffer and what lies behind it. -/
def dispatch (c : Channel) (memory : List UInt8) (running : Nat → Bool) (chance : Chance) : Option Effect :=
  match messageType memory with
  | 1 => c.answer (requestEnvelope memory (.subscribe (text memory 28))) chance
  | 2 => (c.onCreateTopic (text memory 28) (field memory 284 4) (field memory 288 4) running).map fun r =>
      ⟨r.2, some (field memory 292 8, .topic r.1)⟩
  | 3 => c.answer (requestEnvelope memory (.hello (field memory 28 8))) chance
  | 6 => c.answer (requestEnvelope memory (.unsubscribe (text memory 29) (field memory 28 1))) chance
  | 8 =>
    let r := c.removeSubscription (text memory 28)
    some ⟨r.2, some (field memory 284 8, .removed r.1)⟩
  -- 0 ends the loop after this iteration
  | _ => some ⟨c, none⟩

/-- One iteration of `DispatchMessages` with a message. -/
def iteration (c : Channel) (buffer : Buffer) (m : Packet) (behind : List UInt8) (running : Nat → Bool)
    (chance : Chance) : Option Effect :=
  c.dispatch ((buffer.receive m).bytes ++ behind) running chance

end Channel

/-- What earlier messages may have left: the last of them did not end the loop. -/
def Held (b : Buffer) : Prop := ∃ (old : Buffer) (m : Packet), b = old.receive m ∧ messageType b.bytes ≠ 0

/-- In every state of the server, an iteration has one effect, whatever the buffer held. -/
def ActsOnMessage (m : Packet) : Prop :=
  ∀ (c : Channel) (behind : List UInt8) (running : Nat → Bool) (chance : Chance) (old old' : Buffer),
    Held old → Held old' →
      c.iteration old m behind running chance = c.iteration old' m behind running chance

/-- The bytes that the fields of an envelope take up to the last one that is read, and
where its name starts. -/
def layout : Nat → Option (Nat × Option Nat)
  | 1 => some (28, some 28)
  | 2 => some (300, some 28)
  | 3 => some (36, none)
  | 6 => some (29, some 29)
  | 8 => some (292, some 28)
  | _ => none

/-- A name starts no later than the fields end. -/
theorem layout_offset {type size offset : Nat} (h : layout type = some (size, some offset)) : offset ≤ size := by
  unfold layout at h
  split at h <;> cases h <;> omega

/-- The message has all that is read of it: it fills the buffer; or it cannot begin the
number of a handled type; or it has its type and the fields, and its name ends in it. -/
def Complete (m : Packet) : Prop :=
  m.bytes.length = 1024 ∨
  (m.bytes.length < 8 ∧ ∀ type, (layout type).isSome → ¬ m.bytes <+: toBytes 8 type) ∨
  (8 ≤ m.bytes.length ∧ ∀ size name, layout (messageType m.bytes) = some (size, name) →
    size ≤ m.bytes.length ∧ ∀ offset, name = some offset → 0 ∈ m.bytes.drop offset)

variable {m : Packet} {c : Channel} {running : Nat → Bool} {chance : Chance}

theorem field_append {front rest : List UInt8} {offset n : Nat} (h : offset + n ≤ front.length) :
    field (front ++ rest) offset n = field front offset n := by
  have hrest : n ≤ (front.drop offset).length := by
    rw [List.length_drop]
    omega
  rw [field, List.drop_append_of_le_length (by omega), List.take_append_of_le_length hrest, field]

theorem text_append {front rest : List UInt8} {offset : Nat} (h : 0 ∈ front.drop offset) :
    text (front ++ rest) offset = text front offset := by
  have hoffset : offset ≤ front.length := by
    by_contra hlt
    rw [List.drop_eq_nil_of_le (by omega)] at h
    cases h
  rw [text, List.drop_append_of_le_length hoffset, List.takeWhile_append, if_neg, text]
  intro hlength
  have hall := List.takeWhile_eq_self_iff.mp
    (List.IsPrefix.eq_of_length (List.takeWhile_prefix _) hlength) 0 h
  simp at hall

/-- The type of a message that has eight bytes is its own. -/
theorem messageType_append {front rest : List UInt8} (h : 8 ≤ front.length) :
    messageType (front ++ rest) = messageType front :=
  field_append h

theorem requestEnvelope_append {front rest : List UInt8} (h : 28 ≤ front.length) (request : Command) :
    requestEnvelope (front ++ rest) request = requestEnvelope front request := by
  rw [requestEnvelope, field_append (by omega), field_append (by omega), requestEnvelope]

section

variable {memory : List UInt8}

theorem dispatch_subscribe (h : messageType memory = 1) : c.dispatch memory running chance =
    c.answer (requestEnvelope memory (.subscribe (text memory 28))) chance := by
  simp only [Channel.dispatch, h]

theorem dispatch_create (h : messageType memory = 2) : c.dispatch memory running chance =
    (c.onCreateTopic (text memory 28) (field memory 284 4) (field memory 288 4) running).map fun r =>
      ⟨r.2, some (field memory 292 8, .topic r.1)⟩ := by
  simp only [Channel.dispatch, h]

theorem dispatch_hello (h : messageType memory = 3) : c.dispatch memory running chance =
    c.answer (requestEnvelope memory (.hello (field memory 28 8))) chance := by
  simp only [Channel.dispatch, h]

theorem dispatch_unsubscribe (h : messageType memory = 6) : c.dispatch memory running chance =
    c.answer (requestEnvelope memory (.unsubscribe (text memory 29) (field memory 28 1))) chance := by
  simp only [Channel.dispatch, h]

theorem dispatch_remove (h : messageType memory = 8) : c.dispatch memory running chance =
    some ⟨(c.removeSubscription (text memory 28)).2,
      some (field memory 284 8, .removed (c.removeSubscription (text memory 28)).1)⟩ := by
  simp only [Channel.dispatch, h]

end

/-- Types without an envelope do nothing. -/
theorem dispatch_other {memory : List UInt8} (h : layout (messageType memory) = none) :
    c.dispatch memory running chance = some ⟨c, none⟩ := by
  unfold Channel.dispatch
  split <;> rename_i htype
  all_goals first
    | rfl
    | rw [htype] at h
      cases h

/-- A message with all its fields is dispatched as if nothing lay behind it. -/
theorem dispatch_append {rest : List UInt8} (hlong : 8 ≤ m.bytes.length)
    (hall : ∀ size name, layout (messageType m.bytes) = some (size, name) →
      size ≤ m.bytes.length ∧ ∀ offset, name = some offset → 0 ∈ m.bytes.drop offset) :
    c.dispatch (m.bytes ++ rest) running chance = c.dispatch m.bytes running chance := by
  unfold Channel.dispatch
  rw [messageType_append hlong]
  split <;> rename_i htype
  · obtain ⟨hsize, hname⟩ := hall 28 (some 28) (by rw [htype]; rfl)
    rw [requestEnvelope_append hsize, text_append (hname 28 rfl)]
  · obtain ⟨hsize, hname⟩ := hall 300 (some 28) (by rw [htype]; rfl)
    rw [field_append (by omega), field_append (by omega), field_append (by omega), text_append (hname 28 rfl)]
  · obtain ⟨hsize, -⟩ := hall 36 none (by rw [htype]; rfl)
    rw [requestEnvelope_append (by omega), field_append hsize]
  · obtain ⟨hsize, hname⟩ := hall 29 (some 29) (by rw [htype]; rfl)
    rw [requestEnvelope_append (by omega), field_append hsize, text_append (hname 29 rfl)]
  · obtain ⟨hsize, hname⟩ := hall 292 (some 28) (by rw [htype]; rfl)
    rw [field_append hsize, text_append (hname 28 rfl)]
  · rfl

theorem toBytes_messageType {memory : List UInt8} (h : 8 ≤ memory.length) :
    toBytes 8 (messageType memory) = memory.take 8 := by
  have hlength : (memory.take 8).length = 8 := List.length_take_of_le h
  have hbytes := toBytes_ofBytes (memory.take 8)
  rw [hlength] at hbytes
  exact hbytes

/-- No leftover makes an envelope of bytes that begin no handled type. -/
theorem layout_short {rest : List UInt8} (hshort : m.bytes.length < 8)
    (hnone : ∀ type, (layout type).isSome → ¬ m.bytes <+: toBytes 8 type)
    (hlength : 8 ≤ (m.bytes ++ rest).length) : layout (messageType (m.bytes ++ rest)) = none := by
  rw [← Option.not_isSome_iff_eq_none]
  intro hsome
  apply hnone _ hsome
  rw [toBytes_messageType hlength, List.prefix_take_iff]
  exact ⟨List.prefix_append _ _, by omega⟩

/-- The switch sees the message, what is left of the buffer and what lies behind it. -/
theorem iteration_eq (c : Channel) (b : Buffer) (m : Packet) (behind : List UInt8) (running : Nat → Bool)
    (chance : Chance) : c.iteration b m behind running chance =
      c.dispatch (m.bytes ++ (b.bytes.drop m.bytes.length ++ behind)) running chance := by
  rw [Channel.iteration, ← List.append_assoc]
  rfl

theorem left_length (b : Buffer) (m : Packet) (behind : List UInt8) :
    1024 ≤ (m.bytes ++ (b.bytes.drop m.bytes.length ++ behind)).length := by
  have := m.fits
  rw [List.length_append, List.length_append, List.length_drop, b.size]
  omega

/-- A complete message acts alone, also over a buffer that nothing was received into yet. -/
theorem complete_iteration (h : Complete m) (behind : List UInt8) (old old' : Buffer) :
    c.iteration old m behind running chance = c.iteration old' m behind running chance := by
  rw [iteration_eq, iteration_eq]
  rcases h with hfull | ⟨hshort, hnone⟩ | ⟨hlong, hall⟩
  · have hnil : ∀ b : Buffer, b.bytes.drop m.bytes.length = [] := by
      intro b
      rw [List.drop_eq_nil_iff, b.size, hfull]
    rw [hnil, hnil]
  · have hother : ∀ b : Buffer, layout (messageType (m.bytes ++ (b.bytes.drop m.bytes.length ++ behind))) =
        none := by
      intro b
      have := left_length b m behind
      exact layout_short hshort hnone (by omega)
    rw [dispatch_other (hother old), dispatch_other (hother old')]
  · rw [dispatch_append hlong hall, dispatch_append hlong hall]

/-- A receipt: the message, and what else decides the iteration. -/
structure Receipt where
  packet : Packet
  behind : List UInt8
  running : Nat → Bool
  chance : Chance

/-- The dispatcher thread, with the promises it has set. -/
structure Dispatcher where
  channel : Channel
  buffer : Buffer
  canceled : Bool
  promises : List (Nat × Result)

/-- The loop of `DispatchMessages`; a timeout changes nothing. -/
def dispatchMessages : Machine Dispatcher Receipt
  | d, r =>
    if d.canceled then none
    else (d.channel.iteration d.buffer r.packet r.behind r.running r.chance).map fun e => {
      channel := e.channel
      buffer := d.buffer.receive r.packet
      canceled := messageType (d.buffer.receive r.packet).bytes == 0
      promises := d.promises ++ e.promise.toList }

/-- Everything of the dispatcher but its buffer. -/
def Dispatcher.seen (d : Dispatcher) : Channel × Bool × List (Nat × Result) := (d.channel, d.canceled, d.promises)

end ReceiveBuffer
