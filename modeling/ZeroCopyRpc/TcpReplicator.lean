import ZeroCopyRpc.LittleEndian
import ZeroCopyRpc.SharedMemoryServer
import ZeroCopyRpc.Transitions

/-!
# Topic replication over TCP

The target asks for a topic with a handshake on its one socket and starts a
thread for it that reads messages from that socket: a header, a write scope of
the announced size, the body, a commit. The source reads one handshake per
accepted connection, subscribes, and writes every entry the subscription
yields as a header and a body.

A connection hands over a prefix of the bytes written to it and can be cut
anywhere; a read returns all it was asked for or throws. A source subscription
yields, in order and without gaps, the entries whose notification pass starts
after it was made. `none` is an exception that leaves a thread.
-/
namespace TcpReplicator

open Transitions

/-- A name that the control messages carry unchanged: one a topic can have. -/
abbrev Topic := { name : TopicName // setTopicName name = name }

structure TcpReplicationMessage where
  size : UInt32
  type : UInt64
  deriving DecidableEq, Repr

namespace TcpReplicationMessage

/-- The object representation; the four bytes between the fields are never set. -/
def toBytes (header : TcpReplicationMessage) (padding : UInt32) : List UInt8 :=
  LittleEndian.toBytes 4 header.size.toNat ++
    (LittleEndian.toBytes 4 padding.toNat ++ LittleEndian.toBytes 8 header.type.toNat)

def ofBytes (bytes : List UInt8) : TcpReplicationMessage :=
  ⟨UInt32.ofNat (LittleEndian.ofBytes (bytes.take 4)), UInt64.ofNat (LittleEndian.ofBytes (bytes.drop 8))⟩

theorem toBytes_length (header : TcpReplicationMessage) (padding : UInt32) : (header.toBytes padding).length = 16 := by
  simp [toBytes]

theorem ofBytes_toBytes (header : TcpReplicationMessage) (padding : UInt32) :
    ofBytes (header.toBytes padding) = header := by
  have hsize := LittleEndian.ofBytes_toBytes (LittleEndian.fits_word header.size.toNat_lt)
  have htype := LittleEndian.ofBytes_toBytes (LittleEndian.fits_long header.type.toNat_lt)
  have htake : (header.toBytes padding).take 4 = LittleEndian.toBytes 4 header.size.toNat :=
    List.take_left' (LittleEndian.toBytes_length 4 _)
  have hdrop : (header.toBytes padding).drop 8 = LittleEndian.toBytes 8 header.type.toNat := by
    rw [toBytes, ← List.append_assoc]
    exact List.drop_left' (by simp)
  rw [ofBytes, htake, hdrop, hsize, htype, UInt32.ofNat_toNat, UInt64.ofNat_toNat]

end TcpReplicationMessage

/-- `Accessor::Size` narrows the entry's size to 32 bits. -/
def messageHeader (message : Message) : TcpReplicationMessage :=
  ⟨UInt32.ofNat message.bytes.length, message.type⟩

/-- The header of an entry announces its length, if it fits. -/
theorem header_size {m : Message} (h : m.bytes.length < 0x100000000) :
    (messageHeader m).size.toNat = m.bytes.length := by
  rw [messageHeader]
  exact UInt32.toNat_ofNat_of_lt' h

/-- `StartReplication`: the name's length in four bytes, then the name. -/
def handshake (name : TopicName) : List UInt8 := LittleEndian.toBytes 4 name.length ++ name

/-- The name a handshake holds and how many bytes it takes, once they are all there. -/
def readHandshake (bytes : List UInt8) : Option (TopicName × Nat) :=
  if bytes.length < 4 then none
  else
    let topicNameLength := LittleEndian.ofBytes (bytes.take 4)
    if bytes.length < 4 + topicNameLength then none
    else some ((bytes.drop 4).take topicNameLength, 4 + topicNameLength)

theorem topic_length (topic : Topic) : topic.1.length ≤ 254 := by
  rw [← topic.2]
  exact List.length_take_le 254 _

theorem handshake_length (name : TopicName) : (handshake name).length = 4 + name.length := by
  rw [handshake, List.length_append, LittleEndian.toBytes_length]

theorem handshake_number (topic : Topic) : LittleEndian.ofBytes ((handshake topic.1).take 4) = topic.1.length := by
  have htake : (handshake topic.1).take 4 = LittleEndian.toBytes 4 topic.1.length :=
    List.take_left' (LittleEndian.toBytes_length 4 _)
  have hlong := topic_length topic
  rw [htake, LittleEndian.ofBytes_toBytes (LittleEndian.fits_word (by omega))]

theorem readHandshake_handshake (topic : Topic) :
    readHandshake (handshake topic.1) = some (topic.1, (handshake topic.1).length) := by
  have hdrop : (handshake topic.1).drop 4 = topic.1 := List.drop_left' (LittleEndian.toBytes_length 4 _)
  have hlength := handshake_length topic.1
  unfold readHandshake
  rw [if_neg (by omega)]
  simp only [handshake_number, hdrop, List.take_length]
  rw [if_neg (by omega), hlength]

/-- The handshake for a topic, as far as it has arrived, names that topic or is not complete. -/
theorem readHandshake_take {topic : Topic} {n count : Nat} {name : TopicName}
    (h : readHandshake ((handshake topic.1).take n) = some (name, count)) : name = topic.1 := by
  have hlength := handshake_length topic.1
  by_cases hn : (handshake topic.1).length ≤ n
  · rw [List.take_of_length_le hn, readHandshake_handshake, Option.some.injEq, Prod.mk.injEq] at h
    exact h.1.symm
  · unfold readHandshake at h
    rw [List.length_take] at h
    split at h
    · cases h
    · simp only [List.take_take, Nat.min_eq_left (show 4 ≤ n by omega), handshake_number] at h
      rw [if_pos (by omega)] at h
      cases h

/-- An entry is no longer than the source's buffer, whose size is an `unsigned int`. -/
structure SourceTopic where
  bufferSize : UInt32
  published : List Message
  passes : Nat

/-- Where the source's thread for a connection stands; `next` is the entry it is at. -/
inductive SourcePhase where
  | accepting
  | waiting (topic : Topic) (next : Nat)
  | holding (topic : Topic) (next : Nat)
  | writing (topic : Topic) (next : Nat)
  | ended

/-- `up` and `down` are the bytes written and not yet read, of which some have arrived. -/
structure Connection where
  up : List UInt8
  upArrived : Nat
  down : List UInt8
  arrived : Nat
  cut : Bool
  replicator : SourcePhase

def Connection.new (up : List UInt8) : Connection := ⟨up, 0, [], 0, false, .accepting⟩

/-- What has arrived at the target and was not read yet. -/
def Connection.readable (c : Connection) : List UInt8 := c.down.take c.arrived

/-- Where a thread of the target stands. -/
inductive TargetPhase where
  | header
  | body (size : Nat) (scope : WriterScope)
  | ended

structure TopicReplicator where
  topic : Topic
  phase : TargetPhase

/-- An entry published on the target, and the connection whose bytes it was made of. -/
structure Receipt where
  connection : Nat
  topic : Topic
  message : Message

structure State where
  source : Topic → Option SourceTopic
  connections : Nat → Connection
  socket : Nat
  requested : List Topic
  replicators : List TopicReplicator
  target : Topic → TopicService
  received : List Receipt

/-- What happens to one connection: bytes arrive, it is cut, its source thread goes on or ends. -/
inductive ConnectionEvent where
  | deliverUp (count : Nat)
  | deliver (count : Nat)
  | cut
  | accept
  | take
  | writeHeader (padding : UInt32)
  | writeBody
  | stop

inductive ThreadEvent where
  | readHeader
  | readBody
  -- a read that throws after some bytes, and the reconnection that follows
  | reconnect (count : Nat)
  | stop

inductive Event where
  | create (topic : Topic) (bufferSize : UInt32)
  | publish (topic : Topic) (message : Message)
  | notify (topic : Topic)
  | replicateTopic
  | connection (c : Nat) (e : ConnectionEvent)
  | thread (t : Nat) (e : ThreadEvent)
  -- readers subscribe to the target topic and leave it
  | attend (topic : Topic) (service : TopicService)

namespace State

def published (s : State) (topic : Topic) : List Message := ((s.source topic).map SourceTopic.published).getD []

def passes (s : State) (topic : Topic) : Nat := ((s.source topic).map SourceTopic.passes).getD 0

def setConnection (s : State) (c : Nat) (connection : Connection) : State :=
  { s with connections := Function.update s.connections c connection }

def setPhase (s : State) (t : Nat) (r : TopicReplicator) (phase : TargetPhase) : State :=
  { s with replicators := s.replicators.set t { r with phase := phase } }

def setTarget (s : State) (topic : Topic) (service : TopicService) : State :=
  { s with target := Function.update s.target topic service }

@[simp] theorem setConnection_same (s : State) (c : Nat) (connection : Connection) :
    (s.setConnection c connection).connections c = connection := by
  simp [setConnection]

theorem setConnection_other (s : State) {c d : Nat} (connection : Connection) (h : d ≠ c) :
    (s.setConnection c connection).connections d = s.connections d := by
  simp [setConnection, h]

/-- A new connection on the socket, on which the topic is asked for again. -/
def connectAgain (s : State) (topic : Topic) : State :=
  { s with
    socket := s.socket + 1
    connections := Function.update s.connections (s.socket + 1) (.new (handshake topic.1)) }

end State

/-- The subscription opens the topic's segment under the name that was read. -/
def subscribe (source : Topic → Option SourceTopic) (name : TopicName) : Option (Topic × SourceTopic) :=
  if h : setTopicName name = name then (source ⟨name, h⟩).map (fun t => (⟨name, h⟩, t)) else none

theorem subscribe_some {source : Topic → Option SourceTopic} {topic t : Topic} {st : SourceTopic}
    (h : subscribe source topic.1 = some (t, st)) : t = topic ∧ source topic = some st := by
  rw [subscribe, dif_pos topic.2, Option.map_eq_some_iff] at h
  obtain ⟨st', hst, he⟩ := h
  cases he
  exact ⟨rfl, hst⟩

def stepConnection (s : State) (connection : Connection) : ConnectionEvent → Option Connection
  | .deliverUp count =>
    if connection.upArrived + count ≤ connection.up.length then
      some { connection with upArrived := connection.upArrived + count }
    else none
  | .deliver count =>
    if connection.arrived + count ≤ connection.down.length then
      some { connection with arrived := connection.arrived + count }
    else none
  | .cut => some { connection with cut := true }
  | .accept =>
    match connection.replicator with
    | .accepting =>
      match readHandshake (connection.up.take connection.upArrived) with
      | none => none
      | some (name, count) =>
        match subscribe s.source name with
        | none => some { connection with replicator := .ended, cut := true }
        | some (topic, t) => some { connection with
            up := connection.up.drop count
            upArrived := connection.upArrived - count
            replicator := .waiting topic t.passes }
    | _ => none
  | .take =>
    match connection.replicator with
    | .waiting topic next =>
      if next < s.passes topic then some { connection with replicator := .holding topic next } else none
    | _ => none
  | .writeHeader padding =>
    match connection.replicator with
    | .holding topic next =>
      match (s.published topic)[next]? with
      | none => none
      | some message => some { connection with
          down := connection.down ++ (messageHeader message).toBytes padding
          replicator := .writing topic next }
    | _ => none
  | .writeBody =>
    match connection.replicator with
    | .writing topic next =>
      match (s.published topic)[next]? with
      | none => none
      | some message => some { connection with
          down := connection.down ++ message.bytes.take (messageHeader message).size.toNat
          replicator := .waiting topic (next + 1) }
    | _ => none
  | .stop => some { connection with replicator := .ended, cut := true }

/-- The target's thread for a topic. -/
def stepThread (s : State) (t : Nat) (r : TopicReplicator) : ThreadEvent → Option State
  | .readHeader =>
    let connection := s.connections s.socket
    match r.phase with
    | .header =>
      if 16 ≤ connection.readable.length then
        let header := TcpReplicationMessage.ofBytes (connection.down.take 16)
        match (s.target r.topic).prepare header.size.toNat header.type with
        | .error _ => none
        | .ok (scope, service) =>
          some (((s.setConnection s.socket { connection with
            down := connection.down.drop 16
            arrived := connection.arrived - 16 }).setTarget r.topic service).setPhase t r
              (.body header.size.toNat scope))
      else none
    | _ => none
  | .readBody =>
    let connection := s.connections s.socket
    match r.phase with
    | .body size scope =>
      if size ≤ connection.readable.length then
        let buffer := (s.target r.topic).buffer.copy scope.span.start (connection.down.take size)
        match scope.commit buffer size with
        | .error _ => none
        | .ok (scope, buffer) =>
          match ({ s.target r.topic with buffer := buffer } : TopicService).publish scope with
          | .error _ => none
          | .ok service =>
            let read := ((s.setConnection s.socket { connection with
              down := connection.down.drop size
              arrived := connection.arrived - size }).setTarget r.topic service).setPhase t r .header
            some { read with
              received := if 0 < scope.span.committed then
                  s.received ++ [⟨s.socket, r.topic, scope.content buffer⟩]
                else s.received }
      else none
    | _ => none
  | .reconnect count =>
    let connection := s.connections s.socket
    if connection.cut = true ∧ count ≤ connection.readable.length then
      match r.phase with
      | .header => some (s.connectAgain r.topic)
      | .body size scope =>
        -- the bytes read before the throw are in the span; the scope ends uncommitted
        let buffer := (s.target r.topic).buffer.copy scope.span.start ((connection.down.take count).take size)
        match ({ s.target r.topic with buffer := buffer } : TopicService).publish scope with
        | .error _ => none
        | .ok service => some (((s.connectAgain r.topic).setTarget r.topic service).setPhase t r .header)
      | .ended => none
    else none
  | .stop =>
    match r.phase with
    | .body _ scope =>
      match (s.target r.topic).publish scope with
      | .error _ => none
      | .ok service => some ((s.setTarget r.topic service).setPhase t r .ended)
    | _ => some (s.setPhase t r .ended)

def step : Machine State Event
  | s, .create topic bufferSize =>
    match s.source topic with
    | some _ => some s
    | none => some { s with source := Function.update s.source topic (some ⟨bufferSize, [], 0⟩) }
  | s, .publish topic message =>
    match s.source topic with
    | none => none
    | some t =>
      if 0 < message.bytes.length ∧ message.bytes.length ≤ t.bufferSize.toNat then
        some { s with
          source := Function.update s.source topic (some { t with published := t.published ++ [message] }) }
      else none
  | s, .notify topic =>
    match s.source topic with
    | none => none
    | some t =>
      if t.passes < t.published.length then
        some { s with source := Function.update s.source topic (some { t with passes := t.passes + 1 }) }
      else none
  | s, .replicateTopic =>
    match s.requested with
    | [] => none
    | topic :: rest =>
      let connection := s.connections s.socket
      some { s.setConnection s.socket { connection with up := connection.up ++ handshake topic.1 } with
        requested := rest
        replicators := s.replicators ++ [⟨topic, .header⟩] }
  | s, .connection c e =>
    if c ≤ s.socket then (stepConnection s (s.connections c) e).map (s.setConnection c) else none
  | s, .thread t e => (s.replicators[t]?).bind (fun r => stepThread s t r e)
  | s, .attend topic service => some (s.setTarget topic { service with buffer := (s.target topic).buffer })

/-- The target is connected and asks for the given topics in turn; nothing has been published yet. -/
def start (topics : List Topic) (target : Topic → TopicService) : State :=
  ⟨fun _ => none, fun _ => .new [], 0, topics, [], target, []⟩

/-- What one turn of the source's loop writes. -/
def written (padding : UInt32) (message : Message) : List UInt8 :=
  (messageHeader message).toBytes padding ++ message.bytes.take (messageHeader message).size.toNat

/-- One turn of the target's loop when all the bytes have arrived; `none` is an
exception that leaves the thread, or a read that waits for more. -/
def readMessage (topic : TopicService) (bytes : List UInt8) : Option (TopicService × List UInt8) :=
  let header := TcpReplicationMessage.ofBytes (bytes.take 16)
  match topic.prepare header.size.toNat header.type with
  | .error _ => none
  | .ok (scope, topic) =>
    let rest := bytes.drop 16
    if rest.length < header.size.toNat then none
    else
      let buffer := topic.buffer.copy scope.span.start (rest.take header.size.toNat)
      match scope.commit buffer header.size.toNat with
      | .error _ => none
      | .ok (scope, buffer) =>
        match ({ topic with buffer := buffer } : TopicService).publish scope with
        | .error _ => none
        | .ok topic => some (topic, rest.drop header.size.toNat)

def readMessages : Nat → TopicService → List UInt8 → Option TopicService
  | 0, topic, _ => some topic
  | count + 1, topic, bytes =>
    match readMessage topic bytes with
    | none => none
    | some (topic, rest) => readMessages count topic rest

end TcpReplicator
