import ZeroCopyRpc.SharedMemoryServer
import ZeroCopyRpc.UdpFrameDefragmentator

/-!
# Topic replication over UDP

The source's thread sends every entry of its cursor as the datagrams of a frame
iterator, with a stamp of the steady clock. The target's thread creates the
topic with the default sizes, receives into a buffer of the topic's
`MaxMessageSize`, and notifies the subscribers when a message is complete.
-/
namespace UdpReplicator

def mtu : Nat := 1500

/-- The entry's type becomes the `uint8_t` of the frame iterator. -/
def send (created : Nat) (message : Message) : List Datagram :=
  UdpMessage.datagrams mtu ⟨created, message.type.toUInt8, message.bytes⟩

/-- The part of a datagram that a receive buffer takes; a header has 16 bytes. -/
def received (size : Nat) (datagram : Datagram) : Datagram :=
  { datagram with data := datagram.data.take (size - 16) }

/-- The target's thread. The defragmentator's buffer is the topic's. -/
structure Target where
  service : TopicService
  defragmentator : UdpFrameDefragmentator

namespace Target

def new (topic : TopicService) : Target := ⟨topic, .new topic.buffer mtu⟩

/-- One turn of the loop; `none` is an exception that leaves the thread. -/
def receive (t : Target) (datagram : Datagram) : Option Target :=
  match t.defragmentator.processFragment (received defaultMaxMessageSize datagram) with
  | (.error _, _) => none
  | (.ok ret, defragmentator) =>
    let service := { t.service with buffer := defragmentator.buffer }
    if ret then
      match service.notifyAll with
      | .error _ => none
      | .ok service => some ⟨service, defragmentator⟩
    else some ⟨service, defragmentator⟩

def receiveAll : Target → List Datagram → Option Target
  | t, [] => some t
  | t, datagram :: rest =>
    match t.receive datagram with
    | none => none
    | some t => receiveAll t rest

theorem receiveAll_append (t : Target) (ds es : List Datagram) :
    t.receiveAll (ds ++ es) = (t.receiveAll ds).bind (fun t => t.receiveAll es) := by
  induction ds generalizing t with
  | nil => rfl
  | cons d ds ih =>
    rw [List.cons_append, receiveAll, receiveAll]
    cases t.receive d with
    | none => rfl
    | some t => exact ih t

/-- A call that returns leaves what the defragmentator leaves. -/
theorem receive_ok {t : Target} {datagram : Datagram} {ret : Bool} {defragmentator : UdpFrameDefragmentator}
    (h : t.defragmentator.processFragment (received defaultMaxMessageSize datagram) = (.ok ret, defragmentator)) :
    ∃ service, t.receive datagram = some ⟨service, defragmentator⟩ := by
  rw [receive, h]
  cases ret with
  | false => exact ⟨_, rfl⟩
  | true =>
    obtain ⟨service, hservice, -⟩ :=
      ({ t.service with buffer := defragmentator.buffer } : TopicService).notifyAll_buffer
    simp only [hservice]
    exact ⟨service, rfl⟩

end Target

/-- Fragments of 1500 bytes fit into the receive buffer. -/
theorem received_eq {created : Nat} {message : Message} {d : Datagram} (hd : d ∈ send created message) :
    received defaultMaxMessageSize d = d := by
  rw [send, UdpMessage.datagrams_eq (by decide)] at hd
  obtain ⟨k, -, rfl⟩ := List.mem_map.mp hd
  have hlength :
      (Chunks.chunk (mtu - 16) (UdpMessage.sent ⟨created, message.type.toUInt8, message.bytes⟩) k).length ≤
      defaultMaxMessageSize - 16 := by
    rw [Chunks.chunk_length]
    exact Nat.le_trans (Nat.min_le_left _ _) (by decide)
  exact congrArg (fun data => Datagram.mk _ data) (List.take_of_length_le hlength)

end UdpReplicator
