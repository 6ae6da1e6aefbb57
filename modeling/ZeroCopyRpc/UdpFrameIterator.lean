import ZeroCopyRpc.Chunks

/-!
# The sender's fragments

`UdpFrameIterator` cuts a message into datagrams of one header and a piece of
at most `UDP_MTU - 16` bytes. The header has the message's size in 32 bits and
numbers the pieces in 16 bits.
-/
open Chunks

/-- `Created` is only ever compared; size and sequence are kept within their widths. -/
structure UdpReplicationMessageHeader where
  created : Nat
  size : Nat
  sequence : Nat
  type : UInt8
  deriving DecidableEq, Repr

structure Datagram where
  header : UdpReplicationMessageHeader
  data : List UInt8
  deriving DecidableEq, Repr

structure UdpFrameIterator where
  header : UdpReplicationMessageHeader
  buffer : List UInt8
  offset : Nat

namespace UdpFrameIterator

def new (buffer : List UInt8) (type : UInt8) (created : Nat) : UdpFrameIterator :=
  ⟨⟨created, buffer.length % 0x100000000, 0, type⟩, buffer, 0⟩

def canRead (it : UdpFrameIterator) : Bool := it.offset < it.header.size

/-- The dereference operator; `none` is `std::out_of_range`. -/
def deref (payloadSize : Nat) (it : UdpFrameIterator) : Option Datagram :=
  if it.header.size ≤ it.offset then none
  else
    let chunkSize := min payloadSize (it.header.size - it.offset)
    some ⟨it.header, (it.buffer.drop it.offset).take chunkSize⟩

/-- The increment operator. -/
def next (payloadSize : Nat) (it : UdpFrameIterator) : Option UdpFrameIterator :=
  if it.header.size ≤ it.offset then none
  else
    let chunkSize := min payloadSize (it.header.size - it.offset)
    some { it with
      offset := it.offset + chunkSize
      header := { it.header with sequence := (it.header.sequence + 1) % 0x10000 } }

/-- The sender's loop while `CanRead` holds. -/
def emit (payloadSize : Nat) : Nat → UdpFrameIterator → List Datagram
  | 0, _ => []
  | fuel + 1, it =>
    if it.canRead then
      match it.deref payloadSize, it.next payloadSize with
      | some datagram, some it => datagram :: emit payloadSize fuel it
      | _, _ => []
    else []

end UdpFrameIterator

/-- A message as the sender reads it from its cursor, with the stamp it gives it. -/
structure UdpMessage where
  created : Nat
  type : UInt8
  bytes : List UInt8
  deriving DecidableEq, Repr

namespace UdpMessage

/-- Every turn of the loop takes at least one byte, so the size bounds the turns. -/
def datagrams (mtu : Nat) (m : UdpMessage) : List Datagram :=
  UdpFrameIterator.emit (mtu - 16) (m.bytes.length % 0x100000000) (.new m.bytes m.type m.created)

/-- The bytes that the header's size field leaves. -/
def sent (m : UdpMessage) : List UInt8 := m.bytes.take (m.bytes.length % 0x100000000)

def fragments (p : Nat) (m : UdpMessage) : Nat := count p m.sent.length

def fragment (p : Nat) (m : UdpMessage) (k : Nat) : Datagram :=
  ⟨⟨m.created, m.sent.length, k % 0x10000, m.type⟩, chunk p m.sent k⟩

theorem sent_length (m : UdpMessage) : m.sent.length = m.bytes.length % 0x100000000 := by
  rw [sent, List.length_take]
  exact Nat.min_eq_left (Nat.mod_le _ _)

theorem sent_eq {m : UdpMessage} (h : m.bytes.length < 0x100000000) : m.sent = m.bytes := by
  rw [sent, Nat.mod_eq_of_lt h, List.take_length]

/-- The iterator before its turn `k`. -/
def iterator (p : Nat) (m : UdpMessage) (k : Nat) : UdpFrameIterator :=
  ⟨⟨m.created, m.sent.length, k % 0x10000, m.type⟩, m.bytes, min (k * p) m.sent.length⟩

section Turn

variable {p : Nat} {m : UdpMessage} {k : Nat}

theorem iterator_offset (hk : k < m.fragments p) (hp : 0 < p) :
    k * p < m.sent.length ∧ (m.iterator p k).offset = k * p := by
  have hoffset : k * p < m.sent.length := (lt_count hp).mp hk
  exact ⟨hoffset, Nat.min_eq_left (Nat.le_of_lt hoffset)⟩

/-- The iterator can be read as long as fragments are left. -/
theorem iterator_canRead (hp : 0 < p) (m : UdpMessage) (k : Nat) :
    (m.iterator p k).canRead = decide (k < m.fragments p) := by
  apply decide_eq_decide.mpr
  rw [fragments, lt_count hp]
  change min (k * p) m.sent.length < m.sent.length ↔ _
  omega

theorem iterator_deref (hp : 0 < p) (hk : k < m.fragments p) : (m.iterator p k).deref p = some (m.fragment p k) := by
  obtain ⟨hlt, hoffset⟩ := iterator_offset hk hp
  have hinside : ¬ (m.iterator p k).header.size ≤ (m.iterator p k).offset := by
    rw [hoffset]
    exact Nat.not_le_of_lt hlt
  have hdata : (m.bytes.drop (k * p)).take (min p (m.sent.length - k * p)) = chunk p m.sent k := by
    rw [chunk, sent_length, sent, List.drop_take, List.take_take]
  rw [UdpFrameIterator.deref, if_neg hinside, hoffset]
  exact congrArg (fun data => some (Datagram.mk _ data)) hdata

theorem iterator_next (hp : 0 < p) (hk : k < m.fragments p) :
    (m.iterator p k).next p = some (m.iterator p (k + 1)) := by
  obtain ⟨hlt, hoffset⟩ := iterator_offset hk hp
  have hinside : ¬ (m.iterator p k).header.size ≤ (m.iterator p k).offset := by
    rw [hoffset]
    exact Nat.not_le_of_lt hlt
  have hmove : k * p + min p (m.sent.length - k * p) = min ((k + 1) * p) m.sent.length := by
    rw [Nat.succ_mul]
    omega
  have hsequence : (k % 0x10000 + 1) % 0x10000 = (k + 1) % 0x10000 := by omega
  rw [UdpFrameIterator.next, if_neg hinside, hoffset]
  simp only [iterator, hmove, hsequence]

end Turn

theorem emit_eq {p : Nat} (hp : 0 < p) (m : UdpMessage) (fuel k : Nat) (hfuel : m.fragments p ≤ k + fuel) :
    UdpFrameIterator.emit p fuel (m.iterator p k) =
      (List.range' k (m.fragments p - k)).map (m.fragment p) := by
  induction fuel generalizing k with
  | zero => rw [show m.fragments p - k = 0 by omega]; rfl
  | succ fuel ih =>
    rw [UdpFrameIterator.emit, iterator_canRead hp]
    by_cases hk : k < m.fragments p
    · rw [if_pos (decide_eq_true hk), iterator_deref hp hk, iterator_next hp hk]
      simp only
      rw [ih (k + 1) (by omega), show m.fragments p - k = (m.fragments p - (k + 1)) + 1 by omega, List.range'_succ]
      rfl
    · rw [decide_eq_false hk, show m.fragments p - k = 0 by omega]
      rfl

theorem iterator_start (m : UdpMessage) (p : Nat) :
    UdpFrameIterator.new m.bytes m.type m.created = m.iterator p 0 := by
  simp [UdpFrameIterator.new, iterator, sent_length]

/-- The loop emits the chunks of what is sent, in order. -/
theorem datagrams_eq {mtu : Nat} (hmtu : 16 < mtu) (m : UdpMessage) :
    m.datagrams mtu = (List.range (m.fragments (mtu - 16))).map (m.fragment (mtu - 16)) := by
  have hp : 0 < mtu - 16 := by omega
  have hfuel : m.fragments (mtu - 16) ≤ 0 + m.bytes.length % 0x100000000 := by
    rw [fragments, sent_length, Nat.zero_add]
    exact count_le hp _
  rw [datagrams, iterator_start m (mtu - 16), emit_eq hp m _ 0 hfuel, Nat.sub_zero, List.range_eq_range']

end UdpMessage
