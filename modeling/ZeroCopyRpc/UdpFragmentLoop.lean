import ZeroCopyRpc.UdpFrameIterator

/-!
# The two loops over a message

A user of the iterator goes on while it can be read, or until it equals the end
iterator. Both loops cut the message into the same fragments. A payload is the
piece of the message at the iterator's offset, so a fragment stands here with
the place where its payload starts.
-/
open Chunks

namespace UdpFrameIterator

/-- `End`: the offset is the size the caller gave, not the one in the header. -/
def endIterator (buffer : List UInt8) (type : UInt8) (created : Nat) : UdpFrameIterator :=
  { new buffer type created with offset := buffer.length }

/-- Iterators are compared by buffer and offset; the header plays no part. -/
def equal (it other : UdpFrameIterator) : Bool := it.buffer == other.buffer && it.offset == other.offset

/-- Reads the fragment and increments while `more` holds. None is a loop that
throws, or one that goes on after `fuel` increments. -/
def loop (more : UdpFrameIterator → Bool) (payloadSize : Nat) :
    Nat → UdpFrameIterator → Option (List (Nat × Datagram) × UdpFrameIterator)
  | 0, it => if more it then none else some ([], it)
  | fuel + 1, it =>
    if more it then
      (it.deref payloadSize).bind fun datagram => (it.next payloadSize).bind fun following =>
        (loop more payloadSize fuel following).map fun rest => ((it.offset, datagram) :: rest.1, rest.2)
    else some ([], it)

end UdpFrameIterator

namespace UdpMessage

open UdpFrameIterator

variable {p : Nat} {m : UdpMessage}

/-- The fragments with the places of their payloads. -/
def cut (p : Nat) (m : UdpMessage) (k n : Nat) : List (Nat × Datagram) :=
  (List.range' k n).map (fun k => (k * p, m.fragment p k))

/-- A loop whose condition holds exactly while fragments are left. -/
theorem loop_eq (hp : 0 < p) {more : UdpFrameIterator → Bool}
    (hmore : ∀ k ≤ m.fragments p, more (m.iterator p k) = decide (k < m.fragments p)) (fuel k : Nat)
    (hk : k ≤ m.fragments p) (hfuel : m.fragments p ≤ k + fuel) :
    loop more p fuel (m.iterator p k) = some (m.cut p k (m.fragments p - k), m.iterator p (m.fragments p)) := by
  induction fuel generalizing k with
  | zero =>
    have hend : k = m.fragments p := Nat.le_antisymm hk hfuel
    rw [loop, hmore k hk, if_neg (by simp [hend]), hend, Nat.sub_self]
    rfl
  | succ fuel ih =>
    rw [loop, hmore k hk]
    by_cases hlt : k < m.fragments p
    · rw [if_pos (decide_eq_true hlt), iterator_deref hp hlt, iterator_next hp hlt]
      rw [Option.bind_some, Option.bind_some, ih (k + 1) hlt (by omega), (iterator_offset hlt hp).2]
      rw [show m.fragments p - k = (m.fragments p - (k + 1)) + 1 by omega, cut, cut, List.range'_succ]
      rfl
    · have hend : k = m.fragments p := Nat.le_antisymm hk (Nat.le_of_not_lt hlt)
      rw [if_neg (by simp [hend]), hend, Nat.sub_self]
      rfl

/-- Below the width of the size field, the iterator meets the end iterator just
when nothing is left to read. -/
theorem iterator_notEqual (hp : 0 < p) (hsize : m.bytes.length < 0x100000000) (k : Nat) :
    (!(m.iterator p k).equal (endIterator m.bytes m.type m.created)) = decide (k < m.fragments p) := by
  rw [← iterator_canRead hp]
  simp only [equal, iterator, endIterator, canRead, new, sent_eq hsize, beq_self_eq_true, Bool.true_and]
  rw [Bool.eq_iff_iff, Bool.not_eq_true', beq_eq_false_iff_ne, decide_eq_true_iff]
  omega

theorem cut_length (p : Nat) (m : UdpMessage) (k n : Nat) : (m.cut p k n).length = n := by
  rw [cut, List.length_map, List.length_range']

theorem cut_data (hp : 0 < p) (m : UdpMessage) :
    (m.cut p 0 (m.fragments p)).flatMap (fun f => f.2.data) = m.sent := by
  have hall := flatten_chunks hp m.sent (show 0 + m.fragments p = count p m.sent.length from Nat.zero_add _)
  rw [Nat.zero_mul, List.drop_zero] at hall
  rw [List.flatMap_def, cut, List.map_map]
  exact hall

/-- All payloads but the last are full, and none is empty. -/
theorem chunk_sizes {l : List UInt8} {k : Nat} (hp : 0 < p) (hk : k < count p l.length) :
    chunk p l k ≠ [] ∧ (chunk p l k).length ≤ p ∧ (k + 1 < count p l.length → (chunk p l k).length = p) := by
  have hlength := chunk_length p l k
  have hstart := (lt_count hp).mp hk
  refine ⟨fun hempty => ?_, by omega, fun hnext => ?_⟩
  · rw [hempty, List.length_nil] at hlength
    omega
  · have hfull := (lt_count hp).mp hnext
    rw [Nat.succ_mul] at hfull
    omega

/-- Sixteen bits number the payloads' places as long as they do not wrap. -/
theorem sequence_places {n : Nat} (hp : 0 < p) : (∀ k < n, k % 0x10000 * p = k * p) ↔ n ≤ 0x10000 := by
  constructor
  · intro h
    by_contra hlarge
    have hwrap := h 0x10000 (by omega)
    omega
  · intro h k hk
    rw [Nat.mod_eq_of_lt (by omega)]

/-- Reading while `CanRead` and reading up to `End` give the same fragments, one
for each increment: the message in full payloads and a rest. The receiver's
place for a payload is right for all of them if their numbers do not wrap. -/
theorem iterator_cuts {mtu : Nat} (hmtu : 16 < mtu) (m : UdpMessage) (hsize : m.bytes.length < 0x100000000) :
    ∃ fragments : List (Nat × Datagram), ∃ last : UdpFrameIterator,
      fragments.length = (m.bytes.length + (mtu - 16) - 1) / (mtu - 16) ∧
      (∀ fuel, fragments.length ≤ fuel →
        loop canRead (mtu - 16) fuel (new m.bytes m.type m.created) = some (fragments, last) ∧
        loop (fun it => !it.equal (endIterator m.bytes m.type m.created)) (mtu - 16) fuel
          (new m.bytes m.type m.created) = some (fragments, last)) ∧
      fragments.flatMap (fun f => f.2.data) = m.bytes ∧
      (∀ k, (hk : k < fragments.length) →
        fragments[k].2.header = ⟨m.created, m.bytes.length, k % 0x10000, m.type⟩ ∧
        fragments[k].1 = k * (mtu - 16) ∧
        fragments[k].2.data = (m.bytes.drop fragments[k].1).take (mtu - 16) ∧
        fragments[k].2.data ≠ [] ∧ fragments[k].2.data.length ≤ mtu - 16 ∧
        (k + 1 < fragments.length → fragments[k].2.data.length = mtu - 16)) ∧
      ((∀ f ∈ fragments, f.2.header.sequence * (mtu - 16) = f.1) ↔ fragments.length ≤ 0x10000) := by
  have hp : 0 < mtu - 16 := by omega
  have hsent := sent_eq hsize
  have hcount : m.fragments (mtu - 16) = count (mtu - 16) m.bytes.length := by rw [fragments, hsent]
  refine ⟨m.cut (mtu - 16) 0 (m.fragments (mtu - 16)), m.iterator (mtu - 16) (m.fragments (mtu - 16)),
    ?_, ?_, ?_, ?_, ?_⟩
  · rw [cut_length, hcount]
    rfl
  · intro fuel hfuel
    rw [cut_length] at hfuel
    rw [iterator_start m (mtu - 16)]
    have hfuel : m.fragments (mtu - 16) ≤ 0 + fuel := by rwa [Nat.zero_add]
    have hread := loop_eq hp (fun k _ => iterator_canRead hp m k) fuel 0 (Nat.zero_le _) hfuel
    refine ⟨hread, loop_eq hp (fun k _ => ?_) fuel 0 (Nat.zero_le _) hfuel⟩
    exact iterator_notEqual hp hsize k
  · rw [cut_data hp, hsent]
  · intro k hk
    have hget : (m.cut (mtu - 16) 0 (m.fragments (mtu - 16)))[k] = (k * (mtu - 16), m.fragment (mtu - 16) k) := by
      simp only [cut, List.getElem_map, List.getElem_range', Nat.zero_add, Nat.one_mul]
    rw [cut_length] at hk ⊢
    rw [hget]
    simp only [fragment, hsent]
    rw [hcount] at hk ⊢
    exact ⟨trivial, trivial, rfl, chunk_sizes hp hk⟩
  · rw [cut_length, ← sequence_places hp]
    simp only [cut, List.forall_mem_map, List.mem_range'_1, Nat.zero_add, Nat.zero_le, true_and]
    rfl

/-- Three bytes with a payload of two: two fragments, no wrap. -/
theorem iterator_cuts_three :
    ∃ fragments : List (Nat × Datagram), ∃ last : UdpFrameIterator, fragments.length = 2 ∧
    loop canRead 2 5 (new [1, 2, 3] 9 7) = some (fragments, last) ∧
    fragments.flatMap (fun f => f.2.data) = [1, 2, 3] := by
  obtain ⟨fragments, last, hlength, hloops, hdata, -, -⟩ :=
    iterator_cuts (show 16 < 18 by decide) ⟨7, 9, [1, 2, 3]⟩ (by decide)
  have hlength : fragments.length = 2 := hlength
  exact ⟨fragments, last, hlength, (hloops 5 (by omega)).1, hdata⟩

end UdpMessage
