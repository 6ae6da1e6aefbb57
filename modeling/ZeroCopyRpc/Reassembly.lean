import ZeroCopyRpc.UdpFrameDefragmentator

/-!
# What the defragmentator has done after a row of datagrams

As long as no call has thrown, the defragmentator has no previous frame, and
everything about its current frame follows from the datagrams seen: it belongs
to the newest message of several fragments, it holds the fragments received,
and it is open until the last one is there.
-/
namespace Reassembly

open Cells Chunks

variable {p : Nat} {ms : List UdpMessage} {pre : List Datagram} {s : UdpFrameDefragmentator} {m : UdpMessage}
  {d : Datagram} {k c : Nat}

/-- A message that does not fit into one datagram. -/
def Multi (p : Nat) (m : UdpMessage) : Prop := p < m.sent.length

/-- A datagram of one of the messages. -/
structure From (p : Nat) (ms : List UdpMessage) (m : UdpMessage) (k : Nat) (d : Datagram) : Prop where
  mem : m ∈ ms
  lt : k < m.fragments p
  eq : d = m.fragment p k

theorem From.created (hd : From p ms m k d) : d.header.created = m.created := by rw [hd.eq]; rfl

theorem From.sequence (hd : From p ms m k d) : d.header.sequence = k % 0x10000 := by rw [hd.eq]; rfl

theorem From.size (hd : From p ms m k d) : d.header.size = m.sent.length := by rw [hd.eq]; rfl

theorem From.type (hd : From p ms m k d) : d.header.type = m.type := by rw [hd.eq]; rfl

theorem From.data (hd : From p ms m k d) : d.data = chunk p m.sent k := by rw [hd.eq]; rfl

def Stamped (ms : List UdpMessage) : Prop := ms.Pairwise (fun a b => a.created < b.created)

theorem stamped_eq {a b : UdpMessage} (h : Stamped ms) (ha : a ∈ ms) (hb : b ∈ ms)
    (he : a.created = b.created) : a = b := by
  induction ms with
  | nil => cases ha
  | cons c ms ih =>
    obtain ⟨hc, hms⟩ := List.pairwise_cons.mp h
    rcases List.mem_cons.mp ha with hac | ha' <;> rcases List.mem_cons.mp hb with hbc | hb'
    · rw [hac, hbc]
    · have := hc b hb'
      rw [← hac] at this
      omega
    · have := hc a ha'
      rw [← hbc] at this
      omega
    · exact ih hms ha' hb'

theorem whole_iff (hd : From p ms m k d) (hp : 0 < p) : d.header.size = d.data.length ↔ ¬ Multi p m := by
  have hk := (lt_count hp).mp hd.lt
  rw [hd.eq]
  change m.sent.length = (chunk p m.sent k).length ↔ _
  rw [chunk_length, Multi]
  constructor
  · intro h
    omega
  · intro h
    have hzero : k = 0 := by
      by_contra hne
      have hmul := Nat.le_mul_of_pos_left p (Nat.pos_of_ne_zero hne)
      omega
    rw [hzero, Nat.zero_mul]
    omega

/-- A message some datagram of which was seen. -/
def Seen (pre : List Datagram) (m : UdpMessage) : Prop := ∃ d ∈ pre, d.header.created = m.created

def Got (pre : List Datagram) (m : UdpMessage) (k : Nat) : Prop :=
  ∃ d ∈ pre, d.header.created = m.created ∧ d.header.sequence = k

def Complete (p : Nat) (pre : List Datagram) (m : UdpMessage) : Prop := ∀ k, k < m.fragments p → Got pre m k

theorem got_snoc : Got (pre ++ [d]) m k ↔
    Got pre m k ∨ (d.header.created = m.created ∧ d.header.sequence = k) := by
  constructor
  · rintro ⟨e, he, h⟩
    rcases List.mem_append.mp he with he | he
    · exact Or.inl ⟨e, he, h⟩
    · rw [List.mem_singleton.mp he] at h
      exact Or.inr h
  · rintro (⟨e, he, h⟩ | h)
    · exact ⟨e, List.mem_append_left _ he, h⟩
    · exact ⟨d, by simp, h⟩

theorem seen_snoc : Seen (pre ++ [d]) m ↔ Seen pre m ∨ d.header.created = m.created := by
  constructor
  · rintro ⟨e, he, h⟩
    rcases List.mem_append.mp he with he | he
    · exact Or.inl ⟨e, he, h⟩
    · rw [List.mem_singleton.mp he] at h
      exact Or.inr h
  · rintro (⟨e, he, h⟩ | h)
    · exact ⟨e, List.mem_append_left _ he, h⟩
    · exact ⟨d, by simp, h⟩

theorem complete_mono (h : Complete p pre m) (d : Datagram) : Complete p (pre ++ [d]) m :=
  fun k hk => got_snoc.mpr (Or.inl (h k hk))

/-- An open frame and the part of the message that it holds. -/
structure FrameFor (p : Nat) (m : UdpMessage) (pre : List Datagram) (fr : FrameState)
    (buffer : CyclicBuffer) : Prop where
  live : fr.scope.span.Live buffer.memory m.sent.length
  uncommitted : fr.scope.span.committed = 0
  type : fr.scope.type = m.type.toUInt64
  wf : fr.receivedChunks.Wf
  bits : fr.receivedChunks.numBits = m.fragments p
  received : ∀ k, k < m.fragments p → (fr.receivedChunks.bit k = true ↔ Got pre m k)
  bytes : m.fragments p ≤ 0x10000 → ∀ k, k < m.fragments p → Got pre m k →
    slice buffer.memory.buffer (fr.scope.span.start + k * p) (chunk p m.sent k).length = chunk p m.sent k

/-- The state after the given datagrams, when no call has thrown. -/
structure Described (p : Nat) (ms : List UdpMessage) (c : Nat) (pre : List Datagram)
    (s : UdpFrameDefragmentator) : Prop where
  payload : s.maxPayloadSize = p
  previous : s.previousFrame = none
  bounded : s.buffer.memory.Bounded
  fits : ∀ m ∈ ms, m.sent.length ≤ s.buffer.memory.size
  sequences : ∀ e ∈ pre, e.header.sequence < 0x10000
  newest_le : ∀ m ∈ ms, Multi p m → Seen pre m → m.created ≤ s.currentFrameCreated
  base_le : c ≤ s.currentFrameCreated
  newest : s.currentFrameCreated = c ∨ ∃ m ∈ ms, Multi p m ∧ Seen pre m ∧ m.created = s.currentFrameCreated
  idle : s.currentFrame = none → s.buffer.memory.inUse = false ∧
    ∀ m ∈ ms, Multi p m → c < m.created → m.created = s.currentFrameCreated → Complete p pre m
  busy : ∀ fr, s.currentFrame = some fr → c < s.currentFrameCreated ∧
    ∃ m ∈ ms, Multi p m ∧ m.created = s.currentFrameCreated ∧ ¬ Complete p pre m ∧
      FrameFor p m pre fr s.buffer

/-- A call that returns `b`, and publishes the datagram's message if `b` is true. -/
structure Returns (p : Nat) (ms : List UdpMessage) (c : Nat) (pre : List Datagram) (s : UdpFrameDefragmentator)
    (m : UdpMessage) (d : Datagram) (b : Bool) (t : UdpFrameDefragmentator) : Prop where
  result : s.processFragment d = (.ok b, t)
  described : Described p ms c (pre ++ [d]) t
  log : t.buffer.log = s.buffer.log ++ if b then [⟨m.type.toUInt64, m.sent⟩] else []
  size : t.buffer.memory.size = s.buffer.memory.size

theorem writeScope_ok {b : CyclicBuffer} {n : Nat} (hb : b.memory.Bounded) (hfree : b.memory.inUse = false)
    (hn : n ≤ b.memory.size) (type : UInt64) :
    ∃ span memory, b.writeScope n type = .ok (⟨span, type⟩, { b with memory := memory }) ∧ memory.Bounded ∧
      memory.size = b.memory.size ∧ span.Live memory n ∧ span.committed = 0 := by
  obtain ⟨span, memory, hspan⟩ := CyclicMemoryPool.getWriteSpan_granted hn hfree
  obtain ⟨hbounded, hlive⟩ := Span.live_of_getWriteSpan hb hspan
  refine ⟨span, memory, by rw [CyclicBuffer.writeScope, hspan], hbounded, ?_, hlive, ?_⟩
  · obtain ⟨-, -, ⟨-, -, he⟩ | ⟨-, -, he⟩⟩ := CyclicMemoryPool.getWriteSpan_ok hspan <;> rw [he]
  · obtain ⟨-, -, ⟨-, he, -⟩ | ⟨-, he, -⟩⟩ := CyclicMemoryPool.getWriteSpan_ok hspan <;> rw [he]

theorem writeScope_locked {b : CyclicBuffer} {n : Nat} (h : b.memory.inUse = true) (type : UInt64) :
    ∃ e, b.writeScope n type = .error e := by
  obtain ⟨e, he⟩ := (CyclicMemoryPool.getWriteSpan_error_iff b.memory n).mpr (Or.inr h)
  exact ⟨e, by rw [CyclicBuffer.writeScope, he]⟩

/-- Committing the whole size and ending the scope publishes what the span holds. -/
theorem commit_destroy {b : CyclicBuffer} {scope : WriterScope} {n : Nat} (hb : b.memory.Bounded)
    (hlive : scope.span.Live b.memory n) (hzero : scope.span.committed = 0) (hn : 0 < n) :
    ∃ scope' b', scope.commit b n = .ok (scope', b') ∧
      (scope'.destroy b').log = b.log ++ [⟨scope.type, slice b.memory.buffer scope.span.start n⟩] ∧
      (scope'.destroy b').memory.Bounded ∧ (scope'.destroy b').memory.size = b.memory.size ∧
      (scope'.destroy b').memory.inUse = false := by
  have hlong := hlive.long
  have hcommit : scope.span.commit b.memory n = _ := Span.commit_of_live hb hlive
  rw [if_neg (by omega), hzero, Nat.zero_add] at hcommit
  obtain ⟨hbounded, -, -, -⟩ := Span.commit_live hb hlive hcommit
  refine ⟨_, _, by rw [WriterScope.commit, hcommit], ?_, ?_, ?_, ?_⟩
  · rw [WriterScope.destroy_log, if_pos hn]
    rfl
  · rw [WriterScope.destroy_memory]
    exact ⟨hbounded.offset_le, hbounded.size_lt⟩
  · rw [WriterScope.destroy_memory]
    rfl
  · rw [WriterScope.destroy_memory]
    rfl

theorem whole_data (hd : From p ms m k d) (hp : 0 < p) (hm : ¬ Multi p m) :
    d.data = m.sent ∧ 0 < m.sent.length := by
  have hk := (lt_count hp).mp hd.lt
  have hzero : k = 0 := by
    by_contra hne
    have hmul := Nat.le_mul_of_pos_left p (Nat.pos_of_ne_zero hne)
    rw [Multi] at hm
    omega
  rw [hd.eq, hzero]
  refine ⟨chunk_whole (Nat.not_lt.mp hm), ?_⟩
  omega

theorem frameFor_same {fr : FrameState} {buffer : CyclicBuffer} (hgot : ∀ k, Got (pre ++ [d]) m k ↔ Got pre m k)
    (h : FrameFor p m pre fr buffer) : FrameFor p m (pre ++ [d]) fr buffer :=
  ⟨h.live, h.uncommitted, h.type, h.wf, h.bits, fun k hk => (h.received k hk).trans (hgot k).symm,
    fun hfew k hk hg => h.bytes hfew k hk ((hgot k).mp hg)⟩

/-- One more fragment in the frame. -/
theorem frame_write {fr : FrameState} {buffer : CyclicBuffer} (hd : From p ms m k d)
    (h : FrameFor p m pre fr buffer) :
    ∃ fr' buffer', UdpFrameDefragmentator.writeChunk p fr buffer d.header d.data = (.ok (), fr', buffer') ∧
      FrameFor p m (pre ++ [d]) fr' buffer' ∧ fr'.scope = fr.scope ∧ buffer'.log = buffer.log ∧
      buffer'.memory.offset = buffer.memory.offset ∧ buffer'.memory.size = buffer.memory.size := by
  have hlt := hd.lt
  obtain ⟨chunks, hset, hwf, hbits, hbit⟩ := FastBitSet.setBit_ok h.wf
    (show k % 0x10000 < fr.receivedChunks.numBits by rw [h.bits]; omega)
  have hcreated := hd.created
  have hsequence := hd.sequence
  have hdata := hd.data
  refine ⟨{ fr with
      receivedChunks := chunks
      receivedCount := (fr.receivedCount + 1) % 0x10000
      lastActivity := d.header.created },
    buffer.copy (fr.scope.span.start + k % 0x10000 * p) (chunk p m.sent k), ?_,
    ⟨⟨h.live.locked, h.live.bound, h.live.long, h.live.committed_le, h.live.offset_eq⟩,
      h.uncommitted, h.type, hwf, hbits.trans h.bits, ?_, ?_⟩, rfl, rfl, rfl, rfl⟩
  · rw [UdpFrameDefragmentator.writeChunk, hsequence, hset, hdata]
  · intro j hj
    rw [got_snoc, ← h.received j hj, hcreated, hsequence]
    change chunks.bit j = true ↔ _
    rw [hbit, Bool.or_eq_true, decide_eq_true_iff, or_comm]
    simp only [true_and, eq_comm]
  · intro hfew j hj hgot
    have hsame : k % 0x10000 = k := Nat.mod_eq_of_lt (by omega)
    change slice (store buffer.memory.buffer (fr.scope.span.start + k % 0x10000 * p) (chunk p m.sent k))
      (fr.scope.span.start + j * p) _ = _
    rw [hsame]
    by_cases hjk : j = k
    · rw [hjk]
      exact slice_store_same _ _ _
    · have hold : Got pre m j := by
        rcases got_snoc.mp hgot with hold | ⟨-, hj'⟩
        · exact hold
        · rw [hsequence, hsame] at hj'
          exact absurd hj'.symm hjk
      rw [slice_other_chunk _ _ _ _ _ (Ne.symm hjk)]
      exact h.bytes hfew j hj hold

theorem sequences_snoc (hd : From p ms m k d) (h : Described p ms c pre s) :
    ∀ e ∈ pre ++ [d], e.header.sequence < 0x10000 := by
  intro e he
  rcases List.mem_append.mp he with he | he
  · exact h.sequences e he
  · rw [List.mem_singleton.mp he, hd.sequence]
    exact Nat.mod_lt _ (by decide)

/-- A datagram of a message that the state says nothing new about. -/
theorem described_ignore {n : Nat} (hs : Stamped ms) (hd : From p ms m k d) (h : Described p ms c pre s)
    (hold : Multi p m → m.created ≤ s.currentFrameCreated)
    (hframe : s.currentFrame = none ∨ ¬ Multi p m ∨ m.created ≠ s.currentFrameCreated ∨
      Got pre m (k % 0x10000)) :
    Described p ms c (pre ++ [d]) { s with nextFrameMessages := n } := by
  have hcreated := hd.created
  have hsequence := hd.sequence
  refine ⟨h.payload, h.previous, h.bounded, h.fits, sequences_snoc hd h, ?_, h.base_le, ?_, ?_, ?_⟩
  · intro m' hm' hmulti hseen
    rcases seen_snoc.mp hseen with hseen | he
    · exact h.newest_le m' hm' hmulti hseen
    · obtain rfl := stamped_eq hs hd.mem hm' (hcreated.symm.trans he)
      exact hold hmulti
  · exact h.newest.imp id (fun ⟨m', hm', hmulti, hseen, he⟩ =>
      ⟨m', hm', hmulti, seen_snoc.mpr (Or.inl hseen), he⟩)
  · intro hnone
    obtain ⟨hfree, hall⟩ := h.idle hnone
    exact ⟨hfree, fun m' hm' hmulti hpos he => complete_mono (hall m' hm' hmulti hpos he) d⟩
  · intro fr hfr
    obtain ⟨hpos, m', hm', hmulti, he, hopen, hfor⟩ := h.busy fr hfr
    have hsame : ∀ j, Got (pre ++ [d]) m' j ↔ Got pre m' j := by
      intro j
      rw [got_snoc, or_iff_left_iff_imp]
      rintro ⟨hc, hj⟩
      obtain rfl := stamped_eq hs hd.mem hm' (hcreated.symm.trans hc)
      rcases hframe with hnone | hwhole | hother | hgot
      · rw [hnone] at hfr
        cases hfr
      · exact absurd hmulti hwhole
      · exact absurd he hother
      · rw [← hj, hsequence]
        exact hgot
    refine ⟨hpos, m', hm', hmulti, he, fun hc => hopen (fun j hj => (hsame j).mp (hc j hj)),
      frameFor_same hsame hfor⟩

/-- Without a frame the buffer may change as long as its lock stays free. -/
theorem described_buffer {b : CyclicBuffer} (h : Described p ms c pre s) (hnone : s.currentFrame = none)
    (hb : b.memory.Bounded) (hsize : b.memory.size = s.buffer.memory.size) (hfree : b.memory.inUse = false) :
    Described p ms c pre { s with buffer := b } := by
  refine ⟨h.payload, h.previous, hb, ?_, h.sequences, h.newest_le, h.base_le, h.newest, ?_, ?_⟩
  · intro m' hm'
    rw [hsize]
    exact h.fits m' hm'
  · intro _
    exact ⟨hfree, (h.idle hnone).2⟩
  · intro fr hfr
    rw [hnone] at hfr
    cases hfr

theorem step_whole (hs : Stamped ms) (hp : 0 < p) (hd : From p ms m k d)
    (h : Described p ms c pre s) (hm : ¬ Multi p m)
    (hnone : s.currentFrame = none) : ∃ t, Returns p ms c pre s m d true t := by
  obtain ⟨hdata, hpos⟩ := whole_data hd hp hm
  obtain ⟨span, memory, hscope, hbounded, hsize, hlive, hzero⟩ := writeScope_ok h.bounded (h.idle hnone).1
    (h.fits m hd.mem) m.type.toUInt64
  have hlive' : (WriterScope.mk span m.type.toUInt64).span.Live (memory.copy span.start m.sent) m.sent.length :=
    ⟨hlive.locked, hlive.bound, hlive.long, hlive.committed_le, hlive.offset_eq⟩
  obtain ⟨scope, b, hcommit, hlog, hbounded', hsize', hfree'⟩ := commit_destroy (b := { s.buffer with
    memory := memory.copy span.start m.sent }) ⟨hbounded.offset_le, hbounded.size_lt⟩ hlive' hzero hpos
  refine ⟨{ s with buffer := scope.destroy b }, ?_, ?_, ?_, hsize'.trans hsize⟩
  · rw [UdpFrameDefragmentator.processFragment, if_pos ((whole_iff hd hp).mpr hm),
      UdpFrameDefragmentator.wholeMessage, hd.size, hd.type, hscope, hdata]
    have hfilled : WriterScope.commit ⟨span, m.type.toUInt64⟩
        (CyclicBuffer.copy { s.buffer with memory := memory } span.start m.sent) m.sent.length =
          .ok (scope, b) := hcommit
    simp only [hfilled]
  · exact described_buffer (described_ignore hs hd h (fun hmulti => absurd hmulti hm) (Or.inl hnone)) hnone hbounded'
      (hsize'.trans hsize) hfree'
  · change (scope.destroy b).log = _
    rw [hlog]
    change s.buffer.log ++
      [⟨m.type.toUInt64, slice (store memory.buffer span.start m.sent) span.start m.sent.length⟩] = _
    rw [slice_store_same]
    rfl

theorem fragment_eq (hp : 0 < p) (hd : From p ms m k d) (h : Described p ms c pre s) (hm : Multi p m) :
    s.processFragment d = s.currentFragment d.header d.data := by
  have hsize : ¬ d.header.size = d.data.length := fun he => (whole_iff hd hp).mp he hm
  rw [UdpFrameDefragmentator.processFragment, if_neg hsize, h.previous]

/-- An open frame holds the pool's lock, so nothing else can be begun. -/
theorem step_locked {fr : FrameState} (hp : 0 < p) (hd : From p ms m k d) (h : Described p ms c pre s)
    (hfr : s.currentFrame = some fr) (hm : ¬ Multi p m ∨ s.currentFrameCreated < m.created) :
    ∃ e, (s.processFragment d).1 = .error e := by
  obtain ⟨-, m', -, -, -, -, hfor⟩ := h.busy fr hfr
  obtain ⟨e, he⟩ := writeScope_locked (n := d.header.size) hfor.live.locked d.header.type.toUInt64
  refine ⟨.pool e, ?_⟩
  by_cases hmulti : Multi p m
  · have hnew := hm.resolve_left (not_not.mpr hmulti)
    rw [fragment_eq hp hd h hmulti, UdpFrameDefragmentator.currentFragment, hfr, hd.created]
    simp only
    rw [if_neg (by omega), if_pos hnew, UdpFrameDefragmentator.newFrame, hfr]
    simp only [UdpFrameDefragmentator.initializeNewFrame, UdpFrameDefragmentator.resetPrevious, h.previous, he]
  · rw [UdpFrameDefragmentator.processFragment, if_pos ((whole_iff hd hp).mpr hmulti),
      UdpFrameDefragmentator.wholeMessage, he]

theorem countStale_eq (hprevious : s.previousFrame = none) (header : UdpReplicationMessageHeader) :
    ∃ n, s.countStale header = { s with nextFrameMessages := n } := by
  rw [UdpFrameDefragmentator.countStale]
  by_cases hframe : s.currentFrame.isSome ∧ s.previousFrameCreated < header.created
  · rw [if_pos hframe]
    simp only [hprevious, Option.isSome_none, Bool.false_eq_true, and_false, ↓reduceIte]
    exact ⟨_, rfl⟩
  · rw [if_neg hframe]
    exact ⟨s.nextFrameMessages, rfl⟩

/-- A late fragment of a message that has no frame. -/
theorem step_stale (hs : Stamped ms) (hp : 0 < p) (hd : From p ms m k d) (h : Described p ms c pre s) (hm : Multi p m)
    (hold : m.created ≤ s.currentFrameCreated)
    (hframe : s.currentFrame = none ∨ m.created ≠ s.currentFrameCreated) :
    ∃ t, Returns p ms c pre s m d false t := by
  obtain ⟨n, hn⟩ := countStale_eq h.previous d.header
  refine ⟨{ s with nextFrameMessages := n }, ?_, ?_, (List.append_nil _).symm, rfl⟩
  · rw [fragment_eq hp hd h hm, UdpFrameDefragmentator.currentFragment, hd.created, hn, if_neg (Nat.not_lt.mpr hold)]
    cases hcurrent : s.currentFrame with
    | none => rfl
    | some fr =>
      rcases hframe with hnone | hother
      · rw [hcurrent] at hnone
        cases hnone
      · exact if_neg hother
  · exact described_ignore hs hd h (fun _ => hold) (hframe.imp id fun hother => Or.inr (Or.inl hother))

theorem fill_eq {fr : FrameState} (hp : 0 < p) (hd : From p ms m k d) (h : Described p ms c pre s) (hm : Multi p m)
    (hfr : s.currentFrame = some fr) (hcur : m.created = s.currentFrameCreated) :
    s.processFragment d = UdpFrameDefragmentator.processFrameFragment
      (fun frame s => { s with currentFrame := some frame }) s fr d.header d.data := by
  rw [fragment_eq hp hd h hm, UdpFrameDefragmentator.currentFragment, hfr, hd.created]
  exact if_pos hcur

theorem frame_of (hs : Stamped ms) {fr : FrameState} (h : Described p ms c pre s) (hmem : m ∈ ms)
    (hfr : s.currentFrame = some fr) (hcur : m.created = s.currentFrameCreated) :
    ¬ Complete p pre m ∧ FrameFor p m pre fr s.buffer := by
  obtain ⟨-, m', hm', -, he, hopen, hfor⟩ := h.busy fr hfr
  obtain rfl := stamped_eq hs hmem hm' (hcur.trans he.symm)
  exact ⟨hopen, hfor⟩

theorem sequence_lt (hd : From p ms m k d) : k % 0x10000 < m.fragments p := Nat.lt_of_le_of_lt (Nat.mod_le _ _) hd.lt

/-- A fragment that the open frame has. -/
theorem step_duplicate (hs : Stamped ms) {fr : FrameState} (hp : 0 < p) (hd : From p ms m k d)
    (h : Described p ms c pre s)
    (hm : Multi p m) (hfr : s.currentFrame = some fr) (hcur : m.created = s.currentFrameCreated)
    (hgot : Got pre m (k % 0x10000)) : ∃ t, Returns p ms c pre s m d false t := by
  obtain ⟨-, hfor⟩ := frame_of hs h hd.mem hfr hcur
  have hbit : fr.receivedChunks.getBit (k % 0x10000) = .ok true := by
    rw [FastBitSet.getBit_ok (by rw [hfor.bits]; exact sequence_lt hd), (hfor.received _ (sequence_lt hd)).mpr hgot]
  refine ⟨s, ?_, ?_, (List.append_nil _).symm, rfl⟩
  · rw [fill_eq hp hd h hm hfr hcur, UdpFrameDefragmentator.processFrameFragment, hd.sequence, hbit]
  · exact described_ignore (n := s.nextFrameMessages) hs hd h (fun _ => Nat.le_of_eq hcur)
      (Or.inr (Or.inr (Or.inr hgot)))

theorem not_got_new (hd : From p ms m k d) (h : Described p ms c pre s) (hm : Multi p m)
    (hnew : s.currentFrameCreated < m.created) (j : Nat) : ¬ Got pre m j := by
  rintro ⟨e, he, hcreated, -⟩
  have := h.newest_le m hd.mem hm ⟨e, he, hcreated⟩
  omega

/-- The frame with which a new message begins has received nothing. -/
theorem frameFor_new {span : Span} {memory : CyclicMemoryPool} {chunks : FastBitSet}
    (hlive : span.Live memory m.sent.length)
    (hzero : span.committed = 0) (hwf : chunks.Wf) (hbits : chunks.numBits = m.fragments p)
    (hbit : ∀ k, k < m.fragments p → chunks.bit k = false) (hgot : ∀ j, ¬ Got pre m j) (b : CyclicBuffer) :
    FrameFor p m pre ⟨⟨span, m.type.toUInt64⟩, chunks, 0, 0, m.fragments p % 0x10000⟩
      { b with memory := memory } := by
  refine ⟨hlive, hzero, rfl, hwf, hbits, ?_, ?_⟩
  · intro j hj
    change chunks.bit j = true ↔ Got pre m j
    rw [hbit j hj]
    exact ⟨fun hf => absurd hf Bool.false_ne_true, fun hg => absurd hg (hgot j)⟩
  · intro _ j _ hg
    exact absurd hg (hgot j)

/-- The first fragment seen of a message opens a frame. -/
theorem step_open (hp : 0 < p) (hd : From p ms m k d) (h : Described p ms c pre s) (hm : Multi p m)
    (hnone : s.currentFrame = none) (hnew : s.currentFrameCreated < m.created) :
    ∃ t, Returns p ms c pre s m d false t := by
  have hgot := not_got_new hd h hm hnew
  have htwo : 1 < m.fragments p := (one_lt_count hp).mpr hm
  obtain ⟨span, memory, hscope, hbounded, hsize, hlive, hzero⟩ := writeScope_ok h.bounded (h.idle hnone).1
    (h.fits m hd.mem) m.type.toUInt64
  obtain ⟨chunks, hchunks, hwf, hbits, hbit⟩ := FastBitSet.new_ok (show 0 < m.fragments p by omega)
  obtain ⟨fr, b, hwrite, hfor, hscope', hlog, hoffset, hsize'⟩ := frame_write hd
    (frameFor_new hlive hzero hwf hbits hbit hgot s.buffer)
  refine ⟨{ s with buffer := b, currentFrame := some fr, currentFrameCreated := m.created }, ?_, ?_, ?_,
    hsize'.trans hsize⟩
  · rw [fragment_eq hp hd h hm, UdpFrameDefragmentator.currentFragment, hnone, hd.created]
    simp only
    rw [if_pos hnew, UdpFrameDefragmentator.newFrame, hnone]
    simp only [UdpFrameDefragmentator.initializeNewFrame]
    rw [hd.size, hd.type, hscope]
    simp only
    have hcount : (m.sent.length + s.maxPayloadSize - 1) / s.maxPayloadSize = m.fragments p := by
      rw [h.payload]
      rfl
    rw [hcount, hchunks]
    simp only [UdpFrameDefragmentator.resetCurrent, hnone, h.payload, hwrite, hd.created]
  · refine ⟨h.payload, h.previous, ⟨?_, ?_⟩, ?_, sequences_snoc hd h, ?_,
      Nat.le_of_lt (Nat.lt_of_le_of_lt h.base_le hnew), Or.inr ?_, ?_, ?_⟩
    · change b.memory.offset ≤ b.memory.size
      rw [hoffset, hsize']
      exact hbounded.offset_le
    · change b.memory.size < _
      rw [hsize']
      exact hbounded.size_lt
    · intro m' hm'
      change m'.sent.length ≤ b.memory.size
      rw [hsize']
      change m'.sent.length ≤ memory.size
      rw [hsize]
      exact h.fits m' hm'
    · intro m' hm' hmulti hseen
      change m'.created ≤ m.created
      rcases seen_snoc.mp hseen with hseen | he
      · have := h.newest_le m' hm' hmulti hseen
        omega
      · rw [← he, hd.created]
    · exact ⟨m, hd.mem, hm, seen_snoc.mpr (Or.inr hd.created), rfl⟩
    · intro hf
      cases hf
    · intro fr' hfr'
      cases hfr'
      refine ⟨Nat.lt_of_le_of_lt h.base_le hnew, m, hd.mem, hm, rfl, ?_, hfor⟩
      intro hall
      have hzero' := (got_snoc.mp (hall 0 (by omega))).resolve_left (hgot 0)
      have hone := (got_snoc.mp (hall 1 htwo)).resolve_left (hgot 1)
      omega
  · change b.log = _
    rw [hlog]
    exact (List.append_nil _).symm

/-- The sequence numbers of a complete message are all different. -/
theorem fragments_le_of_complete (hsequences : ∀ e ∈ pre, e.header.sequence < 0x10000) (h : Complete p pre m) :
    m.fragments p ≤ 0x10000 := by
  by_contra hmany
  obtain ⟨e, he, -, hsequence⟩ := h 0x10000 (by omega)
  have := hsequences e he
  omega

theorem isComplete_iff {fr : FrameState} {b : CyclicBuffer} (h : FrameFor p m pre fr b) :
    fr.isComplete = true ↔ Complete p pre m := by
  rw [FrameState.isComplete, FastBitSet.isComplete_iff h.wf, h.bits]
  exact ⟨fun hall k hk => (h.received k hk).mp (hall k hk), fun hall k hk => (h.received k hk).mpr (hall k hk)⟩

/-- A complete frame holds the message. -/
theorem content_of_complete {fr : FrameState} {b : CyclicBuffer} (hp : 0 < p)
    (hsequences : ∀ e ∈ pre, e.header.sequence < 0x10000) (h : FrameFor p m pre fr b) (hall : Complete p pre m) :
    slice b.memory.buffer fr.scope.span.start m.sent.length = m.sent := by
  apply slice_of_chunks hp
  intro k hk
  exact h.bytes (fragments_le_of_complete hsequences hall) k hk (hall k hk)

theorem newest_snoc (hs : Stamped ms) (hd : From p ms m k d) (h : Described p ms c pre s)
    (hcur : m.created = s.currentFrameCreated) :
    (∀ m' ∈ ms, Multi p m' → Seen (pre ++ [d]) m' → m'.created ≤ s.currentFrameCreated) ∧
    (s.currentFrameCreated = c ∨
      ∃ m' ∈ ms, Multi p m' ∧ Seen (pre ++ [d]) m' ∧ m'.created = s.currentFrameCreated) := by
  constructor
  · intro m' hm' hmulti hseen
    rcases seen_snoc.mp hseen with hseen | he
    · exact h.newest_le m' hm' hmulti hseen
    · obtain rfl := stamped_eq hs hd.mem hm' (hd.created.symm.trans he)
      exact Nat.le_of_eq hcur
  · exact h.newest.imp id fun ⟨m', hm', hmulti, hseen, he⟩ =>
      ⟨m', hm', hmulti, seen_snoc.mpr (Or.inl hseen), he⟩

/-- A fragment that the open frame does not have. The last one publishes the message. -/
theorem step_fill (hs : Stamped ms) {fr : FrameState} (hp : 0 < p) (hd : From p ms m k d) (h : Described p ms c pre s)
    (hm : Multi p m) (hfr : s.currentFrame = some fr) (hcur : m.created = s.currentFrameCreated)
    (hgot : ¬ Got pre m (k % 0x10000)) :
    ∃ b t, Returns p ms c pre s m d b t ∧ (b = true ↔ Complete p (pre ++ [d]) m) := by
  obtain ⟨-, hfor⟩ := frame_of hs h hd.mem hfr hcur
  obtain ⟨hpos, -⟩ := h.busy fr hfr
  obtain ⟨hnewest_le, hnewest⟩ := newest_snoc hs hd h hcur
  have hbit : fr.receivedChunks.getBit (k % 0x10000) = .ok false := by
    rw [FastBitSet.getBit_ok (by rw [hfor.bits]; exact sequence_lt hd), Except.ok.injEq, ← Bool.not_eq_true,
      hfor.received _ (sequence_lt hd)]
    exact hgot
  obtain ⟨fr', b', hwrite, hfor', hscope, hlog, hoffset, hsize⟩ := frame_write hd hfor
  have hbounded : b'.memory.Bounded := by
    constructor
    · rw [hoffset, hsize]
      exact h.bounded.offset_le
    · rw [hsize]
      exact h.bounded.size_lt
  rw [← h.payload] at hwrite
  by_cases hall : Complete p (pre ++ [d]) m
  · obtain ⟨scope, b, hcommit, hlog', hbounded', hsize', hfree⟩ :=
      commit_destroy hbounded hfor'.live hfor'.uncommitted
      (by rw [Multi] at hm; omega)
    refine ⟨true, { s with buffer := scope.destroy b, currentFrame := none },
      ⟨?_, ?_, ?_, hsize'.trans hsize⟩, by simp [hall]⟩
    · rw [fill_eq hp hd h hm hfr hcur, UdpFrameDefragmentator.processFrameFragment, hd.sequence, hbit]
      simp only [hwrite, hd.size, (isComplete_iff hfor').mpr hall, hcommit, if_true]
      rfl
    · refine ⟨h.payload, h.previous, hbounded', ?_, sequences_snoc hd h, hnewest_le, h.base_le, hnewest, ?_, ?_⟩
      · intro m' hm'
        change m'.sent.length ≤ (scope.destroy b).memory.size
        rw [hsize', hsize]
        exact h.fits m' hm'
      · intro _
        refine ⟨hfree, ?_⟩
        intro m' hm' hmulti _ he
        obtain rfl := stamped_eq hs hd.mem hm' (hcur.trans he.symm)
        exact hall
      · intro fr'' hf
        cases hf
    · change (scope.destroy b).log = _
      rw [hlog', hlog, content_of_complete hp (sequences_snoc hd h) hfor' hall, hfor'.type]
      rfl
  · refine ⟨false, { s with buffer := b', currentFrame := some fr' }, ⟨?_, ?_, ?_, hsize⟩, by simp [hall]⟩
    · rw [fill_eq hp hd h hm hfr hcur, UdpFrameDefragmentator.processFrameFragment, hd.sequence, hbit]
      simp only [hwrite, if_neg fun hc => hall ((isComplete_iff hfor').mp hc)]
    · refine ⟨h.payload, h.previous, hbounded, ?_, sequences_snoc hd h, hnewest_le, h.base_le, hnewest, ?_, ?_⟩
      · intro m' hm'
        change m'.sent.length ≤ b'.memory.size
        rw [hsize]
        exact h.fits m' hm'
      · intro hf
        cases hf
      · intro fr'' hf
        cases hf
        exact ⟨hpos, m, hd.mem, hm, hcur, hall, hfor'⟩
    · change b'.log = _
      rw [hlog]
      exact (List.append_nil _).symm

/-- The newest message of several fragments seen so far. -/
structure Newest (p : Nat) (ms : List UdpMessage) (c : Nat) (pre : List Datagram) (m : UdpMessage) : Prop where
  mem : m ∈ ms
  multi : Multi p m
  pos : c < m.created
  seen : Seen pre m
  le : ∀ m' ∈ ms, Multi p m' → Seen pre m' → m'.created ≤ m.created

/-- A message that may not begin while the newest one is incomplete. -/
def Blocked (p : Nat) (ms : List UdpMessage) (c : Nat) (pre : List Datagram) (m : UdpMessage) : Prop :=
  ∃ m', Newest p ms c pre m' ∧ ¬ Complete p pre m' ∧ (¬ Multi p m ∨ m'.created < m.created)

/-- The datagram is the last one that its message needs. -/
def Finishes (p : Nat) (ms : List UdpMessage) (c : Nat) (pre : List Datagram) (d : Datagram) (m : UdpMessage) : Prop :=
  ¬ Multi p m ∨ (Newest p ms c pre m ∧ ¬ Complete p pre m ∧ Complete p (pre ++ [d]) m)

theorem newest_iff (hs : Stamped ms) (h : Described p ms c pre s) :
    Newest p ms c pre m ↔ m ∈ ms ∧ Multi p m ∧ c < m.created ∧ m.created = s.currentFrameCreated := by
  constructor
  · intro hn
    refine ⟨hn.mem, hn.multi, hn.pos, ?_⟩
    have hle := h.newest_le m hn.mem hn.multi hn.seen
    have hpos := hn.pos
    rcases h.newest with hzero | ⟨m', hm', hmulti, hseen, he⟩
    · omega
    · have := hn.le m' hm' hmulti hseen
      omega
  · rintro ⟨hmem, hmulti, hpos, he⟩
    refine ⟨hmem, hmulti, hpos, ?_, ?_⟩
    · rcases h.newest with hzero | ⟨m', hm', -, hseen, he'⟩
      · omega
      · obtain rfl := stamped_eq hs hmem hm' (he.trans he'.symm)
        exact hseen
    · intro m' hm' hmulti' hseen
      rw [he]
      exact h.newest_le m' hm' hmulti' hseen

theorem open_iff (hs : Stamped ms) (h : Described p ms c pre s) :
    (∃ fr, s.currentFrame = some fr) ↔ ∃ m, Newest p ms c pre m ∧ ¬ Complete p pre m := by
  constructor
  · rintro ⟨fr, hfr⟩
    obtain ⟨hpos, m, hmem, hmulti, he, hopen, -⟩ := h.busy fr hfr
    exact ⟨m, (newest_iff hs h).mpr ⟨hmem, hmulti, he ▸ hpos, he⟩, hopen⟩
  · rintro ⟨m, hn, hopen⟩
    obtain ⟨hmem, hmulti, hpos, he⟩ := (newest_iff hs h).mp hn
    cases hframe : s.currentFrame with
    | none => exact absurd ((h.idle hframe).2 m hmem hmulti hpos he) hopen
    | some fr => exact ⟨fr, rfl⟩

theorem blocked_iff (hs : Stamped ms) (h : Described p ms c pre s) :
    Blocked p ms c pre m ↔ (∃ fr, s.currentFrame = some fr) ∧
      (¬ Multi p m ∨ s.currentFrameCreated < m.created) := by
  rw [open_iff hs h]
  constructor
  · rintro ⟨m', hn, hopen, hm⟩
    rw [((newest_iff hs h).mp hn).2.2.2] at hm
    exact ⟨⟨m', hn, hopen⟩, hm⟩
  · rintro ⟨⟨m', hn, hopen⟩, hm⟩
    rw [← ((newest_iff hs h).mp hn).2.2.2] at hm
    exact ⟨m', hn, hopen, hm⟩

theorem step_throws (hs : Stamped ms) (hp : 0 < p) (hd : From p ms m k d) (h : Described p ms c pre s)
    (hblocked : Blocked p ms c pre m) : ∃ e, (s.processFragment d).1 = .error e := by
  obtain ⟨⟨fr, hfr⟩, hm⟩ := (blocked_iff hs h).mp hblocked
  exact step_locked hp hd h hfr hm

/-- A call that finds the lock free, or its message's frame open, returns. -/
theorem step_returns (hs : Stamped ms) (hp : 0 < p) (hd : From p ms m k d) (h : Described p ms c pre s)
    (hfree : ¬ Blocked p ms c pre m) :
    ∃ b t, Returns p ms c pre s m d b t ∧ (b = true ↔ Finishes p ms c pre d m) := by
  rw [blocked_iff hs h] at hfree
  by_cases hm : Multi p m
  · have hfinish : Finishes p ms c pre d m → Newest p ms c pre m ∧ ¬ Complete p pre m ∧
        Complete p (pre ++ [d]) m :=
      fun hf => hf.resolve_left (not_not.mpr hm)
    rcases Nat.lt_trichotomy s.currentFrameCreated m.created with hnew | hcur | hold
    · have hnone : s.currentFrame = none := by
        cases hframe : s.currentFrame with
        | none => rfl
        | some fr => exact absurd ⟨⟨fr, hframe⟩, Or.inr hnew⟩ hfree
      obtain ⟨t, ht⟩ := step_open hp hd h hm hnone hnew
      refine ⟨false, t, ht, Bool.false_ne_true.elim, fun hf => ?_⟩
      have := ((newest_iff hs h).mp (hfinish hf).1).2.2.2
      omega
    · cases hframe : s.currentFrame with
      | none =>
        obtain ⟨t, ht⟩ := step_stale hs hp hd h hm (Nat.le_of_eq hcur.symm) (Or.inl hframe)
        refine ⟨false, t, ht, Bool.false_ne_true.elim, fun hf => ?_⟩
        obtain ⟨hn, hopen, -⟩ := hfinish hf
        exact absurd ((h.idle hframe).2 m hd.mem hm hn.pos hcur.symm) hopen
      | some fr =>
        obtain ⟨hopen, -⟩ := frame_of hs h hd.mem hframe hcur.symm
        have hpos := (h.busy fr hframe).1
        by_cases hgot : Got pre m (k % 0x10000)
        · obtain ⟨t, ht⟩ := step_duplicate hs hp hd h hm hframe hcur.symm hgot
          refine ⟨false, t, ht, Bool.false_ne_true.elim, fun hf => absurd ?_ hopen⟩
          intro j hj
          rcases got_snoc.mp ((hfinish hf).2.2 j hj) with hold | ⟨-, hj'⟩
          · exact hold
          · rw [← hj', hd.sequence]
            exact hgot
        · obtain ⟨b, t, ht, hb⟩ := step_fill hs hp hd h hm hframe hcur.symm hgot
          refine ⟨b, t, ht, fun hf => Or.inr ⟨?_, hopen, hb.mp hf⟩, fun hf => hb.mpr (hfinish hf).2.2⟩
          exact (newest_iff hs h).mpr ⟨hd.mem, hm, hcur ▸ hpos, hcur.symm⟩
    · obtain ⟨t, ht⟩ := step_stale hs hp hd h hm (Nat.le_of_lt hold) (Or.inr (by omega))
      refine ⟨false, t, ht, Bool.false_ne_true.elim, fun hf => ?_⟩
      have := ((newest_iff hs h).mp (hfinish hf).1).2.2.2
      omega
  · have hnone : s.currentFrame = none := by
      cases hframe : s.currentFrame with
      | none => rfl
      | some fr => exact absurd ⟨⟨fr, hframe⟩, Or.inl hm⟩ hfree
    obtain ⟨t, ht⟩ := step_whole hs hp hd h hm hnone
    exact ⟨true, t, ht, fun _ => Or.inl hm, fun _ => rfl⟩

/-- A defragmentator without frames, over a buffer whose lock is free. -/
structure Idle (p c : Nat) (s : UdpFrameDefragmentator) : Prop where
  payload : s.maxPayloadSize = p
  previous : s.previousFrame = none
  current : s.currentFrame = none
  newest : s.currentFrameCreated = c
  bounded : s.buffer.memory.Bounded
  free : s.buffer.memory.inUse = false

theorem described_idle (h : Idle p c s) (hfits : ∀ m ∈ ms, m.sent.length ≤ s.buffer.memory.size) :
    Described p ms c [] s := by
  refine ⟨h.payload, h.previous, h.bounded, hfits, ?_, ?_, Nat.le_of_eq h.newest.symm, Or.inl h.newest, ?_, ?_⟩
  · intro e he
    cases he
  · rintro m - - ⟨e, he, -⟩
    cases he
  · intro _
    refine ⟨h.free, ?_⟩
    intro m _ _ hpos he
    rw [he, h.newest] at hpos
    exact absurd hpos (Nat.lt_irrefl c)
  · intro fr hfr
    rw [h.current] at hfr
    cases hfr

theorem idle_new {buffer : CyclicBuffer} (mtu : Nat) (hb : buffer.memory.Bounded)
    (hfree : buffer.memory.inUse = false) :
    Idle (mtu - 16) 0 (.new buffer mtu) := ⟨rfl, rfl, rfl, rfl, hb, hfree⟩

/-- The state after a row of calls. -/
def after (s : UdpFrameDefragmentator) (ds : List Datagram) : UdpFrameDefragmentator :=
  ds.foldl (fun s d => (s.processFragment d).2) s

theorem after_snoc (s : UdpFrameDefragmentator) (ds : List Datagram) (d : Datagram) :
    after s (ds ++ [d]) = ((after s ds).processFragment d).2 := by
  rw [after, List.foldl_append]
  rfl

theorem Returns.after {s₀ : UdpFrameDefragmentator} {b : Bool} {t : UdpFrameDefragmentator}
    (h : Returns p ms c pre (after s₀ pre) m d b t) : Reassembly.after s₀ (pre ++ [d]) = t := by
  rw [after_snoc, h.result]

/-- What a call publishes, with the stamp of the datagram that brought it about. -/
def gained (s : UdpFrameDefragmentator) (d : Datagram) : List (Nat × Message) :=
  ((s.processFragment d).2.buffer.log.drop s.buffer.log.length).map (fun content => (d.header.created, content))

def published (s : UdpFrameDefragmentator) : List Datagram → List (Nat × Message)
  | [] => []
  | d :: ds => gained s d ++ published (s.processFragment d).2 ds

theorem published_snoc (s : UdpFrameDefragmentator) (ds : List Datagram) (d : Datagram) :
    published s (ds ++ [d]) = published s ds ++ gained (after s ds) d := by
  induction ds generalizing s with
  | nil => exact List.append_nil _
  | cons e ds ih =>
    rw [List.cons_append, published, ih, published, List.append_assoc]
    rfl

theorem gained_eq {l : List Message} (h : (s.processFragment d).2.buffer.log = s.buffer.log ++ l) :
    gained s d = l.map (fun content => (d.header.created, content)) := by
  rw [gained, h, List.drop_left]

theorem Returns.gained (hd : From p ms m k d) {b : Bool} {t : UdpFrameDefragmentator}
    (h : Returns p ms c pre s m d b t) :
    Reassembly.gained s d = if b then [(m.created, ⟨m.type.toUInt64, m.sent⟩)] else [] := by
  rw [gained_eq (by rw [h.result]; exact h.log), hd.created]
  cases b <;> rfl

end Reassembly
