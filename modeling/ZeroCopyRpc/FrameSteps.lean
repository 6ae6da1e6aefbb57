import ZeroCopyRpc.UdpFrameDefragmentator

/-!
# What each part of a call can do to the frames

The datagram's header and bytes may be anything. What matters here is which
frames are open, whether the lock is held, and what the log gains.
-/
namespace WriterScope

theorem commit_kept {w w' : WriterScope} {b b' : CyclicBuffer} {n : Nat} (h : w.commit b n = .ok (w', b')) :
    b'.log = b.log ∧ b'.memory.inUse = b.memory.inUse := by
  rw [commit, Span.commit] at h
  by_cases hlong : Words.subWord w.span.size w.span.committed < n
  · simp [hlong] at h
  · simp only [hlong, ↓reduceIte, Except.ok.injEq, Prod.mk.injEq] at h
    rw [← h.2]
    exact ⟨rfl, rfl⟩

/-- A destroyed scope publishes at most one message. -/
theorem destroy_gain (w : WriterScope) (b : CyclicBuffer) :
    ∃ l : List Message, l.length ≤ 1 ∧ (w.destroy b).log = b.log ++ l := by
  rw [destroy_log]
  by_cases h : 0 < w.span.committed
  · exact ⟨[w.content b], Nat.le_refl _, if_pos h⟩
  · exact ⟨[], Nat.zero_le _, by rw [if_neg h, List.append_nil]⟩

end WriterScope

namespace CyclicBuffer

theorem writeScope_kept {b b' : CyclicBuffer} {scope : WriterScope} {n : Nat} {type : UInt64}
    (h : b.writeScope n type = .ok (scope, b')) :
    b.memory.inUse = false ∧ b'.memory.inUse = true ∧ b'.log = b.log ∧ scope.span.committed = 0 := by
  rw [writeScope] at h
  cases hspan : b.memory.getWriteSpan n with
  | error e =>
    rw [hspan] at h
    cases h
  | ok r =>
    rw [hspan] at h
    obtain ⟨rfl, rfl⟩ := Prod.mk.inj (Except.ok.inj h)
    obtain ⟨-, hfree, ⟨-, hspan', hmemory⟩ | ⟨-, hspan', hmemory⟩⟩ :=
      CyclicMemoryPool.getWriteSpan_ok hspan
    · exact ⟨hfree, by rw [hmemory], rfl, by rw [hspan']⟩
    · exact ⟨hfree, by rw [hmemory], rfl, by rw [hspan']⟩

end CyclicBuffer

namespace UdpFrameDefragmentator

variable {s : UdpFrameDefragmentator}

theorem writeChunk_kept (p : Nat) (frame : FrameState) (buffer : CyclicBuffer) (header : UdpReplicationMessageHeader)
    (data : List UInt8) : ∃ result f b, writeChunk p frame buffer header data = (result, f, b) ∧
      f.scope = frame.scope ∧
      b.log = buffer.log ∧ b.memory.inUse = buffer.memory.inUse := by
  rw [writeChunk]
  cases frame.receivedChunks.setBit header.sequence with
  | error e => exact ⟨_, _, _, rfl, rfl, rfl, rfl⟩
  | ok chunks => exact ⟨_, _, _, rfl, rfl, rfl, rfl⟩

/-- A fragment of a frame leaves that frame open, or completes it. -/
theorem processFrameFragment_cases (put : FrameState → UdpFrameDefragmentator → UdpFrameDefragmentator)
    (s : UdpFrameDefragmentator) (frame : FrameState) (header : UdpReplicationMessageHeader) (data : List UInt8) :
    ∃ result t, processFrameFragment put s frame header data = (result, t) ∧
      ((result ≠ .ok true ∧ (t = s ∨ ∃ f b, t = put f { s with buffer := b } ∧ f.scope = frame.scope ∧
          b.log = s.buffer.log ∧ b.memory.inUse = s.buffer.memory.inUse)) ∨
        (result = .ok true ∧ ∃ f b, t = (put f { s with buffer := b }).resetCurrent ∧
          b.log = s.buffer.log)) := by
  rw [processFrameFragment]
  cases frame.receivedChunks.getBit header.sequence with
  | error e => exact ⟨_, _, rfl, Or.inl ⟨by simp, Or.inl rfl⟩⟩
  | ok received =>
    cases received with
    | true => exact ⟨_, _, rfl, Or.inl ⟨by simp, Or.inl rfl⟩⟩
    | false =>
      obtain ⟨result, f, b, hwrite, hscope, hlog, hlock⟩ :=
        writeChunk_kept s.maxPayloadSize frame s.buffer header data
      simp only [hwrite]
      cases result with
      | error e => exact ⟨_, _, rfl, Or.inl ⟨by simp, Or.inr ⟨f, b, rfl, hscope, hlog, hlock⟩⟩⟩
      | ok u =>
        simp only
        by_cases hcomplete : f.isComplete = true
        · rw [if_pos hcomplete]
          cases hcommit : f.scope.commit b header.size with
          | error e => exact ⟨_, _, rfl, Or.inl ⟨by simp, Or.inr ⟨f, b, rfl, hscope, hlog, hlock⟩⟩⟩
          | ok r =>
            obtain ⟨hlog', -⟩ := WriterScope.commit_kept hcommit
            exact ⟨_, _, rfl, Or.inr ⟨rfl, _, r.2, rfl, hlog'.trans hlog⟩⟩
        · rw [if_neg hcomplete]
          exact ⟨_, _, rfl, Or.inl ⟨by simp, Or.inr ⟨f, b, rfl, hscope, hlog, hlock⟩⟩⟩

/-- A new frame is opened only when the lock is free. -/
theorem initializeNewFrame_cases (hnone : s.currentFrame = none) (header : UdpReplicationMessageHeader)
    (data : List UInt8) :
    ∃ result t, s.initializeNewFrame header data = (result, t) ∧
      (t = s ∨ (s.buffer.memory.inUse = false ∧ ∃ b, b.log = s.buffer.log ∧
        (t = { s with buffer := b } ∨ ∃ f, b.memory.inUse = true ∧ f.scope.span.committed = 0 ∧
          t = { s with buffer := b, currentFrame := some f, currentFrameCreated := header.created }))) := by
  rw [initializeNewFrame]
  cases hscope : s.buffer.writeScope header.size header.type.toUInt64 with
  | error e => exact ⟨_, _, rfl, Or.inl rfl⟩
  | ok r =>
    obtain ⟨hfree, hlocked, hlog, hzero⟩ := CyclicBuffer.writeScope_kept hscope
    simp only
    cases FastBitSet.new ((header.size + s.maxPayloadSize - 1) / s.maxPayloadSize) with
    | error e =>
      refine ⟨_, _, rfl, Or.inr ⟨hfree, r.1.destroy r.2, ?_, Or.inl rfl⟩⟩
      rw [WriterScope.destroy_uncommitted _ _ hzero]
      exact hlog
    | ok chunks =>
      obtain ⟨result, f, b, hwrite, hkept, hlog', hlock'⟩ := writeChunk_kept s.maxPayloadSize ⟨r.1, chunks, 0, 0,
        (header.size + s.maxPayloadSize - 1) / s.maxPayloadSize % 0x10000⟩ r.2 header data
      have hreset : resetCurrent { s with buffer := r.2 } = { s with buffer := r.2 } := by
        rw [resetCurrent]
        simp only [hnone]
      simp only [hreset, hwrite]
      refine ⟨_, _, rfl, Or.inr ⟨hfree, b, hlog'.trans hlog, Or.inr ⟨f, hlock'.trans hlocked, ?_, rfl⟩⟩⟩
      rw [hkept]
      exact hzero

/-- A message of one datagram needs the free lock, and touches no frame. -/
theorem wholeMessage_cases (s : UdpFrameDefragmentator) (header : UdpReplicationMessageHeader) (data : List UInt8) :
    ∃ result t, s.wholeMessage header data = (result, t) ∧
    (t = s ∨ (s.buffer.memory.inUse = false ∧ ∃ b, t = { s with buffer := b })) := by
  rw [wholeMessage]
  cases hscope : s.buffer.writeScope header.size header.type.toUInt64 with
  | error e => exact ⟨_, _, rfl, Or.inl rfl⟩
  | ok r =>
    obtain ⟨hfree, -⟩ := CyclicBuffer.writeScope_kept hscope
    simp only
    cases r.1.commit (r.2.copy r.1.span.start data) header.size with
    | error e => exact ⟨_, _, rfl, Or.inr ⟨hfree, _, rfl⟩⟩
    | ok q => exact ⟨_, _, rfl, Or.inr ⟨hfree, _, rfl⟩⟩

end UdpFrameDefragmentator
