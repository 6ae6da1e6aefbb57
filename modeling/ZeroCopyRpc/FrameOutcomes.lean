import ZeroCopyRpc.Reassembly

/-!
# The outcomes of a call

Whatever datagrams have come, at most one frame is open: a frame holds the
pool's lock from the scope that reserved its span to the destructor of that
scope, and no second scope is granted meanwhile. So a call of `ProcessFragment`
has one of the outcomes below, and each says what it does to the frames, the
lock and the buffer.
-/
namespace FrameOutcomes

open UdpFrameDefragmentator Reassembly

/-- The two places for a frame. -/
inductive Slot where
  | current | previous
  deriving DecidableEq, Repr

def Slot.frame : Slot → UdpFrameDefragmentator → Option FrameState
  | .current, s => s.currentFrame
  | .previous, s => s.previousFrame

def Slot.created : Slot → UdpFrameDefragmentator → Nat
  | .current, s => s.currentFrameCreated
  | .previous, s => s.previousFrameCreated

def Slot.put : Slot → FrameState → UdpFrameDefragmentator → UdpFrameDefragmentator
  | .current, f, s => { s with currentFrame := some f }
  | .previous, f, s => { s with previousFrame := some f }

/-- The open frame that a fragment with this stamp belongs to. -/
def addressed (s : UdpFrameDefragmentator) (created : Nat) : Option (Slot × FrameState) :=
  if created = s.previousFrameCreated ∧ s.previousFrame.isSome then s.previousFrame.map (Prod.mk .previous)
  else if created = s.currentFrameCreated then s.currentFrame.map (Prod.mk .current)
  else none

/-- A frame with one more chunk marked. -/
def mark (f : FrameState) (chunks : FastBitSet) (created : Nat) : FrameState :=
  { f with
    receivedChunks := chunks
    receivedCount := (f.receivedCount + 1) % 0x10000
    lastActivity := created }

/-- The buffer after the datagram's bytes were copied to their place in the span. -/
def copied (s : UdpFrameDefragmentator) (span : Span) (b : CyclicBuffer) (d : Datagram) : CyclicBuffer :=
  b.copy (span.start + d.header.sequence * s.maxPayloadSize) d.data

/-- A scope with its first `n` bytes committed. -/
def committed (scope : WriterScope) (n : Nat) : WriterScope :=
  { scope with span := { scope.span with committed := n } }

def advanced (b : CyclicBuffer) (n : Nat) : CyclicBuffer :=
  { b with memory := { b.memory with offset := b.memory.offset + n } }

/-- The buffer after a new scope has committed `n` bytes and is destroyed. -/
def finish (scope : WriterScope) (b : CyclicBuffer) (n : Nat) : CyclicBuffer :=
  (committed scope n).destroy (advanced b n)

def chunkCount (s : UdpFrameDefragmentator) (size : Nat) : Nat := (size + s.maxPayloadSize - 1) / s.maxPayloadSize

/-- A frame whose scope is open, over a span of the pool. -/
structure Open (f : FrameState) (b : CyclicBuffer) : Prop where
  live : f.scope.span.Live b.memory 0
  uncommitted : f.scope.span.committed = 0
  wf : f.receivedChunks.Wf

structure Inv (s : UdpFrameDefragmentator) : Prop where
  payload : 0 < s.maxPayloadSize
  bounded : s.buffer.memory.Bounded
  idle : s.currentFrame = none → s.previousFrame = none → s.buffer.memory.inUse = false
  single : s.currentFrame = none ∨ s.previousFrame = none
  frames : ∀ (slot : Slot) f, slot.frame s = some f → Open f s.buffer

/-- A datagram that is not a message of its own. -/
def Fragment (d : Datagram) : Prop := d.header.size ≠ d.data.length

/-- A fragment that a new frame would be opened for. -/
structure Newer (s : UdpFrameDefragmentator) (d : Datagram) : Prop where
  fragment : Fragment d
  unaddressed : addressed s d.header.created = none
  newer : s.currentFrameCreated < d.header.created

inductive Outcome (s : UdpFrameDefragmentator) (d : Datagram) :
    Except UdpError Bool → UdpFrameDefragmentator → Prop where
  | wholeRefused {e : PoolError} :
      ¬ Fragment d → s.buffer.writeScope d.header.size d.header.type.toUInt64 = .error e →
      Outcome s d (.error (.pool e)) s
  | whole {scope : WriterScope} {b : CyclicBuffer} : ¬ Fragment d →
      s.buffer.writeScope d.header.size d.header.type.toUInt64 = .ok (scope, b) →
      Outcome s d (.ok true) { s with buffer := finish scope (b.copy scope.span.start d.data) d.header.size }
  | outOfRange {slot : Slot} {f : FrameState} : Fragment d → addressed s d.header.created = some (slot, f) →
      f.receivedChunks.numBits ≤ d.header.sequence → Outcome s d (.error (.bitSet .outOfRange)) s
  | duplicate {slot : Slot} {f : FrameState} : Fragment d → addressed s d.header.created = some (slot, f) →
      f.receivedChunks.getBit d.header.sequence = .ok true → Outcome s d (.ok false) s
  | accepted {slot : Slot} {f : FrameState} {chunks : FastBitSet} : Fragment d →
      addressed s d.header.created = some (slot, f) → f.receivedChunks.getBit d.header.sequence = .ok false →
      f.receivedChunks.setBit d.header.sequence = .ok chunks → chunks.isComplete = false →
      Outcome s d (.ok false)
        (slot.put (mark f chunks d.header.created) { s with buffer := copied s f.scope.span s.buffer d })
  | tooLong {slot : Slot} {f : FrameState} {chunks : FastBitSet} : Fragment d →
      addressed s d.header.created = some (slot, f) → f.receivedChunks.getBit d.header.sequence = .ok false →
      f.receivedChunks.setBit d.header.sequence = .ok chunks → chunks.isComplete = true →
      f.scope.span.size < d.header.size → Outcome s d (.error (.pool .commitExceedsSpan))
        (slot.put (mark f chunks d.header.created) { s with buffer := copied s f.scope.span s.buffer d })
  | completed {slot : Slot} {f : FrameState} {chunks : FastBitSet} : Fragment d →
      addressed s d.header.created = some (slot, f) → f.receivedChunks.getBit d.header.sequence = .ok false →
      f.receivedChunks.setBit d.header.sequence = .ok chunks → chunks.isComplete = true →
      d.header.size ≤ f.scope.span.size → Outcome s d (.ok true) { s with
        buffer := finish f.scope (copied s f.scope.span s.buffer d) d.header.size
        currentFrame := none
        previousFrame := none }
  -- the open frame keeps the lock, so no scope is granted for the new one
  | pushed {f : FrameState} {e : PoolError} : Newer s d → s.currentFrame = some f →
      s.buffer.writeScope d.header.size d.header.type.toUInt64 = .error e →
      Outcome s d (.error (.pool e)) { s with
        previousFrame := some f
        currentFrame := none
        previousFrameCreated := s.currentFrameCreated
        nextFrameMessages := 1 }
  | refused {e : PoolError} : Newer s d → s.currentFrame = none →
      s.buffer.writeScope d.header.size d.header.type.toUInt64 = .error e → Outcome s d (.error (.pool e)) s
  | noChunks : Newer s d → s.currentFrame = none → s.buffer.memory.inUse = false → d.header.size = 0 →
      Outcome s d (.error (.bitSet .sizeNotPositive)) s
  | openedOutOfRange {scope : WriterScope} {b : CyclicBuffer} {chunks : FastBitSet} :
      Newer s d → s.currentFrame = none →
      s.buffer.writeScope d.header.size d.header.type.toUInt64 = .ok (scope, b) → 0 < d.header.size →
      FastBitSet.new (chunkCount s d.header.size) = .ok chunks → chunkCount s d.header.size ≤ d.header.sequence →
      Outcome s d (.error (.bitSet .outOfRange)) { s with
        buffer := copied s scope.span b d
        currentFrame := some ⟨scope, chunks, 0, 0, chunkCount s d.header.size % 0x10000⟩
        currentFrameCreated := d.header.created }
  | opened {scope : WriterScope} {b : CyclicBuffer} {chunks chunks' : FastBitSet} :
      Newer s d → s.currentFrame = none →
      s.buffer.writeScope d.header.size d.header.type.toUInt64 = .ok (scope, b) → 0 < d.header.size →
      FastBitSet.new (chunkCount s d.header.size) = .ok chunks → d.header.sequence < chunkCount s d.header.size →
      chunks.setBit d.header.sequence = .ok chunks' → Outcome s d (.ok false) { s with
        buffer := copied s scope.span b d
        currentFrame :=
          some (mark ⟨scope, chunks, 0, 0, chunkCount s d.header.size % 0x10000⟩ chunks' d.header.created)
        currentFrameCreated := d.header.created }
  | stale : Fragment d → addressed s d.header.created = none → d.header.created ≤ s.currentFrameCreated →
      Outcome s d (.ok false) (s.countStale d.header)

variable {s t : UdpFrameDefragmentator} {d : Datagram} {slot : Slot} {f : FrameState} {chunks : FastBitSet}

theorem addressed_some (h : addressed s d.header.created = some (slot, f)) :
    slot.frame s = some f ∧ d.header.created = slot.created s := by
  rw [addressed] at h
  by_cases hprevious : d.header.created = s.previousFrameCreated ∧ s.previousFrame.isSome
  · rw [if_pos hprevious, Option.map_eq_some_iff] at h
    obtain ⟨g, hg, he⟩ := h
    cases he
    exact ⟨hg, hprevious.1⟩
  · rw [if_neg hprevious] at h
    by_cases hcurrent : d.header.created = s.currentFrameCreated
    · rw [if_pos hcurrent, Option.map_eq_some_iff] at h
      obtain ⟨g, hg, he⟩ := h
      cases he
      exact ⟨hg, hcurrent⟩
    · rw [if_neg hcurrent] at h
      cases h

/-- The lock is held exactly while a frame is open. -/
theorem locked_iff (h : Inv s) : s.buffer.memory.inUse = true ↔
    s.currentFrame ≠ none ∨ s.previousFrame ≠ none := by
  constructor
  · intro hlocked
    by_contra hnone
    rw [not_or, not_not, not_not] at hnone
    rw [h.idle hnone.1 hnone.2] at hlocked
    cases hlocked
  · rintro (hcurrent | hprevious)
    · obtain ⟨f, hf⟩ := Option.ne_none_iff_exists'.mp hcurrent
      exact (h.frames .current f hf).live.locked
    · obtain ⟨f, hf⟩ := Option.ne_none_iff_exists'.mp hprevious
      exact (h.frames .previous f hf).live.locked

/-- The frame that is open is the only one. -/
theorem only_frame (h : Inv s) (hf : slot.frame s = some f) :
    (slot = .current ∧ s.currentFrame = some f ∧ s.previousFrame = none) ∨
      (slot = .previous ∧ s.currentFrame = none ∧ s.previousFrame = some f) := by
  cases slot with
  | current =>
    have hcurrent : s.currentFrame = some f := hf
    exact Or.inl ⟨rfl, hcurrent, h.single.resolve_left (by rw [hcurrent]; exact Option.some_ne_none f)⟩
  | previous =>
    have hprevious : s.previousFrame = some f := hf
    exact Or.inr ⟨rfl, h.single.resolve_right (by rw [hprevious]; exact Option.some_ne_none f), hprevious⟩

theorem frame_unique {slot' : Slot} {g : FrameState} (h : Inv s) (hf : slot.frame s = some f)
    (hg : slot'.frame s = some g) : slot' = slot ∧ g = f := by
  obtain ⟨rfl, hcurrent, hprevious⟩ | ⟨rfl, hcurrent, hprevious⟩ := only_frame h hf
  · obtain ⟨rfl, hg', -⟩ | ⟨rfl, -, hg'⟩ := only_frame h hg
    · rw [hcurrent, Option.some.injEq] at hg'
      exact ⟨rfl, hg'.symm⟩
    · rw [hprevious] at hg'
      cases hg'
  · obtain ⟨rfl, hg', -⟩ | ⟨rfl, -, hg'⟩ := only_frame h hg
    · rw [hcurrent] at hg'
      cases hg'
    · rw [hprevious, Option.some.injEq] at hg'
      exact ⟨rfl, hg'.symm⟩

/-- A scope that has committed nothing yet commits what fits its span. -/
theorem commit_eq {scope : WriterScope} {b : CyclicBuffer} {m : Nat} (hb : b.memory.Bounded)
    (hlive : scope.span.Live b.memory m) (hzero : scope.span.committed = 0) (n : Nat) :
    scope.commit b n =
      if scope.span.size < n then .error .commitExceedsSpan else .ok (committed scope n, advanced b n) := by
  have hcommit : scope.span.commit b.memory n = _ := Span.commit_of_live hb hlive
  rw [hzero, Nat.zero_add] at hcommit
  rw [WriterScope.commit, hcommit]
  by_cases hlong : scope.span.size < n
  · simp only [hlong, ↓reduceIte]
  · simp only [hlong, ↓reduceIte]
    rfl

theorem live_copied {span : Span} {b : CyclicBuffer} {m : Nat} (h : span.Live b.memory m) (position : Nat)
    (data : List UInt8) : span.Live (b.copy position data).memory m :=
  ⟨h.locked, h.bound, h.long, h.committed_le, h.offset_eq⟩

theorem bounded_copied {b : CyclicBuffer} (h : b.memory.Bounded) (position : Nat) (data : List UInt8) :
    (b.copy position data).memory.Bounded := ⟨h.offset_le, h.size_lt⟩

section Calls

/-! How the code arrives at each outcome. -/

variable {put : FrameState → UdpFrameDefragmentator → UdpFrameDefragmentator}

theorem processFrameFragment_outOfRange (hk : f.receivedChunks.numBits ≤ d.header.sequence) :
    processFrameFragment put s f d.header d.data = (.error (.bitSet .outOfRange), s) := by
  have hget : f.receivedChunks.getBit d.header.sequence = .error .outOfRange := if_pos hk
  rw [processFrameFragment, hget]

theorem processFrameFragment_duplicate (hget : f.receivedChunks.getBit d.header.sequence = .ok true) :
    processFrameFragment put s f d.header d.data = (.ok false, s) := by
  rw [processFrameFragment, hget]

theorem writeChunk_set (p : Nat) (f : FrameState) (b : CyclicBuffer)
    (hset : f.receivedChunks.setBit d.header.sequence = .ok chunks) : writeChunk p f b d.header d.data =
      (.ok (), mark f chunks d.header.created, b.copy (f.scope.span.start + d.header.sequence * p) d.data) := by
  rw [writeChunk, hset]
  rfl

theorem writeChunk_refused (p : Nat) (f : FrameState) (b : CyclicBuffer)
    (hk : f.receivedChunks.numBits ≤ d.header.sequence) : writeChunk p f b d.header d.data =
      (.error (.bitSet .outOfRange), f, b.copy (f.scope.span.start + d.header.sequence * p) d.data) := by
  rw [writeChunk, FastBitSet.setBit_refused hk]

theorem processFrameFragment_accepted (hget : f.receivedChunks.getBit d.header.sequence = .ok false)
    (hset : f.receivedChunks.setBit d.header.sequence = .ok chunks) (hopen : chunks.isComplete = false) :
    processFrameFragment put s f d.header d.data = (.ok false,
      put (mark f chunks d.header.created) { s with buffer := copied s f.scope.span s.buffer d }) := by
  have hframe : (mark f chunks d.header.created).isComplete = false := hopen
  rw [processFrameFragment, hget]
  simp only [writeChunk_set _ _ _ hset, hframe]
  rfl

theorem processFrameFragment_tooLong {e : PoolError} (hget : f.receivedChunks.getBit d.header.sequence = .ok false)
    (hset : f.receivedChunks.setBit d.header.sequence = .ok chunks) (hcomplete : chunks.isComplete = true)
    (hcommit : f.scope.commit (copied s f.scope.span s.buffer d) d.header.size = .error e) :
    processFrameFragment put s f d.header d.data = (.error (.pool e),
      put (mark f chunks d.header.created) { s with buffer := copied s f.scope.span s.buffer d }) := by
  have hframe : (mark f chunks d.header.created).isComplete = true := hcomplete
  have hcommit' : (mark f chunks d.header.created).scope.commit
      (s.buffer.copy (f.scope.span.start + d.header.sequence * s.maxPayloadSize) d.data) d.header.size =
        .error e := hcommit
  rw [processFrameFragment, hget]
  simp only [writeChunk_set _ _ _ hset, hframe, hcommit', ↓reduceIte]
  rfl

theorem processFrameFragment_completed {scope : WriterScope} {b : CyclicBuffer}
    (hget : f.receivedChunks.getBit d.header.sequence = .ok false)
    (hset : f.receivedChunks.setBit d.header.sequence = .ok chunks) (hcomplete : chunks.isComplete = true)
    (hcommit : f.scope.commit (copied s f.scope.span s.buffer d) d.header.size = .ok (scope, b)) :
    processFrameFragment put s f d.header d.data = (.ok true,
      (put { mark f chunks d.header.created with scope := scope } { s with buffer := b }).resetCurrent) := by
  have hframe : (mark f chunks d.header.created).isComplete = true := hcomplete
  have hcommit' : (mark f chunks d.header.created).scope.commit
      (s.buffer.copy (f.scope.span.start + d.header.sequence * s.maxPayloadSize) d.data) d.header.size =
        .ok (scope, b) :=
    hcommit
  rw [processFrameFragment, hget]
  simp only [writeChunk_set _ _ _ hset, hframe, hcommit', ↓reduceIte]

end Calls


/-- A fragment of an open frame that does not complete it. -/
theorem addressed_call {r : Except UdpError Bool} (h : Inv s) (hd : Fragment d)
    (ha : addressed s d.header.created = some (slot, f)) (hr : r ≠ .ok true)
    (hcall : processFrameFragment slot.put s f d.header d.data = (r, t)) : s.processFragment d = (r, t) := by
  obtain ⟨hf, hcreated⟩ := addressed_some ha
  obtain ⟨rfl, hcurrent, hprevious⟩ | ⟨rfl, hcurrent, hprevious⟩ := only_frame h hf
  · have hcall : processFrameFragment (fun frame s => { s with currentFrame := some frame }) s f d.header d.data =
        (r, t) := hcall
    have hcreated : d.header.created = s.currentFrameCreated := hcreated
    rw [processFragment, if_neg hd, hprevious]
    simp only [currentFragment, hcurrent, hcreated, ↓reduceIte, hcall]
  · have hcall : processFrameFragment (fun frame s => { s with previousFrame := some frame }) s f d.header d.data =
        (r, t) := hcall
    have hcreated : d.header.created = s.previousFrameCreated := hcreated
    rw [processFragment, if_neg hd, hprevious]
    simp only [hcreated, ↓reduceIte, hcall]

/-- The fragment that completes the open frame publishes it, and no frame is left. -/
theorem addressed_completed {scope : WriterScope} {b : CyclicBuffer} {g : FrameState} (h : Inv s) (hd : Fragment d)
    (ha : addressed s d.header.created = some (slot, f)) (hg : g.scope = scope)
    (hcall : processFrameFragment slot.put s f d.header d.data =
      (.ok true, (slot.put g { s with buffer := b }).resetCurrent)) :
    s.processFragment d =
      (.ok true, { s with buffer := scope.destroy b, currentFrame := none, previousFrame := none }) := by
  obtain ⟨hf, hcreated⟩ := addressed_some ha
  subst hg
  obtain ⟨rfl, hcurrent, hprevious⟩ | ⟨rfl, hcurrent, hprevious⟩ := only_frame h hf
  · have hcall : processFrameFragment (fun frame s => { s with currentFrame := some frame }) s f d.header d.data =
        (.ok true, { s with buffer := g.scope.destroy b, currentFrame := none }) := hcall
    have hcreated : d.header.created = s.currentFrameCreated := hcreated
    rw [processFragment, if_neg hd, hprevious]
    simp only [currentFragment, hcurrent, hcreated, ↓reduceIte]
    rw [hcall, ← hprevious]
  · have hreset : (Slot.previous.put g { s with buffer := b }).resetCurrent =
        { s with buffer := b, previousFrame := some g } := by
      rw [resetCurrent]
      simp only [Slot.put, hcurrent]
    have hcall : processFrameFragment (fun frame s => { s with previousFrame := some frame }) s f d.header d.data =
        (.ok true, { s with buffer := b, previousFrame := some g }) := by
      rw [← hreset]
      exact hcall
    have hcreated : d.header.created = s.previousFrameCreated := hcreated
    rw [processFragment, if_neg hd, hprevious]
    simp only [hcreated, ↓reduceIte, hcall]
    rw [resetPrevious]
    simp only [hcurrent]

/-- A fragment of no frame goes to a new one, or is counted. -/
theorem unaddressed_call (hd : Fragment d) (ha : addressed s d.header.created = none) : s.processFragment d =
    if s.currentFrameCreated < d.header.created then s.newFrame d.header d.data
      else (.ok false, s.countStale d.header) := by
  have hcurrent : s.currentFragment d.header d.data =
      if s.currentFrameCreated < d.header.created then s.newFrame d.header d.data
      else (.ok false, s.countStale d.header) := by
    rw [currentFragment]
    cases hf : s.currentFrame with
    | none => rfl
    | some f =>
      have hne : ¬ d.header.created = s.currentFrameCreated := by
        intro he
        rw [addressed, hf] at ha
        split at ha
        · rename_i hprevious
          obtain ⟨g, hg⟩ := Option.isSome_iff_exists.mp hprevious.2
          rw [hg] at ha
          cases ha
        · cases ha
      simp only [hne, ↓reduceIte]
  rw [processFragment, if_neg hd]
  cases hf : s.previousFrame with
  | none => exact hcurrent
  | some f =>
    have hne : ¬ d.header.created = s.previousFrameCreated := by
      intro he
      rw [addressed, hf, if_pos ⟨he, rfl⟩] at ha
      cases ha
    simp only [hne, ↓reduceIte]
    exact hcurrent

/-- The scope that a new frame gets is open over the pool. -/
theorem scope_opened {b : CyclicBuffer} {scope : WriterScope} {n : Nat} {type : UInt64} (hb : s.buffer.memory.Bounded)
    (h : s.buffer.writeScope n type = .ok (scope, b)) :
    s.buffer.memory.inUse = false ∧ n ≤ s.buffer.memory.size ∧ b.memory.Bounded ∧
      scope.span.Live b.memory n ∧
      scope.span.committed = 0 ∧ ∃ memory, b = { s.buffer with memory := memory } := by
  rw [CyclicBuffer.writeScope] at h
  cases hspan : s.buffer.memory.getWriteSpan n with
  | error e =>
    rw [hspan] at h
    cases h
  | ok r =>
    rw [hspan] at h
    cases h
    obtain ⟨hbounded, hlive⟩ := Span.live_of_getWriteSpan hb hspan
    obtain ⟨hn, hfree, hcases⟩ := CyclicMemoryPool.getWriteSpan_ok hspan
    refine ⟨hfree, hn, hbounded, hlive, ?_, r.2, rfl⟩
    obtain ⟨-, he, -⟩ | ⟨-, he, -⟩ := hcases <;> rw [he]

theorem chunkCount_zero (h : Inv s) (n : Nat) : chunkCount s n = 0 ↔ n = 0 := by
  have hp := h.payload
  rw [chunkCount, Nat.div_eq_zero_iff]
  omega

/-- A scope for no bytes leaves the pool as it was. -/
theorem destroy_empty {b : CyclicBuffer} {scope : WriterScope} {type : UInt64}
    (h : s.buffer.writeScope 0 type = .ok (scope, b)) : scope.destroy b = s.buffer := by
  rw [CyclicBuffer.writeScope] at h
  cases hspan : s.buffer.memory.getWriteSpan 0 with
  | error e =>
    rw [hspan] at h
    cases h
  | ok r =>
    rw [hspan] at h
    cases h
    obtain ⟨-, hfree, ⟨-, hs, hm⟩ | ⟨hlt, -⟩⟩ := CyclicMemoryPool.getWriteSpan_ok hspan
    · rw [WriterScope.destroy_uncommitted _ _ (by simp only [hs])]
      simp only [hm, CyclicMemoryPool.release, ← hfree]
    · exact absurd hlt (Nat.not_lt_zero _)

theorem newer_call (hn : Newer s d) : s.processFragment d = s.newFrame d.header d.data := by
  rw [unaddressed_call hn.fragment hn.unaddressed, if_pos hn.newer]

theorem newFrame_ok {t : UdpFrameDefragmentator} (hcurrent : s.currentFrame = none)
    (h : s.initializeNewFrame d.header d.data = (.ok (), t)) : s.newFrame d.header d.data = (.ok false, t) := by
  rw [newFrame]
  simp only [hcurrent, h]

theorem newFrame_error {e : UdpError} {t : UdpFrameDefragmentator} (hcurrent : s.currentFrame = none)
    (h : s.initializeNewFrame d.header d.data = (.error e, t)) : s.newFrame d.header d.data = (.error e, t) := by
  rw [newFrame]
  simp only [hcurrent, h]

/-- A new frame over a granted span: the chunk is copied, then marked or refused. -/
theorem initializeNewFrame_granted {scope : WriterScope} {b b' : CyclicBuffer} {result : Except UdpError Unit}
    {g : FrameState} (hcurrent : s.currentFrame = none)
    (hscope : s.buffer.writeScope d.header.size d.header.type.toUInt64 = .ok (scope, b))
    (hnew : FastBitSet.new (chunkCount s d.header.size) = .ok chunks)
    (hwrite : writeChunk s.maxPayloadSize
      ⟨scope, chunks, 0, 0, chunkCount s d.header.size % 0x10000⟩ b d.header d.data =
      (result, g, b')) : s.initializeNewFrame d.header d.data =
      (result, { s with buffer := b', currentFrame := some g, currentFrameCreated := d.header.created }) := by
  have hreset : resetCurrent { s with buffer := b } = { s with buffer := b } := by
    rw [resetCurrent]
    simp only [hcurrent]
  rw [chunkCount] at hnew hwrite
  rw [initializeNewFrame, hscope]
  simp only [hnew, hreset, hwrite]

theorem new_chunks (h : Inv s) {n : Nat} (hpos : 0 < n) (hnew : FastBitSet.new (chunkCount s n) = .ok chunks) :
    chunks.Wf ∧ chunks.numBits = chunkCount s n ∧ ∀ k, k < chunkCount s n → chunks.bit k = false := by
  have hcount : 0 < chunkCount s n := Nat.pos_of_ne_zero fun he => by
    have := (chunkCount_zero h n).mp he
    omega
  obtain ⟨chunks', hnew', hspec⟩ := FastBitSet.new_ok hcount
  rw [hnew, Except.ok.injEq] at hnew'
  subst hnew'
  exact hspec

/-- The commit of an open frame's scope, after the last copy. -/
theorem commit_copied (h : Inv s) (ha : addressed s d.header.created = some (slot, f)) (n : Nat) :
    f.scope.commit (copied s f.scope.span s.buffer d) n =
      if f.scope.span.size < n then .error .commitExceedsSpan
      else .ok (committed f.scope n, advanced (copied s f.scope.span s.buffer d) n) := by
  have hopen := h.frames slot f (addressed_some ha).1
  exact commit_eq (bounded_copied h.bounded _ _) (live_copied hopen.live _ _) hopen.uncommitted n

/-- An outcome is what the call computes. -/
theorem call_of {r : Except UdpError Bool} (h : Inv s) (ho : Outcome s d r t) : s.processFragment d = (r, t) := by
  cases ho with
  | wholeRefused hd hscope =>
    rw [processFragment, if_pos (not_not.mp hd), wholeMessage]
    simp only [hscope]
  | @whole scope b hd hscope =>
    obtain ⟨-, -, hbounded, hlive, hzero, -⟩ := scope_opened h.bounded hscope
    have hlong := hlive.long
    have hcommit := commit_eq (bounded_copied hbounded scope.span.start d.data)
      (live_copied hlive scope.span.start d.data) hzero d.header.size
    rw [if_neg (by omega)] at hcommit
    rw [processFragment, if_pos (not_not.mp hd), wholeMessage]
    simp only [hscope, hcommit]
    rfl
  | outOfRange hd ha hk => exact addressed_call h hd ha (by simp) (processFrameFragment_outOfRange hk)
  | duplicate hd ha hget => exact addressed_call h hd ha (by simp) (processFrameFragment_duplicate hget)
  | accepted hd ha hget hset hopen =>
    exact addressed_call h hd ha (by simp) (processFrameFragment_accepted hget hset hopen)
  | @tooLong slot f chunks hd ha hget hset hcomplete hlong =>
    have hcommit := (commit_copied h ha d.header.size).trans (if_pos hlong)
    exact addressed_call h hd ha (by simp) (processFrameFragment_tooLong hget hset hcomplete hcommit)
  | @completed slot f chunks hd ha hget hset hcomplete hsize =>
    have hcommit := (commit_copied h ha d.header.size).trans (if_neg (Nat.not_lt.mpr hsize))
    exact addressed_completed h hd ha rfl (processFrameFragment_completed hget hset hcomplete hcommit)
  | @pushed f e hn hf hscope =>
    have hcurrent : Slot.current.frame s = some f := hf
    obtain ⟨-, -, hprevious⟩ | ⟨hslot, -⟩ := only_frame h hcurrent
    · have hreset : s.resetPrevious = s := by
        rw [resetPrevious]
        simp only [hprevious]
      rw [newer_call hn, newFrame]
      simp only [hf, hreset, initializeNewFrame, hscope]
    · cases hslot
  | refused hn hcurrent hscope =>
    rw [newer_call hn]
    apply newFrame_error hcurrent
    rw [initializeNewFrame]
    simp only [hscope]
  | noChunks hn hcurrent hfree hsize =>
    obtain ⟨span, memory, hspan⟩ := CyclicMemoryPool.getWriteSpan_granted (Nat.zero_le s.buffer.memory.size) hfree
    have hscope : s.buffer.writeScope 0 d.header.type.toUInt64 =
        .ok (⟨span, d.header.type.toUInt64⟩, { s.buffer with memory := memory }) := by
      rw [CyclicBuffer.writeScope, hspan]
    have hnew : FastBitSet.new (chunkCount s 0) = .error .sizeNotPositive := if_pos ((chunkCount_zero h 0).mpr rfl)
    rw [chunkCount] at hnew
    rw [newer_call hn]
    apply newFrame_error hcurrent
    rw [initializeNewFrame, hsize, hscope]
    simp only [hnew, destroy_empty hscope]
  | @openedOutOfRange scope b chunks hn hcurrent hscope hpos hnew hk =>
    have hout : chunks.numBits ≤ d.header.sequence := by
      rw [(new_chunks h hpos hnew).2.1]
      exact hk
    rw [newer_call hn]
    exact newFrame_error hcurrent (initializeNewFrame_granted hcurrent hscope hnew
      (writeChunk_refused _ (⟨scope, chunks, 0, 0, chunkCount s d.header.size % 0x10000⟩ : FrameState) b hout))
  | @opened scope b chunks chunks' hn hcurrent hscope hpos hnew hk hset =>
    rw [newer_call hn]
    exact newFrame_ok hcurrent (initializeNewFrame_granted hcurrent hscope hnew
      (writeChunk_set _ (⟨scope, chunks, 0, 0, chunkCount s d.header.size % 0x10000⟩ : FrameState) b hset))
  | stale hd ha hold => rw [unaddressed_call hd ha, if_neg (Nat.not_lt.mpr hold)]

/-- A fragment of the open frame. -/
theorem addressed_outcome (h : Inv s) (hd : Fragment d) (ha : addressed s d.header.created = some (slot, f)) :
    ∃ r t, Outcome s d r t := by
  have hopen := h.frames slot f (addressed_some ha).1
  by_cases hk : d.header.sequence < f.receivedChunks.numBits
  · cases hbit : f.receivedChunks.bit d.header.sequence with
    | true => exact ⟨_, _, .duplicate hd ha (by rw [FastBitSet.getBit_ok hk, hbit])⟩
    | false =>
      have hget : f.receivedChunks.getBit d.header.sequence = .ok false := by rw [FastBitSet.getBit_ok hk, hbit]
      obtain ⟨chunks, hset, -⟩ := FastBitSet.setBit_ok hopen.wf hk
      cases hcomplete : chunks.isComplete with
      | false => exact ⟨_, _, .accepted hd ha hget hset hcomplete⟩
      | true =>
        by_cases hlong : f.scope.span.size < d.header.size
        · exact ⟨_, _, .tooLong hd ha hget hset hcomplete hlong⟩
        · exact ⟨_, _, .completed hd ha hget hset hcomplete (Nat.not_lt.mp hlong)⟩
  · exact ⟨_, _, .outOfRange hd ha (Nat.not_lt.mp hk)⟩

/-- A fragment that a frame should be opened for, with no current frame. -/
theorem opening_outcome (h : Inv s) (hn : Newer s d) (hcurrent : s.currentFrame = none) :
    ∃ r t, Outcome s d r t := by
  cases hscope : s.buffer.writeScope d.header.size d.header.type.toUInt64 with
  | error e => exact ⟨_, _, .refused hn hcurrent hscope⟩
  | ok r =>
    obtain ⟨scope, b⟩ := r
    obtain ⟨hfree, -⟩ := scope_opened h.bounded hscope
    by_cases hsize : d.header.size = 0
    · exact ⟨_, _, .noChunks hn hcurrent hfree hsize⟩
    · have hpos := Nat.pos_of_ne_zero hsize
      obtain ⟨chunks, hnew, -⟩ := FastBitSet.new_ok
        (Nat.pos_of_ne_zero fun he => hsize ((chunkCount_zero h d.header.size).mp he))
      obtain ⟨hwf, hbits, -⟩ := new_chunks h hpos hnew
      by_cases hk : d.header.sequence < chunkCount s d.header.size
      · obtain ⟨chunks', hset, -⟩ := FastBitSet.setBit_ok hwf (hbits.symm ▸ hk)
        exact ⟨_, _, .opened hn hcurrent hscope hpos hnew hk hset⟩
      · exact ⟨_, _, .openedOutOfRange hn hcurrent hscope hpos hnew (Nat.not_lt.mp hk)⟩

/-- Every call has one of the outcomes. -/
theorem outcome (h : Inv s) (d : Datagram) : ∃ r t, s.processFragment d = (r, t) ∧ Outcome s d r t := by
  have hany : ∃ r t, Outcome s d r t := by
    by_cases hd : Fragment d
    · cases ha : addressed s d.header.created with
      | some a => exact addressed_outcome h hd ha
      | none =>
        by_cases hnew : s.currentFrameCreated < d.header.created
        · cases hcurrent : s.currentFrame with
          | none => exact opening_outcome h ⟨hd, ha, hnew⟩ hcurrent
          | some f =>
            obtain ⟨e, hscope⟩ := writeScope_locked (n := d.header.size) (h.frames .current f hcurrent).live.locked
              d.header.type.toUInt64
            exact ⟨_, _, .pushed ⟨hd, ha, hnew⟩ hcurrent hscope⟩
        · exact ⟨_, _, .stale hd ha (Nat.not_lt.mp hnew)⟩
    · cases hscope : s.buffer.writeScope d.header.size d.header.type.toUInt64 with
      | error e => exact ⟨_, _, .wholeRefused hd hscope⟩
      | ok r => exact ⟨_, _, .whole hd hscope⟩
  obtain ⟨r, t, ho⟩ := hany
  exact ⟨r, t, call_of h ho, ho⟩

/-- Without two frames a stale fragment is only counted. -/
theorem countStale_same (h : Inv s) (header : UdpReplicationMessageHeader) :
    ∃ n, s.countStale header = { s with nextFrameMessages := n } := by
  rcases h.single with hcurrent | hprevious
  · refine ⟨s.nextFrameMessages, ?_⟩
    rw [countStale, if_neg (by simp [hcurrent])]
  · exact countStale_eq hprevious header

/-- What a scope that is done leaves: the lock is free. -/
theorem finish_memory {scope : WriterScope} {b : CyclicBuffer} {n m : Nat} (hb : b.memory.Bounded)
    (hlive : scope.span.Live b.memory m) (hzero : scope.span.committed = 0) (hn : n ≤ scope.span.size) :
    (finish scope b n).memory.Bounded ∧ (finish scope b n).memory.inUse = false := by
  have hoffset := hlive.offset_eq
  have hbound := hlive.bound
  rw [finish, WriterScope.destroy_memory]
  refine ⟨⟨?_, hb.size_lt⟩, rfl⟩
  change b.memory.offset + n ≤ b.memory.size
  omega

theorem frames_none {s : UdpFrameDefragmentator} {I : FrameState → Prop} (hcurrent : s.currentFrame = none)
    (hprevious : s.previousFrame = none) : ∀ (slot : Slot) f, slot.frame s = some f → I f := by
  intro slot f hf
  cases slot with
  | current =>
    have hf : s.currentFrame = some f := hf
    rw [hcurrent] at hf
    cases hf
  | previous =>
    have hf : s.previousFrame = some f := hf
    rw [hprevious] at hf
    cases hf

/-- While the lock is free no frame is open. -/
theorem no_frames (h : Inv s) (hfree : s.buffer.memory.inUse = false) :
    s.currentFrame = none ∧ s.previousFrame = none := by
  have hnot : ¬ (s.currentFrame ≠ none ∨ s.previousFrame ≠ none) := by
    rw [← locked_iff h, hfree]
    simp
  rw [not_or, not_not, not_not] at hnot
  exact hnot

/-- A frame put back with another chunk marked. -/
theorem inv_put (h : Inv s) (hf : slot.frame s = some f)
    (hset : f.receivedChunks.setBit d.header.sequence = .ok chunks) :
    Inv (slot.put (mark f chunks d.header.created) { s with buffer := copied s f.scope.span s.buffer d }) := by
  have hopen := h.frames slot f hf
  obtain ⟨hwf, -⟩ := FastBitSet.setBit_spec hopen.wf hset
  have hmarked : Open (mark f chunks d.header.created) (copied s f.scope.span s.buffer d) :=
    ⟨live_copied hopen.live _ _, hopen.uncommitted, hwf⟩
  obtain ⟨rfl, hcurrent, hprevious⟩ | ⟨rfl, hcurrent, hprevious⟩ := only_frame h hf
  · refine ⟨h.payload, bounded_copied h.bounded _ _, fun hnone => (by cases hnone), Or.inr hprevious, ?_⟩
    intro slot g hg
    cases slot with
    | current =>
      cases hg
      exact hmarked
    | previous =>
      have hg : s.previousFrame = some g := hg
      rw [hprevious] at hg
      cases hg
  · refine ⟨h.payload, bounded_copied h.bounded _ _, fun _ hnone => (by cases hnone), Or.inl hcurrent, ?_⟩
    intro slot g hg
    cases slot with
    | current =>
      have hg : s.currentFrame = some g := hg
      rw [hcurrent] at hg
      cases hg
    | previous =>
      cases hg
      exact hmarked

/-- A frame opened in the current place. -/
theorem inv_opened {b : CyclicBuffer} {scope : WriterScope} {g : FrameState} (h : Inv s)
    (hscope : s.buffer.writeScope d.header.size d.header.type.toUInt64 = .ok (scope, b)) (hg : g.scope = scope)
    (hwf : g.receivedChunks.Wf) : Inv { s with
      buffer := copied s scope.span b d
      currentFrame := some g
      currentFrameCreated := d.header.created } := by
  obtain ⟨hfree, -, hbounded, hlive, hzero, -⟩ := scope_opened h.bounded hscope
  obtain ⟨-, hprevious⟩ := no_frames h hfree
  refine ⟨h.payload, bounded_copied hbounded _ _, fun hnone => (by cases hnone), Or.inr hprevious, ?_⟩
  intro slot f hf
  cases slot with
  | current =>
    cases hf
    rw [← hg] at hlive hzero
    exact ⟨⟨hlive.locked, hlive.bound, Nat.zero_le _, hlive.committed_le, hlive.offset_eq⟩, hzero, hwf⟩
  | previous =>
    have hf : s.previousFrame = some f := hf
    rw [hprevious] at hf
    cases hf

/-- Every outcome keeps the invariant. -/
theorem inv_outcome {r : Except UdpError Bool} (h : Inv s) (ho : Outcome s d r t) : Inv t := by
  cases ho with
  | wholeRefused | outOfRange | duplicate | refused | noChunks => exact h
  | whole hd hscope =>
    obtain ⟨hfree, -, hbounded, hlive, hzero, -⟩ := scope_opened h.bounded hscope
    obtain ⟨hcurrent, hprevious⟩ := no_frames h hfree
    obtain ⟨hbounded', hfree'⟩ := finish_memory (bounded_copied hbounded _ _)
      (live_copied hlive _ _) hzero hlive.long
    exact ⟨h.payload, hbounded', fun _ _ => hfree', h.single, frames_none hcurrent hprevious⟩
  | accepted hd ha hget hset hopen => exact inv_put h (addressed_some ha).1 hset
  | tooLong hd ha hget hset hcomplete hlong => exact inv_put h (addressed_some ha).1 hset
  | completed hd ha hget hset hcomplete hsize =>
    have hopen := h.frames _ _ (addressed_some ha).1
    obtain ⟨hbounded', hfree'⟩ := finish_memory (bounded_copied h.bounded _ _) (live_copied hopen.live _ _)
      hopen.uncommitted hsize
    exact ⟨h.payload, hbounded', fun _ _ => hfree', Or.inl rfl, frames_none rfl rfl⟩
  | pushed hn hf hscope =>
    have hopen := h.frames .current _ hf
    refine ⟨h.payload, h.bounded, fun _ hnone => (by cases hnone), Or.inl rfl, ?_⟩
    intro slot g hg
    cases slot with
    | current => cases hg
    | previous =>
      cases hg
      exact hopen
  | openedOutOfRange hn hcurrent hscope hpos hnew hk => exact inv_opened h hscope rfl (new_chunks h hpos hnew).1
  | opened hn hcurrent hscope hpos hnew hk hset =>
    exact inv_opened h hscope rfl (FastBitSet.setBit_spec (new_chunks h hpos hnew).1 hset).1
  | stale hd ha hold =>
    obtain ⟨n, hn⟩ := countStale_same h d.header
    rw [hn]
    exact ⟨h.payload, h.bounded, h.idle, h.single, fun slot g hg => h.frames slot g (by cases slot <;> exact hg)⟩

/-- A buffer nobody is writing to, and an MTU that leaves room for a payload. -/
structure Ready (buffer : CyclicBuffer) (mtu : Nat) : Prop where
  free : buffer.memory.inUse = false
  bounded : buffer.memory.Bounded
  payload : 16 < mtu

/-- The invariant holds after every row of datagrams. -/
theorem inv_after {buffer : CyclicBuffer} {mtu : Nat} (h : Ready buffer mtu) (ds : List Datagram) :
    Inv (after (.new buffer mtu) ds) := by
  have hstart : Inv (.new buffer mtu) := by
    refine ⟨?_, h.bounded, fun _ _ => h.free, Or.inl rfl, frames_none rfl rfl⟩
    have := h.payload
    change 0 < mtu - 16
    omega
  have hrun : ∀ (ds : List Datagram) {s : UdpFrameDefragmentator}, Inv s → Inv (after s ds) := by
    intro ds
    induction ds with
    | nil => exact fun hs => hs
    | cons d ds ih =>
      intro s hs
      obtain ⟨r, t, hcall, ho⟩ := outcome hs d
      have hafter : after s (d :: ds) = after t ds := by
        rw [after, after, List.foldl_cons, hcall]
      rw [hafter]
      exact ih (inv_outcome hs ho)
  exact hrun ds hstart

end FrameOutcomes
