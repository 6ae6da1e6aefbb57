import ZeroCopyRpc.FrameOutcomes

/-!
# What a call promises about the lock, its result and its failure

The states are those that any row of datagrams leads to, over a buffer that the
defragmentator alone writes to. A copy past the end of a span changes pool bytes
and nothing else.
-/
namespace FrameContracts

open FrameOutcomes Reassembly Words

def Reachable (s : UdpFrameDefragmentator) : Prop :=
  ∃ buffer mtu ds, Ready buffer mtu ∧ s = after (.new buffer mtu) ds

/-- The fragment is the only one that its frame still misses. -/
structure Completes (s : UdpFrameDefragmentator) (d : Datagram) (slot : Slot) (f : FrameState) : Prop where
  fragment : Fragment d
  addressed : addressed s d.header.created = some (slot, f)
  missing : f.receivedChunks.getBit d.header.sequence = .ok false
  others : ∀ j, j < f.receivedChunks.numBits → j ≠ d.header.sequence → f.receivedChunks.getBit j = .ok true

/-- Four entries over 8192 payload bytes. -/
def emptyBuffer : CyclicBuffer := .new 4 8192 (fun _ => ⟨0, 0, 0⟩) (fun _ => 0)

/-- A message of 3000 bytes of which one short fragment has come. -/
def oneFragment : UdpFrameDefragmentator := after (.new emptyBuffer 1500) [⟨⟨1, 3000, 0, 7⟩, [1, 2, 3]⟩]

variable {s t : UdpFrameDefragmentator} {d : Datagram} {slot : Slot} {f : FrameState} {chunks : FastBitSet}

theorem inv_reachable (h : Reachable s) : Inv s := by
  obtain ⟨buffer, mtu, ds, hready, rfl⟩ := h
  exact inv_after hready ds

theorem reachable_empty (ds : List Datagram) : Reachable (after (.new emptyBuffer 1500) ds) :=
  ⟨emptyBuffer, 1500, ds, ⟨rfl, CyclicMemoryPool.new_bounded (by decide) _, by decide⟩, rfl⟩

theorem completes_of_set (h : Inv s) (hd : Fragment d) (ha : addressed s d.header.created = some (slot, f))
    (hget : f.receivedChunks.getBit d.header.sequence = .ok false)
    (hset : f.receivedChunks.setBit d.header.sequence = .ok chunks) (hcomplete : chunks.isComplete = true) :
    Completes s d slot f :=
  ⟨hd, ha, hget, (FastBitSet.isComplete_set (h.frames slot f (addressed_some ha).1).wf hset).mp hcomplete⟩

/-- A fragment that leaves its frame open completes none. -/
theorem not_completes (h : Inv s) (ha : addressed s d.header.created = some (slot, f))
    (hset : f.receivedChunks.setBit d.header.sequence = .ok chunks) (hopen : chunks.isComplete = false) {slot' : Slot}
    {g : FrameState} : ¬ Completes s d slot' g := by
  intro hc
  have he := hc.addressed
  rw [ha] at he
  cases he
  rw [(FastBitSet.isComplete_set (h.frames slot f (addressed_some ha).1).wf hset).mpr hc.others] at hopen
  cases hopen

theorem put_frame (slot : Slot) (f : FrameState) (s : UdpFrameDefragmentator) :
    slot.frame (slot.put f s) = some f := by
  cases slot <;> rfl

theorem put_buffer (slot : Slot) (f : FrameState) (s : UdpFrameDefragmentator) : (slot.put f s).buffer = s.buffer := by
  cases slot <;> rfl

section Lock

/-- After any row of datagrams the lock is held exactly while one frame is open,
and there are never two. The datagram that completes a frame meets no other. -/
theorem lock_not_leaked (s : UdpFrameDefragmentator) (h : Reachable s) :
    (s.buffer.memory.inUse = true ↔
      (s.currentFrame ≠ none ∧ s.previousFrame = none) ∨
      (s.currentFrame = none ∧ s.previousFrame ≠ none)) ∧
    (s.currentFrame = none ∨ s.previousFrame = none) ∧
    ∀ d, Fragment d → (s.processFragment d).1 = .ok true →
      ∃ slot f, addressed s d.header.created = some (slot, f) ∧
      (∀ (slot' : Slot) g, slot'.frame s = some g → slot' = slot ∧ g = f) ∧
      (s.processFragment d).2.currentFrame = none ∧ (s.processFragment d).2.previousFrame = none := by
  have hinv := inv_reachable h
  refine ⟨?_, hinv.single, ?_⟩
  · rw [locked_iff hinv]
    constructor
    · rintro (hcurrent | hprevious)
      · exact Or.inl ⟨hcurrent, hinv.single.resolve_left hcurrent⟩
      · exact Or.inr ⟨hinv.single.resolve_right hprevious, hprevious⟩
    · exact Or.imp And.left And.right
  · intro d hd hresult
    obtain ⟨r, t, hcall, ho⟩ := outcome hinv d
    rw [hcall] at hresult ⊢
    subst hresult
    cases ho with
    | whole hwhole => exact absurd hd hwhole
    | @completed slot f chunks _ ha =>
      exact ⟨slot, f, ha, fun slot' g hg => frame_unique hinv (addressed_some ha).1 hg, rfl, rfl⟩

theorem lock_not_leaked_one_fragment :
    oneFragment.buffer.memory.inUse = true ∧ oneFragment.previousFrame = none := by
  have hframe : oneFragment.currentFrame.isSome = true := by decide +kernel
  have hcurrent : oneFragment.currentFrame ≠ none := Option.isSome_iff_ne_none.mp hframe
  obtain ⟨hlock, hsingle, -⟩ := lock_not_leaked oneFragment (reachable_empty _)
  have hprevious := hsingle.resolve_left hcurrent
  exact ⟨hlock.mpr (Or.inl ⟨hcurrent, hprevious⟩), hprevious⟩

end Lock

section Results

/-- The result is true exactly when the call published one entry, and no other call publishes any. -/
def Counts (s : UdpFrameDefragmentator) (d : Datagram) : Prop :=
  ((s.processFragment d).1 = .ok true ↔ (s.processFragment d).2.buffer.nextIndex = addWord s.buffer.nextIndex 1) ∧
  ((s.processFragment d).1 ≠ .ok true → (s.processFragment d).2.buffer.nextIndex = s.buffer.nextIndex)

/-- An empty message that the free pool takes, or a header of size 0 in the last fragment of a frame. -/
def Hollow (s : UdpFrameDefragmentator) (d : Datagram) : Prop :=
  d.header.size = 0 ∧ ((d.data = [] ∧ s.buffer.memory.inUse = false) ∨ ∃ slot f, Completes s d slot f)

theorem addWord_ne (n : Nat) : addWord n 1 ≠ n := by
  rw [addWord]
  omega

theorem finish_nextIndex (scope : WriterScope) (b : CyclicBuffer) (n : Nat) :
    (finish scope b n).nextIndex = if 0 < n then addWord b.nextIndex 1 else b.nextIndex :=
      WriterScope.destroy_nextIndex _ _

theorem counts_quiet {r : Except UdpError Bool} (hcall : s.processFragment d = (r, t)) (hr : r ≠ .ok true)
    (hindex : t.buffer.nextIndex = s.buffer.nextIndex) : Counts s d := by
  rw [Counts, hcall]
  exact ⟨iff_of_false hr (by rw [hindex]; exact (addWord_ne _).symm), fun _ => hindex⟩

/-- A call that commits `n` bytes counts exactly when these are more than none. -/
theorem counts_published {n : Nat} (hcall : s.processFragment d = (.ok true, t))
    (hindex : t.buffer.nextIndex = if 0 < n then addWord s.buffer.nextIndex 1 else s.buffer.nextIndex) :
    Counts s d ↔ n ≠ 0 := by
  rw [Counts, hcall, hindex]
  constructor
  · rintro ⟨hiff, -⟩ rfl
    exact addWord_ne _ (hiff.mp rfl).symm
  · intro hn
    rw [if_pos (Nat.pos_of_ne_zero hn)]
    exact ⟨iff_of_true rfl rfl, fun hr => absurd rfl hr⟩

theorem not_fragment_iff : ¬ Fragment d ↔ d.header.size = d.data.length := not_not

/-- A fragment with an empty payload has a message, so it is not hollow by its payload. -/
theorem hollow_fragment (hd : Fragment d) : Hollow s d ↔ d.header.size = 0 ∧ ∃ slot f, Completes s d slot f := by
  constructor
  · rintro ⟨hsize, ⟨hdata, -⟩ | hlast⟩
    · exact absurd (by rw [hsize, hdata]; rfl) hd
    · exact ⟨hsize, hlast⟩
  · exact fun ⟨hsize, hlast⟩ => ⟨hsize, Or.inr hlast⟩

theorem hollow_whole (hd : ¬ Fragment d) : Hollow s d ↔ d.header.size = 0 ∧ s.buffer.memory.inUse = false := by
  constructor
  · rintro ⟨hsize, ⟨-, hfree⟩ | ⟨slot, f, hlast⟩⟩
    · exact ⟨hsize, hfree⟩
    · exact absurd hlast.fragment hd
  · rintro ⟨hsize, hfree⟩
    rw [not_fragment_iff, hsize, eq_comm, List.length_eq_zero_iff] at hd
    exact ⟨hsize, Or.inl ⟨hd, hfree⟩⟩

/-- A call whose datagram completes no frame and is no message of its own is not hollow. -/
theorem not_hollow (hd : Fragment d) (hnone : ∀ slot f, ¬ Completes s d slot f) : ¬ Hollow s d := by
  rw [hollow_fragment hd]
  rintro ⟨-, slot, f, hlast⟩
  exact hnone slot f hlast

theorem not_completes_unaddressed (ha : addressed s d.header.created = none) (slot : Slot) (f : FrameState) :
    ¬ Completes s d slot f := by
  intro hc
  have he := hc.addressed
  rw [ha] at he
  cases he

theorem not_completes_set {b : Except BitSetError Bool} (ha : addressed s d.header.created = some (slot, f))
    (hget : f.receivedChunks.getBit d.header.sequence = b) (hb : b ≠ .ok false) (slot' : Slot) (g : FrameState) :
    ¬ Completes s d slot' g := by
  intro hc
  have he := hc.addressed
  rw [ha] at he
  cases he
  exact hb (hget.symm.trans hc.missing)

theorem writeScope_empty (hfree : s.buffer.memory.inUse = false) {e : PoolError} {type : UInt64} {n : Nat}
    (herror : s.buffer.writeScope n type = .error e) : s.buffer.memory.size < n := by
  by_contra hle
  obtain ⟨span, memory, hspan⟩ := CyclicMemoryPool.getWriteSpan_granted (Nat.not_lt.mp hle) hfree
  rw [CyclicBuffer.writeScope, hspan] at herror
  cases herror

/-- The result of a call counts its publications, exactly when the call is not
hollow: an empty datagram that the free pool takes, or the fragment that
completes a frame with a header of size 0, returns true and publishes nothing. -/
theorem result_counts_iff (s : UdpFrameDefragmentator) (h : Reachable s) (d : Datagram) :
    Counts s d ↔ ¬ Hollow s d := by
  have hinv := inv_reachable h
  obtain ⟨r, t, hcall, ho⟩ := outcome hinv d
  cases ho with
  | wholeRefused hd herror =>
    refine iff_of_true (counts_quiet hcall (by simp) rfl) ?_
    rw [hollow_whole hd]
    rintro ⟨hsize, hfree⟩
    have := writeScope_empty hfree herror
    omega
  | @whole scope b hd hscope =>
    obtain ⟨hfree, -, -, -, -, memory, rfl⟩ := scope_opened hinv.bounded hscope
    have hcounts := counts_published (n := d.header.size) hcall (finish_nextIndex _ _ _)
    rw [hcounts, hollow_whole hd]
    exact not_congr (and_iff_left hfree).symm
  | outOfRange hd ha hk =>
    exact iff_of_true (counts_quiet hcall (by simp) rfl) (not_hollow hd (not_completes_set ha (if_pos hk) (by simp)))
  | duplicate hd ha hget =>
    exact iff_of_true (counts_quiet hcall (by simp) rfl) (not_hollow hd (not_completes_set ha hget (by simp)))
  | accepted hd ha hget hset hopen =>
    exact iff_of_true (counts_quiet hcall (by simp) (by rw [put_buffer]; rfl))
      (not_hollow hd fun _ _ => not_completes hinv ha hset hopen)
  | tooLong hd ha hget hset hcomplete hlong =>
    refine iff_of_true (counts_quiet hcall (by simp) (by rw [put_buffer]; rfl)) ?_
    rw [hollow_fragment hd]
    rintro ⟨hsize, -⟩
    omega
  | completed hd ha hget hset hcomplete hsize =>
    have hcounts := counts_published (n := d.header.size) hcall (finish_nextIndex _ _ _)
    rw [hcounts, hollow_fragment hd]
    exact not_congr (and_iff_left ⟨_, _, completes_of_set hinv hd ha hget hset hcomplete⟩).symm
  | pushed hn | refused hn | noChunks hn =>
    exact iff_of_true (counts_quiet hcall (by simp) rfl)
      (not_hollow hn.fragment (not_completes_unaddressed hn.unaddressed))
  | openedOutOfRange hn hcurrent hscope | opened hn hcurrent hscope =>
    obtain ⟨-, -, -, -, -, memory, rfl⟩ := scope_opened hinv.bounded hscope
    exact iff_of_true (counts_quiet hcall (by simp) rfl)
      (not_hollow hn.fragment (not_completes_unaddressed hn.unaddressed))
  | stale hd ha =>
    obtain ⟨n, hn⟩ := countStale_same hinv d.header
    rw [hn] at hcall
    exact iff_of_true (counts_quiet hcall (by simp) rfl) (not_hollow hd (not_completes_unaddressed ha))

theorem result_counts_iff_three_bytes : Counts (after (.new emptyBuffer 1500) []) ⟨⟨5, 3, 0, 7⟩, [1, 2, 3]⟩ :=
  (result_counts_iff _ (reachable_empty []) _).mpr fun h => absurd h.1 (by decide)

/-- A datagram that is a header of size 0 and nothing more: true, and no entry. -/
theorem empty_datagram_counts : ¬ Counts (after (.new emptyBuffer 1500) []) ⟨⟨5, 0, 0, 7⟩, []⟩ := by
  intro h
  have hresult : ((after (.new emptyBuffer 1500) []).processFragment ⟨⟨5, 0, 0, 7⟩, []⟩).1 =
      .ok true := by decide +kernel
  have hindex : ((after (.new emptyBuffer 1500) []).processFragment ⟨⟨5, 0, 0, 7⟩, []⟩).2.buffer.nextIndex =
      0 := by
    decide +kernel
  have hone := h.1.mp hresult
  rw [hindex] at hone
  cases hone

end Results

section Failure

/-- What a failing call should leave as it was. -/
structure Unchanged (s t : UdpFrameDefragmentator) : Prop where
  current : t.currentFrame = s.currentFrame
  previous : t.previousFrame = s.previousFrame
  currentCreated : t.currentFrameCreated = s.currentFrameCreated
  previousCreated : t.previousFrameCreated = s.previousFrameCreated
  offset : t.buffer.memory.offset = s.buffer.memory.offset
  lock : t.buffer.memory.inUse = s.buffer.memory.inUse
  nextIndex : t.buffer.nextIndex = s.buffer.nextIndex
  items : t.buffer.items = s.buffer.items
  log : t.buffer.log = s.buffer.log

def Atomic (s : UdpFrameDefragmentator) (d : Datagram) : Prop :=
  ∀ e, (s.processFragment d).1 = .error e → Unchanged s (s.processFragment d).2

/-- The datagrams whose call fails half-way. -/
inductive Spoils (s : UdpFrameDefragmentator) (d : Datagram) : Prop where
  /-- A frame should be opened while the current one is open. -/
  | pushes : Newer s d → s.currentFrame ≠ none → Spoils s d
  /-- A frame can be opened, but has no such chunk. -/
  | opens : Newer s d → s.currentFrame = none → s.buffer.memory.inUse = false → 0 < d.header.size →
      d.header.size ≤ s.buffer.memory.size → chunkCount s d.header.size ≤ d.header.sequence → Spoils s d
  /-- The last chunk of a frame gives a size that its span does not have. -/
  | overcommits {slot : Slot} {f : FrameState} :
      Completes s d slot f → f.scope.span.size < d.header.size → Spoils s d

theorem unchanged_refl (s : UdpFrameDefragmentator) : Unchanged s s :=
  ⟨rfl, rfl, rfl, rfl, rfl, rfl, rfl, rfl, rfl⟩

theorem atomic_returned {b : Bool} (hcall : s.processFragment d = (.ok b, t)) : Atomic s d := by
  intro e he
  rw [hcall] at he
  cases he

theorem atomic_refused {e : UdpError} (hcall : s.processFragment d = (.error e, s)) : Atomic s d := by
  intro e' _
  rw [hcall]
  exact unchanged_refl s

theorem unchanged_of_atomic {e : UdpError} (hcall : s.processFragment d = (.error e, t)) (h : Atomic s d) :
    Unchanged s t := by
  have hsame := h e (by rw [hcall])
  rwa [hcall] at hsame

theorem not_spoils_whole (hd : ¬ Fragment d) : ¬ Spoils s d := by
  intro hs
  cases hs with
  | pushes hn | opens hn => exact hd hn.fragment
  | overcommits hc => exact hd hc.fragment

theorem not_spoils_addressed (ha : addressed s d.header.created = some (slot, f))
    (h : Completes s d slot f → d.header.size ≤ f.scope.span.size) : ¬ Spoils s d := by
  intro hs
  cases hs with
  | pushes hn | opens hn =>
    have hnone := hn.unaddressed
    rw [ha] at hnone
    cases hnone
  | overcommits hc hlong =>
    have he := hc.addressed
    rw [ha] at he
    cases he
    exact absurd (h hc) (Nat.not_le.mpr hlong)

theorem not_spoils_opening (hn : Newer s d) (hcurrent : s.currentFrame = none)
    (h : s.buffer.memory.inUse = false → 0 < d.header.size → d.header.size ≤ s.buffer.memory.size →
      d.header.sequence < chunkCount s d.header.size) : ¬ Spoils s d := by
  intro hs
  cases hs with
  | pushes _ hf => exact hf hcurrent
  | opens _ _ hfree hpos hsize hk => exact absurd (h hfree hpos hsize) (Nat.not_lt.mpr hk)
  | overcommits hc => exact not_completes_unaddressed hn.unaddressed _ _ hc

/-- A frame with a new chunk is another frame. -/
theorem mark_ne (f : FrameState) (chunks : FastBitSet) (created : Nat) : mark f chunks created ≠ f := by
  intro he
  have hcount : (f.receivedCount + 1) % 0x10000 = f.receivedCount := congrArg FrameState.receivedCount he
  omega

theorem put_frames (hf : slot.frame s = some f) {buffer : CyclicBuffer} {created : Nat} :
    ¬ ((slot.put (mark f chunks created) { s with buffer := buffer }).currentFrame = s.currentFrame ∧
      (slot.put (mark f chunks created) { s with buffer := buffer }).previousFrame = s.previousFrame) := by
  rintro ⟨hcurrent, hprevious⟩
  have hmarked : slot.frame (slot.put (mark f chunks created) { s with buffer := buffer }) =
      some (mark f chunks created) := put_frame _ _ _
  have hsame : slot.frame (slot.put (mark f chunks created) { s with buffer := buffer }) = slot.frame s := by
    cases slot with
    | current => exact hcurrent
    | previous => exact hprevious
  rw [hmarked, hf, Option.some.injEq] at hsame
  exact mark_ne f chunks created hsame

/-- A failing call leaves everything as it was, exactly when the datagram is none of these. -/
theorem atomic_iff (s : UdpFrameDefragmentator) (h : Reachable s) (d : Datagram) : Atomic s d ↔ ¬ Spoils s d := by
  have hinv := inv_reachable h
  obtain ⟨r, t, hcall, ho⟩ := outcome hinv d
  cases ho with
  | wholeRefused hd => exact iff_of_true (atomic_refused hcall) (not_spoils_whole hd)
  | whole hd => exact iff_of_true (atomic_returned hcall) (not_spoils_whole hd)
  | outOfRange hd ha hk =>
    exact iff_of_true (atomic_refused hcall)
      (not_spoils_addressed ha fun hc => absurd hc (not_completes_set ha (if_pos hk) (by simp) _ _))
  | duplicate hd ha hget =>
    exact iff_of_true (atomic_returned hcall)
      (not_spoils_addressed ha fun hc => absurd hc (not_completes_set ha hget (by simp) _ _))
  | accepted hd ha hget hset hopen =>
    exact iff_of_true (atomic_returned hcall)
      (not_spoils_addressed ha fun hc => absurd hc (not_completes hinv ha hset hopen))
  | tooLong hd ha hget hset hcomplete hlong =>
    refine iff_of_false (fun hatomic => ?_)
      (fun hn => hn (.overcommits (completes_of_set hinv hd ha hget hset hcomplete) hlong))
    have hsame := unchanged_of_atomic hcall hatomic
    exact put_frames (addressed_some ha).1 ⟨hsame.current, hsame.previous⟩
  | completed hd ha hget hset hcomplete hsize =>
    exact iff_of_true (atomic_returned hcall) (not_spoils_addressed ha fun _ => hsize)
  | @pushed f e hn hf =>
    have hne : s.currentFrame ≠ none := by
      rw [hf]
      exact Option.some_ne_none f
    refine iff_of_false (fun hatomic => ?_) (fun hnot => hnot (.pushes hn hne))
    exact hne (unchanged_of_atomic hcall hatomic).current.symm
  | refused hn hcurrent herror =>
    refine iff_of_true (atomic_refused hcall) (not_spoils_opening hn hcurrent fun hfree _ hsize => ?_)
    have := writeScope_empty hfree herror
    omega
  | noChunks hn hcurrent hfree hsize =>
    exact iff_of_true (atomic_refused hcall) (not_spoils_opening hn hcurrent fun _ hpos => by omega)
  | openedOutOfRange hn hcurrent hscope hpos hnew hk =>
    obtain ⟨hfree, hsize, -⟩ := scope_opened hinv.bounded hscope
    refine iff_of_false (fun hatomic => ?_) (fun hnot => hnot (.opens hn hcurrent hfree hpos hsize hk))
    have hsame := (unchanged_of_atomic hcall hatomic).current
    rw [hcurrent] at hsame
    cases hsame
  | opened hn hcurrent hscope hpos hnew hk =>
    exact iff_of_true (atomic_returned hcall) (not_spoils_opening hn hcurrent fun _ _ _ => hk)
  | stale hd ha =>
    refine iff_of_true (atomic_returned hcall) fun hs => ?_
    cases hs with
    | pushes hn | opens hn =>
      have := hn.newer
      omega
    | overcommits hc => exact not_completes_unaddressed ha _ _ hc

theorem atomic_iff_too_large : Atomic (after (.new emptyBuffer 1500) []) ⟨⟨5, 9000, 0, 7⟩, [1]⟩ := by
  refine (atomic_iff _ (reachable_empty []) _).mpr fun hs => ?_
  cases hs with
  | pushes _ hf => exact hf rfl
  | opens _ _ _ _ hsize => exact absurd hsize (by decide)
  | overcommits hc => exact not_completes_unaddressed rfl _ _ hc

/-- A newer fragment meets the lock of the open frame: the call throws, and the
frame is no longer the current one. -/
theorem current_frame_moved : ¬ Atomic oneFragment ⟨⟨2, 3000, 0, 7⟩, [1, 2, 3]⟩ := by
  intro h
  have hthrows : (oneFragment.processFragment ⟨⟨2, 3000, 0, 7⟩, [1, 2, 3]⟩).1 =
      .error (.pool .alreadyInUse) := by
    decide +kernel
  have hbefore : oneFragment.currentFrame.isSome = true := by decide +kernel
  have hafter : (oneFragment.processFragment ⟨⟨2, 3000, 0, 7⟩, [1, 2, 3]⟩).2.currentFrame.isSome = false := by
    decide +kernel
  rw [(h _ hthrows).current, hbefore] at hafter
  cases hafter

end Failure

end FrameContracts
