import Mathlib.Data.List.Induction
import Mathlib.Data.List.Nodup
import ZeroCopyRpc.FrameBounds

/-!
# Whose bytes a published message has

A span is published as it lies in the pool, and nothing clears it before the first
fragment comes. So a byte that no fragment of the message has written is what the
pool held when the frame was opened: part of an older message, or whatever the
memory was created with. The payload bytes steer nothing, so two runs that differ
in them only take the same steps, and what they publish can be compared.
-/
namespace FrameProvenance

open FrameOutcomes FrameContracts FrameBounds Reassembly Cells

/-- The buffer with other payload bytes and another log. -/
def storeBuffer (b : CyclicBuffer) (bytes : Nat → UInt8) (log : List Message) : CyclicBuffer :=
  { b with memory := { b.memory with buffer := bytes }, log := log }

def withStore (s : UdpFrameDefragmentator) (bytes : Nat → UInt8) (log : List Message) : UdpFrameDefragmentator :=
  { s with buffer := storeBuffer s.buffer bytes log }

/-- What is published of a region of the pool; nothing, when the region is empty. -/
def said (bytes : Nat → UInt8) : Option (UInt64 × Nat × Nat) → List Message
  | none => []
  | some (type, start, n) => if 0 < n then [⟨type, slice bytes start n⟩] else []

/-- The region of the pool that a call publishes: its type, where it starts and how long it is. -/
def region (s : UdpFrameDefragmentator) (d : Datagram) : Option (UInt64 × Nat × Nat) :=
  match (s.processFragment d).1 with
  | .ok true =>
    if d.header.size = d.data.length then
      match s.buffer.writeScope d.header.size d.header.type.toUInt64 with
      | .error _ => none
      | .ok (scope, _) => some (scope.type, scope.span.start, d.header.size)
    else (addressed s d.header.created).map fun a => (a.2.scope.type, a.2.scope.span.start, d.header.size)
  | _ => none

variable {s t : UdpFrameDefragmentator} {d : Datagram} {slot : Slot} {f : FrameState} {bytes : Nat → UInt8}
  {log : List Message} {chunks : FastBitSet}

section Store

/-! The payload bytes and the log steer nothing. -/

theorem getWriteSpan_error {p : CyclicMemoryPool} {n : Nat} {e : PoolError} (h : p.getWriteSpan n = .error e) :
    ({ p with buffer := bytes } : CyclicMemoryPool).getWriteSpan n = .error e := by
  rw [CyclicMemoryPool.getWriteSpan] at h ⊢
  by_cases hsize : p.size < n
  · simp only [hsize, ↓reduceIte] at h ⊢
    exact h
  · by_cases hlock : p.inUse = true
    · simp only [hsize, hlock, ↓reduceIte] at h ⊢
      exact h
    · by_cases hshort : p.remaining < n <;> simp [hsize, hlock, hshort] at h

theorem getWriteSpan_store {p p' : CyclicMemoryPool} {span : Span} {n : Nat} (h : p.getWriteSpan n = .ok (span, p')) :
    ({ p with buffer := bytes } : CyclicMemoryPool).getWriteSpan n = .ok (span, { p' with buffer := bytes }) := by
  obtain ⟨hsize, hfree, hcases⟩ := CyclicMemoryPool.getWriteSpan_ok h
  rw [CyclicMemoryPool.getWriteSpan]
  obtain ⟨hle, rfl, rfl⟩ | ⟨hlt, rfl, rfl⟩ := hcases
  · simp only [Nat.not_lt.mpr hsize, hfree, ↓reduceIte, Bool.false_eq_true]
    exact if_neg (Nat.not_lt.mpr hle)
  · simp only [Nat.not_lt.mpr hsize, hfree, ↓reduceIte, Bool.false_eq_true]
    exact if_pos hlt

theorem writeScope_error {n : Nat} {type : UInt64} {e : PoolError} (h : s.buffer.writeScope n type = .error e) :
    (withStore s bytes log).buffer.writeScope n type = .error e := by
  rw [CyclicBuffer.writeScope] at h ⊢
  cases hspan : s.buffer.memory.getWriteSpan n with
  | error e' =>
    rw [hspan] at h
    have hstore : (withStore s bytes log).buffer.memory.getWriteSpan n = .error e' := getWriteSpan_error hspan
    rw [hstore]
    exact h
  | ok r =>
    rw [hspan] at h
    cases h

theorem writeScope_store {n : Nat} {type : UInt64} {scope : WriterScope} {b : CyclicBuffer}
    (h : s.buffer.writeScope n type = .ok (scope, b)) :
    (withStore s bytes log).buffer.writeScope n type = .ok (scope, storeBuffer b bytes log) := by
  rw [CyclicBuffer.writeScope] at h ⊢
  cases hspan : s.buffer.memory.getWriteSpan n with
  | error e =>
    rw [hspan] at h
    cases h
  | ok r =>
    rw [hspan] at h
    cases h
    have hstore : (withStore s bytes log).buffer.memory.getWriteSpan n = .ok (r.1, { r.2 with buffer := bytes }) :=
      getWriteSpan_store hspan
    rw [hstore]
    rfl

theorem finish_store (scope : WriterScope) (b : CyclicBuffer) (n : Nat) :
    finish scope (storeBuffer b bytes log) n =
      storeBuffer (finish scope b n) bytes (log ++ said bytes (some (scope.type, scope.span.start, n))) := by
  by_cases hn : 0 < n
  · simp [finish, committed, advanced, WriterScope.destroy, WriterScope.publish, storeBuffer, said, hn,
      CyclicMemoryPool.release, WriterScope.content]
    rfl
  · simp [finish, committed, advanced, WriterScope.destroy, WriterScope.publish, storeBuffer, said, hn,
      CyclicMemoryPool.release]

theorem inv_store (h : Inv s) : Inv (withStore s bytes log) where
  payload := h.payload
  bounded := ⟨h.bounded.offset_le, h.bounded.size_lt⟩
  idle := h.idle
  single := h.single
  frames := by
    intro slot f hf
    have hopen := h.frames slot f (by cases slot <;> exact hf)
    exact ⟨⟨hopen.live.locked, hopen.live.bound, hopen.live.long, hopen.live.committed_le, hopen.live.offset_eq⟩,
      hopen.uncommitted, hopen.wf⟩

theorem newer_store (h : Newer s d) : Newer (withStore s bytes log) d := ⟨h.fragment, h.unaddressed, h.newer⟩

theorem put_store (slot : Slot) (f : FrameState) (s : UdpFrameDefragmentator) :
    slot.put f (withStore s bytes log) = withStore (slot.put f s) bytes log := by
  cases slot <;> rfl

theorem countStale_store (h : Inv s) (header : UdpReplicationMessageHeader) :
    (withStore s bytes log).countStale header = withStore (s.countStale header) bytes log := by
  have hsame : (withStore s bytes log).currentFrame = s.currentFrame := rfl
  have hsame' : (withStore s bytes log).previousFrame = s.previousFrame := rfl
  rw [UdpFrameDefragmentator.countStale, UdpFrameDefragmentator.countStale]
  rcases h.single with hcurrent | hprevious
  · rw [if_neg (by simp [hsame, hcurrent]), if_neg (by simp [hcurrent])]
  · by_cases hframe : s.currentFrame.isSome ∧ s.previousFrameCreated < header.created
    · have hframe' : (withStore s bytes log).currentFrame.isSome ∧
          (withStore s bytes log).previousFrameCreated < header.created := hframe
      rw [if_pos hframe', if_pos hframe]
      simp only [hsame', hprevious, Option.isSome_none, Bool.false_eq_true, and_false, ↓reduceIte]
      rfl
    · have hframe' : ¬ ((withStore s bytes log).currentFrame.isSome ∧
          (withStore s bytes log).previousFrameCreated < header.created) := hframe
      rw [if_neg hframe', if_neg hframe]

theorem region_silent {r : Except UdpError Bool} (hcall : s.processFragment d = (r, t)) (hr : r ≠ .ok true) :
    region s d = none := by
  rw [region, hcall]
  cases r with
  | error e => rfl
  | ok b =>
    cases b with
    | false => rfl
    | true => exact absurd rfl hr

theorem region_whole {scope : WriterScope} {b : CyclicBuffer}
    (hcall : s.processFragment d = (.ok true, t)) (hd : ¬ Fragment d)
    (hscope : s.buffer.writeScope d.header.size d.header.type.toUInt64 = .ok (scope, b)) :
    region s d = some (scope.type, scope.span.start, d.header.size) := by
  rw [region, hcall]
  simp only
  rw [if_pos (not_not.mp hd), hscope]

theorem region_completed (hcall : s.processFragment d = (.ok true, t)) (hd : Fragment d)
    (ha : addressed s d.header.created = some (slot, f)) :
    region s d = some (f.scope.type, f.scope.span.start, d.header.size) := by
  rw [region, hcall]
  simp only
  rw [if_neg hd, ha]
  rfl

/-- A call takes the same steps over other bytes; it writes its one copy there and
publishes its region as it lies there. -/
theorem store_call (h : Inv s) (d : Datagram) (bytes : Nat → UInt8) (log : List Message) :
    (withStore s bytes log).processFragment d = ((s.processFragment d).1,
      withStore (s.processFragment d).2 (written bytes d.data (copyOf s d))
        (log ++ said (written bytes d.data (copyOf s d)) (region s d))) := by
  have hstore : Inv (withStore s bytes log) := inv_store h
  obtain ⟨r, t, hcall, ho⟩ := outcome h d
  rw [hcall]
  cases ho with
  | wholeRefused hd hscope =>
    rw [call_of hstore (.wholeRefused hd (writeScope_error hscope)), region_silent hcall (by simp),
      copyOf_wholeRefused hd hscope, said, List.append_nil]
    rfl
  | @whole scope b hd hscope =>
    rw [call_of hstore (.whole hd (writeScope_store hscope)), region_whole hcall hd hscope, copyOf_whole hd hscope]
    exact congrArg (fun b => (_, ({ s with buffer := b } : UdpFrameDefragmentator)))
      (finish_store scope (b.copy scope.span.start d.data) d.header.size)
  | @outOfRange slot f hd ha hk =>
    have hget : f.receivedChunks.getBit d.header.sequence = .error .outOfRange := if_pos hk
    rw [call_of hstore (.outOfRange hd ha hk), region_silent hcall (by simp), copyOf_addressed hd ha, hget,
      if_neg (by simp), said, List.append_nil]
    rfl
  | duplicate hd ha hget =>
    rw [call_of hstore (.duplicate hd ha hget), region_silent hcall (by simp), copyOf_addressed hd ha, hget,
      if_neg (by simp), said, List.append_nil]
    rfl
  | @accepted slot f chunks hd ha hget hset hopen =>
    rw [call_of hstore (.accepted hd ha hget hset hopen), region_silent hcall (by simp), copyOf_addressed hd ha,
      if_pos hget, said, List.append_nil]
    exact congrArg (Prod.mk _) (put_store slot (mark f chunks d.header.created)
      { s with buffer := copied s f.scope.span s.buffer d })
  | @tooLong slot f chunks hd ha hget hset hcomplete hlong =>
    rw [call_of hstore (.tooLong hd ha hget hset hcomplete hlong), region_silent hcall (by simp),
      copyOf_addressed hd ha, if_pos hget, said, List.append_nil]
    exact congrArg (Prod.mk _) (put_store slot (mark f chunks d.header.created)
      { s with buffer := copied s f.scope.span s.buffer d })
  | @completed slot f chunks hd ha hget hset hcomplete hsize =>
    rw [call_of hstore (.completed hd ha hget hset hcomplete hsize), region_completed hcall hd ha,
      copyOf_addressed hd ha, if_pos hget]
    exact congrArg (fun b =>
      (_, ({ s with buffer := b, currentFrame := none, previousFrame := none } : UdpFrameDefragmentator)))
      (finish_store f.scope (copied s f.scope.span s.buffer d) d.header.size)
  | pushed hn hf hscope =>
    rw [call_of hstore (.pushed (newer_store hn) hf (writeScope_error hscope)), region_silent hcall (by simp),
      copyOf_none hn.fragment hn.unaddressed fun _ _ => ⟨_, hscope⟩, said, List.append_nil]
    rfl
  | refused hn hcurrent hscope =>
    rw [call_of hstore (.refused (newer_store hn) hcurrent (writeScope_error hscope)), region_silent hcall (by simp),
      copyOf_none hn.fragment hn.unaddressed fun _ _ => ⟨_, hscope⟩, said, List.append_nil]
    rfl
  | noChunks hn hcurrent hfree hsize =>
    rw [call_of hstore (.noChunks (newer_store hn) hcurrent hfree hsize), region_silent hcall (by simp),
      copyOf_none hn.fragment hn.unaddressed fun _ hpos => by omega, said, List.append_nil]
    rfl
  | openedOutOfRange hn hcurrent hscope hpos hnew hk =>
    rw [call_of hstore (.openedOutOfRange (newer_store hn) hcurrent (writeScope_store hscope) hpos hnew hk),
      region_silent hcall (by simp), copyOf_opening hn hpos hscope, said, List.append_nil]
    rfl
  | opened hn hcurrent hscope hpos hnew hk hset =>
    rw [call_of hstore (.opened (newer_store hn) hcurrent (writeScope_store hscope) hpos hnew hk hset),
      region_silent hcall (by simp), copyOf_opening hn hpos hscope, said, List.append_nil]
    rfl
  | stale hd ha hold =>
    rw [call_of hstore (.stale hd ha hold), region_silent hcall (by simp), copyOf_none hd ha fun hnew => by omega,
      said, List.append_nil, countStale_store h]
    rfl

end Store

section Runs

/-- The pool's bytes after a row of datagrams. -/
def bytesAfter : UdpFrameDefragmentator → (Nat → UInt8) → List Datagram → Nat → UInt8
  | _, bytes, [] => bytes
  | s, bytes, d :: ds => bytesAfter (s.processFragment d).2 (written bytes d.data (copyOf s d)) ds

/-- What a row of datagrams publishes. -/
def saidAfter : UdpFrameDefragmentator → (Nat → UInt8) → List Datagram → List Message
  | _, _, [] => []
  | s, bytes, d :: ds => said (written bytes d.data (copyOf s d)) (region s d) ++
      saidAfter (s.processFragment d).2 (written bytes d.data (copyOf s d)) ds

/-- The datagrams of a row whose bytes are copied. -/
def taken : UdpFrameDefragmentator → List Datagram → List Datagram
  | _, [] => []
  | s, d :: ds =>
    if (copyOf s d).isSome then d :: taken (s.processFragment d).2 ds else taken (s.processFragment d).2 ds

/-- The copy writes this position of the pool. -/
def Covers (copy : Option (Span × Nat)) (d : Datagram) (x : Nat) : Prop :=
  ∃ span offset, copy = some (span, offset) ∧ span.start + offset ≤ x ∧ x < span.start + offset + d.data.length

def Touches : UdpFrameDefragmentator → List Datagram → Nat → Prop
  | _, [], _ => False
  | s, d :: ds, x => Covers (copyOf s d) d x ∨ Touches (s.processFragment d).2 ds x

/-- The lock is held after every datagram of the row. -/
def Held : UdpFrameDefragmentator → List Datagram → Prop
  | _, [] => True
  | s, d :: ds => (s.processFragment d).2.buffer.memory.inUse = true ∧ Held (s.processFragment d).2 ds

variable {ds es : List Datagram} {x : Nat} {scope : WriterScope}

theorem inv_call (h : Inv s) (d : Datagram) : Inv (s.processFragment d).2 := by
  obtain ⟨r, t, hcall, ho⟩ := outcome h d
  rw [hcall]
  exact inv_outcome h ho

theorem after_cons (s : UdpFrameDefragmentator) (d : Datagram) (ds : List Datagram) :
    after s (d :: ds) = after (s.processFragment d).2 ds := rfl

theorem after_append (s : UdpFrameDefragmentator) (ds es : List Datagram) :
    after s (ds ++ es) = after (after s ds) es :=
  List.foldl_append

theorem inv_run (h : Inv s) (ds : List Datagram) : Inv (after s ds) := by
  induction ds generalizing s with
  | nil => exact h
  | cons d ds ih => exact ih (inv_call h d)

/-- A whole row takes the same steps over other bytes. -/
theorem store_run (h : Inv s) (bytes : Nat → UInt8) (log : List Message) (ds : List Datagram) :
    after (withStore s bytes log) ds =
      withStore (after s ds) (bytesAfter s bytes ds) (log ++ saidAfter s bytes ds) := by
  induction ds generalizing s bytes log with
  | nil =>
    rw [saidAfter, List.append_nil]
    rfl
  | cons d ds ih =>
    rw [after_cons, store_call h, ih (inv_call h d), saidAfter, List.append_assoc]
    rfl

theorem bytesAfter_append (s : UdpFrameDefragmentator) (bytes : Nat → UInt8) (ds es : List Datagram) :
    bytesAfter s bytes (ds ++ es) = bytesAfter (after s ds) (bytesAfter s bytes ds) es := by
  induction ds generalizing s bytes with
  | nil => rfl
  | cons d ds ih => exact ih _ _

/-- A position that the copy covers has the copied byte, whatever was there. -/
theorem written_covered {copy : Option (Span × Nat)} (h : Covers copy d x) (bytes bytes' : Nat → UInt8) :
    written bytes d.data copy x = written bytes' d.data copy x := by
  obtain ⟨span, offset, rfl, hle, hlt⟩ := h
  obtain ⟨i, rfl⟩ := Nat.exists_eq_add_of_le hle
  have hi : i < d.data.length := by omega
  rw [written, written, store_inside _ _ _ _ hi, store_inside _ _ _ _ hi]

theorem written_uncovered {copy : Option (Span × Nat)} (h : ¬ Covers copy d x) (bytes : Nat → UInt8) :
    written bytes d.data copy x = bytes x := by
  cases copy with
  | none => rfl
  | some c =>
    refine store_outside _ _ _ _ ?_
    by_contra hinside
    exact h ⟨c.1, c.2, rfl, by omega, by omega⟩

/-- Bytes that agree at a position agree there after any copy. -/
theorem written_agree {bytes bytes' : Nat → UInt8} (h : bytes x = bytes' x) (d : Datagram)
    (copy : Option (Span × Nat)) :
    written bytes d.data copy x = written bytes' d.data copy x := by
  by_cases hcovers : Covers copy d x
  · exact written_covered hcovers _ _
  · rw [written_uncovered hcovers, written_uncovered hcovers, h]

theorem bytesAfter_agree {bytes bytes' : Nat → UInt8} (h : bytes x = bytes' x) (s : UdpFrameDefragmentator)
    (ds : List Datagram) : bytesAfter s bytes ds x = bytesAfter s bytes' ds x := by
  induction ds generalizing s bytes bytes' with
  | nil => exact h
  | cons d ds ih => exact ih (written_agree h d _) _

theorem bytesAfter_touched (h : Touches s ds x) (bytes bytes' : Nat → UInt8) :
    bytesAfter s bytes ds x = bytesAfter s bytes' ds x := by
  induction ds generalizing s bytes bytes' with
  | nil => cases h
  | cons d ds ih =>
    rcases h with hcovers | hlater
    · exact bytesAfter_agree (written_covered hcovers _ _) _ _
    · exact ih hlater _ _

theorem bytesAfter_untouched (h : ¬ Touches s ds x) (bytes : Nat → UInt8) : bytesAfter s bytes ds x = bytes x := by
  induction ds generalizing s bytes with
  | nil => rfl
  | cons d ds ih =>
    rw [Touches, not_or] at h
    exact (ih h.2 _).trans (written_uncovered h.1 _)

theorem said_length (bytes bytes' : Nat → UInt8) (r : Option (UInt64 × Nat × Nat)) :
    (said bytes r).length = (said bytes' r).length := by
  cases r with
  | none => rfl
  | some a =>
    rw [said, said]
    by_cases hn : 0 < a.2.2 <;> simp [hn]

/-- A region is published alike exactly when its bytes agree. -/
theorem said_eq_iff (bytes bytes' : Nat → UInt8) (type : UInt64) (start n : Nat) :
    said bytes (some (type, start, n)) = said bytes' (some (type, start, n)) ↔
      ∀ i, i < n → bytes (start + i) = bytes' (start + i) := by
  by_cases hn : 0 < n
  · simp only [said, hn, ↓reduceIte, List.cons.injEq, Message.mk.injEq, true_and, and_true]
    simp only [slice, List.map_inj_left, List.mem_range]
  · simp only [said, hn, ↓reduceIte, true_iff]
    exact fun i hi => absurd (Nat.zero_lt_of_lt hi) hn

/-- Two runs publish alike exactly when every call does. -/
theorem saidAfter_eq_iff (s : UdpFrameDefragmentator) (bytes bytes' : Nat → UInt8) (ds : List Datagram) :
    saidAfter s bytes ds = saidAfter s bytes' ds ↔ ∀ m d suf, ds = m ++ d :: suf →
      said (bytesAfter s bytes (m ++ [d])) (region (after s m) d) =
        said (bytesAfter s bytes' (m ++ [d])) (region (after s m) d) := by
  induction ds generalizing s bytes bytes' with
  | nil => simp [saidAfter]
  | cons e ds ih =>
    rw [saidAfter, saidAfter]
    constructor
    · intro h m d suf hsplit
      obtain ⟨hhead, htail⟩ := List.append_inj h (said_length _ _ _)
      cases m with
      | nil =>
        cases hsplit
        exact hhead
      | cons e' m =>
        cases hsplit
        exact (ih _ _ _).mp htail m d suf rfl
    · intro h
      have hhead := h [] e ds rfl
      have htail := (ih (s.processFragment e).2 _ _).mpr fun m d suf hsplit => h (e :: m) d suf (by rw [hsplit]; rfl)
      exact congrArg₂ _ hhead htail

theorem held_snoc (s : UdpFrameDefragmentator) (ds : List Datagram) (d : Datagram) :
    Held s (ds ++ [d]) ↔ Held s ds ∧ (after s (ds ++ [d])).buffer.memory.inUse = true := by
  induction ds generalizing s with
  | nil => exact and_comm
  | cons e ds ih =>
    rw [List.cons_append, Held, Held, ih, and_assoc]
    rfl

/-- Every row has a last moment at which the lock was free. -/
theorem last_free (hfree : s.buffer.memory.inUse = false) (ds : List Datagram) : ∃ pre mid, ds = pre ++ mid ∧
    (after s pre).buffer.memory.inUse = false ∧ Held (after s pre) mid := by
  induction ds using List.reverseRecOn with
  | nil => exact ⟨[], [], rfl, hfree, trivial⟩
  | append_singleton ds d ih =>
    obtain ⟨pre, mid, rfl, hpre, hmid⟩ := ih
    cases hlock : (after s (pre ++ mid ++ [d])).buffer.memory.inUse with
    | false => exact ⟨pre ++ mid ++ [d], [], (List.append_nil _).symm, hlock, trivial⟩
    | true =>
      refine ⟨pre, mid ++ [d], List.append_assoc _ _ _, hpre, (held_snoc _ _ _).mpr ⟨hmid, ?_⟩⟩
      rw [← after_append, ← List.append_assoc]
      exact hlock

end Runs

section Frames

/-- What a frame keeps while it is open. -/
structure Identity where
  scope : WriterScope
  created : Nat
  numChunks : Nat

def identity (s : UdpFrameDefragmentator) (slot : Slot) (f : FrameState) : Identity :=
  ⟨f.scope, slot.created s, f.receivedChunks.numBits⟩

variable {ds : List Datagram} {g : Identity} {i : Nat}

/-- This frame is open. -/
def Holds (s : UdpFrameDefragmentator) (g : Identity) : Prop :=
  ∃ slot f, slot.frame s = some f ∧ identity s slot f = g

theorem holds_locked (h : Inv s) (hs : Holds s g) : s.buffer.memory.inUse = true := by
  obtain ⟨slot, f, hf, -⟩ := hs
  exact (h.frames slot f hf).live.locked

theorem put_created (slot : Slot) (f : FrameState) (s : UdpFrameDefragmentator) (b : CyclicBuffer) :
    slot.created (slot.put f { s with buffer := b }) = slot.created s := by
  cases slot <;> rfl

/-- A frame with one more chunk is the same frame. -/
theorem holds_put (h : Inv s) (hf : slot.frame s = some f)
    (hset : f.receivedChunks.setBit d.header.sequence = .ok chunks)
    (b : CyclicBuffer) :
    Holds (slot.put (mark f chunks d.header.created) { s with buffer := b }) (identity s slot f) := by
  obtain ⟨-, hn, -⟩ := FastBitSet.setBit_spec (h.frames slot f hf).wf hset
  refine ⟨slot, _, put_frame _ _ _, ?_⟩
  rw [identity, identity, put_created, mark, hn]

theorem holds_free (h : Inv s) (hfree : s.buffer.memory.inUse = false) : ¬ Holds s g := by
  intro hs
  rw [holds_locked h hs] at hfree
  cases hfree

/-- A frame is open until the lock is released. -/
theorem holds_call (h : Inv s) (hs : Holds s g) (d : Datagram)
    (hlock : (s.processFragment d).2.buffer.memory.inUse = true) : Holds (s.processFragment d).2 g := by
  have hlocked := holds_locked h hs
  obtain ⟨slot, f, hf, rfl⟩ := hs
  obtain ⟨r, t, hcall, ho⟩ := outcome h d
  have hinv := inv_outcome h ho
  rw [hcall] at hlock ⊢
  have hopening : ∀ {scope b n type}, s.buffer.writeScope n type = .ok (scope, b) →
      Holds t (identity s slot f) := by
    intro scope b n type hscope
    rw [(scope_opened h.bounded hscope).1] at hlocked
    cases hlocked
  cases ho with
  | wholeRefused | outOfRange | duplicate | refused | noChunks => exact ⟨slot, f, hf, rfl⟩
  | whole _ hscope => exact hopening hscope
  | openedOutOfRange _ _ hscope | opened _ _ hscope => exact hopening hscope
  | accepted hd ha _ hset | tooLong hd ha _ hset =>
    obtain ⟨rfl, rfl⟩ := frame_unique h hf (addressed_some ha).1
    exact holds_put h hf hset _
  | completed =>
    rw [hinv.idle rfl rfl] at hlock
    cases hlock
  | pushed _ hcurrent =>
    have hplace : Slot.current.frame s = some _ := hcurrent
    obtain ⟨rfl, rfl⟩ := frame_unique h hf hplace
    exact ⟨.previous, _, rfl, rfl⟩
  | stale =>
    obtain ⟨n, hn⟩ := countStale_same h d.header
    rw [hn]
    exact ⟨slot, f, by cases slot <;> exact hf, by cases slot <;> rfl⟩

/-- A chunk of this frame. -/
structure Belongs (g : Identity) (d : Datagram) : Prop where
  fragment : Fragment d
  created : d.header.created = g.created
  sequence : d.header.sequence < g.numChunks

/-- A copy that is made while a frame is open is a chunk of that frame. -/
theorem copy_held (h : Inv s) (hs : Holds s g) {c : Span × Nat} (hcopy : copyOf s d = some c) :
    c = (g.scope.span, d.header.sequence * s.maxPayloadSize) ∧ Belongs g d := by
  have hlocked := holds_locked h hs
  obtain ⟨slot, f, hf, rfl⟩ := hs
  by_cases hd : Fragment d
  · cases ha : addressed s d.header.created with
    | some a =>
      obtain ⟨slot, f⟩ := a
      obtain ⟨rfl, rfl⟩ := frame_unique h hf (addressed_some ha).1
      rw [copyOf_addressed hd ha] at hcopy
      split at hcopy
      · rename_i hget
        cases hcopy
        exact ⟨rfl, hd, (addressed_some ha).2, FastBitSet.getBit_lt hget⟩
      · cases hcopy
    | none =>
      rw [copyOf_none hd ha fun _ _ => writeScope_locked hlocked _] at hcopy
      cases hcopy
  · obtain ⟨e, he⟩ := writeScope_locked (n := d.header.size) hlocked d.header.type.toUInt64
    rw [copyOf_wholeRefused hd he] at hcopy
    cases hcopy

/-- The datagram that takes the free lock and keeps it has opened a frame, and is its first chunk. -/
theorem frame_opened (h : Inv s) (hfree : s.buffer.memory.inUse = false) (d : Datagram)
    (hlock : (s.processFragment d).2.buffer.memory.inUse = true) : ∃ g, Holds (s.processFragment d).2 g ∧
      copyOf s d = some (g.scope.span, d.header.sequence * s.maxPayloadSize) ∧ Newer s d ∧
      d.header.created = g.created ∧ chunksFor s d = g.numChunks := by
  obtain ⟨r, t, hcall, ho⟩ := outcome h d
  have hinv := inv_outcome h ho
  rw [hcall] at hlock ⊢
  have hopen : ∀ {slot f}, addressed s d.header.created = some (slot, f) → False := fun ha =>
    holds_free h hfree ⟨_, _, (addressed_some ha).1, rfl⟩
  have hsame : s.buffer.memory.inUse ≠ true := by
    rw [hfree]
    exact Bool.false_ne_true
  cases ho with
  | wholeRefused | refused | noChunks => exact absurd hlock hsame
  | outOfRange _ ha | duplicate _ ha | accepted _ ha | tooLong _ ha | completed _ ha => exact (hopen ha).elim
  | whole =>
    obtain ⟨hcurrent, hprevious⟩ := no_frames h hfree
    rw [hinv.idle hcurrent hprevious] at hlock
    cases hlock
  | pushed _ hcurrent => exact (holds_free h hfree ⟨.current, _, hcurrent, rfl⟩).elim
  | openedOutOfRange hn hcurrent hscope hpos hnew =>
    refine ⟨_, ⟨.current, _, rfl, rfl⟩, copyOf_opening hn hpos hscope, hn, rfl, ?_⟩
    exact (chunksFor_unaddressed hn.unaddressed).trans (new_chunks h hpos hnew).2.1.symm
  | opened hn hcurrent hscope hpos hnew hk hset =>
    refine ⟨_, ⟨.current, _, rfl, rfl⟩, copyOf_opening hn hpos hscope, hn, rfl, ?_⟩
    obtain ⟨hwf, hcount, -⟩ := new_chunks h hpos hnew
    exact (chunksFor_unaddressed hn.unaddressed).trans
      (hcount.symm.trans (FastBitSet.setBit_spec hwf hset).2.1.symm)
  | stale =>
    obtain ⟨n, hn⟩ := countStale_same h d.header
    rw [hn] at hlock
    exact absurd hlock hsame

theorem payload_call (h : Inv s) (d : Datagram) : (s.processFragment d).2.maxPayloadSize = s.maxPayloadSize := by
  obtain ⟨r, t, hcall, ho⟩ := outcome h d
  rw [hcall]
  cases ho with
  | @accepted slot | @tooLong slot => cases slot <;> rfl
  | stale =>
    obtain ⟨n, hn⟩ := countStale_same h d.header
    rw [hn]
  | _ => rfl

theorem payload_run (h : Inv s) (ds : List Datagram) : (after s ds).maxPayloadSize = s.maxPayloadSize := by
  induction ds generalizing s with
  | nil => rfl
  | cons d ds ih => exact (ih (inv_call h d)).trans (payload_call h d)

/-- The datagram has a payload byte for this place in its message, with chunks of `p` bytes. -/
def Carries (p : Nat) (d : Datagram) (i : Nat) : Prop :=
  d.header.sequence * p ≤ i ∧ i < d.header.sequence * p + d.data.length

theorem covers_iff {p : Nat} {scope : WriterScope} :
    Covers (some (scope.span, d.header.sequence * p)) d (scope.span.start + i) ↔ Carries p d i := by
  rw [Carries]
  constructor
  · rintro ⟨span, offset, he, hle, hlt⟩
    cases he
    omega
  · exact fun ⟨hle, hlt⟩ => ⟨_, _, rfl, by omega, by omega⟩

/-- The first datagram of a row, when the rest of it is accounted for. -/
theorem touches_cons {p : Nat} {T : Prop}
    (hcopy : ∀ c, copyOf s d = some c → c = (g.scope.span, d.header.sequence * p))
    (hrest : T ↔ ∃ e ∈ taken (s.processFragment d).2 ds, Carries p e i) :
    (Covers (copyOf s d) d (g.scope.span.start + i) ∨ T) ↔ ∃ e ∈ taken s (d :: ds), Carries p e i := by
  rw [taken, hrest]
  cases hc : copyOf s d with
  | none =>
    rw [if_neg (by simp)]
    refine or_iff_right fun hcovers => ?_
    obtain ⟨span, offset, he, -⟩ := hcovers
    cases he
  | some c =>
    obtain rfl := hcopy c hc
    rw [if_pos (by simp), List.exists_mem_cons_iff, covers_iff]

/-- While a frame is open its bytes are those of the chunks that are taken. -/
theorem touches_frame (h : Inv s) (hs : Holds s g) (hheld : Held s ds) (d : Datagram) :
    Touches s (ds ++ [d]) (g.scope.span.start + i) ↔
      ∃ e ∈ taken s (ds ++ [d]), Carries s.maxPayloadSize e i := by
  induction ds generalizing s with
  | nil => exact touches_cons (fun c hc => (copy_held h hs hc).1) (by simp [taken, Touches])
  | cons e ds ih =>
    have hrest := ih (inv_call h e) (holds_call h hs e hheld.1) hheld.2
    rw [payload_call h e] at hrest
    exact touches_cons (fun c hc => (copy_held h hs hc).1) hrest

theorem mem_taken_cons {e : Datagram} :
    e ∈ taken s (d :: ds) ↔ (e = d ∧ (copyOf s d).isSome) ∨ e ∈ taken (s.processFragment d).2 ds := by
  rw [taken]
  by_cases hc : (copyOf s d).isSome = true
  · rw [if_pos hc, List.mem_cons, and_iff_left hc]
  · rw [if_neg hc]
    exact (or_iff_right fun h => hc h.2).symm

/-- What is taken while a frame is open are its chunks. -/
theorem taken_held (h : Inv s) (hs : Holds s g) (hheld : Held s ds) (d : Datagram) :
    ∀ e ∈ taken s (ds ++ [d]), Belongs g e := by
  induction ds generalizing s with
  | nil =>
    intro e he
    obtain ⟨rfl, hc⟩ | he := mem_taken_cons.mp he
    · obtain ⟨c, hcopy⟩ := Option.isSome_iff_exists.mp hc
      exact (copy_held h hs hcopy).2
    · cases he
  | cons e ds ih =>
    intro e' he'
    obtain ⟨rfl, hc⟩ | he' := mem_taken_cons.mp he'
    · obtain ⟨c, hcopy⟩ := Option.isSome_iff_exists.mp hc
      exact (copy_held h hs hcopy).2
    · exact ih (inv_call h e) (holds_call h hs e hheld.1) hheld.2 e' he'

theorem holds_run (h : Inv s) (hs : Holds s g) (hheld : Held s ds) : Holds (after s ds) g := by
  induction ds generalizing s with
  | nil => exact hs
  | cons d ds ih => exact ih (inv_call h d) (holds_call h hs d hheld.1) hheld.2

/-- A row of datagrams that opens a frame on the free lock, and the one that completes it. -/
structure Closes (s : UdpFrameDefragmentator) (mid : List Datagram) (d : Datagram) (slot : Slot) (f : FrameState) :
    Prop where
  free : s.buffer.memory.inUse = false
  held : Held s mid
  last : Completes (after s mid) d slot f
  fits : d.header.size ≤ f.scope.span.size

theorem closes_nonempty {mid : List Datagram} (h : Inv s) (hc : Closes s mid d slot f) : mid ≠ [] := by
  rintro rfl
  exact holds_free h hc.free ⟨slot, f, (addressed_some hc.last.addressed).1, rfl⟩

/-- The first datagram of such a row opens the frame, which the rest of the row finds open. -/
theorem closes_opened {e : Datagram} {mid : List Datagram} (h : Inv s) (hc : Closes s (e :: mid) d slot f) :
    Holds (s.processFragment e).2 ⟨f.scope, d.header.created, f.receivedChunks.numBits⟩ ∧
    copyOf s e = some (f.scope.span, e.header.sequence * s.maxPayloadSize) ∧ Newer s e ∧
    e.header.created = d.header.created ∧ chunksFor s e = f.receivedChunks.numBits := by
  obtain ⟨hframe, hcreated⟩ := addressed_some hc.last.addressed
  obtain ⟨g, hs, hcopy, hnewer, hopener, hchunks⟩ := frame_opened h hc.free e hc.held.1
  obtain ⟨slot', f', hf', hidentity⟩ := holds_run (inv_call h e) hs hc.held.2
  obtain ⟨rfl, rfl⟩ := frame_unique (inv_run h (e :: mid)) hframe hf'
  obtain rfl : (⟨f'.scope, d.header.created, f'.receivedChunks.numBits⟩ : Identity) = g := by
    rw [← hidentity, identity, hcreated]
    rfl
  exact ⟨hs, hcopy, hnewer, hopener, hchunks⟩

theorem closes_touches {mid : List Datagram} (h : Inv s) (hc : Closes s mid d slot f) :
    Touches s (mid ++ [d]) (f.scope.span.start + i) ↔
      ∃ e ∈ taken s (mid ++ [d]), Carries s.maxPayloadSize e i := by
  cases mid with
  | nil => exact (closes_nonempty h hc rfl).elim
  | cons e mid =>
    obtain ⟨hs, hcopy, -⟩ := closes_opened h hc
    have hrest := touches_frame (i := i) (inv_call h e) hs hc.held.2 d
    rw [payload_call h e] at hrest
    refine touches_cons (g := ⟨f.scope, d.header.created, f.receivedChunks.numBits⟩) (fun c he => ?_) hrest
    rw [hcopy, Option.some.injEq] at he
    exact he.symm

theorem completed_outcome (h : Inv s) (hc : Completes s d slot f) (hsize : d.header.size ≤ f.scope.span.size) :
    ∃ t, s.processFragment d = (.ok true, t) := by
  have hopen := h.frames slot f (addressed_some hc.addressed).1
  obtain ⟨chunks, hset, -⟩ := FastBitSet.setBit_ok hopen.wf (FastBitSet.getBit_lt hc.missing)
  have hcomplete := (FastBitSet.isComplete_set hopen.wf hset).mpr hc.others
  exact ⟨_, call_of h (.completed hc.fragment hc.addressed hc.missing hset hcomplete hsize)⟩

theorem region_cases (h : Inv s) {r : UInt64 × Nat × Nat} (hr : region s d = some r) :
    (∃ scope b, ¬ Fragment d ∧ s.buffer.writeScope d.header.size d.header.type.toUInt64 = .ok (scope, b) ∧
      r = (scope.type, scope.span.start, d.header.size)) ∨
    ∃ slot f, Completes s d slot f ∧ d.header.size ≤ f.scope.span.size ∧
      r = (f.scope.type, f.scope.span.start, d.header.size) := by
  obtain ⟨r', t, hcall, ho⟩ := outcome h d
  have hresult : r' = .ok true := by
    by_contra hne
    rw [region_silent hcall hne] at hr
    cases hr
  subst hresult
  cases ho with
  | whole hd hscope =>
    rw [region_whole hcall hd hscope, Option.some.injEq] at hr
    exact Or.inl ⟨_, _, hd, hscope, hr.symm⟩
  | completed hd ha hget hset hcomplete hsize =>
    rw [region_completed hcall hd ha, Option.some.injEq] at hr
    exact Or.inr ⟨_, _, completes_of_set h hd ha hget hset hcomplete, hsize, hr.symm⟩

end Frames

section Trace

variable {ds es : List Datagram} {e : Datagram}

theorem mem_taken_iff : e ∈ taken s ds ↔
    ∃ pre suf, ds = pre ++ e :: suf ∧ (copyOf (after s pre) e).isSome := by
  induction ds generalizing s with
  | nil => simp [taken]
  | cons d ds ih =>
    rw [mem_taken_cons, ih]
    constructor
    · rintro (⟨rfl, hc⟩ | ⟨pre, suf, rfl, hc⟩)
      · exact ⟨[], ds, rfl, hc⟩
      · exact ⟨d :: pre, suf, rfl, hc⟩
    · rintro ⟨pre, suf, hsplit, hc⟩
      cases pre with
      | nil =>
        cases hsplit
        exact Or.inl ⟨rfl, hc⟩
      | cons d' pre =>
        cases hsplit
        exact Or.inr ⟨pre, suf, rfl, hc⟩

/-- The fragments among them: each is a chunk of a frame. -/
def pieces (s : UdpFrameDefragmentator) (ds : List Datagram) : List Datagram :=
  (taken s ds).filter fun d => d.header.size ≠ d.data.length

theorem mem_pieces : e ∈ pieces s ds ↔ e ∈ taken s ds ∧ Fragment e := by
  rw [pieces, List.mem_filter, decide_eq_true_iff, Fragment]

theorem pieces_cons (s : UdpFrameDefragmentator) (d : Datagram) (ds : List Datagram) :
    pieces s (d :: ds) = pieces s [d] ++ pieces (s.processFragment d).2 ds := by
  rw [pieces, pieces, pieces, ← List.filter_append, taken, taken, taken]
  by_cases hc : (copyOf s d).isSome = true
  · rw [if_pos hc, if_pos hc, List.singleton_append]
  · rw [if_neg hc, if_neg hc, List.nil_append]

theorem pieces_append (s : UdpFrameDefragmentator) (ds es : List Datagram) :
    pieces s (ds ++ es) = pieces s ds ++ pieces (after s ds) es := by
  induction ds generalizing s with
  | nil => rfl
  | cons d ds ih => rw [List.cons_append, pieces_cons, ih, pieces_cons s d ds, List.append_assoc, after_cons]

theorem pieces_whole (hd : ¬ Fragment d) : pieces s [d] = [] := by
  rw [List.eq_nil_iff_forall_not_mem]
  intro e he
  obtain ⟨htaken, hfragment⟩ := mem_pieces.mp he
  obtain ⟨rfl, -⟩ | he := mem_taken_cons.mp htaken
  · exact hd hfragment
  · cases he

theorem pieces_none (hc : copyOf s d = none) : pieces s [d] = [] := by
  rw [pieces, taken, hc]
  rfl

theorem pieces_copied (hd : Fragment d) {c : Span × Nat} (hc : copyOf s d = some c) : pieces s [d] = [d] := by
  rw [pieces, taken, hc, Option.isSome_some, if_pos rfl, taken, List.filter_cons_of_pos, List.filter_nil]
  exact decide_eq_true hd

/-- What the frames keep of the fragments `es` that have been copied so far: each came at most
once, and a frame's bits are the numbers of those with its stamp. -/
structure Traced (s : UdpFrameDefragmentator) (es : List Datagram) : Prop where
  old : ∀ e ∈ es, e.header.created ≤ s.currentFrameCreated
  previous : s.previousFrame ≠ none → s.previousFrameCreated ≤ s.currentFrameCreated
  bits : ∀ (slot : Slot) (f : FrameState) (k : Nat), slot.frame s = some f → k < f.receivedChunks.numBits →
    (f.receivedChunks.bit k = true ↔ ∃ e ∈ es, e.header.created = slot.created s ∧ e.header.sequence = k)
  unique : (es.map fun e => (e.header.created, e.header.sequence)).Nodup

theorem traced_congr (h : Traced s es) (hcurrent : t.currentFrame = s.currentFrame)
    (hprevious : t.previousFrame = s.previousFrame) (hc : t.currentFrameCreated = s.currentFrameCreated)
    (hp : t.previousFrameCreated = s.previousFrameCreated) : Traced t es := by
  refine ⟨fun e he => hc ▸ h.old e he, ?_, ?_, h.unique⟩
  · rw [hprevious, hp, hc]
    exact h.previous
  · intro slot f k hf hk
    have hframe : slot.frame s = some f := by
      cases slot with
      | current => exact hcurrent.symm.trans hf
      | previous => exact hprevious.symm.trans hf
    have hcreated : slot.created t = slot.created s := by
      cases slot with
      | current => exact hc
      | previous => exact hp
    rw [hcreated]
    exact h.bits slot f k hframe hk

theorem frame_old (h : Traced s es) (hf : slot.frame s = some f) : slot.created s ≤ s.currentFrameCreated := by
  cases slot with
  | current => exact Nat.le_refl _
  | previous =>
    refine h.previous fun hnone => ?_
    rw [Slot.frame, hnone] at hf
    cases hf

theorem unique_snoc (h : Traced s es)
    (hnew : ∀ e ∈ es, e.header.created = d.header.created → e.header.sequence ≠ d.header.sequence) :
    ((es ++ [d]).map fun e => (e.header.created, e.header.sequence)).Nodup := by
  rw [List.map_append, List.nodup_append]
  refine ⟨h.unique, List.nodup_singleton _, ?_⟩
  intro key hkey key' hkey'
  obtain ⟨e, he, rfl⟩ := List.mem_map.mp hkey
  obtain rfl := List.mem_singleton.mp hkey'
  intro hsame
  obtain ⟨hcreated, hsequence⟩ := Prod.mk.inj hsame
  exact hnew e he hcreated hsequence

/-- A missing chunk has not been copied before. -/
theorem missing_new (h : Traced s es) (ha : addressed s d.header.created = some (slot, f))
    (hget : f.receivedChunks.getBit d.header.sequence = .ok false) :
    ∀ e ∈ es, e.header.created = d.header.created → e.header.sequence ≠ d.header.sequence := by
  obtain ⟨hf, hcreated⟩ := addressed_some ha
  have hk := FastBitSet.getBit_lt hget
  intro e he hsame hsequence
  have hbit := (h.bits slot f _ hf hk).mpr ⟨e, he, hsame.trans hcreated, hsequence⟩
  rw [FastBitSet.getBit_ok hk, hbit] at hget
  cases hget

/-- A frame with one more chunk. -/
theorem traced_put (hinv : Inv s) (h : Traced s es) (ha : addressed s d.header.created = some (slot, f))
    (hget : f.receivedChunks.getBit d.header.sequence = .ok false)
    (hset : f.receivedChunks.setBit d.header.sequence = .ok chunks) :
    Traced (slot.put (mark f chunks d.header.created) { s with buffer := copied s f.scope.span s.buffer d })
      (es ++ [d]) := by
  obtain ⟨hf, hcreated⟩ := addressed_some ha
  obtain ⟨-, hn, hbit⟩ := FastBitSet.setBit_spec (hinv.frames slot f hf).wf hset
  have hstamp : (slot.put (mark f chunks d.header.created)
      { s with buffer := copied s f.scope.span s.buffer d }).currentFrameCreated = s.currentFrameCreated := by
    cases slot <;> rfl
  have hold := frame_old h hf
  refine ⟨?_, ?_, ?_, unique_snoc h (missing_new h ha hget)⟩
  · intro e he
    rw [hstamp]
    obtain he | rfl := List.mem_append.mp he |>.imp_right List.mem_singleton.mp
    · exact h.old e he
    · rw [hcreated]
      exact hold
  · cases slot with
    | current => exact h.previous
    | previous => exact fun _ => hold
  · intro slot' g k hg hk
    obtain ⟨rfl, rfl⟩ := frame_unique (inv_put hinv hf hset) (put_frame slot _ _) hg
    have hk : k < chunks.numBits := hk
    change chunks.bit k = true ↔ _
    rw [put_created, hbit, Bool.or_eq_true, decide_eq_true_iff, h.bits _ f k hf (hn ▸ hk)]
    constructor
    · rintro (rfl | ⟨e, he, hsame⟩)
      · exact ⟨d, List.mem_append_right _ (List.mem_singleton_self d), hcreated, rfl⟩
      · exact ⟨e, List.mem_append_left _ he, hsame⟩
    · rintro ⟨e, he, hsame, hsequence⟩
      obtain he | rfl := List.mem_append.mp he |>.imp_right List.mem_singleton.mp
      · exact Or.inr ⟨e, he, hsame, hsequence⟩
      · exact Or.inl hsequence.symm

/-- A new frame, whose stamp is newer than all before. -/
theorem traced_opened (h : Traced s es) (hn : Newer s d) (hprevious : s.previousFrame = none) {g : FrameState}
    (hbits : ∀ k, k < g.receivedChunks.numBits → (g.receivedChunks.bit k = true ↔ k = d.header.sequence))
    (b : CyclicBuffer) : Traced { s with
      buffer := b
      currentFrame := some g
      currentFrameCreated := d.header.created } (es ++ [d]) := by
  have hnewer := hn.newer
  have hfresh : ∀ e ∈ es, e.header.created ≠ d.header.created := by
    intro e he
    have := h.old e he
    omega
  refine ⟨?_, fun hopen => absurd hprevious hopen, ?_, unique_snoc h fun e he hsame => absurd hsame (hfresh e he)⟩
  · intro e he
    obtain he | rfl := List.mem_append.mp he |>.imp_right List.mem_singleton.mp
    · exact Nat.le_trans (h.old e he) (Nat.le_of_lt hnewer)
    · exact Nat.le_refl _
  · intro slot f k hf hk
    cases slot with
    | previous =>
      have hf : s.previousFrame = some f := hf
      rw [hprevious] at hf
      cases hf
    | current =>
      cases hf
      rw [hbits k hk]
      constructor
      · rintro rfl
        exact ⟨d, List.mem_append_right _ (List.mem_singleton_self d), rfl, rfl⟩
      · rintro ⟨e, he, hsame, hsequence⟩
        obtain he | rfl := List.mem_append.mp he |>.imp_right List.mem_singleton.mp
        · exact absurd hsame (hfresh e he)
        · exact hsequence.symm

/-- Frames that are closed leave the stamps. -/
theorem traced_closed (hinv : Inv s) (h : Traced s es) (ha : addressed s d.header.created = some (slot, f))
    (hget : f.receivedChunks.getBit d.header.sequence = .ok false) (b : CyclicBuffer) :
    Traced { s with buffer := b, currentFrame := none, previousFrame := none } (es ++ [d]) := by
  obtain ⟨chunks, hset, -⟩ := FastBitSet.setBit_ok (hinv.frames slot f (addressed_some ha).1).wf
    (FastBitSet.getBit_lt hget)
  have hput := traced_put hinv h ha hget hset
  refine ⟨?_, fun hopen => absurd rfl hopen, ?_, hput.unique⟩
  · intro e he
    have hold := hput.old e he
    cases slot <;> exact hold
  · intro slot f k hf
    cases slot <;> cases hf

theorem traced_call (hinv : Inv s) (h : Traced s es) (d : Datagram) :
    Traced (s.processFragment d).2 (es ++ pieces s [d]) := by
  obtain ⟨r, t, hcall, ho⟩ := outcome hinv d
  have hnothing : pieces s [d] = [] → Traced s (es ++ pieces s [d]) := by
    intro hnone
    rw [hnone, List.append_nil]
    exact h
  rw [hcall]
  cases ho with
  | wholeRefused hd => exact hnothing (pieces_whole hd)
  | whole hd => exact traced_congr (hnothing (pieces_whole hd)) rfl rfl rfl rfl
  | outOfRange hd ha hk =>
    refine hnothing (pieces_none ?_)
    rw [copyOf_addressed hd ha, FastBitSet.getBit_refused hk, if_neg (by simp)]
  | duplicate hd ha hget =>
    refine hnothing (pieces_none ?_)
    rw [copyOf_addressed hd ha, hget, if_neg (by simp)]
  | accepted hd ha hget hset | tooLong hd ha hget hset =>
    rw [pieces_copied hd ((copyOf_addressed hd ha).trans (if_pos hget))]
    exact traced_put hinv h ha hget hset
  | completed hd ha hget =>
    rw [pieces_copied hd ((copyOf_addressed hd ha).trans (if_pos hget))]
    exact traced_closed hinv h ha hget _
  | pushed hn hf hscope =>
    have hsame := hnothing (pieces_none (copyOf_none hn.fragment hn.unaddressed fun _ _ => ⟨_, hscope⟩))
    refine ⟨hsame.old, fun _ => Nat.le_refl _, ?_, hsame.unique⟩
    intro slot g k hg hk
    cases slot with
    | current => cases hg
    | previous =>
      cases hg
      exact hsame.bits .current _ k hf hk
  | refused hn _ hscope =>
    exact hnothing (pieces_none (copyOf_none hn.fragment hn.unaddressed fun _ _ => ⟨_, hscope⟩))
  | noChunks hn _ _ hsize =>
    exact hnothing (pieces_none (copyOf_none hn.fragment hn.unaddressed fun _ hpos => by omega))
  | openedOutOfRange hn hcurrent hscope hpos hnew hk =>
    rw [pieces_copied hn.fragment (copyOf_opening hn hpos hscope)]
    obtain ⟨-, hprevious⟩ := no_frames hinv (scope_opened hinv.bounded hscope).1
    obtain ⟨-, hcount, hzero⟩ := new_chunks hinv hpos hnew
    refine traced_opened h hn hprevious (fun k hlt => ?_) _
    have hlt : k < _ := hlt
    rw [hcount] at hlt
    exact iff_of_false (by simp [hzero k hlt]) (by omega)
  | opened hn hcurrent hscope hpos hnew hk hset =>
    rw [pieces_copied hn.fragment (copyOf_opening hn hpos hscope)]
    obtain ⟨-, hprevious⟩ := no_frames hinv (scope_opened hinv.bounded hscope).1
    obtain ⟨hwf, hcount, hzero⟩ := new_chunks hinv hpos hnew
    obtain ⟨-, hn', hbit⟩ := FastBitSet.setBit_spec hwf hset
    refine traced_opened h hn hprevious (fun k hlt => ?_) _
    have hlt : k < _ := hlt
    rw [mark, hn', hcount] at hlt
    rw [mark, hbit, hzero k hlt, Bool.or_false, decide_eq_true_iff]
  | stale hd ha hold =>
    obtain ⟨n, hn⟩ := countStale_same hinv d.header
    rw [hn]
    exact traced_congr (hnothing (pieces_none (copyOf_none hd ha fun hnew => by omega))) rfl rfl rfl rfl

theorem traced_run (hinv : Inv s) (h : Traced s es) (ds : List Datagram) :
    Traced (after s ds) (es ++ pieces s ds) := by
  induction ds generalizing s es with
  | nil => exact (List.append_nil es).symm ▸ h
  | cons d ds ih =>
    rw [pieces_cons, ← List.append_assoc]
    exact ih (inv_call hinv d) (traced_call hinv h d)

end Trace

section Provenance

variable {buffer : CyclicBuffer} {mtu : Nat} {ds : List Datagram}

/-- The same state with other bytes in the pool. -/
def refilled (s : UdpFrameDefragmentator) (bytes : Nat → UInt8) : UdpFrameDefragmentator :=
  withStore s bytes s.buffer.log

/-- What the pool's bytes were, before the run or at any moment at which no frame
was open, does not show in what is published from then on. -/
def OwnBytes (buffer : CyclicBuffer) (mtu : Nat) (ds : List Datagram) : Prop :=
  ∀ pre post, ds = pre ++ post → (after (.new buffer mtu) pre).buffer.memory.inUse = false → ∀ bytes bytes',
    (after (refilled (after (.new buffer mtu) pre) bytes) post).buffer.log =
      (after (refilled (after (.new buffer mtu) pre) bytes') post).buffer.log

/-- Two runs over other bytes publish alike exactly when they say the same. -/
theorem refilled_eq_iff (h : Inv s) (bytes bytes' : Nat → UInt8) (ds : List Datagram) :
    (after (refilled s bytes) ds).buffer.log = (after (refilled s bytes') ds).buffer.log ↔
      saidAfter s bytes ds = saidAfter s bytes' ds := by
  rw [refilled, refilled, store_run h, store_run h]
  exact List.append_right_inj _

/-- Whenever the last missing fragment of a frame comes, with a size that the span has,
every byte below this size is carried by a fragment taken since the frame was opened. -/
theorem own_bytes_covered (h : Ready buffer mtu) (ds : List Datagram) : OwnBytes buffer mtu ds ↔
    ∀ pre mid d suf slot f, ds = pre ++ mid ++ d :: suf → Closes (after (.new buffer mtu) pre) mid d slot f →
      ∀ i, i < d.header.size → ∃ e ∈ taken (after (.new buffer mtu) pre) (mid ++ [d]),
        Carries (mtu - 16) e i := by
  have hpayload : ∀ pre, (after (.new buffer mtu) pre).maxPayloadSize = mtu - 16 := payload_run (inv_after h [])
  constructor
  · intro hown pre mid d suf slot f hsplit hc i hi
    have hinv := inv_after h pre
    by_contra hnone
    have huntouched : ¬ Touches (after (.new buffer mtu) pre) (mid ++ [d]) (f.scope.span.start + i) := by
      rw [closes_touches hinv hc, hpayload]
      exact hnone
    have hsame := hown pre (mid ++ d :: suf) (by rw [hsplit, List.append_assoc]) hc.free (fun _ => 0) (fun _ => 1)
    rw [refilled_eq_iff hinv, saidAfter_eq_iff] at hsame
    have hbyte := hsame mid d suf rfl
    obtain ⟨t, hcall⟩ := completed_outcome (inv_run hinv mid) hc.last hc.fits
    rw [region_completed hcall hc.last.fragment hc.last.addressed, said_eq_iff] at hbyte
    have hdiffer := hbyte i hi
    rw [bytesAfter_untouched huntouched, bytesAfter_untouched huntouched] at hdiffer
    cases hdiffer
  · intro hcovered pre post hsplit hfree bytes bytes'
    have hinv := inv_after h pre
    rw [refilled_eq_iff hinv, saidAfter_eq_iff]
    intro m d suf hpost
    have hm := inv_run hinv m
    cases hr : region (after (after (.new buffer mtu) pre) m) d with
    | none => rfl
    | some r =>
      obtain ⟨scope, b, hd, hscope, rfl⟩ | ⟨slot, f, hc, hsize, rfl⟩ := region_cases hm hr
      · refine (said_eq_iff _ _ _ _ _).mpr fun i hi => ?_
        have hlength := not_fragment_iff.mp hd
        have hcovers : Covers (copyOf (after (after (.new buffer mtu) pre) m) d) d (scope.span.start + i) :=
          ⟨scope.span, 0, copyOf_whole hd hscope, by omega, by omega⟩
        rw [bytesAfter_append, bytesAfter_append]
        exact written_covered hcovers _ _
      · obtain ⟨q, mid, rfl, hq, hheld⟩ := last_free hfree m
        rw [after_append] at hc
        have hcloses : Closes (after (.new buffer mtu) (pre ++ q)) mid d slot f := by
          rw [after_append]
          exact ⟨hq, hheld, hc, hsize⟩
        refine (said_eq_iff _ _ _ _ _).mpr fun i hi => ?_
        have hcarried := hcovered (pre ++ q) mid d suf slot f (by rw [hsplit, hpost]; simp) hcloses i hi
        rw [← hpayload (pre ++ q), ← closes_touches (inv_after h _) hcloses, after_append] at hcarried
        have happend : ∀ bytes, bytesAfter (after (.new buffer mtu) pre) bytes (q ++ mid ++ [d]) =
            bytesAfter (after (after (.new buffer mtu) pre) q) (bytesAfter (after (.new buffer mtu) pre) bytes q)
              (mid ++ [d]) := by
          intro bytes
          rw [List.append_assoc, bytesAfter_append]
        rw [happend, happend]
        exact bytesAfter_touched hcarried _ _

/-- The bytes of this fragment of the row are copied when it comes. -/
def Copied (buffer : CyclicBuffer) (mtu : Nat) (ds : List Datagram) (e : Datagram) : Prop :=
  ∃ pre suf, ds = pre ++ e :: suf ∧ Fragment e ∧ (copyOf (after (.new buffer mtu) pre) e).isSome

/-- Whenever the last missing fragment of a frame comes, with a size that the span has, this
size has no more chunks than the frame, and every fragment copied so far that has its stamp
is as long as its chunk in a message of this size. -/
def FullChunks (buffer : CyclicBuffer) (mtu : Nat) (ds : List Datagram) : Prop :=
  ∀ pre d suf slot f, ds = pre ++ d :: suf → Completes (after (.new buffer mtu) pre) d slot f →
    d.header.size ≤ f.scope.span.size →
    d.header.size ≤ f.receivedChunks.numBits * (mtu - 16) ∧
    ∀ e, Copied buffer mtu (pre ++ [d]) e → e.header.created = d.header.created →
      min (mtu - 16) (d.header.size - e.header.sequence * (mtu - 16)) ≤ e.data.length

/-- Every fragment that is copied is one of the chunks of its frame, and not longer than a chunk can be. -/
def InPlace (buffer : CyclicBuffer) (mtu : Nat) (ds : List Datagram) : Prop :=
  ∀ pre e suf, ds = pre ++ e :: suf → Fragment e → (copyOf (after (.new buffer mtu) pre) e).isSome →
    e.header.sequence < chunksFor (after (.new buffer mtu) pre) e ∧ e.data.length ≤ mtu - 16

theorem copied_iff {e : Datagram} : Copied buffer mtu ds e ↔ e ∈ pieces (.new buffer mtu) ds := by
  rw [mem_pieces, mem_taken_iff]
  constructor
  · rintro ⟨pre, suf, hsplit, hd, hc⟩
    exact ⟨⟨pre, suf, hsplit, hc⟩, hd⟩
  · rintro ⟨⟨pre, suf, hsplit, hc⟩, hd⟩
    exact ⟨pre, suf, hsplit, hd, hc⟩

theorem traced_after (h : Ready buffer mtu) (ds : List Datagram) :
    Traced (after (.new buffer mtu) ds) (pieces (.new buffer mtu) ds) := by
  have hstart : Traced (.new buffer mtu) [] := by
    refine ⟨?_, fun hopen => absurd rfl hopen, ?_, List.nodup_nil⟩
    · intro e he
      cases he
    · intro slot f k hf
      cases slot <;> cases hf
  exact traced_run (inv_after h []) hstart ds

/-- Every chunk of a frame that is completed has come since it was opened. -/
theorem chunk_came (h : Ready buffer mtu) {pre mid : List Datagram}
    (hc : Closes (after (.new buffer mtu) pre) mid d slot f) {k : Nat} (hk : k < f.receivedChunks.numBits) :
    ∃ e ∈ taken (after (.new buffer mtu) pre) (mid ++ [d]), Fragment e ∧
      e.header.created = d.header.created ∧ e.header.sequence = k := by
  by_cases hlast : k = d.header.sequence
  · have hcopy := (copyOf_addressed hc.last.fragment hc.last.addressed).trans (if_pos hc.last.missing)
    refine ⟨d, mem_taken_iff.mpr ⟨mid, [], rfl, ?_⟩, hc.last.fragment, rfl, hlast.symm⟩
    rw [hcopy]
    rfl
  · have hbit := hc.last.others k hk hlast
    rw [FastBitSet.getBit_ok hk, Except.ok.injEq] at hbit
    obtain ⟨hframe, hcreated⟩ := addressed_some hc.last.addressed
    rw [← after_append] at hframe hcreated
    obtain ⟨e, he, hsame, hsequence⟩ := ((traced_after h (pre ++ mid)).bits slot f k hframe hk).mp hbit
    rw [pieces_append, List.mem_append] at he
    rcases he with hbefore | hsince
    · -- the frame was opened with a stamp newer than all before
      obtain ⟨first, rest, rfl⟩ := List.exists_cons_of_ne_nil (closes_nonempty (inv_after h pre) hc)
      obtain ⟨-, -, hnewer, hopener, -⟩ := closes_opened (inv_after h pre) hc
      have hold := (traced_after h pre).old e hbefore
      have hnewer := hnewer.newer
      omega
    · obtain ⟨htaken, hd⟩ := mem_pieces.mp hsince
      obtain ⟨front, back, rfl, hcopy⟩ := mem_taken_iff.mp htaken
      refine ⟨e, mem_taken_iff.mpr ⟨front, back ++ [d], ?_, hcopy⟩, hd, hsame.trans hcreated.symm, hsequence⟩
      rw [List.append_assoc, List.cons_append]

/-- Full chunks leave no byte of the message open. -/
theorem own_of_full (h : Ready buffer mtu) (hfull : FullChunks buffer mtu ds) : OwnBytes buffer mtu ds := by
  refine (own_bytes_covered h ds).mpr fun pre mid d suf slot f hsplit hc i hi => ?_
  have hsplit' : ds = (pre ++ mid) ++ d :: suf := by rw [hsplit]
  have hlast : Completes (after (.new buffer mtu) (pre ++ mid)) d slot f := by
    rw [after_append]
    exact hc.last
  obtain ⟨hsize, hlong⟩ := hfull (pre ++ mid) d suf slot f hsplit' hlast hc.fits
  have hp : 0 < mtu - 16 := Nat.sub_pos_of_lt h.payload
  have hk : i / (mtu - 16) < f.receivedChunks.numBits := Nat.div_lt_of_lt_mul (by rw [Nat.mul_comm]; omega)
  obtain ⟨e, he, hd, hcreated, hsequence⟩ := chunk_came h hc hk
  obtain ⟨front, back, hfront, hcopy⟩ := mem_taken_iff.mp he
  have hlength := hlong e ⟨pre ++ front, back, by rw [List.append_assoc, hfront, List.append_assoc], hd, by
    rw [after_append]
    exact hcopy⟩ hcreated
  have hstart := Nat.div_mul_le_self i (mtu - 16)
  have hend := Nat.lt_div_mul_add hp (a := i)
  refine ⟨e, he, ?_, ?_⟩ <;> rw [hsequence] at * <;> omega

/-- What is taken until a frame is completed belongs to it, if all that is copied is in place. -/
theorem taken_belongs (h : Ready buffer mtu) (hplace : InPlace buffer mtu ds) {pre mid suf : List Datagram}
    (hsplit : ds = pre ++ mid ++ d :: suf) (hc : Closes (after (.new buffer mtu) pre) mid d slot f) {e : Datagram}
    (he : e ∈ taken (after (.new buffer mtu) pre) (mid ++ [d])) :
    Belongs ⟨f.scope, d.header.created, f.receivedChunks.numBits⟩ e ∧ e.data.length ≤ mtu - 16 := by
  obtain ⟨first, rest, rfl⟩ := List.exists_cons_of_ne_nil (closes_nonempty (inv_after h pre) hc)
  obtain ⟨hholds, -, hnewer, hopener, hchunks⟩ := closes_opened (inv_after h pre) hc
  have hin : ∀ front back, first :: rest ++ [d] = front ++ e :: back → Fragment e →
      (copyOf (after (.new buffer mtu) (pre ++ front)) e).isSome →
      e.header.sequence < chunksFor (after (.new buffer mtu) (pre ++ front)) e ∧ e.data.length ≤ mtu - 16 := by
    intro front back hfront hd hcopy
    refine hplace (pre ++ front) e (back ++ suf) ?_ hd hcopy
    rw [hsplit, List.append_assoc, List.append_assoc, ← List.cons_append, ← List.append_assoc front, ← hfront]
    simp
  obtain ⟨front, back, hfront, hcopy⟩ := mem_taken_iff.mp he
  rw [← after_append] at hcopy
  obtain ⟨rfl, -⟩ | hrest := mem_taken_cons.mp he
  · have hcopied := closes_opened (inv_after h pre) hc
    obtain ⟨hsequence, hlength⟩ := hin [] (rest ++ [d]) rfl hnewer.fragment (by
      rw [List.append_nil, hcopied.2.1]
      rfl)
    rw [List.append_nil, hchunks] at hsequence
    exact ⟨⟨hnewer.fragment, hopener, hsequence⟩, hlength⟩
  · have hbelongs := taken_held (inv_call (inv_after h pre) first) hholds hc.held.2 d e hrest
    exact ⟨hbelongs, (hin front back hfront hbelongs.fragment hcopy).2⟩

/-- A fragment of a place in its frame that has come twice has been copied once. -/
theorem copied_once (h : Ready buffer mtu) {e e' : Datagram} (he : Copied buffer mtu ds e)
    (he' : Copied buffer mtu ds e') (hcreated : e.header.created = e'.header.created)
    (hsequence : e.header.sequence = e'.header.sequence) : e = e' :=
  List.inj_on_of_nodup_map (traced_after h ds).unique (copied_iff.mp he) (copied_iff.mp he')
    (Prod.ext hcreated hsequence)

/-- A byte that a short chunk leaves open is carried by no other chunk. -/
theorem full_of_own (h : Ready buffer mtu) (hplace : InPlace buffer mtu ds) (hown : OwnBytes buffer mtu ds) :
    FullChunks buffer mtu ds := by
  intro m d suf slot f hsplit hlast hsize
  obtain ⟨pre, mid, rfl, hfree, hheld⟩ := last_free (s := .new buffer mtu) h.free m
  have hc : Closes (after (.new buffer mtu) pre) mid d slot f := by
    refine ⟨hfree, hheld, ?_, hsize⟩
    rw [← after_append]
    exact hlast
  have hcarried : ∀ i, i < d.header.size → ∃ e ∈ taken (after (.new buffer mtu) pre) (mid ++ [d]),
      Carries (mtu - 16) e i ∧ Belongs ⟨f.scope, d.header.created, f.receivedChunks.numBits⟩ e ∧
      e.data.length ≤ mtu - 16 := by
    intro i hi
    obtain ⟨e, he, hcarries⟩ := (own_bytes_covered h ds).mp hown pre mid d suf slot f hsplit hc i hi
    exact ⟨e, he, hcarries, taken_belongs h hplace hsplit hc he⟩
  constructor
  · by_contra hbeyond
    obtain ⟨e, -, ⟨hfrom, hto⟩, hbelongs, hlength⟩ := hcarried _ (Nat.lt_of_not_le hbeyond)
    have hend := Nat.mul_le_mul_right (mtu - 16) (Nat.succ_le_of_lt hbelongs.sequence)
    rw [Nat.succ_mul] at hend
    change (e.header.sequence * (mtu - 16) + (mtu - 16) ≤ f.receivedChunks.numBits * (mtu - 16)) at hend
    omega
  · intro e he hcreated
    by_contra hshort
    obtain ⟨e', htaken, ⟨hfrom, hto⟩, hbelongs, hlength⟩ :=
      hcarried (e.header.sequence * (mtu - 16) + e.data.length) (by omega)
    have hsequence : e.header.sequence = e'.header.sequence := by
      rw [← Nat.div_eq_of_lt_le hfrom (by rw [Nat.succ_mul]; omega)]
      exact (Nat.div_eq_of_lt_le (Nat.le_add_right _ _) (by rw [Nat.succ_mul]; omega)).symm
    obtain ⟨front, back, hfront, hcopy⟩ := mem_taken_iff.mp htaken
    have he' : Copied buffer mtu (pre ++ mid ++ [d]) e' := by
      refine ⟨pre ++ front, back, by rw [List.append_assoc, hfront, List.append_assoc], hbelongs.fragment, ?_⟩
      rw [after_append]
      exact hcopy
    obtain rfl := copied_once h he he' (hcreated.trans hbelongs.created.symm) hsequence
    omega

/-- In every row of datagrams whose chunks are full, the bytes of a published message are its
own; and if no fragment is copied beyond its place, in no other row. -/
theorem own_bytes_full_chunks (h : Ready buffer mtu) (ds : List Datagram) :
    (FullChunks buffer mtu ds → OwnBytes buffer mtu ds) ∧
    (InPlace buffer mtu ds → OwnBytes buffer mtu ds → FullChunks buffer mtu ds) :=
  ⟨own_of_full h, full_of_own h⟩

/-- Two fragments of 1484 bytes and 1 byte, and a message of 1485. -/
def fullFragments : List Datagram := [⟨⟨1, 1485, 0, 7⟩, List.replicate 1484 5⟩, ⟨⟨1, 1485, 1, 7⟩, [6]⟩]

theorem own_bytes_full_chunks_two : OwnBytes emptyBuffer 1500 fullFragments := by
  have hready : Ready emptyBuffer 1500 := ⟨rfl, CyclicMemoryPool.new_bounded (by decide) _, by decide⟩
  have hsizes : ∀ d ∈ fullFragments, d.header.size = 1485 ∧
      min 1484 (1485 - d.header.sequence * 1484) ≤ d.data.length := by
    decide +kernel
  have hcount : ((after (.new emptyBuffer 1500) [⟨⟨1, 1485, 0, 7⟩, List.replicate 1484 5⟩]).currentFrame.map
      fun f => f.receivedChunks.numBits) = some 2 := by
    decide +kernel
  have hprevious : (after (.new emptyBuffer 1500)
      [⟨⟨1, 1485, 0, 7⟩, List.replicate 1484 5⟩]).previousFrame.isSome = false := by
    decide +kernel
  refine (own_bytes_full_chunks hready fullFragments).1 fun pre d suf slot f hsplit hc hsize => ?_
  have hsize : d.header.size = 1485 := (hsizes d (by rw [hsplit]; simp)).1
  refine ⟨?_, fun e he _ => ?_⟩
  · have hframe := (addressed_some hc.addressed).1
    cases pre with
    | nil => cases slot <;> cases hframe
    | cons first rest =>
      obtain ⟨rfl, htail⟩ := List.cons.inj hsplit
      obtain rfl : rest = [] := by
        cases rest with
        | nil => rfl
        | cons e rest => simp at htail
      cases slot with
      | current =>
        rw [Slot.frame] at hframe
        rw [hframe, Option.map_some, Option.some.injEq] at hcount
        rw [hcount, hsize]
        decide
      | previous =>
        rw [Slot.frame] at hframe
        rw [hframe] at hprevious
        cases hprevious
  · obtain ⟨front, back, hfront, -⟩ := he
    have hmem : e ∈ fullFragments := by
      have : e ∈ pre ++ [d] := by
        rw [hfront]
        simp
      rw [hsplit, ← List.singleton_append, ← List.append_assoc]
      exact List.mem_append_left suf this
    rw [hsize]
    exact (hsizes e hmem).2

/-- A message of 1485 bytes of which four have come. -/
def shortFragments : List Datagram := [⟨⟨1, 1485, 0, 7⟩, [1, 2, 3]⟩, ⟨⟨1, 1485, 1, 7⟩, [4]⟩]

theorem old_bytes_published : ¬ ∀ bytes bytes',
    (after (.new (.new 4 8192 (fun _ => ⟨0, 0, 0⟩) bytes) 1500) shortFragments).buffer.log =
      (after (.new (.new 4 8192 (fun _ => ⟨0, 0, 0⟩) bytes') 1500) shortFragments).buffer.log := by
  intro h
  have hsame := congrArg (List.map fun m => m.bytes[3]?) (h (fun _ => 0) (fun _ => 1))
  exact absurd hsame (by decide +kernel)

end Provenance

end FrameProvenance
