import ZeroCopyRpc.CyclicBuffer
import ZeroCopyRpc.Transitions
import ZeroCopyRpc.WordMemory

/-!
# What the buffer's counter measures

`BufferItemsSize` reads a counter that each published entry raises by its own
size and, once the ring of slots is full, lowers by the size of the entry whose
slot it takes. Runs of one writer at a time are followed here together with the
list of all entries published so far, newest first. The counter is a word, so
it is the sum of the live sizes modulo 2^64. A sum beyond the pool's size leaves
no room for all live payloads, hence two of them share a byte.
-/
namespace LiveEntries

open Cells Words WordMemory Transitions

structure World where
  buffer : CyclicBuffer
  live : Option WriterScope
  published : List Entry

inductive Event where
  | writeScope (minSize : Nat) (type : UInt64)
  | write (position : Nat) (data : List UInt8)
  | commit (size : Nat)
  | destroy

def start (capacity size : Nat) (items : Nat → Entry) (bytes : Nat → UInt8) : World :=
  ⟨.new capacity size items bytes, none, []⟩

/-- The entry a scope leaves when it is destroyed, if it committed anything. -/
def left (scope : WriterScope) : List Entry :=
  if 0 < scope.span.committed then [⟨scope.span.committed, scope.type, scope.span.start⟩] else []

def step : Machine World Event
  | w, .writeScope minSize type =>
    match w.buffer.writeScope minSize type with
    | .error _ => some w
    | .ok (scope, buffer) => some { w with buffer := buffer, live := some scope }
  | w, .write position data =>
    match w.live with
    | none => none
    | some scope =>
      if position + data.length ≤ scope.span.size then
        some { w with buffer := w.buffer.copy (scope.span.start + position) data }
      else none
  | w, .commit size =>
    match w.live with
    | none => none
    | some scope =>
      match scope.commit w.buffer size with
      | .error _ => some w
      | .ok (scope, buffer) => some { w with buffer := buffer, live := some scope }
  | w, .destroy =>
    match w.live with
    | none => none
    | some scope => some ⟨scope.destroy w.buffer, none, left scope ++ w.published⟩

/-- The most recent entries, as many as are counted and have slots. -/
def World.recent (w : World) : List Entry := w.published.take (min w.buffer.nextIndex w.buffer.capacity)

def sizes (entries : List Entry) : Nat := (entries.map Entry.size).sum

/-- The bytes of the pool that an entry's payload was written to. -/
def payload (e : Entry) : Region := ⟨e.offset, e.size⟩

/-- The newest entries are in their slots and the counter is the sum of their sizes. -/
structure Counted (w : World) : Prop where
  nextIndex_eq : w.buffer.nextIndex = w.published.length
  slot : ∀ k, (hk : k < w.published.length) → k < w.buffer.capacity →
    w.buffer.items ((w.published.length - 1 - k) % w.buffer.capacity) = w.published[k]
  currentSize_eq : w.buffer.currentSize = sizes (w.published.take w.buffer.capacity) % 0x10000000000000000

structure Inv (capacity size : Nat) (w : World) : Prop where
  capacity_eq : w.buffer.capacity = capacity
  size_eq : w.buffer.memory.size = size
  bounded : w.buffer.memory.Bounded
  placed : ∀ e ∈ w.published, e.offset + e.size ≤ size
  counted : w.published.length < 0x10000000000000000 → Counted w
  live : ∀ scope, w.live = some scope → scope.span.Live w.buffer.memory 0

variable {capacity size : Nat} {w w' : World}

theorem inv_start (capacity : Nat) (hsize : size < 0x10000000000000000) (items : Nat → Entry)
    (bytes : Nat → UInt8) :
    Inv capacity size (start capacity size items bytes) where
  capacity_eq := rfl
  size_eq := rfl
  bounded := CyclicMemoryPool.new_bounded hsize bytes
  placed := by simp [start]
  counted := fun _ => ⟨rfl, by simp [start], by simp [start, CyclicBuffer.new, sizes]⟩
  live := by simp [start]

theorem sizes_cons (e : Entry) (entries : List Entry) : sizes (e :: entries) = e.size + sizes entries := by
  rw [sizes, List.map_cons, List.sum_cons, sizes]

theorem sizes_take_succ {entries : List Entry} {n : Nat} (h : n < entries.length) :
    sizes (entries.take (n + 1)) = sizes (entries.take n) + entries[n].size := by
  rw [List.take_succ_eq_append_getElem h, sizes, sizes, List.map_append, List.sum_append]
  simp

/-- The signed difference, added to the unsigned counter. -/
theorem counter_step {s e p : Nat} (h : p ≤ s) :
    subWord (addWord (s % 0x10000000000000000) e) p = (e + (s - p)) % 0x10000000000000000 := by
  simp only [subWord, addWord]
  omega

/-- Indices less than a ring apart have different slots. -/
theorem slot_ne {n k c : Nat} (hk : k < n) (hc : k + 1 < c) : (n - 1 - k) % c ≠ n % c := by
  intro heq
  have hzero := Nat.sub_mod_eq_zero_of_mod_eq heq.symm
  rw [show n - (n - 1 - k) = k + 1 by omega, Nat.mod_eq_of_lt hc] at hzero
  omega

/-- A published entry takes the slot of the entry that falls out of the sum. -/
theorem counted_destroy (h : Counted w) (hcapacity : 0 < w.buffer.capacity) {scope : WriterScope}
    (hfew : w.published.length + 1 < 0x10000000000000000) (hwritten : 0 < scope.span.committed) :
    Counted ⟨scope.destroy w.buffer, none, left scope ++ w.published⟩ := by
  have hnext : (scope.destroy w.buffer).nextIndex = w.published.length + 1 := by
    rw [WriterScope.destroy_nextIndex, if_pos hwritten, h.nextIndex_eq, addWord_exact hfew]
  have hleft : left scope ++ w.published =
      ⟨scope.span.committed, scope.type, scope.span.start⟩ :: w.published := by
    rw [left, if_pos hwritten, List.singleton_append]
  rw [hleft]
  refine ⟨hnext, ?_, ?_⟩
  · intro k hk hkc
    simp only [WriterScope.destroy_capacity] at hkc ⊢
    rw [WriterScope.destroy_items _ _ hwritten, h.nextIndex_eq]
    simp only [List.length_cons, Nat.add_sub_cancel] at hk ⊢
    cases k with
    | zero => exact Function.update_self _ _ _
    | succ k =>
      rw [show w.published.length - (k + 1) = w.published.length - 1 - k by omega,
        Function.update_of_ne (slot_ne (by omega) hkc)]
      exact h.slot k (by omega) (by omega)
  · simp only [WriterScope.destroy_capacity]
    have hcounter : (scope.destroy w.buffer).currentSize =
        subWord (addWord w.buffer.currentSize scope.span.committed)
          (if w.buffer.capacity ≤ w.buffer.nextIndex then
            (w.buffer.items (subWord w.buffer.nextIndex w.buffer.capacity % w.buffer.capacity)).size else 0) := by
      simp [WriterScope.destroy, WriterScope.publish, hwritten]
    obtain ⟨c, hc⟩ := Nat.exists_eq_succ_of_ne_zero (Nat.ne_of_gt hcapacity)
    rw [hcounter, h.currentSize_eq, h.nextIndex_eq, hc, List.take_succ_cons, sizes_cons]
    by_cases hfull : c + 1 ≤ w.published.length
    · have hslot := h.slot c (by omega) (by omega)
      rw [hc, show w.published.length - 1 - c = w.published.length - (c + 1) by omega] at hslot
      rw [if_pos hfull, subWord_exact hfull (by omega), hslot, sizes_take_succ (by omega),
        counter_step (Nat.le_add_left _ _), Nat.add_sub_cancel]
    · rw [if_neg hfull, counter_step (Nat.zero_le _), Nat.sub_zero, List.take_of_length_le (by omega),
        List.take_of_length_le (by omega)]

theorem counted_uncommitted (h : Counted w) {scope : WriterScope} (hwritten : ¬ 0 < scope.span.committed) :
    Counted ⟨scope.destroy w.buffer, none, left scope ++ w.published⟩ := by
  rw [WriterScope.destroy_uncommitted _ _ (Nat.eq_zero_of_not_pos hwritten), left, if_neg hwritten, List.nil_append]
  exact ⟨h.nextIndex_eq, h.slot, h.currentSize_eq⟩

theorem inv_destroy (h : Inv capacity size w) (hcapacity : 0 < capacity) {scope : WriterScope}
    (hl : w.live = some scope) : Inv capacity size ⟨scope.destroy w.buffer, none, left scope ++ w.published⟩ := by
  have hlive := h.live scope hl
  have hfits : ∀ e ∈ left scope, e.offset + e.size ≤ size := by
    intro e he
    rw [left] at he
    split at he
    · cases List.mem_singleton.mp he
      have hbound := hlive.bound
      have hcommitted := hlive.committed_le
      rw [h.size_eq] at hbound
      exact Nat.le_trans (Nat.add_le_add_left hcommitted _) hbound
    · cases he
  refine ⟨?_, ?_, ?_, ?_, ?_, ?_⟩
  · rw [WriterScope.destroy_capacity, h.capacity_eq]
  · rw [WriterScope.destroy_memory, CyclicMemoryPool.release_size, h.size_eq]
  · rw [WriterScope.destroy_memory]
    exact ⟨h.bounded.offset_le, h.bounded.size_lt⟩
  · intro e he
    exact (List.mem_append.mp he).elim (hfits e) (h.placed e)
  · intro hfew
    by_cases hwritten : 0 < scope.span.committed
    · simp only [left, if_pos hwritten, List.length_append, List.length_singleton] at hfew
      exact counted_destroy (h.counted (by omega)) (by rw [h.capacity_eq]; exact hcapacity) (by omega) hwritten
    · simp only [left, if_neg hwritten, List.nil_append] at hfew
      exact counted_uncommitted (h.counted hfew) hwritten
  · intro scope' hscope'
    cases hscope'

/-- An event that only moves the pool leaves the counted entries alone. -/
theorem inv_memory (h : Inv capacity size w) {memory : CyclicMemoryPool} {live : Option WriterScope}
    (hsize : memory.size = w.buffer.memory.size) (hbounded : memory.Bounded)
    (hlive : ∀ scope, live = some scope → scope.span.Live memory 0) :
    Inv capacity size { w with buffer := { w.buffer with memory := memory }, live := live } :=
  ⟨h.capacity_eq, hsize.trans h.size_eq, hbounded, h.placed,
    fun hfew => ⟨(h.counted hfew).nextIndex_eq, (h.counted hfew).slot, (h.counted hfew).currentSize_eq⟩, hlive⟩

theorem inv_step (hcapacity : 0 < capacity) {e : Event} (h : Inv capacity size w) (hstep : step w e = some w') :
    Inv capacity size w' := by
  cases e with
  | writeScope minSize type =>
    cases hspan : w.buffer.memory.getWriteSpan minSize with
    | error e =>
      simp only [step, CyclicBuffer.writeScope, hspan, Option.some.injEq] at hstep
      exact hstep ▸ h
    | ok r =>
      simp only [step, CyclicBuffer.writeScope, hspan, Option.some.injEq] at hstep
      subst hstep
      obtain ⟨hbounded, hlive⟩ := Span.live_of_getWriteSpan h.bounded hspan
      obtain ⟨-, -, hcase⟩ := CyclicMemoryPool.getWriteSpan_ok hspan
      apply inv_memory h ?_ hbounded
      · rintro scope ⟨⟩
        exact ⟨hlive.locked, hlive.bound, Nat.zero_le _, hlive.committed_le, hlive.offset_eq⟩
      · cases hcase with
        | inl hkeep => rw [hkeep.2.2]
        | inr hrestart => rw [hrestart.2.2]
  | write position data =>
    cases hl : w.live with
    | none => simp [step, hl] at hstep
    | some scope =>
      by_cases hfit : position + data.length ≤ scope.span.size
      · simp only [step, hl, if_pos hfit, Option.some.injEq] at hstep
        have hlive := h.live scope hl
        subst hstep
        refine inv_memory h rfl ⟨h.bounded.offset_le, h.bounded.size_lt⟩ ?_
        intro scope' hscope'
        cases hscope'
        exact ⟨hlive.locked, hlive.bound, Nat.zero_le _, hlive.committed_le, hlive.offset_eq⟩
      · simp [step, hl, hfit] at hstep
  | commit n =>
    cases hl : w.live with
    | none => simp [step, hl] at hstep
    | some scope =>
      cases hcommit : scope.span.commit w.buffer.memory n with
      | error e =>
        simp only [step, hl, WriterScope.commit, hcommit, Option.some.injEq] at hstep
        exact hstep ▸ h
      | ok r =>
        simp only [step, hl, WriterScope.commit, hcommit, Option.some.injEq] at hstep
        subst hstep
        obtain ⟨hbounded, hlive, -, hmemory⟩ := Span.commit_live h.bounded (h.live scope hl) hcommit
        apply inv_memory h (by rw [hmemory]) hbounded
        rintro scope' ⟨⟩
        exact hlive
  | destroy =>
    cases hl : w.live with
    | none => simp [step, hl] at hstep
    | some scope =>
      simp only [step, hl, Option.some.injEq] at hstep
      subst hstep
      exact inv_destroy h hcapacity hl

/-- More bytes than the pool has cannot all be live: two entries share one. -/
theorem overwritten {n : Nat} {entries : List Entry} (hplaced : ∀ e ∈ entries, e.offset + e.size ≤ n)
    (hsum : n < sizes entries) : ∃ newer older, ∃ (ho : older < entries.length) (hn : newer < older),
      ∃ a, (payload entries[older]).Has a ∧ (payload entries[newer]).Has a := by
  have hin : ∀ r ∈ entries.map payload, r.start + r.length ≤ n := by
    intro r hr
    obtain ⟨e, he, rfl⟩ := List.mem_map.mp hr
    exact hplaced e he
  have hlengths : ((entries.map payload).map Region.length).sum = sizes entries := by
    rw [List.map_map]
    rfl
  obtain ⟨newer, older, ho, hn, a, hnewer, holder⟩ := exists_shared hin (by rw [hlengths]; exact hsum)
  rw [List.getElem_map] at hnewer holder
  rw [List.length_map] at ho
  exact ⟨newer, older, ho, hn, a, holder, hnewer⟩

/-- After every run of one writer, the counter is the sum of the sizes of the
most recent entries, as a word; where it exceeds the pool, a later one of them
used a byte of an earlier one. -/
theorem items_size {capacity size : Nat} (hcapacity : 1 ≤ capacity) (hsize : size < 0x10000000000000000)
    (items : Nat → Entry) (bytes : Nat → UInt8) {es : List Event} {w : World}
    (hrun : run step (start capacity size items bytes) es = some w)
    (hfew : w.published.length < 0x10000000000000000) :
    w.buffer.nextIndex = w.published.length ∧
    w.recent = w.published.take (min w.buffer.nextIndex capacity) ∧
    w.buffer.bufferItemsSize = sizes w.recent % 0x10000000000000000 ∧
    (size < w.buffer.bufferItemsSize → ∃ newer older, ∃ (ho : older < w.recent.length) (hn : newer < older),
      ∃ a, (payload w.recent[older]).Has a ∧ (payload w.recent[newer]).Has a) := by
  have h : Inv capacity size w :=
    run_invariant (fun _ _ _ h hstep => inv_step hcapacity h hstep) (inv_start capacity hsize items bytes) hrun
  have hcounted := h.counted hfew
  have hrecent : w.recent = w.published.take w.buffer.capacity := by
    rw [World.recent, hcounted.nextIndex_eq, List.take_eq_take_iff]
    omega
  have hcounter : w.buffer.bufferItemsSize = sizes w.recent % 0x10000000000000000 := by
    rw [hrecent]
    exact hcounted.currentSize_eq
  refine ⟨hcounted.nextIndex_eq, by rw [World.recent, h.capacity_eq], hcounter, fun hlarge => ?_⟩
  have hsum : size < sizes w.recent := by
    rw [hcounter] at hlarge
    exact Nat.lt_of_lt_of_le hlarge (Nat.mod_le _ _)
  exact overwritten (fun e he => h.placed e (List.mem_of_mem_take he)) hsum

def entry (size : Nat) : List Event := [.writeScope size 0, .commit size, .destroy]

def four (size : Nat) : World := start 4 size (fun _ => ⟨0, 0, 0⟩) (fun _ => 0)

/-- An aborted write and two entries of three bytes in a pool of four. -/
theorem items_size_two : ∃ w, run step (four 4) ([.writeScope 2 0, .destroy] ++ entry 3 ++ entry 3) = some w ∧
    w.published = [⟨3, 0, 0⟩, ⟨3, 0, 0⟩] ∧ w.buffer.bufferItemsSize =
      sizes w.recent % 0x10000000000000000 ∧
    4 < w.buffer.bufferItemsSize ∧ ∃ newer older, ∃ (ho : older < w.recent.length) (hn : newer < older),
      ∃ a, (payload w.recent[older]).Has a ∧ (payload w.recent[newer]).Has a := by
  have hrun : (run step (four 4) ([.writeScope 2 0, .destroy] ++ entry 3 ++ entry 3)).map
      (fun w => (w.published, w.buffer.bufferItemsSize)) = some ([⟨3, 0, 0⟩, ⟨3, 0, 0⟩], 6) := by
    decide +kernel
  obtain ⟨w, hw, hends⟩ := Option.map_eq_some_iff.mp hrun
  obtain ⟨hpublished, hcounter⟩ := Prod.mk.inj hends
  obtain ⟨-, -, hsum, hshared⟩ := items_size (by decide) (by decide) _ _ hw (by rw [hpublished]; decide)
  have hlarge : 4 < w.buffer.bufferItemsSize := by rw [hcounter]; decide
  exact ⟨w, hw, hpublished, hsum, hlarge, hshared hlarge⟩

/-- Four entries of 2^62 bytes, all live: the counter has gone round once and
reads zero, where their sizes add up to 2^64. -/
theorem items_size_wraps : ∃ w, run step (four 0x4000000000000000)
      (entry 0x4000000000000000 ++ entry 0x4000000000000000 ++ entry 0x4000000000000000 ++ entry 0x4000000000000000) =
        some w ∧
    w.published.length < 0x10000000000000000 ∧ w.buffer.bufferItemsSize = 0 ∧
    sizes w.recent = 0x10000000000000000 := by
  have hrun : (run step (four 0x4000000000000000)
      (entry 0x4000000000000000 ++ entry 0x4000000000000000 ++ entry 0x4000000000000000 ++
        entry 0x4000000000000000)).map
      (fun w => (decide (w.published.length < 0x10000000000000000), w.buffer.bufferItemsSize, sizes w.recent)) =
        some (true, 0, 0x10000000000000000) := by
    decide +kernel
  obtain ⟨w, hw, hends⟩ := Option.map_eq_some_iff.mp hrun
  simp only [Prod.mk.injEq, decide_eq_true_iff] at hends
  exact ⟨w, hw, hends⟩

end LiveEntries
