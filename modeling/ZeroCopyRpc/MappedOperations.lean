import ZeroCopyRpc.MappedBuffer

/-!
# What lies in the segment

`Reads` says which buffer the bytes of a segment stand for, seen through an
object that is placed as the server laid the segment out. Every write of the
code goes to one part of the layout and changes that part alone, so the
operations over bytes are the operations of the buffer.
-/
namespace MappedOperations

open Words WordMemory Cells

/-- The parts lie one after the other, with room for the entries. -/
structure Placed (o : MappedBuffer) (capacity : Nat) : Prop where
  items : o.items = o.state + 24
  pool : o.memory.state = o.items + capacity * 24
  bytes : o.memory.buffer = o.memory.state + 24

inductive Part where
  | nextIndex | currentSize | capacity | items | offset | size | inUse | bytes
  deriving DecidableEq, Repr

def Part.region (o : MappedBuffer) (capacity size : Nat) : Part → Region
  | .nextIndex => ⟨o.state, 8⟩
  | .currentSize => ⟨o.state + 8, 8⟩
  | .capacity => ⟨o.state + 16, 8⟩
  | .items => ⟨o.items, capacity * 24⟩
  | .offset => ⟨o.memory.state, 8⟩
  | .size => ⟨o.memory.state + 8, 8⟩
  | .inUse => ⟨o.memory.state + 16, 1⟩
  | .bytes => ⟨o.memory.buffer, size⟩

/-- What lies in the part is what the buffer has there. -/
def Part.Holds (o : MappedBuffer) (m : Bytes) (b : CyclicBuffer) : Part → Prop
  | .nextIndex => o.nextIndex m = b.nextIndex
  | .currentSize => o.bufferItemsSize m = b.currentSize
  | .capacity => o.capacity m = b.capacity
  | .items => ∀ i, i < b.capacity → o.item m i = b.items i
  | .offset => o.memory.offset m = b.memory.offset
  | .size => o.memory.size m = b.memory.size
  | .inUse => o.memory.inUse m = b.memory.inUse
  | .bytes => ∀ i, i < b.memory.size → m (o.memory.buffer + i) = b.memory.buffer i

/-- The bytes stand for the buffer; beside its parts they are those of `rest`. -/
structure Reads (rest : Bytes) (o : MappedBuffer) (m : Bytes) (b : CyclicBuffer) : Prop where
  parts : ∀ q : Part, q.Holds o m b
  beside : ∀ a, a < o.state ∨ o.memory.buffer + b.memory.size ≤ a → m a = rest a

variable {rest m m' : Bytes} {o p : MappedBuffer} {b b' : CyclicBuffer} {capacity v i : Nat}

theorem Placed.unique (ho : Placed o capacity) (hp : Placed p capacity) (h : p.state = o.state) : p = o := by
  obtain ⟨ostate, oitems, opool, obytes⟩ := o
  obtain ⟨pstate, pitems, ppool, pbytes⟩ := p
  obtain ⟨hoitems, hopool, hobytes⟩ := ho
  obtain ⟨hpitems, hppool, hpbytes⟩ := hp
  simp only at *
  subst h
  rw [hobytes, hopool, hoitems, hpbytes, hppool, hpitems]

/-- An object from the raw address finds the parts where the capacity in the segment puts them. -/
theorem placed_attach (m : Bytes) (address : Nat) :
    Placed (.attach m address) (load m (address + 16)) := by
  refine ⟨rfl, ?_, rfl⟩
  change address + (24 + load m (address + 16) * 24) = address + 24 + load m (address + 16) * 24
  omega

/-- So it is the object that is there. -/
theorem attach_same (h : Reads rest o m b) (hp : Placed o b.capacity) : MappedBuffer.attach m o.state = o := by
  have hplaced := placed_attach m o.state
  have hcapacity : load m (o.state + 16) = b.capacity := h.parts .capacity
  rw [hcapacity] at hplaced
  exact hp.unique hplaced rfl

section Parts

theorem parts_apart (hp : Placed o capacity) {size : Nat} {q r : Part} (h : q ≠ r) :
    Apart (q.region o capacity size) (r.region o capacity size) := by
  obtain ⟨hitems, hpool, hbytes⟩ := hp
  cases q <;> cases r <;> first
    | exact absurd rfl h
    | (simp only [Apart, Part.region]; omega)

theorem item_congr (h : ∀ a, (⟨o.items + i * 24, 24⟩ : Region).Has a → m' a = m a) :
    o.item m' i = o.item m i := by
  have hword : ∀ k, k ≤ 16 → load m' (o.items + i * 24 + k) = load m (o.items + i * 24 + k) := fun k hk =>
    load_congr fun a hle hlt => h a ⟨by simp only; omega, by simp only; omega⟩
  rw [MappedBuffer.item, MappedBuffer.item, Entry.mk.injEq]
  refine ⟨hword 0 (by omega), ?_, hword 16 (by omega)⟩
  rw [show sizeOfEntry = 24 from rfl, hword 8 (by omega)]

/-- A part is what its own bytes say. -/
theorem holds_congr {q : Part} (h : ∀ a, (q.region o b.capacity b.memory.size).Has a → m' a = m a)
    (hq : q.Holds o m b) : q.Holds o m' b := by
  cases q with
  | items =>
    intro i hi
    refine (item_congr fun a ⟨hle, hlt⟩ => h a ?_).trans (hq i hi)
    simp only at hle hlt
    exact ⟨by simp only [Part.region]; omega, by simp only [Part.region]; omega⟩
  | bytes => exact fun i hi => (h _ ⟨Nat.le_add_right _ _, Nat.add_lt_add_left hi _⟩).trans (hq i hi)
  | inUse => exact (flag_congr (h _ ⟨Nat.le_refl _, Nat.lt_succ_self _⟩)).trans hq
  | _ => exact (load_congr fun a hle hlt => h a ⟨hle, hlt⟩).trans hq

/-- A write to one part. -/
theorem reads_write (h : Reads rest o m b) (hp : Placed o b.capacity) (q : Part)
    (hm : Kept (q.region o b.capacity b.memory.size) m m') (hcapacity : b'.capacity = b.capacity)
    (hsize : b'.memory.size = b.memory.size) (hq : q.Holds o m' b')
    (hothers : ∀ r, r ≠ q → r.Holds o m b → r.Holds o m b') : Reads rest o m' b' := by
  refine ⟨fun r => ?_, fun a ha => ?_⟩
  · by_cases hr : r = q
    · rw [hr]
      exact hq
    · refine holds_congr (fun a ha => ?_) (hothers r hr (h.parts r))
      rw [hcapacity, hsize] at ha
      exact hm a ((parts_apart hp (Ne.symm hr)).not_has ha)
  · rw [hsize] at ha
    refine (hm a ?_).trans (h.beside a ha)
    obtain ⟨hitems, hpool, hbytes⟩ := hp
    rintro ⟨hle, hlt⟩
    cases q <;> simp only [Part.region] at hle hlt <;> omega

/-- Only the entries below the capacity and the bytes below the size count. -/
theorem reads_contents (h : Reads rest o m b) {items : Nat → Entry} {buffer : Bytes}
    (hitems : ∀ i, i < b.capacity → b.items i = items i)
    (hbytes : ∀ i, i < b.memory.size → b.memory.buffer i = buffer i) :
    Reads rest o m { b with items := items, memory := { b.memory with buffer := buffer } } := by
  refine ⟨fun q => ?_, h.beside⟩
  cases q with
  | items => exact fun i hi => (h.parts .items i hi).trans (hitems i hi)
  | bytes => exact fun i hi => (h.parts .bytes i hi).trans (hbytes i hi)
  | nextIndex => exact h.parts .nextIndex
  | currentSize => exact h.parts .currentSize
  | capacity => exact h.parts .capacity
  | offset => exact h.parts .offset
  | size => exact h.parts .size
  | inUse => exact h.parts .inUse

end Parts

section Writes

theorem reads_nextIndex (h : Reads rest o m b) (hp : Placed o b.capacity) (hv : v < 0x10000000000000000) :
    Reads rest o (put m o.state v) { b with nextIndex := v } :=
  reads_write h hp .nextIndex (kept_put m v (within_refl _)) rfl rfl (load_put m _ hv) fun r hr hold => by
    cases r <;> first
      | exact absurd rfl hr
      | exact hold

theorem reads_currentSize (h : Reads rest o m b) (hp : Placed o b.capacity) (hv : v < 0x10000000000000000) :
    Reads rest o (put m (o.state + 8) v) { b with currentSize := v } :=
  reads_write h hp .currentSize (kept_put m v (within_refl _)) rfl rfl (load_put m _ hv) fun r hr hold => by
    cases r <;> first
      | exact absurd rfl hr
      | exact hold

theorem reads_offset (h : Reads rest o m b) (hp : Placed o b.capacity) (hv : v < 0x10000000000000000) :
    Reads rest o (put m o.memory.state v) { b with memory := { b.memory with offset := v } } :=
  reads_write h hp .offset (kept_put m v (within_refl _)) rfl rfl (load_put m _ hv) fun r hr hold => by
    cases r <;> first
      | exact absurd rfl hr
      | exact hold

theorem reads_inUse (h : Reads rest o m b) (hp : Placed o b.capacity) (v : Bool) :
    Reads rest o (putFlag m (o.memory.state + 16) v) { b with memory := { b.memory with inUse := v } } :=
  reads_write h hp .inUse (kept_putFlag m v (within_refl _)) rfl rfl (flag_putFlag m _ v) fun r hr hold => by
    cases r <;> first
      | exact absurd rfl hr
      | exact hold

/-- A copy that stays inside the pool's bytes. -/
theorem reads_copy (h : Reads rest o m b) (hp : Placed o b.capacity) {position : Nat} {data : List UInt8}
    (hdata : position + data.length ≤ b.memory.size) :
    Reads rest o (store m (o.memory.buffer + position) data) (b.copy position data) := by
  refine reads_write h hp .bytes (kept_store m data ⟨Nat.le_add_right _ _, ?_⟩) rfl rfl
    (fun i hi => ?_) fun r hr hold => by
    cases r <;> first
      | exact absurd rfl hr
      | exact hold
  · simp only [Part.region]
    omega
  · have hold : m (o.memory.buffer + i) = b.memory.buffer i := h.parts .bytes i hi
    change store m (o.memory.buffer + position) data (o.memory.buffer + i) = store b.memory.buffer position data i
    have hle : o.memory.buffer + position ≤ o.memory.buffer + i ↔ position ≤ i := by omega
    have hsub : o.memory.buffer + i - (o.memory.buffer + position) = i - position := by omega
    simp only [store, hle, hsub, hold]

theorem item_putItem (m : Bytes) {e : Entry} (hsize : e.size < 0x10000000000000000)
    (hoffset : e.offset < 0x10000000000000000) :
    o.item (o.putItem m i e) i = e := by
  obtain ⟨size, type, offset⟩ := e
  rw [MappedBuffer.item, MappedBuffer.putItem, Entry.mk.injEq]
  refine ⟨?_, ?_, load_put _ _ hoffset⟩
  · rw [load_put_other (by simp only [Apart]; omega), load_put_other (by simp only [Apart]; omega),
      load_put _ _ hsize]
  · rw [load_put_other (by simp only [Apart]; omega), load_put _ _ type.toNat_lt, UInt64.ofNat_toNat]

theorem kept_putItem (m : Bytes) (i : Nat) (e : Entry) : Kept ⟨o.items + i * 24, 24⟩ m (o.putItem m i e) := by
  refine ((kept_put m _ ?_).trans (kept_put _ _ ?_)).trans (kept_put _ _ ?_)
  · exact ⟨Nat.le_refl _, by simp only [sizeOfEntry]; omega⟩
  · exact ⟨Nat.le_add_right _ _, by simp only [sizeOfEntry]; omega⟩
  · exact ⟨Nat.le_add_right _ _, by simp only [sizeOfEntry]; omega⟩

theorem reads_item (h : Reads rest o m b) (hp : Placed o b.capacity) (hi : i < b.capacity) {e : Entry}
    (hsize : e.size < 0x10000000000000000) (hoffset : e.offset < 0x10000000000000000) :
    Reads rest o (o.putItem m i e) { b with items := Function.update b.items i e } := by
  have hkept := kept_putItem (o := o) m i e
  refine reads_write h hp .items (fun a ha => hkept a fun hhas => ha ?_) rfl rfl (fun j hj => ?_) fun r hr hold => by
    cases r <;> first
      | exact absurd rfl hr
      | exact hold
  · obtain ⟨hle, hlt⟩ := hhas
    simp only at hle hlt
    exact ⟨by simp only [Part.region]; omega, by simp only [Part.region]; omega⟩
  · by_cases hij : j = i
    · subst hij
      exact (item_putItem m hsize hoffset).trans (Function.update_self j e b.items).symm
    · refine (item_congr fun a ha => hkept a (Apart.not_has (t := ⟨o.items + j * 24, 24⟩) ?_ ha)).trans ?_
      · simp only [Apart]
        omega
      · exact (h.parts .items j hj).trans (Function.update_of_ne hij e b.items).symm

end Writes

section Creation

variable {address size : Nat}

/-- What creating a buffer leaves of the memory: everything but its two states. -/
theorem create_other (m : Bytes) {a : Nat} (hstate : ¬ (⟨address, 24⟩ : Region).Has a)
    (hpool : ¬ (⟨address + (24 + capacity * 24), 24⟩ : Region).Has a) :
    (MappedBuffer.create m address capacity size).2 a = m a := by
  have hbuffer : ∀ (m : Bytes) (k v : Nat), k ≤ 16 → put m (address + k) v a = m a := fun m k v hk =>
    kept_put m v ⟨Nat.le_add_right _ _, by simp only; omega⟩ a hstate
  have hmemory : ∀ (m : Bytes) (k v : Nat), k ≤ 16 → put m (address + (24 + capacity * 24) + k) v a = m a :=
    fun m k v hk => kept_put m v ⟨Nat.le_add_right _ _, by simp only; omega⟩ a hpool
  have hflag : ∀ (m : Bytes) (v : Bool), putFlag m (address + (24 + capacity * 24) + 16) v a = m a := fun m v =>
    kept_putFlag m v ⟨Nat.le_add_right _ _, by simp only; omega⟩ a hpool
  have hfirst := ((hbuffer _ 16 capacity (by omega)).trans (hbuffer _ 8 0 (by omega))).trans (hbuffer m 0 0 (by omega))
  have hsecond := (hmemory _ 8 size (by omega)).trans ((hmemory _ 0 0 (by omega)).trans hfirst)
  exact (hbuffer _ 0 0 (by omega)).trans ((hflag _ false).trans hsecond)

/-- And these as the constructors write them. -/
theorem create_words (m : Bytes) (address : Nat) (hcapacity : capacity < 0x10000000000000000)
    (hsize : size < 0x10000000000000000) :
    load (MappedBuffer.create m address capacity size).2 (address + 8) = 0 ∧
    load (MappedBuffer.create m address capacity size).2 (address + 16) = capacity ∧
    load (MappedBuffer.create m address capacity size).2 (address + (24 + capacity * 24)) = 0 ∧
    load (MappedBuffer.create m address capacity size).2 (address + (24 + capacity * 24) + 8) = size := by
  refine ⟨?_, ?_, ?_, ?_⟩
  · refine (load_put_other ?_).trans ((load_putFlag ?_).trans ((load_put_other ?_).trans ((load_put_other ?_).trans
      ((load_put_other ?_).trans (load_put _ _ (by decide))))))
    all_goals simp only [Apart, MappedBuffer.memoryPoolOffset, MappedBuffer.itemsOffset, sizeOfState, sizeOfEntry]
    all_goals omega
  · refine (load_put_other ?_).trans ((load_putFlag ?_).trans ((load_put_other ?_).trans ((load_put_other ?_).trans
      (load_put _ _ hcapacity))))
    all_goals simp only [Apart, MappedBuffer.memoryPoolOffset, MappedBuffer.itemsOffset, sizeOfState, sizeOfEntry]
    all_goals omega
  · refine (load_put_other ?_).trans ((load_putFlag ?_).trans ((load_put_other ?_).trans (load_put _ _ (by decide))))
    all_goals simp only [Apart, MappedBuffer.memoryPoolOffset, MappedBuffer.itemsOffset, sizeOfState, sizeOfEntry]
    all_goals omega
  · refine (load_put_other ?_).trans ((load_putFlag ?_).trans (load_put _ _ hsize))
    all_goals simp only [Apart, MappedBuffer.memoryPoolOffset, MappedBuffer.itemsOffset, sizeOfState, sizeOfEntry]
    all_goals omega

theorem create_unlocked (m : Bytes) :
    flag (MappedBuffer.create m address capacity size).2 (address + (24 + capacity * 24) + 16) = false := by
  refine (flag_congr (kept_put _ _ (within_refl _) _ ?_)).trans (flag_putFlag _ _ false)
  rintro ⟨hle, hlt⟩
  simp only at hle hlt
  omega

/-- The bytes of a created buffer stand for a new one. -/
theorem create_reads (m : Bytes) (hcapacity : capacity < 0x10000000000000000) (hsize : size < 0x10000000000000000)
    (ho : (MappedBuffer.create m address capacity size).1 = o) : Placed o capacity ∧
    Reads (MappedBuffer.create m address capacity size).2 o (MappedBuffer.create m address capacity size).2
      (.new capacity size (o.item m) (fun i => m (o.memory.buffer + i))) := by
  subst ho
  obtain ⟨hcurrent, hcap, hoffset, hpool⟩ := create_words m address hcapacity hsize
  refine ⟨⟨rfl, ?_, rfl⟩, fun q => ?_, fun _ _ => rfl⟩
  · change address + (24 + capacity * 24) = address + 24 + capacity * 24
    omega
  · cases q with
    | nextIndex => exact load_put _ _ (by decide)
    | currentSize => exact hcurrent
    | capacity => exact hcap
    | offset => exact hoffset
    | size => exact hpool
    | inUse => exact create_unlocked m
    | items =>
      intro i hi
      refine item_congr fun a ⟨hle, hlt⟩ => create_other m ?_ ?_
      · rintro ⟨hle', hlt'⟩
        change address + 24 + i * 24 ≤ a at hle
        simp only at hlt'
        omega
      · rintro ⟨hle', hlt'⟩
        change a < address + 24 + i * 24 + 24 at hlt
        have hi : i < capacity := hi
        simp only at hle'
        omega
    | bytes =>
      intro i hi
      change (MappedBuffer.create m address capacity size).2 (address + (24 + capacity * 24) + 24 + i) =
        m (address + (24 + capacity * 24) + 24 + i)
      refine create_other m ?_ ?_ <;> rintro ⟨hle, hlt⟩ <;> simp only at hlt <;> omega

end Creation

section Operations

/-- The scope over the segment. -/
def place (o : MappedBuffer) (l : WriterScope) : MappedScope :=
  ⟨⟨o.memory.buffer + l.span.start, l.span.size, l.span.committed, o.memory⟩, l.type, o⟩

variable {l l' : WriterScope} {type : UInt64} {n : Nat}

theorem writeScope_refused (h : Reads rest o m b) {e : PoolError} (hscope : b.writeScope n type = .error e) :
    o.writeScope m n type = .error e := by
  have hsize : o.memory.size m = b.memory.size := h.parts .size
  have hinUse : o.memory.inUse m = b.memory.inUse := h.parts .inUse
  rw [CyclicBuffer.writeScope, CyclicMemoryPool.getWriteSpan] at hscope
  rw [MappedBuffer.writeScope, MappedPool.getWriteSpan, hsize, hinUse]
  by_cases hlarge : b.memory.size < n
  · simp only [hlarge, ↓reduceIte] at hscope ⊢
    cases hscope
    rfl
  · cases hlock : b.memory.inUse with
    | true =>
      simp only [hlarge, hlock, ↓reduceIte] at hscope ⊢
      cases hscope
      rfl
    | false =>
      by_cases hshort : b.memory.remaining < n <;> simp [hlarge, hlock, hshort] at hscope

theorem writeScope_granted (h : Reads rest o m b) (hp : Placed o b.capacity)
    (hscope : b.writeScope n type = .ok (l, b')) :
    ∃ m', o.writeScope m n type = .ok (place o l, m') ∧ Reads rest o m' b' := by
  have hsize : o.memory.size m = b.memory.size := h.parts .size
  have hinUse : o.memory.inUse m = b.memory.inUse := h.parts .inUse
  have hoffset : o.memory.offset m = b.memory.offset := h.parts .offset
  have hremaining : o.memory.remaining m = b.memory.remaining := by
    rw [MappedPool.remaining, CyclicMemoryPool.remaining, hsize, hoffset]
  have hlocked := reads_inUse h hp true
  rw [CyclicBuffer.writeScope] at hscope
  cases hspan : b.memory.getWriteSpan n with
  | error e =>
    rw [hspan] at hscope
    cases hscope
  | ok r =>
    obtain ⟨span, memory⟩ := r
    rw [hspan] at hscope
    cases hscope
    rw [MappedBuffer.writeScope, MappedPool.getWriteSpan, hsize, hinUse, hremaining]
    obtain ⟨hle, hfree, ⟨hlong, rfl, rfl⟩ | ⟨hshort, rfl, rfl⟩⟩ := CyclicMemoryPool.getWriteSpan_ok hspan
    · have hstart : o.memory.offset (putFlag m (o.memory.state + 16) true) = b.memory.offset := hlocked.parts .offset
      simp only [hfree, Nat.not_lt.mpr hle, Nat.not_lt.mpr hlong, hstart, ↓reduceIte, Bool.false_eq_true]
      exact ⟨_, rfl, hlocked⟩
    · have hreset : Reads rest o (put (putFlag m (o.memory.state + 16) true) o.memory.state 0)
          { b with memory := { b.memory with inUse := true, offset := 0 } } :=
            reads_offset hlocked hp (Nat.zero_lt_succ _)
      have hstart : o.memory.offset (put (putFlag m (o.memory.state + 16) true) o.memory.state 0) = 0 :=
        hreset.parts .offset
      have hall : o.memory.size (put (putFlag m (o.memory.state + 16) true) o.memory.state 0) = b.memory.size :=
        hreset.parts .size
      simp only [hfree, Nat.not_lt.mpr hle, hshort, hstart, hall, ↓reduceIte, Bool.false_eq_true]
      exact ⟨_, rfl, hreset⟩

theorem commit_refused {e : PoolError} (hcommit : l.commit b n = .error e) : (place o l).commit m n = .error e := by
  rw [WriterScope.commit, Span.commit] at hcommit
  rw [MappedScope.commit, MappedSpan.commit, place]
  by_cases hlong : subWord l.span.size l.span.committed < n
  · simp only [hlong, ↓reduceIte] at hcommit ⊢
    cases hcommit
    rfl
  · simp only [hlong, ↓reduceIte] at hcommit
    cases hcommit

theorem commit_granted (h : Reads rest o m b) (hp : Placed o b.capacity) (hcommit : l.commit b n = .ok (l', b')) :
    ∃ m', (place o l).commit m n = .ok (place o l', m') ∧ Reads rest o m' b' := by
  have hoffset : o.memory.offset m = b.memory.offset := h.parts .offset
  rw [WriterScope.commit, Span.commit] at hcommit
  rw [MappedScope.commit, MappedSpan.commit, place]
  by_cases hlong : subWord l.span.size l.span.committed < n
  · simp only [hlong, ↓reduceIte] at hcommit
    cases hcommit
  · simp only [hlong, ↓reduceIte] at hcommit ⊢
    cases hcommit
    refine ⟨_, rfl, ?_⟩
    rw [hoffset]
    exact reads_offset h hp (Nat.mod_lt _ (by decide))

theorem publish_reads (h : Reads rest o m b) (hp : Placed o b.capacity) (hcapacity : 0 < b.capacity)
    (hbounded : b.memory.Bounded) (hlive : l.span.Live b.memory n) :
    Reads rest o ((place o l).publish m) (l.publish b) := by
  have hnext : o.nextIndex m = b.nextIndex := h.parts .nextIndex
  have hcurrent : o.bufferItemsSize m = b.currentSize := h.parts .currentSize
  have hcap : o.capacity m = b.capacity := h.parts .capacity
  have hslot : ∀ k, k % b.capacity < b.capacity := fun k => Nat.mod_lt k hcapacity
  have hbound := hlive.bound
  have hcommitted := hlive.committed_le
  have hsize := hbounded.size_lt
  rw [MappedScope.publish, WriterScope.publish]
  by_cases hwritten : 0 < l.span.committed
  · have hprevious : (o.item m (subWord b.nextIndex b.capacity % b.capacity)).size =
        (b.items (subWord b.nextIndex b.capacity % b.capacity)).size := by
      rw [h.parts .items _ (hslot _)]
    have hstart : (place o l).span.startOffset = l.span.start := Nat.add_sub_cancel_left _ _
    have hcount := reads_currentSize h hp (v := subWord (addWord b.currentSize l.span.committed)
      (if b.capacity ≤ b.nextIndex then (b.items (subWord b.nextIndex b.capacity % b.capacity)).size else 0))
      (Nat.mod_lt _ (by decide))
    have hitem := reads_item hcount hp (hslot b.nextIndex) (e := ⟨l.span.committed, l.type, l.span.start⟩)
      (by simp only; omega) (by simp only; omega)
    have hpublished := reads_nextIndex hitem hp (v := addWord b.nextIndex 1) (Nat.mod_lt _ (by decide))
    simp only [place] at hstart ⊢
    simp only [hwritten, ↓reduceIte, hnext, hcurrent, hcap, hprevious, hstart]
    exact ⟨hpublished.parts, hpublished.beside⟩
  · have hnone : ¬ 0 < (place o l).span.committed := hwritten
    rw [if_neg hnone, if_neg hwritten]
    exact h

theorem destroy_reads (h : Reads rest o m b) (hp : Placed o b.capacity) (hcapacity : 0 < b.capacity)
    (hbounded : b.memory.Bounded) (hlive : l.span.Live b.memory n) :
    Reads rest o ((place o l).destroy m) (l.destroy b) := by
  have hpublish := publish_reads h hp hcapacity hbounded hlive
  have hplaced : Placed o (l.publish b).capacity := by
    rw [WriterScope.publish_capacity]
    exact hp
  exact reads_inUse hpublish hplaced false

theorem tryRead_reads (h : Reads rest o m b) (c : Cursor) : (⟨c.index, o⟩ : MappedCursor).tryRead m =
    ((c.tryRead b).1, ⟨(c.tryRead b).2.index, o⟩) := by
  have hnext : o.nextIndex m = b.nextIndex := h.parts .nextIndex
  rw [MappedCursor.tryRead, Cursor.tryRead, hnext]
  by_cases hmore : 1 < subWord b.nextIndex c.index
  · rw [if_pos hmore, if_pos hmore]
  · rw [if_neg hmore, if_neg hmore]

theorem remaining_reads (h : Reads rest o m b) (c : Cursor) :
    (⟨c.index, o⟩ : MappedCursor).remaining m = c.remaining b := by
  have hnext : o.nextIndex m = b.nextIndex := h.parts .nextIndex
  rw [MappedCursor.remaining, Cursor.remaining, hnext]

/-- The entry of a cursor, and the bytes it stands for when it lies in the pool. -/
theorem data_reads (h : Reads rest o m b) (hcapacity : 0 < b.capacity) (c : Cursor) :
    (⟨c.index, o⟩ : MappedCursor).data m = ((c.data b).item, o.memory.buffer + (c.data b).item.offset) ∧
    ((c.data b).item.offset + (c.data b).item.size ≤ b.memory.size →
      slice m (o.memory.buffer + (c.data b).item.offset) (c.data b).item.size =
        slice b.memory.buffer (c.data b).item.offset (c.data b).item.size) := by
  have hcap : o.capacity m = b.capacity := h.parts .capacity
  have hitem := h.parts .items (c.index % b.capacity) (Nat.mod_lt _ hcapacity)
  refine ⟨?_, fun hinside => ?_⟩
  · rw [MappedCursor.data, hcap, hitem]
    rfl
  · apply List.map_congr_left
    intro i hi
    rw [List.mem_range] at hi
    rw [Nat.add_assoc]
    exact h.parts .bytes _ (by omega)

end Operations

end MappedOperations
