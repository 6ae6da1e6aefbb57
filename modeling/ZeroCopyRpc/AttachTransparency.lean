import Mathlib.Data.List.Pairwise
import ZeroCopyRpc.MappedOperations
import ZeroCopyRpc.TopicSegment
import ZeroCopyRpc.Transitions

/-!
# An object from the raw address

Buffer objects may be made from the segment's address at any moment of a run, and
every operation may go through any of them. No write of the buffer reaches the
capacity or the size of the pool, so each new object finds the parts where the
creating server put them, and a run shows what it shows through the first object
alone. The same runs over the buffer itself say what that is.
-/
namespace AttachTransparency

open Words WordMemory Cells MappedOperations Transitions

/-- Operations through the object of that number, and on the cursor of that number. -/
inductive Event where
  | attach
  | writeScope (object minSize : Nat) (type : UInt64)
  | write (position : Nat) (data : List UInt8)
  | commit (size : Nat)
  | destroy
  | openCursor (object : Nat)
  | openCursorAt (object index : Nat)
  | tryRead (cursor : Nat)
  | remaining (cursor : Nat)
  | data (cursor : Nat)
  | nextIndex (object : Nat)
  | bufferItemsSize (object : Nat)
  deriving DecidableEq, Repr

/-- What a run shows. -/
inductive Seen where
  | span (start size : Nat)
  | failed (e : PoolError)
  | read (more : Bool) (index : Nat)
  | entry (item : Entry) (bytes : List UInt8)
  | number (n : Nat)
  deriving DecidableEq, Repr

structure Mapped where
  bytes : Bytes
  address : Nat
  objects : List MappedBuffer
  live : Option MappedScope
  cursors : List MappedCursor
  seen : List Seen

structure Plain where
  buffer : CyclicBuffer
  live : Option WriterScope
  cursors : List Cursor
  seen : List Seen

def Mapped.say (w : Mapped) (s : Seen) : Mapped := { w with seen := w.seen ++ [s] }

def Plain.say (v : Plain) (s : Seen) : Plain := { v with seen := v.seen ++ [s] }

/-- A user writes into its span only. -/
def mappedStep : Machine Mapped Event
  | w, .attach => some { w with objects := w.objects ++ [.attach w.bytes w.address] }
  | w, .writeScope i minSize type =>
    w.objects[i]?.map fun o =>
      match o.writeScope w.bytes minSize type with
      | .error e => w.say (.failed e)
      | .ok (scope, bytes) =>
        { w with bytes := bytes, live := some scope }.say (.span scope.span.startOffset scope.span.size)
  | w, .write position data =>
    w.live.bind fun l =>
      if position + data.length ≤ l.span.size then
        some { w with bytes := store w.bytes (l.span.start + position) data }
      else none
  | w, .commit size =>
    w.live.map fun l =>
      match l.commit w.bytes size with
      | .error e => w.say (.failed e)
      | .ok (scope, bytes) => { w with bytes := bytes, live := some scope }
  | w, .destroy => w.live.map fun l => { w with bytes := l.destroy w.bytes, live := none }
  | w, .openCursor i => w.objects[i]?.map fun o => { w with cursors := w.cursors ++ [o.openCursor w.bytes] }
  | w, .openCursorAt i index => w.objects[i]?.map fun o => { w with cursors := w.cursors ++ [o.openCursorAt index] }
  | w, .tryRead k => w.cursors[k]?.map fun c =>
      { w with cursors := w.cursors.set k (c.tryRead w.bytes).2 }.say
        (.read (c.tryRead w.bytes).1 (c.tryRead w.bytes).2.index)
  | w, .remaining k => w.cursors[k]?.map fun c => w.say (.number (c.remaining w.bytes))
  | w, .data k => w.cursors[k]?.map fun c =>
      w.say (.entry (c.data w.bytes).1 (slice w.bytes (c.data w.bytes).2 (c.data w.bytes).1.size))
  | w, .nextIndex i => w.objects[i]?.map fun o => w.say (.number (o.nextIndex w.bytes))
  | w, .bufferItemsSize i => w.objects[i]?.map fun o => w.say (.number (o.bufferItemsSize w.bytes))

/-- The same on the buffer itself, which no object stands before. -/
def plainStep : Machine Plain Event
  | v, .attach => some v
  | v, .writeScope _ minSize type =>
    some (match v.buffer.writeScope minSize type with
      | .error e => v.say (.failed e)
      | .ok (scope, buffer) =>
        { v with buffer := buffer, live := some scope }.say (.span scope.span.start scope.span.size))
  | v, .write position data =>
    v.live.bind fun l =>
      if position + data.length ≤ l.span.size then
        some { v with buffer := v.buffer.copy (l.span.start + position) data }
      else none
  | v, .commit size =>
    v.live.map fun l =>
      match l.commit v.buffer size with
      | .error e => v.say (.failed e)
      | .ok (scope, buffer) => { v with buffer := buffer, live := some scope }
  | v, .destroy => v.live.map fun l => { v with buffer := l.destroy v.buffer, live := none }
  | v, .openCursor _ => some { v with cursors := v.cursors ++ [v.buffer.openCursor] }
  | v, .openCursorAt _ index => some { v with cursors := v.cursors ++ [CyclicBuffer.openCursorAt index] }
  | v, .tryRead k => v.cursors[k]?.map fun c =>
      { v with cursors := v.cursors.set k (c.tryRead v.buffer).2 }.say
        (.read (c.tryRead v.buffer).1 (c.tryRead v.buffer).2.index)
  | v, .remaining k => v.cursors[k]?.map fun c => v.say (.number (c.remaining v.buffer))
  | v, .data k => v.cursors[k]?.map fun c =>
      v.say (.entry (c.data v.buffer).item
        (slice v.buffer.memory.buffer (c.data v.buffer).item.offset (c.data v.buffer).item.size))
  | v, .nextIndex _ => some (v.say (.number v.buffer.nextIndex))
  | v, .bufferItemsSize _ => some (v.say (.number v.buffer.bufferItemsSize))

/-- The event through the first object; making another object is left out. -/
def original : Event → List Event
  | .attach => []
  | .writeScope _ minSize type => [.writeScope 0 minSize type]
  | .openCursor _ => [.openCursor 0]
  | .openCursorAt _ index => [.openCursorAt 0 index]
  | .nextIndex _ => [.nextIndex 0]
  | .bufferItemsSize _ => [.bufferItemsSize 0]
  | e => [e]

/-- What holds of the buffer between two events. -/
structure Sound (v : Plain) : Prop where
  capacity : 0 < v.buffer.capacity
  bounded : v.buffer.memory.Bounded
  live : ∀ l, v.live = some l → l.span.Live v.buffer.memory 0
  inside : ∀ i, i < v.buffer.capacity →
    (v.buffer.items i).offset + (v.buffer.items i).size ≤ v.buffer.memory.size

def atObject (o : MappedBuffer) (c : Cursor) : MappedCursor := ⟨c.index, o⟩

/-- The segment stands for the buffer, and every object is the first one. -/
structure Related (rest : Bytes) (o : MappedBuffer) (w : Mapped) (v : Plain) : Prop where
  address : w.address = o.state
  placed : Placed o v.buffer.capacity
  reads : Reads rest o w.bytes v.buffer
  objects : ∀ p ∈ w.objects, p = o
  live : w.live = v.live.map (place o)
  cursors : w.cursors = v.cursors.map (atObject o)
  seen : w.seen = v.seen
  sound : Sound v

variable {rest : Bytes} {o p : MappedBuffer} {w w' : Mapped} {v v' : Plain} {e : Event}

theorem object_same (h : Related rest o w v) {i : Nat} (hi : w.objects[i]? = some p) : p = o :=
  h.objects p (List.mem_of_getElem? hi)

theorem live_same (h : Related rest o w v) {l : MappedScope} (hl : w.live = some l) :
    ∃ scope, v.live = some scope ∧ l = place o scope := by
  rw [h.live, Option.map_eq_some_iff] at hl
  obtain ⟨scope, hscope, rfl⟩ := hl
  exact ⟨scope, hscope, rfl⟩

theorem cursor_same (h : Related rest o w v) {k : Nat} {c : MappedCursor} (hc : w.cursors[k]? = some c) :
    ∃ cursor, v.cursors[k]? = some cursor ∧ c = atObject o cursor := by
  rw [h.cursors, List.getElem?_map, Option.map_eq_some_iff] at hc
  obtain ⟨cursor, hcursor, rfl⟩ := hc
  exact ⟨cursor, hcursor, rfl⟩

theorem related_say (h : Related rest o w v) (s : Seen) : Related rest o (w.say s) (v.say s) :=
  ⟨h.address, h.placed, h.reads, h.objects, h.live, h.cursors, congrArg (· ++ [s]) h.seen,
    ⟨h.sound.capacity, h.sound.bounded, h.sound.live, h.sound.inside⟩⟩

section Sounds

variable {l l' : WriterScope} {b : CyclicBuffer} {n : Nat} {type : UInt64}

theorem sound_granted (h : Sound v) (hscope : v.buffer.writeScope n type = .ok (l, b)) :
    Sound { v with buffer := b, live := some l } ∧ b.capacity = v.buffer.capacity := by
  rw [CyclicBuffer.writeScope] at hscope
  cases hspan : v.buffer.memory.getWriteSpan n with
  | error e =>
    rw [hspan] at hscope
    cases hscope
  | ok r =>
    rw [hspan] at hscope
    cases hscope
    obtain ⟨hbounded, hlive⟩ := Span.live_of_getWriteSpan h.bounded hspan
    have hsize : r.2.size = v.buffer.memory.size := by
      obtain ⟨-, -, ⟨-, -, hm⟩ | ⟨-, -, hm⟩⟩ := CyclicMemoryPool.getWriteSpan_ok hspan <;> rw [hm]
    refine ⟨⟨h.capacity, hbounded, fun l hl => ?_, fun i hi => ?_⟩, rfl⟩
    · cases hl
      exact ⟨hlive.locked, hlive.bound, Nat.zero_le _, hlive.committed_le, hlive.offset_eq⟩
    · change (v.buffer.items i).offset + (v.buffer.items i).size ≤ r.2.size
      rw [hsize]
      exact h.inside i hi

theorem sound_write (h : Sound v) (position : Nat) (data : List UInt8) :
    Sound { v with buffer := v.buffer.copy position data } :=
  ⟨h.capacity, ⟨h.bounded.offset_le, h.bounded.size_lt⟩,
    fun l hl => ⟨(h.live l hl).locked, (h.live l hl).bound, (h.live l hl).long, (h.live l hl).committed_le,
      (h.live l hl).offset_eq⟩, h.inside⟩

theorem sound_commit (h : Sound v) (hl : v.live = some l) (hcommit : l.commit v.buffer n = .ok (l', b)) :
    Sound { v with buffer := b, live := some l' } ∧ b.capacity = v.buffer.capacity := by
  rw [WriterScope.commit] at hcommit
  cases hspan : l.span.commit v.buffer.memory n with
  | error e =>
    rw [hspan] at hcommit
    cases hcommit
  | ok r =>
    rw [hspan] at hcommit
    cases hcommit
    obtain ⟨hbounded, hlive, -, hmoved⟩ := Span.commit_live h.bounded (h.live l hl) hspan
    refine ⟨⟨h.capacity, hbounded, fun l hl => ?_, fun i hi => ?_⟩, rfl⟩
    · cases hl
      exact hlive
    · change (v.buffer.items i).offset + (v.buffer.items i).size ≤ r.2.size
      rw [hmoved]
      exact h.inside i hi

theorem sound_destroy (h : Sound v) (hl : v.live = some l) :
    Sound { v with buffer := l.destroy v.buffer, live := none } := by
  have hlive := h.live l hl
  have hbound := hlive.bound
  have hcommitted := hlive.committed_le
  refine ⟨?_, ?_, fun l hl => (by cases hl), fun i hi => ?_⟩
  · rw [WriterScope.destroy_capacity]
    exact h.capacity
  · rw [WriterScope.destroy_memory]
    exact ⟨h.bounded.offset_le, h.bounded.size_lt⟩
  · rw [WriterScope.destroy_capacity] at hi
    rw [WriterScope.destroy_memory, CyclicMemoryPool.release_size]
    by_cases hwritten : 0 < l.span.committed
    · rw [WriterScope.destroy_items l _ hwritten]
      by_cases hslot : i = v.buffer.nextIndex % v.buffer.capacity
      · rw [hslot, Function.update_self]
        simp only
        omega
      · rw [Function.update_of_ne hslot]
        exact h.inside i hi
    · rw [WriterScope.destroy_uncommitted l _ (by omega)]
      exact h.inside i hi

end Sounds

section Steps

theorem step_writeScope (h : Related rest o w v) {i n : Nat} {type : UInt64}
    (hs : mappedStep w (.writeScope i n type) = some w') :
    ∃ v', plainStep v (.writeScope i n type) = some v' ∧ Related rest o w' v' := by
  rw [mappedStep, Option.map_eq_some_iff] at hs
  obtain ⟨p, hp, rfl⟩ := hs
  obtain rfl := object_same h hp
  rw [plainStep]
  cases hscope : v.buffer.writeScope n type with
  | error e =>
    have hmapped := writeScope_refused h.reads hscope
    simp only [hmapped]
    exact ⟨_, rfl, related_say h _⟩
  | ok r =>
    obtain ⟨l, b⟩ := r
    obtain ⟨bytes, hmapped, hreads⟩ := writeScope_granted h.reads h.placed hscope
    obtain ⟨hsound, hcapacity⟩ := sound_granted h.sound hscope
    simp only [hmapped]
    have hstart : (place p l).span.startOffset = l.span.start := Nat.add_sub_cancel_left _ _
    rw [hstart]
    have hrelated : Related rest p { w with bytes := bytes, live := some (place p l) }
        { v with buffer := b, live := some l } :=
      ⟨h.address, hcapacity ▸ h.placed, hreads, h.objects, rfl, h.cursors, h.seen, hsound⟩
    exact ⟨_, rfl, related_say hrelated _⟩

theorem step_write (h : Related rest o w v) {position : Nat} {data : List UInt8}
    (hs : mappedStep w (.write position data) = some w') :
    ∃ v', plainStep v (.write position data) = some v' ∧ Related rest o w' v' := by
  rw [mappedStep, Option.bind_eq_some_iff] at hs
  obtain ⟨s, hl, hs⟩ := hs
  obtain ⟨l, hlive, rfl⟩ := live_same h hl
  have hbound := (h.sound.live l hlive).bound
  split at hs
  · rename_i hinside
    cases hs
    have hinside : position + data.length ≤ l.span.size := hinside
    have hfits : l.span.start + position + data.length ≤ v.buffer.memory.size := by omega
    have hreads := reads_copy h.reads h.placed hfits
    rw [← Nat.add_assoc] at hreads
    refine ⟨{ v with buffer := v.buffer.copy (l.span.start + position) data }, ?_, h.address,
      h.placed, hreads, h.objects, h.live, h.cursors, h.seen, sound_write h.sound _ _⟩
    rw [plainStep, hlive, Option.bind_some, if_pos hinside]
  · cases hs

theorem step_commit (h : Related rest o w v) {n : Nat} (hs : mappedStep w (.commit n) = some w') :
    ∃ v', plainStep v (.commit n) = some v' ∧ Related rest o w' v' := by
  rw [mappedStep, Option.map_eq_some_iff] at hs
  obtain ⟨s, hl, rfl⟩ := hs
  obtain ⟨l, hlive, rfl⟩ := live_same h hl
  rw [plainStep, hlive, Option.map_some]
  cases hcommit : l.commit v.buffer n with
  | error e =>
    have hmapped : (place o l).commit w.bytes n = .error e := commit_refused hcommit
    simp only [hmapped]
    exact ⟨_, rfl, related_say h _⟩
  | ok r =>
    obtain ⟨l', b⟩ := r
    obtain ⟨bytes, hmapped, hreads⟩ := commit_granted h.reads h.placed hcommit
    obtain ⟨hsound, hcapacity⟩ := sound_commit h.sound hlive hcommit
    simp only [hmapped]
    exact ⟨_, rfl, h.address, hcapacity ▸ h.placed, hreads, h.objects, rfl, h.cursors, h.seen, hsound⟩

theorem step_destroy (h : Related rest o w v) (hs : mappedStep w .destroy = some w') :
    ∃ v', plainStep v .destroy = some v' ∧ Related rest o w' v' := by
  rw [mappedStep, Option.map_eq_some_iff] at hs
  obtain ⟨s, hl, rfl⟩ := hs
  obtain ⟨l, hlive, rfl⟩ := live_same h hl
  have hreads := destroy_reads h.reads h.placed h.sound.capacity h.sound.bounded (h.sound.live l hlive)
  rw [plainStep, hlive, Option.map_some]
  refine ⟨_, rfl, h.address, ?_, hreads, h.objects, rfl, h.cursors, h.seen, sound_destroy h.sound hlive⟩
  rw [WriterScope.destroy_capacity]
  exact h.placed

theorem step_attach (h : Related rest o w v) :
    Related rest o { w with objects := w.objects ++ [.attach w.bytes w.address] } v := by
  refine ⟨h.address, h.placed, h.reads, fun p hp => ?_, h.live, h.cursors, h.seen, h.sound⟩
  rcases List.mem_append.mp hp with hold | hnew
  · exact h.objects p hold
  · rw [List.mem_singleton.mp hnew, h.address]
    exact attach_same h.reads h.placed

theorem related_cursors (h : Related rest o w v) {cs : List MappedCursor} {ds : List Cursor}
    (hcs : cs = ds.map (atObject o)) :
    Related rest o { w with cursors := cs } { v with cursors := ds } :=
  ⟨h.address, h.placed, h.reads, h.objects, h.live, hcs, h.seen,
    ⟨h.sound.capacity, h.sound.bounded, h.sound.live, h.sound.inside⟩⟩

theorem step_openCursorAt (h : Related rest o w v) {i index : Nat}
    (hs : mappedStep w (.openCursorAt i index) = some w') :
    ∃ v', plainStep v (.openCursorAt i index) = some v' ∧ Related rest o w' v' := by
  rw [mappedStep, Option.map_eq_some_iff] at hs
  obtain ⟨p, hp, rfl⟩ := hs
  obtain rfl := object_same h hp
  refine ⟨_, rfl, related_cursors h ?_⟩
  rw [h.cursors, List.map_append]
  rfl

theorem step_openCursor (h : Related rest o w v) {i : Nat} (hs : mappedStep w (.openCursor i) = some w') :
    ∃ v', plainStep v (.openCursor i) = some v' ∧ Related rest o w' v' := by
  rw [mappedStep, Option.map_eq_some_iff] at hs
  obtain ⟨p, hp, rfl⟩ := hs
  obtain rfl := object_same h hp
  have hnext : p.nextIndex w.bytes = v.buffer.nextIndex := h.reads.parts .nextIndex
  refine ⟨_, rfl, related_cursors h ?_⟩
  rw [h.cursors, List.map_append, MappedBuffer.openCursor, hnext]
  rfl

theorem step_tryRead (h : Related rest o w v) {k : Nat} (hs : mappedStep w (.tryRead k) = some w') :
    ∃ v', plainStep v (.tryRead k) = some v' ∧ Related rest o w' v' := by
  rw [mappedStep, Option.map_eq_some_iff] at hs
  obtain ⟨c, hc, rfl⟩ := hs
  obtain ⟨cursor, hcursor, rfl⟩ := cursor_same h hc
  have hread : (atObject o cursor).tryRead w.bytes = _ := tryRead_reads h.reads cursor
  rw [plainStep, hcursor, Option.map_some, hread]
  refine ⟨_, rfl, related_say (related_cursors h ?_) _⟩
  rw [h.cursors, List.map_set]
  rfl

theorem step_remaining (h : Related rest o w v) {k : Nat} (hs : mappedStep w (.remaining k) = some w') :
    ∃ v', plainStep v (.remaining k) = some v' ∧ Related rest o w' v' := by
  rw [mappedStep, Option.map_eq_some_iff] at hs
  obtain ⟨c, hc, rfl⟩ := hs
  obtain ⟨cursor, hcursor, rfl⟩ := cursor_same h hc
  have hleft : (atObject o cursor).remaining w.bytes = cursor.remaining v.buffer := remaining_reads h.reads cursor
  rw [plainStep, hcursor, Option.map_some, hleft]
  exact ⟨_, rfl, related_say h _⟩

theorem step_data (h : Related rest o w v) {k : Nat} (hs : mappedStep w (.data k) = some w') :
    ∃ v', plainStep v (.data k) = some v' ∧ Related rest o w' v' := by
  rw [mappedStep, Option.map_eq_some_iff] at hs
  obtain ⟨c, hc, rfl⟩ := hs
  obtain ⟨cursor, hcursor, rfl⟩ := cursor_same h hc
  obtain ⟨hdata, hbytes⟩ := data_reads h.reads h.sound.capacity cursor
  have hdata : (atObject o cursor).data w.bytes = _ := hdata
  have hinside := h.sound.inside (cursor.index % v.buffer.capacity) (Nat.mod_lt _ h.sound.capacity)
  rw [plainStep, hcursor, Option.map_some, hdata, ← hbytes hinside]
  exact ⟨_, rfl, related_say h _⟩

/-- Every event does to the segment what it does to the buffer, and shows the same. -/
theorem step_refines (h : Related rest o w v) (hs : mappedStep w e = some w') :
    ∃ v', plainStep v e = some v' ∧ Related rest o w' v' := by
  cases e with
  | attach =>
    cases hs
    exact ⟨v, rfl, step_attach h⟩
  | writeScope => exact step_writeScope h hs
  | write => exact step_write h hs
  | commit => exact step_commit h hs
  | destroy => exact step_destroy h hs
  | openCursor => exact step_openCursor h hs
  | openCursorAt => exact step_openCursorAt h hs
  | tryRead => exact step_tryRead h hs
  | remaining => exact step_remaining h hs
  | data => exact step_data h hs
  | nextIndex i =>
    rw [mappedStep, Option.map_eq_some_iff] at hs
    obtain ⟨p, hp, rfl⟩ := hs
    obtain rfl := object_same h hp
    have hnext : p.nextIndex w.bytes = v.buffer.nextIndex := h.reads.parts .nextIndex
    rw [hnext]
    exact ⟨_, rfl, related_say h _⟩
  | bufferItemsSize i =>
    rw [mappedStep, Option.map_eq_some_iff] at hs
    obtain ⟨p, hp, rfl⟩ := hs
    obtain rfl := object_same h hp
    have hcurrent : p.bufferItemsSize w.bytes = v.buffer.currentSize := h.reads.parts .currentSize
    rw [hcurrent]
    exact ⟨_, rfl, related_say h _⟩

/-- A run over the segment, through whatever objects, is a run of the buffer. -/
theorem run_refines {es : List Event} (h : Related rest o w v) (hs : run mappedStep w es = some w') :
    ∃ v', run plainStep v es = some v' ∧ Related rest o w' v' := by
  induction es generalizing w v with
  | nil =>
    cases hs
    exact ⟨v, rfl, h⟩
  | cons e es ih =>
    obtain ⟨u, hu, hs⟩ := run_cons_some hs
    obtain ⟨x, hx, hrelated⟩ := step_refines h hu
    obtain ⟨y, hy, hend⟩ := ih hrelated hs
    exact ⟨y, by rw [run_cons, hx]; exact hy, hend⟩

end Steps

section Original

/-- The same world with the first object only. -/
def kept (o : MappedBuffer) (w : Mapped) : Mapped := { w with objects := [o] }

/-- Without the other objects every event goes as it goes with them. -/
theorem step_kept (h : Related rest o w v) (hs : mappedStep w e = some w') :
    run mappedStep (kept o w) (original e) = some (kept o w') := by
  have hfirst : (kept o w).objects[0]? = some o := rfl
  cases e with
  | attach =>
    cases hs
    rfl
  | writeScope i n type =>
    rw [mappedStep, Option.map_eq_some_iff] at hs
    obtain ⟨p, hp, rfl⟩ := hs
    obtain rfl := object_same h hp
    refine run_step ?_
    rw [mappedStep, hfirst, Option.map_some]
    cases hscope : p.writeScope w.bytes n type with
    | error e =>
      have hscope' : p.writeScope (kept p w).bytes n type = .error e := hscope
      rw [hscope']
      rfl
    | ok r =>
      have hscope' : p.writeScope (kept p w).bytes n type = .ok r := hscope
      rw [hscope']
      rfl
  | openCursor i | openCursorAt i index | nextIndex i | bufferItemsSize i =>
    rw [mappedStep, Option.map_eq_some_iff] at hs
    obtain ⟨p, hp, rfl⟩ := hs
    obtain rfl := object_same h hp
    rfl
  | write position data =>
    rw [mappedStep, Option.bind_eq_some_iff] at hs
    obtain ⟨l, hl, hs⟩ := hs
    have hlive : (kept o w).live = some l := hl
    refine run_step ?_
    rw [mappedStep, hlive, Option.bind_some]
    split at hs
    · rename_i hinside
      cases hs
      rw [if_pos hinside, ← hlive]
      rfl
    · cases hs
  | commit n =>
    rw [mappedStep, Option.map_eq_some_iff] at hs
    obtain ⟨l, hl, rfl⟩ := hs
    have hlive : (kept o w).live = some l := hl
    refine run_step ?_
    rw [mappedStep, hlive, Option.map_some]
    cases hcommit : l.commit w.bytes n with
    | error e =>
      have hcommit' : l.commit (kept o w).bytes n = .error e := hcommit
      rw [hcommit']
      rfl
    | ok r =>
      have hcommit' : l.commit (kept o w).bytes n = .ok r := hcommit
      rw [hcommit']
      rfl
  | destroy =>
    rw [mappedStep, Option.map_eq_some_iff] at hs
    obtain ⟨l, hl, rfl⟩ := hs
    have hlive : (kept o w).live = some l := hl
    refine run_step ?_
    rw [mappedStep, hlive, Option.map_some]
    rfl
  | tryRead k | remaining k | data k =>
    rw [mappedStep, Option.map_eq_some_iff] at hs
    obtain ⟨c, hc, rfl⟩ := hs
    have hcursor : (kept o w).cursors[k]? = some c := hc
    refine run_step ?_
    rw [mappedStep, hcursor, Option.map_some]
    rfl

theorem run_kept {es : List Event} (h : Related rest o w v) (hs : run mappedStep w es = some w') :
    run mappedStep (kept o w) (es.flatMap original) = some (kept o w') := by
  induction es generalizing w v with
  | nil =>
    cases hs
    rfl
  | cons e es ih =>
    obtain ⟨u, hu, hs⟩ := run_cons_some hs
    obtain ⟨x, -, hrelated⟩ := step_refines h hu
    rw [List.flatMap_cons]
    exact run_join (step_kept h hu) (ih hrelated hs)

end Original

section Creation

variable {messageCount bufferSize : Nat}

/-- The world after the server has created the segment over bytes of any content. -/
def start (messageCount bufferSize : Nat) (bytes : Bytes) : Mapped :=
  let t := TopicSegment.new ⟨0, bytes⟩ messageCount bufferSize
  ⟨t.shm.bytes, t.buffer.state, [t.buffer], none, [], []⟩

/-- The buffer that the new segment stands for. -/
def created (messageCount bufferSize : Nat) : CyclicBuffer :=
  .new messageCount bufferSize (fun _ => ⟨0, 0, 0⟩) (fun _ => 0)

/-- The object that the creating server has. -/
theorem new_buffer {shm : SharedMemoryObject} (h : shm.size = 0) :
    (TopicSegment.new shm messageCount bufferSize).buffer =
    ⟨6176, 6200, ⟨6176 + (24 + messageCount * 24), 6176 + (24 + messageCount * 24) + 24⟩⟩ := by
  rw [TopicSegment.new]
  simp only [h, ↓reduceIte]
  rfl

/-- The segment before the buffer is created in it. -/
def laidOut (shm : SharedMemoryObject) (messageCount bufferSize : Nat) : Bytes :=
  (topicMetadata messageCount bufferSize).write
    (memset (shm.truncate (topicMetadata messageCount bufferSize).totalSize).bytes 0
      (topicMetadata messageCount bufferSize).totalSize) 0

theorem new_bytes {shm : SharedMemoryObject} (h : shm.size = 0) :
    (TopicSegment.new shm messageCount bufferSize).shm.bytes =
      (MappedBuffer.create (laidOut shm messageCount bufferSize) 6176 messageCount bufferSize).2 := by
  rw [TopicSegment.new]
  simp only [h, ↓reduceIte]
  rfl

theorem new_subscribers {shm : SharedMemoryObject} (h : shm.size = 0) :
    (TopicSegment.new shm messageCount bufferSize).subscribers = 32 := by
  rw [TopicSegment.new]
  simp only [h, ↓reduceIte]
  rfl

theorem regions_apart (messageCount bufferSize : Nat) (shm : SharedMemoryObject) (h : shm.size = 0) :
    ((TopicSegment.new shm messageCount bufferSize).regions messageCount bufferSize).Pairwise Apart ∧
    ∀ r ∈ (TopicSegment.new shm messageCount bufferSize).regions messageCount bufferSize,
      r.start + r.length ≤ (topicMetadata messageCount bufferSize).totalSize := by
  rw [TopicSegment.regions, new_buffer h, new_subscribers h]
  simp only [sizeOfTopicMetadata, sizeOfSubscriptionSharedData, sizeOfState, sizeOfEntry, sizeOfPoolState]
  constructor
  · simp only [List.pairwise_cons, List.mem_cons, List.not_mem_nil, or_false, forall_eq_or_imp, forall_eq, Apart,
      false_imp_iff, implies_true, List.Pairwise.nil, and_true]
    omega
  · simp only [List.mem_cons, List.not_mem_nil, or_false, forall_eq_or_imp, forall_eq, topicMetadata_totalSize]
    omega

/-- Writing the metadata changes their own bytes only. -/
theorem write_other (t : TopicMetadata) (bytes : Bytes) {a : Nat} (h : 32 ≤ a) : t.write bytes 0 a = bytes a := by
  have hout : ¬ (⟨0, 32⟩ : Region).Has a := fun hhas => by
    have := hhas.2
    simp only at this
    omega
  have hkept : ∀ (m : Bytes) (k v : Nat), k ≤ 24 → put m (0 + k) v a = m a := fun m k v hk =>
    kept_put m v ⟨Nat.le_add_right _ _, by simp only; omega⟩ a hout
  exact (((hkept _ 24 _ (by omega)).trans (hkept _ 16 _ (by omega))).trans (hkept _ 8 _ (by omega))).trans
    (hkept _ 0 _ (by omega))

theorem item_zero {bytes : Bytes} {i : Nat}
    (h : ∀ a, o.items + i * 24 ≤ a → a < o.items + i * 24 + 24 → bytes a = 0) :
    o.item bytes i = ⟨0, 0, 0⟩ := by
  have hword : ∀ k, k ≤ 16 → load bytes (o.items + i * 24 + k) = 0 := fun k hk =>
    load_zero fun a hle hlt => h a (by omega) (by omega)
  rw [MappedBuffer.item, Entry.mk.injEq]
  refine ⟨hword 0 (by omega), ?_, hword 16 (by omega)⟩
  rw [show sizeOfEntry = 24 from rfl, hword 8 (by omega)]
  rfl

theorem laidOut_zero (shm : SharedMemoryObject) {a : Nat} (hle : 32 ≤ a)
    (hlt : a < 6248 + messageCount * 24 + bufferSize) :
    laidOut shm messageCount bufferSize a = 0 := by
  rw [laidOut, write_other _ _ hle, memset, if_pos]
  rw [topicMetadata_totalSize]
  omega

/-- A new segment stands for a new buffer with empty entries and zero bytes. -/
theorem new_reads {shm : SharedMemoryObject} (h : shm.size = 0) (hcount : messageCount < 0x100000000)
    (hsize : bufferSize < 0x100000000) :
    Placed (TopicSegment.new shm messageCount bufferSize).buffer messageCount ∧
    Reads (TopicSegment.new shm messageCount bufferSize).shm.bytes
      (TopicSegment.new shm messageCount bufferSize).buffer
      (TopicSegment.new shm messageCount bufferSize).shm.bytes (created messageCount bufferSize) := by
  have hcount : messageCount < 0x10000000000000000 := by omega
  have hsize : bufferSize < 0x10000000000000000 := by omega
  obtain ⟨hplaced, hreads⟩ := create_reads (o := (TopicSegment.new shm messageCount bufferSize).buffer)
    (laidOut shm messageCount bufferSize) hcount hsize (new_buffer h).symm
  rw [← new_bytes h] at hreads
  have hitems : ∀ i, i < messageCount → (TopicSegment.new shm messageCount bufferSize).buffer.item
      (laidOut shm messageCount bufferSize) i = ⟨0, 0, 0⟩ := by
    intro i hi
    refine item_zero fun a hle hlt => ?_
    rw [new_buffer h] at hle hlt
    exact laidOut_zero shm (by simp only at hle; omega) (by simp only at hlt; omega)
  have hbytes : ∀ i, i < bufferSize → laidOut shm messageCount bufferSize
      ((TopicSegment.new shm messageCount bufferSize).buffer.memory.buffer + i) = 0 := by
    intro i hi
    rw [new_buffer h]
    exact laidOut_zero shm (by simp only; omega) (by simp only; omega)
  exact ⟨hplaced, reads_contents hreads hitems hbytes⟩

theorem start_related (hcount : 0 < messageCount) (hcount' : messageCount < 0x100000000)
    (hsize : bufferSize < 0x100000000) (bytes : Bytes) :
    Related (start messageCount bufferSize bytes).bytes
      (TopicSegment.new ⟨0, bytes⟩ messageCount bufferSize).buffer
      (start messageCount bufferSize bytes) ⟨created messageCount bufferSize, none, [], []⟩ := by
  have hempty : (SharedMemoryObject.mk 0 bytes).size = 0 := rfl
  obtain ⟨hplaced, hreads⟩ := new_reads hempty hcount' hsize
  refine ⟨rfl, hplaced, hreads, fun p hp => List.mem_singleton.mp hp, rfl, rfl, rfl, ?_⟩
  have hword : bufferSize < 0x10000000000000000 := by omega
  exact ⟨hcount, CyclicMemoryPool.new_bounded hword _, fun l hl => (by cases hl), fun i _ => Nat.zero_le _⟩

/-- For all 32-bit arguments the parts of a new segment lie apart and inside its
size, which does not overflow. And whatever objects are made from the address in
a run, what the run shows, and the segment it leaves, are those of the run through
the first object; every object is that one, no event reaches the metadata or the
table of the subscriptions, and the run is one of a buffer with these arguments. -/
theorem attach_transparent (messageCount bufferSize : Nat) (hcount : 0 < messageCount)
    (hcount' : messageCount < 0x100000000) (hsize : bufferSize < 0x100000000) (bytes : Bytes) :
    ((TopicSegment.new ⟨0, bytes⟩ messageCount bufferSize).regions messageCount bufferSize).Pairwise Apart ∧
    (∀ r ∈ (TopicSegment.new ⟨0, bytes⟩ messageCount bufferSize).regions messageCount bufferSize,
      r.start + r.length ≤ (topicMetadata messageCount bufferSize).totalSize) ∧
    (topicMetadata messageCount bufferSize).totalSize < 0x10000000000000000 ∧
    ∀ es w, run mappedStep (start messageCount bufferSize bytes) es = some w →
      (∃ u, run mappedStep (start messageCount bufferSize bytes) (es.flatMap original) = some u ∧
        u.seen = w.seen ∧ u.bytes = w.bytes) ∧
      (∀ p ∈ w.objects, p = (TopicSegment.new ⟨0, bytes⟩ messageCount bufferSize).buffer) ∧
      (∀ a, a < 6176 → w.bytes a = (start messageCount bufferSize bytes).bytes a) ∧
      ∃ v, run plainStep ⟨created messageCount bufferSize, none, [], []⟩ es = some v ∧ v.seen = w.seen := by
  obtain ⟨happart, hinside⟩ := regions_apart messageCount bufferSize ⟨0, bytes⟩ rfl
  refine ⟨happart, hinside, ?_, fun es w hw => ?_⟩
  · rw [topicMetadata_totalSize]
    omega
  · have hstart := start_related hcount hcount' hsize bytes
    obtain ⟨v, hv, hend⟩ := run_refines hstart hw
    refine ⟨⟨_, run_kept hstart hw, rfl, rfl⟩, hend.objects, fun a ha => hend.reads.beside a (Or.inl ?_), v, hv,
      hend.seen.symm⟩
    rw [new_buffer rfl]
    exact ha

/-- One entry, written through the first object and read through a second one. -/
def reattached : List Event :=
  [.writeScope 0 3 7, .write 0 [1, 2, 3], .commit 3, .destroy, .attach, .openCursorAt 1 0, .tryRead 0, .data 0]

theorem attach_transparent_reattached : ∃ u,
    run mappedStep (start 2 16 fun _ => 9) (reattached.flatMap original) = some u ∧
      u.seen = [.span 0 16, .read true 0, .entry ⟨3, 7, 0⟩ [1, 2, 3]] := by
  have hrun : (run mappedStep (start 2 16 fun _ => 9) reattached).map Mapped.seen =
      some [.span 0 16, .read true 0, .entry ⟨3, 7, 0⟩ [1, 2, 3]] := by
    decide +kernel
  obtain ⟨w, hw, hseen⟩ := Option.map_eq_some_iff.mp hrun
  obtain ⟨-, -, -, hruns⟩ := attach_transparent 2 16 (by decide) (by decide) (by decide) fun _ => 9
  obtain ⟨⟨u, hu, hsame, -⟩, -⟩ := hruns reattached w hw
  exact ⟨u, hu, hsame.trans hseen⟩

end Creation

end AttachTransparency
