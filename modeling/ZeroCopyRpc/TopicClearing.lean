import ZeroCopyRpc.AttachTransparency
import ZeroCopyRpc.TopicService

/-!
# A cleared segment

`ClearIfExists` writes the metadata and nothing of the buffer's state, so a
service that is constructed on the segment reads a capacity of 0 and a pool of 0
bytes where a new topic has its arguments. And it sets as many bytes to zero as
the segment had before it was cut. The services are compared by everything their
calls return and leave for the clients to see.
-/
namespace TopicClearing

open Words WordMemory Cells MappedOperations AttachTransparency Transitions

/-- A slot of the table, whose process id has four bytes. -/
def subscriberAt (bytes : Bytes) (address : Nat) : SubscriptionSharedData where
  nextIndex := load bytes address
  notified := load bytes (address + 8)
  pendingRemove := flag bytes (address + 16)
  active := flag bytes (address + 17)
  pid := LittleEndian.ofBytes (slice bytes (address + 20) 4)

def bufferAt (bytes : Bytes) (o : MappedBuffer) : CyclicBuffer where
  nextIndex := o.nextIndex bytes
  currentSize := o.bufferItemsSize bytes
  capacity := o.capacity bytes
  items := o.item bytes
  memory := ⟨o.memory.offset bytes, o.memory.size bytes, o.memory.inUse bytes, fun i =>
    bytes (o.memory.buffer + i)⟩
  log := []

/-- The service over a segment, before its subscriptions are rebuilt; the table has 256 slots. -/
def service (t : TopicSegment) (os : Semaphores SemaphoreName) (heap : Nat) : TopicService where
  subscriptions := .new 256 .new
  idPool := .new 256
  subscribers := fun i =>
    if i < 256 then subscriberAt t.shm.bytes (t.subscribers + i * sizeOfSubscriptionSharedData)
      else ⟨0, 0, false, false, 0⟩
  buffer := bufferAt t.shm.bytes t.buffer
  semaphores := os
  heap := heap

/-- `TopicService::TopicService`. -/
def construct (shm : SharedMemoryObject) (messageCount bufferSize : Nat) (os : Semaphores SemaphoreName) (heap : Nat)
    (running : Nat → Bool) : Except TopicError TopicService :=
  let t := service (TopicSegment.new shm messageCount bufferSize) os heap
  if shm.size = 0 then .ok t else t.rebuildEntries running (List.range 256)

inductive Call where
  | subscribe (pid : Nat) (opens : Bool)
  | unsubscribe (pid id : Nat) (weakFailure : Bool)
  | prepare (minSize : Nat) (type : UInt64)
  | commit (size : Nat)
  | publish
  | notifyAll
  deriving DecidableEq, Repr

inductive Answer where
  | slot (r : Except TopicError Nat)
  | marked (b : Bool)
  | span (r : Except PoolError (Nat × Nat))
  | committed (r : Option PoolError)
  | done

/-- What a call returns, and what the clients see afterwards. -/
structure Seen where
  answer : Answer
  subscribers : Nat → SubscriptionSharedData
  semaphores : Semaphores SemaphoreName
  nextIndex : Nat

structure World where
  topic : TopicService
  scope : Option WriterScope
  seen : List Seen

def World.answer (w : World) (a : Answer) : World :=
  { w with seen := w.seen ++ [⟨a, w.topic.subscribers, w.topic.semaphores, w.topic.buffer.nextIndex⟩] }

/-- Of the calls that throw, only a `Subscribe` whose semaphore is refused changes the service. -/
def call : Machine World Call
  | w, .subscribe pid opens => some (match w.topic.subscribe pid opens with
    | .error (e, topic) => { w with topic := topic }.answer (.slot (.error e))
    | .ok (index, topic) => { w with topic := topic }.answer (.slot (.ok index)))
  | w, .unsubscribe pid id weakFailure =>
    some ({ w with topic := (w.topic.unsubscribe pid id weakFailure).2 }.answer
      (.marked (w.topic.unsubscribe pid id weakFailure).1))
  | w, .prepare minSize type => some (match w.topic.prepare minSize type with
    | .error e => w.answer (.span (.error e))
    | .ok (scope, topic) => { w with topic := topic, scope := some scope }.answer
        (.span (.ok (scope.span.start, scope.span.size))))
  | w, .commit size => w.scope.map fun scope =>
    match scope.commit w.topic.buffer size with
    | .error e => w.answer (.committed (some e))
    | .ok (scope, buffer) =>
      { w with topic := { w.topic with buffer := buffer }, scope := some scope }.answer (.committed none)
  | w, .publish => w.scope.bind fun scope =>
    (w.topic.publish scope).toOption.map fun topic => { w with topic := topic, scope := none }.answer .done
  | w, .notifyAll => w.topic.notifyAll.toOption.map fun topic => { w with topic := topic }.answer .done

/-- Everything a run of calls shows of a service, if it could be constructed. -/
def behaviour (t : Except TopicError TopicService) (calls : List Call) : Except TopicError (Option (List Seen)) :=
  t.map fun t => (run call ⟨t, none, []⟩ calls).map World.seen

/-- If the segment is cleared, only bytes inside its new size are written, and a
service on it behaves as one on a segment that did not exist. -/
def GivesFresh (shm : Option SharedMemoryObject) (messageCount bufferSize : Nat) : Prop :=
  (clearIfExists shm messageCount bufferSize).result = true →
    ∃ cleared, (clearIfExists shm messageCount bufferSize).shm = some cleared ∧
      (∀ r ∈ (clearIfExists shm messageCount bufferSize).writes, r.start + r.length ≤ cleared.size) ∧
      ∀ bytes os heap running calls, behaviour (construct cleared messageCount bufferSize os heap running) calls =
        behaviour (construct ⟨0, bytes⟩ messageCount bufferSize os heap running) calls

section Alike

variable {t t' : TopicService} {b : CyclicBuffer}

/-- The service over another buffer. -/
def withBuffer (t : TopicService) (b : CyclicBuffer) : TopicService := { t with buffer := b }

theorem visit_withBuffer (h : b.nextIndex = t.buffer.nextIndex) (subs : List Subscription) (s : Subscription) :
    TopicService.visit (withBuffer t b, subs) s =
      (withBuffer (TopicService.visit (t, subs) s).1 b, (TopicService.visit (t, subs) s).2) := by
  rw [TopicService.visit, TopicService.visit]
  simp only [withBuffer, h]
  split <;> rfl

theorem visits_withBuffer (h : b.nextIndex = t.buffer.nextIndex) (items subs : List Subscription) :
    items.foldl TopicService.visit (withBuffer t b, subs) =
      (withBuffer (items.foldl TopicService.visit (t, subs)).1 b, (items.foldl TopicService.visit (t, subs)).2) := by
  induction items generalizing t subs with
  | nil => rfl
  | cons s items ih =>
    have hsame : b.nextIndex = (TopicService.visit (t, subs) s).1.buffer.nextIndex := by
      rw [TopicService.visit_buffer]
      exact h
    rw [List.foldl_cons, List.foldl_cons, visit_withBuffer h]
    exact ih hsame _

theorem discardAll_withBuffer (subs : List Subscription) :
    (withBuffer t b).discardAll subs = (t.discardAll subs).map fun t => withBuffer t b := by
  induction subs generalizing t with
  | nil => rfl
  | cons s subs ih =>
    have hsame : (if ((withBuffer t b).subscriptions.remove s).1 then (withBuffer t b).without s else withBuffer t b) =
        withBuffer (if (t.subscriptions.remove s).1 then t.without s else t) b := by
      by_cases hremoved : (t.subscriptions.remove s).1 = true
      · rw [if_pos hremoved]
        exact if_pos hremoved
      · rw [if_neg hremoved]
        exact if_neg hremoved
    rw [TopicService.discardAll, TopicService.discardAll, TopicService.discard_eq, TopicService.discard_eq, hsame]
    exact ih

/-- The notification pass asks the buffer for the next index only. -/
theorem notifyAll_withBuffer (h : b.nextIndex = t.buffer.nextIndex) :
    (withBuffer t b).notifyAll = t.notifyAll.map fun t => withBuffer t b := by
  rw [TopicService.notifyAll, TopicService.notifyAll]
  have hvisits := visits_withBuffer h t.subscriptions.items []
  have hitems : (withBuffer t b).subscriptions.items = t.subscriptions.items := rfl
  simp only [hitems, hvisits]
  exact discardAll_withBuffer _

theorem subscribe_withBuffer (pid : Nat) (opens : Bool) :
    (withBuffer t b).subscribe pid opens = match t.subscribe pid opens with
      | .error (e, t) => .error (e, withBuffer t b)
      | .ok (index, t) => .ok (index, withBuffer t b) := by
  have hpool : (withBuffer t b).idPool = t.idPool := rfl
  rw [TopicService.subscribe, TopicService.subscribe, hpool]
  cases t.idPool.rent with
  | none => rfl
  | some r => cases opens <;> rfl

theorem unsubscribe_withBuffer (pid id : Nat) (weakFailure : Bool) : (withBuffer t b).unsubscribe pid id weakFailure =
    ((t.unsubscribe pid id weakFailure).1, withBuffer (t.unsubscribe pid id weakFailure).2 b) := by
  have htable : (withBuffer t b).subscribers = t.subscribers := rfl
  rw [TopicService.unsubscribe, TopicService.unsubscribe, htable]
  by_cases hpid : (t.subscribers id).pid = pid
  · rw [if_pos hpid, if_pos hpid]
    by_cases hmark : (t.subscribers id).pendingRemove = false ∧ weakFailure = false
    · rw [if_pos hmark, if_pos hmark]
      rfl
    · rw [if_neg hmark, if_neg hmark]
  · rw [if_neg hpid, if_neg hpid]

end Alike

section Empty

/-- A buffer whose pool has no bytes. -/
structure Empty (b : CyclicBuffer) : Prop where
  offset : b.memory.offset = 0
  size : b.memory.size = 0

def locked (b : CyclicBuffer) (inUse : Bool) : CyclicBuffer := { b with memory := { b.memory with inUse := inUse } }

variable {t : TopicService} {b : CyclicBuffer} {l : WriterScope}

theorem prepare_empty (h : Empty t.buffer) (n : Nat) (type : UInt64) : t.prepare n type =
    if 0 < n then .error .requestExceedsCapacity
    else if t.buffer.memory.inUse then .error .alreadyInUse
    else .ok (⟨⟨0, 0, 0⟩, type⟩, withBuffer t (locked t.buffer true)) := by
  obtain ⟨subscriptions, idPool, subscribers,
    ⟨nextIndex, currentSize, capacity, items, ⟨offset, size, inUse, bytes⟩, log⟩,
    semaphores, heap⟩ := t
  obtain ⟨hoffset, hsize⟩ := h
  simp only at hoffset hsize
  subst hoffset hsize
  have hzero : subWord 0 0 = 0 := rfl
  have hremaining : (⟨0, 0, inUse, bytes⟩ : CyclicMemoryPool).remaining = 0 := hzero
  rw [TopicService.prepare, CyclicBuffer.writeScope, CyclicMemoryPool.getWriteSpan, hremaining]
  by_cases hn : 0 < n
  · simp only [hn, ↓reduceIte]
  · cases inUse with
    | true => simp only [hn, ↓reduceIte]
    | false =>
      simp only [hn, ↓reduceIte, Bool.false_eq_true]
      rfl

theorem commit_empty (h : Empty b) (hsize : l.span.size = 0) (hcommitted : l.span.committed = 0) (n : Nat) :
    l.commit b n = if 0 < n then .error .commitExceedsSpan else .ok (l, b) := by
  obtain ⟨⟨start, size, committed⟩, type⟩ := l
  obtain ⟨nextIndex, currentSize, capacity, items, ⟨offset, psize, inUse, buffer⟩, log⟩ := b
  obtain ⟨hoffset, -⟩ := h
  simp only at hsize hcommitted hoffset
  subst hsize hcommitted hoffset
  have hzero : subWord 0 0 = 0 := rfl
  rw [WriterScope.commit, Span.commit]
  by_cases hn : 0 < n
  · simp only [hzero, hn, ↓reduceIte]
  · obtain rfl : n = 0 := by omega
    rfl

theorem publish_empty (hcommitted : l.span.committed = 0) :
    t.publish l = .ok (withBuffer t (locked t.buffer false)) := by
  have hnone : ¬ 0 < l.span.committed := by omega
  rw [TopicService.publish]
  simp only [hnone, ↓reduceIte, WriterScope.destroy_uncommitted l _ hcommitted]
  rfl

end Empty

section Alike

/-- The world with another buffer. -/
def other (w : World) (b : CyclicBuffer) : World := { w with topic := withBuffer w.topic b }

/-- Neither buffer has bytes, and they agree in what a call can ask. -/
structure Alike (w : World) (b : CyclicBuffer) : Prop where
  nextIndex : b.nextIndex = w.topic.buffer.nextIndex
  inUse : b.memory.inUse = w.topic.buffer.memory.inUse
  left : Empty w.topic.buffer
  right : Empty b
  idle : ∀ l, w.scope = some l → l.span.size = 0 ∧ l.span.committed = 0

variable {w : World} {t t' : TopicService} {b : CyclicBuffer}

theorem other_answer (h : b.nextIndex = w.topic.buffer.nextIndex) (a : Answer) :
    (other w b).answer a = other (w.answer a) b := by
  have hnext : (other w b).topic.buffer.nextIndex = w.topic.buffer.nextIndex := h
  rw [World.answer, hnext]
  rfl

/-- A call that leaves the buffer. -/
theorem alike_topic (h : Alike w b) (ht : t.buffer = w.topic.buffer) : Alike { w with topic := t } b := by
  refine ⟨?_, ?_, ?_, h.right, h.idle⟩
  · rw [ht]
    exact h.nextIndex
  · rw [ht]
    exact h.inUse
  · rw [ht]
    exact h.left

/-- `Subscribe` leaves the buffer, also when it throws. -/
theorem subscribe_buffer (t : TopicService) (pid : Nat) (opens : Bool) :
    (∃ e t', t.subscribe pid opens = .error (e, t') ∧ t'.buffer = t.buffer) ∨
    ∃ index t', t.subscribe pid opens = .ok (index, t') ∧ t'.buffer = t.buffer := by
  rw [TopicService.subscribe]
  cases t.idPool.rent with
  | none => exact Or.inl ⟨_, _, rfl, rfl⟩
  | some r =>
    cases opens with
    | false => exact Or.inl ⟨_, _, rfl, rfl⟩
    | true => exact Or.inr ⟨_, _, rfl, rfl⟩

theorem unsubscribe_buffer (t : TopicService) (pid id : Nat) (weakFailure : Bool) :
    (t.unsubscribe pid id weakFailure).2.buffer = t.buffer := by
  rw [TopicService.unsubscribe]
  split
  · split <;> rfl
  · rfl

/-- Two results of a call: none, or worlds that differ in the buffer. -/
def Match (x y : Option World) : Prop :=
  (x = none ∧ y = none) ∨ ∃ w b, x = some w ∧ y = some (other w b) ∧ Alike w b

/-- An answer that both give. -/
theorem answered (h : Alike w b) (a : Answer) : Match (some (w.answer a)) (some ((other w b).answer a)) :=
  Or.inr ⟨w.answer a, b, rfl, congrArg some (other_answer h.nextIndex a), h.nextIndex, h.inUse,
    h.left, h.right, h.idle⟩

/-- Both take the lock, or release it. -/
theorem alike_locked (h : Alike w b) (inUse : Bool) {scope : Option WriterScope}
    (hidle : ∀ l, scope = some l → l.span.size = 0 ∧ l.span.committed = 0) :
    Alike { w with topic := withBuffer w.topic (locked w.topic.buffer inUse), scope := scope } (locked b inUse) :=
  ⟨h.nextIndex, rfl, ⟨h.left.offset, h.left.size⟩, ⟨h.right.offset, h.right.size⟩, hidle⟩

theorem subscribe_alike (h : Alike w b) (pid : Nat) (opens : Bool) :
    Match (call w (.subscribe pid opens)) (call (other w b) (.subscribe pid opens)) := by
  have htopic : (other w b).topic = withBuffer w.topic b := rfl
  rw [call, call, htopic, subscribe_withBuffer]
  obtain ⟨e, t, hsub, hbuffer⟩ | ⟨index, t, hsub, hbuffer⟩ := subscribe_buffer w.topic pid opens
  · rw [hsub]
    exact answered (alike_topic h hbuffer) (.slot (.error e))
  · rw [hsub]
    exact answered (alike_topic h hbuffer) (.slot (.ok index))

theorem unsubscribe_alike (h : Alike w b) (pid id : Nat) (weakFailure : Bool) :
    Match (call w (.unsubscribe pid id weakFailure)) (call (other w b) (.unsubscribe pid id weakFailure)) := by
  have htopic : (other w b).topic = withBuffer w.topic b := rfl
  rw [call, call, htopic, unsubscribe_withBuffer]
  exact answered (alike_topic h (unsubscribe_buffer w.topic pid id weakFailure)) _

/-- Bytes are refused, and an empty span is granted while the lock is free. -/
theorem prepare_alike (h : Alike w b) (n : Nat) (type : UInt64) :
    Match (call w (.prepare n type)) (call (other w b) (.prepare n type)) := by
  have htopic : (other w b).topic = withBuffer w.topic b := rfl
  have hlock : (withBuffer w.topic b).buffer.memory.inUse = w.topic.buffer.memory.inUse := h.inUse
  have hright : Empty (withBuffer w.topic b).buffer := h.right
  rw [call, call, htopic, prepare_empty h.left, prepare_empty hright, hlock]
  by_cases hn : 0 < n
  · simp only [hn, ↓reduceIte]
    exact answered h (.span (.error .requestExceedsCapacity))
  · cases w.topic.buffer.memory.inUse with
    | true =>
      simp only [hn, ↓reduceIte]
      exact answered h (.span (.error .alreadyInUse))
    | false =>
      simp only [hn, ↓reduceIte, Bool.false_eq_true]
      have hidle : ∀ l, some (⟨⟨0, 0, 0⟩, type⟩ : WriterScope) = some l → l.span.size = 0 ∧
          l.span.committed = 0 := by
        intro l hl
        cases hl
        exact ⟨rfl, rfl⟩
      exact answered (alike_locked h true hidle) (.span (.ok (0, 0)))

theorem commit_alike (h : Alike w b) (n : Nat) : Match (call w (.commit n)) (call (other w b) (.commit n)) := by
  have hscope : (other w b).scope = w.scope := rfl
  rw [call, call, hscope]
  cases hl : w.scope with
  | none => exact Or.inl ⟨rfl, rfl⟩
  | some l =>
    obtain ⟨hsize, hcommitted⟩ := h.idle l hl
    have hright : Empty (other w b).topic.buffer := h.right
    rw [Option.map_some, Option.map_some, commit_empty h.left hsize hcommitted, commit_empty hright hsize hcommitted]
    by_cases hn : 0 < n
    · simp only [hn, ↓reduceIte]
      exact answered h (.committed (some .commitExceedsSpan))
    · simp only [hn, ↓reduceIte, ← hl]
      exact answered h (.committed none)

/-- An empty span publishes nothing, so nobody is notified. -/
theorem publish_alike (h : Alike w b) : Match (call w .publish) (call (other w b) .publish) := by
  have hscope : (other w b).scope = w.scope := rfl
  rw [call, call, hscope]
  cases hl : w.scope with
  | none => exact Or.inl ⟨rfl, rfl⟩
  | some l =>
    obtain ⟨-, hcommitted⟩ := h.idle l hl
    rw [Option.bind_some, Option.bind_some, publish_empty hcommitted, publish_empty hcommitted]
    exact answered (alike_locked h false fun l hl => (by cases hl)) .done

theorem notifyAll_alike (h : Alike w b) : Match (call w .notifyAll) (call (other w b) .notifyAll) := by
  have htopic : (other w b).topic = withBuffer w.topic b := rfl
  obtain ⟨t, ht, hbuffer⟩ := TopicService.notifyAll_buffer w.topic
  rw [call, call, htopic, notifyAll_withBuffer h.nextIndex, ht]
  exact answered (alike_topic h hbuffer) .done

theorem call_alike (h : Alike w b) (c : Call) : Match (call w c) (call (other w b) c) := by
  cases c with
  | subscribe pid opens => exact subscribe_alike h pid opens
  | unsubscribe pid id weakFailure => exact unsubscribe_alike h pid id weakFailure
  | prepare n type => exact prepare_alike h n type
  | commit n => exact commit_alike h n
  | publish => exact publish_alike h
  | notifyAll => exact notifyAll_alike h

/-- A run of calls shows the same of both. -/
theorem run_alike (h : Alike w b) (calls : List Call) :
    (run call w calls).map World.seen = (run call (other w b) calls).map World.seen := by
  induction calls generalizing w b with
  | nil => rfl
  | cons c calls ih =>
    rw [run_cons, run_cons]
    obtain ⟨hw, hu⟩ | ⟨w', b', hw, hu, hnext⟩ := call_alike h c
    · rw [hw, hu, Option.bind_none]
    · rw [hw, hu]
      exact ih hnext

end Alike

section Constructors

variable {messageCount bufferSize : Nat} {t : TopicService}

/-- The size of the subscriptions' table reads back from the metadata. -/
theorem read_tableSize (t : TopicMetadata) (bytes : Bytes) (h : t.subscribesTableSize < 0x10000000000000000) :
    (TopicMetadata.read (t.write bytes 0) 0).subscribesTableSize = t.subscribesTableSize := by
  have hword : load (t.write bytes 0) 8 = t.subscribesTableSize := by
    rw [TopicMetadata.write, load_put_other (by simp only [Apart]; omega),
      load_put_other (by simp only [Apart]; omega)]
    exact load_put _ _ h
  exact hword

theorem subscriberAt_zero {bytes : Bytes} {address : Nat}
    (h : ∀ a, address ≤ a → a < address + 24 → bytes a = 0) :
    subscriberAt bytes address = ⟨0, 0, false, false, 0⟩ := by
  have hflag : ∀ k, k ≤ 17 → flag bytes (address + k) = false := by
    intro k hk
    rw [flag, h (address + k) (by omega) (by omega)]
    rfl
  have hpid : slice bytes (address + 20) 4 = (List.range 4).map fun _ => 0 := by
    apply List.map_congr_left
    intro i hi
    rw [List.mem_range] at hi
    exact h _ (by omega) (by omega)
  rw [subscriberAt, SubscriptionSharedData.mk.injEq]
  refine ⟨load_zero fun a hle hlt => h a hle (by omega), load_zero fun a hle hlt => h a (by omega) (by omega),
    hflag 16 (by omega), hflag 17 (by omega), ?_⟩
  rw [hpid]
  rfl

/-- Nothing is rebuilt from a table without active slots. -/
theorem rebuildEntries_inactive (running : Nat → Bool) {slots : List Nat}
    (h : ∀ i ∈ slots, (t.subscribers i).active = false) : t.rebuildEntries running slots = .ok t := by
  induction slots with
  | nil => rfl
  | cons i slots ih =>
    have hturn : t.rebuildEntry running i = .ok t := by
      rw [TopicService.rebuildEntry, h i List.mem_cons_self]
      rfl
    rw [TopicService.rebuildEntries, hturn]
    exact ih fun j hj => h j (List.mem_cons_of_mem _ hj)

/-- The cleared segment. -/
def clearedSegment (shm : SharedMemoryObject) (messageCount bufferSize : Nat) : SharedMemoryObject :=
  let m := topicMetadata messageCount bufferSize
  let region := if shm.size ≠ m.totalSize then shm.truncate m.totalSize else shm
  { region with bytes := m.write (memset region.bytes 0 shm.size) 0 }

theorem clearIfExists_some {shm : SharedMemoryObject} (h : 0 < shm.size) :
    clearIfExists (some shm) messageCount bufferSize =
      ⟨true, some (clearedSegment shm messageCount bufferSize),
        [⟨0, shm.size⟩, ⟨0, sizeOfTopicMetadata⟩]⟩ := by
  rw [clearIfExists]
  exact if_pos h

theorem cleared_size (shm : SharedMemoryObject) :
    (clearedSegment shm messageCount bufferSize).size = (topicMetadata messageCount bufferSize).totalSize := by
  by_cases hsize : shm.size ≠ (topicMetadata messageCount bufferSize).totalSize
  · simp only [clearedSegment, if_pos hsize]
    rfl
  · simp only [clearedSegment, if_neg hsize]
    exact not_not.mp hsize

/-- Behind the metadata a cleared segment is zero. -/
theorem cleared_zero (shm : SharedMemoryObject) {a : Nat} (hle : 32 ≤ a)
    (hlt : a < (topicMetadata messageCount bufferSize).totalSize) :
    (clearedSegment shm messageCount bufferSize).bytes a = 0 := by
  rw [clearedSegment]
  simp only
  rw [write_other _ _ hle, memset]
  by_cases hold : a < shm.size
  · rw [if_pos hold]
  · have hsize : shm.size ≠ (topicMetadata messageCount bufferSize).totalSize := by omega
    rw [if_neg hold, if_pos hsize]
    exact if_neg hold

/-- Everything in front of the pool's bytes lies inside a new size. -/
theorem cleared_head (shm : SharedMemoryObject) {a : Nat} (hle : 32 ≤ a) (hlt : a < 6272) :
    (clearedSegment shm messageCount bufferSize).bytes a = 0 := by
  refine cleared_zero shm hle ?_
  rw [topicMetadata_totalSize]
  omega

theorem cleared_word (shm : SharedMemoryObject) {a : Nat} (hle : 32 ≤ a) (hlt : a + 8 ≤ 6272) :
    load (clearedSegment shm messageCount bufferSize).bytes a = 0 :=
  load_zero fun _ hi hi' => cleared_head shm (by omega) (by omega)

theorem cleared_nonempty (shm : SharedMemoryObject) : ¬ (clearedSegment shm messageCount bufferSize).size = 0 := by
  rw [cleared_size, topicMetadata_totalSize]
  omega

/-- A service without subscriptions in a process that runs already. -/
def started (b : CyclicBuffer) (os : Semaphores SemaphoreName) (heap : Nat) : TopicService :=
  { TopicService.new b with semaphores := os, heap := heap }

theorem service_started {s : TopicSegment} (os : Semaphores SemaphoreName) (heap : Nat)
    (h : ∀ a, s.subscribers ≤ a → a < s.subscribers + 6144 → s.shm.bytes a = 0) :
    service s os heap = started (bufferAt s.shm.bytes s.buffer) os heap := by
  have htable : (service s os heap).subscribers = fun _ => ⟨0, 0, false, false, 0⟩ := by
    funext i
    rw [service]
    simp only
    by_cases hi : i < 256
    · rw [if_pos hi]
      refine subscriberAt_zero fun a hle hlt => h a ?_ ?_
      · omega
      · rw [sizeOfSubscriptionSharedData] at hlt
        omega
    · rw [if_neg hi]
  rw [service] at htable ⊢
  simp only at htable
  rw [htable]
  rfl

/-- A service on a segment that did not exist has a pool of the size asked for. -/
theorem construct_fresh (hcount : messageCount < 0x100000000) (hsize : bufferSize < 0x100000000) (bytes : Bytes)
    (os : Semaphores SemaphoreName) (heap : Nat) (running : Nat → Bool) :
    ∃ b : CyclicBuffer, construct ⟨0, bytes⟩ messageCount bufferSize os heap running =
        .ok (started b os heap) ∧
      b.nextIndex = 0 ∧ b.memory.offset = 0 ∧ b.memory.size = bufferSize ∧ b.memory.inUse = false := by
  have hempty : (SharedMemoryObject.mk 0 bytes).size = 0 := rfl
  obtain ⟨-, hreads⟩ := new_reads hempty hcount hsize
  have htable : ∀ a, (TopicSegment.new ⟨0, bytes⟩ messageCount bufferSize).subscribers ≤ a →
      a < (TopicSegment.new ⟨0, bytes⟩ messageCount bufferSize).subscribers + 6144 →
      (TopicSegment.new ⟨0, bytes⟩ messageCount bufferSize).shm.bytes a = 0 := by
    intro a hle hlt
    rw [new_subscribers hempty] at hle hlt
    have hstate : ¬ (⟨6176, 24⟩ : Region).Has a := fun hhas => absurd hhas.1 (Nat.not_le.mpr hlt)
    have hpool : ¬ (⟨6176 + (24 + messageCount * 24), 24⟩ : Region).Has a := fun hhas => by
      have hstart := hhas.1
      simp only at hstart
      omega
    rw [new_bytes hempty, create_other _ hstate hpool]
    exact laidOut_zero _ hle (by omega)
  refine ⟨bufferAt (TopicSegment.new ⟨0, bytes⟩ messageCount bufferSize).shm.bytes
    (TopicSegment.new ⟨0, bytes⟩ messageCount bufferSize).buffer, ?_, hreads.parts .nextIndex,
    hreads.parts .offset, hreads.parts .size, hreads.parts .inUse⟩
  rw [construct, if_pos hempty, service_started os heap htable]

/-- On a cleared segment the pool is looked for behind a buffer of capacity 0. -/
theorem new_cleared (shm : SharedMemoryObject) :
    TopicSegment.new (clearedSegment shm messageCount bufferSize) messageCount bufferSize =
      ⟨clearedSegment shm messageCount bufferSize, 32, ⟨6176, 6200, ⟨6200, 6224⟩⟩⟩ := by
  have hword : 6144 < 0x10000000000000000 := by decide
  have htable : (TopicMetadata.read (clearedSegment shm messageCount bufferSize).bytes 0).subscribesTableSize = 6144 :=
    read_tableSize (topicMetadata messageCount bufferSize) _ hword
  have hbuffer : (TopicMetadata.read (clearedSegment shm messageCount bufferSize).bytes 0).bufferAddress 0 = 6176 := by
    rw [TopicMetadata.bufferAddress, htable]
    rfl
  have hcapacity : load (clearedSegment shm messageCount bufferSize).bytes (6176 + 16) = 0 :=
    cleared_word shm (by omega) (by omega)
  have hattach : MappedBuffer.attach (clearedSegment shm messageCount bufferSize).bytes 6176 =
      ⟨6176, 6200, ⟨6200, 6224⟩⟩ := by
    rw [MappedBuffer.attach, hcapacity]
    rfl
  have hunlocked : (⟨6200, 6224⟩ : MappedPool).inUse
      (clearedSegment shm messageCount bufferSize).bytes = false := by
    have hbyte : (clearedSegment shm messageCount bufferSize).bytes 6216 = 0 := cleared_head shm (by omega) (by omega)
    rw [MappedPool.inUse, flag, hbyte]
    rfl
  rw [TopicSegment.new]
  simp only [cleared_nonempty shm, ↓reduceIte, hbuffer, hattach, MappedPool.unlock, hunlocked, Bool.false_eq_true]
  rfl

/-- A service on a cleared segment has a pool of no bytes. -/
theorem construct_cleared (shm : SharedMemoryObject) (messageCount bufferSize : Nat) (os : Semaphores SemaphoreName)
    (heap : Nat) (running : Nat → Bool) :
    ∃ b : CyclicBuffer, construct
        (clearedSegment shm messageCount bufferSize) messageCount bufferSize os heap running =
        .ok (started b os heap) ∧
      b.nextIndex = 0 ∧ Empty b ∧ b.memory.inUse = false := by
  refine ⟨bufferAt (clearedSegment shm messageCount bufferSize).bytes ⟨6176, 6200, ⟨6200, 6224⟩⟩, ?_,
    cleared_word shm (a := 6176) (by omega) (by omega),
    ⟨cleared_word shm (a := 6200) (by omega) (by omega), cleared_word shm (a := 6208) (by omega) (by omega)⟩, ?_⟩
  · have htable : ∀ a, 32 ≤ a → a < 32 + 6144 → (clearedSegment shm messageCount bufferSize).bytes a = 0 :=
      fun a hle hlt => cleared_head shm hle (by omega)
    rw [construct, if_neg (cleared_nonempty shm), new_cleared, service_started os heap htable]
    exact rebuildEntries_inactive running fun i _ => rfl
  · change flag (clearedSegment shm messageCount bufferSize).bytes 6216 = false
    rw [flag, cleared_head shm (by omega) (by omega)]
    rfl

end Constructors

section Fresh

variable {messageCount bufferSize : Nat} {os : Semaphores SemaphoreName} {heap : Nat} {b : CyclicBuffer}

/-- A pool without bytes refuses one byte. -/
theorem behaviour_refused (h : Empty b) : behaviour (.ok (started b os heap)) [.prepare 1 7] =
    .ok (some [⟨.span (.error .requestExceedsCapacity), fun _ => ⟨0, 0, false, false, 0⟩,
      os, b.nextIndex⟩]) := by
  have hprepare : (started b os heap).prepare 1 7 = .error .requestExceedsCapacity :=
    (prepare_empty (t := started b os heap) h 1 7).trans (if_pos Nat.one_pos)
  have hcall : call ⟨started b os heap, none, []⟩ (.prepare 1 7) =
      some ((World.mk (started b os heap) none []).answer (.span (.error .requestExceedsCapacity))) := by
    rw [call]
    simp only [hprepare]
  rw [behaviour, Except.map, run_step hcall]
  rfl

/-- A new pool with bytes grants it. -/
theorem behaviour_granted (hoffset : b.memory.offset = 0) (hpos : 0 < b.memory.size)
    (hsize : b.memory.size < 0x100000000)
    (hfree : b.memory.inUse = false) : behaviour (.ok (started b os heap)) [.prepare 1 7] =
    .ok (some [⟨.span (.ok (0, b.memory.size)), fun _ => ⟨0, 0, false, false, 0⟩, os, b.nextIndex⟩]) := by
  have hremaining : b.memory.remaining = b.memory.size := by
    rw [CyclicMemoryPool.remaining, hoffset, subWord]
    omega
  have hle : ¬ b.memory.size < 1 := by omega
  have hprepare : (started b os heap).prepare 1 7 =
      .ok (⟨⟨0, b.memory.size, 0⟩, 7⟩,
        started { b with memory := { b.memory with inUse := true } } os heap) := by
    have hbuffer : (started b os heap).buffer = b := rfl
    rw [TopicService.prepare, hbuffer, CyclicBuffer.writeScope, CyclicMemoryPool.getWriteSpan]
    simp only [hle, hfree, hremaining, hoffset, ↓reduceIte, Bool.false_eq_true]
    rfl
  have hcall : call ⟨started b os heap, none, []⟩ (.prepare 1 7) =
      some ((World.mk (started { b with memory := { b.memory with inUse := true } } os heap)
        (some ⟨⟨0, b.memory.size, 0⟩, 7⟩) []).answer (.span (.ok (0, b.memory.size)))) := by
    rw [call]
    simp only [hprepare]
  rw [behaviour, Except.map, run_step hcall]
  rfl

/-- With a pool of bytes the first request tells the two services apart. -/
theorem behaviour_differs (shm : SharedMemoryObject) (hcount : messageCount < 0x100000000) (hpos : 0 < bufferSize)
    (hsize : bufferSize < 0x100000000) (bytes : Bytes) (os : Semaphores SemaphoreName) (heap : Nat)
    (running : Nat → Bool) :
    behaviour (construct (clearedSegment shm messageCount bufferSize) messageCount bufferSize os heap running)
      [.prepare 1 7] ≠
    behaviour (construct ⟨0, bytes⟩ messageCount bufferSize os heap running) [.prepare 1 7] := by
  obtain ⟨b, hfresh, -, hoffset, hpool, hfree⟩ := construct_fresh hcount hsize bytes os heap running
  obtain ⟨c, hcleared, -, hempty, -⟩ := construct_cleared shm messageCount bufferSize os heap running
  rw [hfresh, hcleared, behaviour_refused hempty, behaviour_granted hoffset (hpool ▸ hpos) (hpool ▸ hsize) hfree]
  intro hsame
  cases hsame

/-- Without bytes nothing does. -/
theorem behaviour_same (shm : SharedMemoryObject) (hcount : messageCount < 0x100000000) (bytes : Bytes)
    (os : Semaphores SemaphoreName) (heap : Nat) (running : Nat → Bool) (calls : List Call) :
    behaviour (construct (clearedSegment shm messageCount 0) messageCount 0 os heap running) calls =
    behaviour (construct ⟨0, bytes⟩ messageCount 0 os heap running) calls := by
  have hnone : 0 < 0x100000000 := by decide
  obtain ⟨b, hfresh, hnext, hoffset, hpool, hfree⟩ := construct_fresh hcount hnone bytes os heap running
  obtain ⟨c, hcleared, hnext', hempty, hfree'⟩ := construct_cleared shm messageCount 0 os heap running
  have halike : Alike ⟨started c os heap, none, []⟩ b :=
    ⟨hnext.trans hnext'.symm, hfree.trans hfree'.symm, hempty, ⟨hoffset, hpool⟩, fun l hl => (by cases hl)⟩
  rw [hfresh, hcleared, behaviour, behaviour, Except.map, Except.map, run_alike halike calls]
  rfl

/-- Clearing an existing segment gives a fresh topic exactly when the segment was
not larger than the new one and no bytes are asked for. -/
theorem gives_fresh_iff (hcount : messageCount < 0x100000000) (hsize : bufferSize < 0x100000000)
    (shm : Option SharedMemoryObject) : GivesFresh shm messageCount bufferSize ↔
      ∀ s, shm = some s → 0 < s.size → s.size ≤ (topicMetadata messageCount bufferSize).totalSize ∧
        bufferSize = 0 := by
  constructor
  · rintro h s rfl hpos
    rw [GivesFresh, clearIfExists_some hpos] at h
    obtain ⟨cleared, hcleared, hwrites, hsame⟩ := h rfl
    cases hcleared
    have hold := hwrites ⟨0, s.size⟩ List.mem_cons_self
    rw [cleared_size] at hold
    refine ⟨by simp only at hold; omega, ?_⟩
    by_contra hbytes
    exact behaviour_differs s hcount (by omega) hsize (fun _ => 0) .fresh 0 (fun _ => false) (hsame _ _ _ _ _)
  · intro h hresult
    cases shm with
    | none => cases hresult
    | some s =>
      by_cases hpos : 0 < s.size
      · obtain ⟨hold, rfl⟩ := h s rfl hpos
        rw [clearIfExists_some hpos]
        refine ⟨_, rfl, fun r hr => ?_, fun bytes os heap running calls =>
          behaviour_same s hcount bytes os heap running calls⟩
        rw [cleared_size]
        rw [List.mem_cons, List.mem_singleton] at hr
        obtain rfl | rfl := hr
        · simp only
          omega
        · rw [topicMetadata_totalSize, sizeOfTopicMetadata]
          simp only
          omega
      · rw [clearIfExists] at hresult
        simp only [hpos, ↓reduceIte] at hresult
        cases hresult

/-- Zero bytes asked for: a segment of that size is cleared well, a larger one is not. -/
theorem gives_fresh_iff_empty : GivesFresh (some ⟨6320, fun _ => 1⟩) 2 0 ∧
    ¬ GivesFresh (some ⟨6360, fun _ => 1⟩) 2 0 := by
  constructor
  · refine (gives_fresh_iff (by decide) (by decide) _).mpr fun s hs hpos => ?_
    cases hs
    exact ⟨by decide, rfl⟩
  · intro h
    have hsmall := (gives_fresh_iff (by decide) (by decide) _).mp h ⟨6360, fun _ => 1⟩ rfl (by decide)
    exact absurd hsmall.1 (by decide)

/-- A segment that a service has made, cleared with the arguments it was made with. -/
theorem cleared_not_fresh : ¬ GivesFresh (some (TopicSegment.new ⟨0, fun _ => 0⟩ 2 16).shm) 2 16 := by
  intro h
  rw [GivesFresh, clearIfExists_some (by decide)] at h
  obtain ⟨cleared, hcleared, -, hsame⟩ := h rfl
  cases hcleared
  exact behaviour_differs _ (by decide) (by decide) (by decide) (fun _ => 0) .fresh 0
    (fun _ => false) (hsame _ _ _ _ _)

end Fresh

end TopicClearing
