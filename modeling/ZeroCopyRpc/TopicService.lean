import ZeroCopyRpc.ConcurrentBag
import ZeroCopyRpc.CyclicBuffer
import ZeroCopyRpc.IDPool
import ZeroCopyRpc.NamedSemaphore

/-!
# The server's side of a topic

A subscription lives in three places: its id is rented from the id pool, its
entry is in the bag of this server process, and its slot is in the table in
shared memory. `NotifyAll` tells every subscription of the bag about the newest
entry and takes out those whose slot is marked for removal. A server that
starts over an existing segment rebuilds the pool and the bag from the table.

Every call is one step here. `NamedSemaphore`'s constructor throws when the system
has no semaphore for the name, and `Release` throws on a semaphore at its greatest
count. `subscribe` has both outcomes, and `refusedPass` is the pass that such a
`Release` ends. `visit`, `notifyAll` and `rebuildEntry` are the passes in which the
system calls succeed; what is proved of them is proved under this assumption.
-/
open Words

inductive TopicError where
  | cannotFindFreeId | cannotRebuildSubscription | cannotOpenSemaphore
  deriving DecidableEq, Repr

/-- The text of the system's error follows the last one. -/
def TopicError.what : TopicError → String
  | .cannotFindFreeId => "Cannot find free id."
  | .cannotRebuildSubscription => "Cannot rebuild subscription."
  | .cannotOpenSemaphore => "Failed to create/open semaphore"

/-- `<channel>.<topic>.<pid>.<index>.sem`; channel and topic are those of the service. -/
structure SemaphoreName where
  pid : Nat
  index : Nat
  deriving DecidableEq, Repr

/-- A semaphore object on the heap: its address, what it has opened, and the name. -/
structure NamedSemaphore where
  address : Nat
  handle : Nat
  name : SemaphoreName
  deriving DecidableEq, Repr

/-- A slot of the table in shared memory. -/
structure SubscriptionSharedData where
  nextIndex : Nat
  notified : Nat
  pendingRemove : Bool
  active : Bool
  pid : Nat
  deriving DecidableEq, Repr

def SubscriptionSharedData.reset (d : SubscriptionSharedData) (pid : Nat) : SubscriptionSharedData :=
  { d with pid := pid, notified := 0, active := true, pendingRemove := false }

/-- An entry of the bag; copies share the semaphore object. -/
structure Subscription where
  sem : Option NamedSemaphore
  index : Int
  name : Option SemaphoreName
  deriving DecidableEq, Repr

namespace Subscription

def new : Subscription := ⟨none, -1, none⟩

/-- The pointers to the semaphore and the indexes are compared. -/
instance : BEq Subscription where
  beq lhs rhs := lhs.sem.map NamedSemaphore.address == rhs.sem.map NamedSemaphore.address &&
    lhs.index == rhs.index

theorem beq_def (lhs rhs : Subscription) : (lhs == rhs) =
    (lhs.sem.map NamedSemaphore.address == rhs.sem.map NamedSemaphore.address && lhs.index == rhs.index) := rfl

theorem beq_self (s : Subscription) : (s == s) = true := by
  rw [beq_def, beq_self_eq_true, beq_self_eq_true]
  rfl

theorem index_of_beq {lhs rhs : Subscription} (h : (lhs == rhs) = true) : lhs.index = rhs.index := by
  rw [beq_def, Bool.and_eq_true] at h
  exact eq_of_beq h.2

/-- `Remove` unlinks the name and so does the semaphore's own destructor. -/
def close (s : Subscription) (os : Semaphores SemaphoreName) : Subscription × Semaphores SemaphoreName :=
  let os := match s.sem with
    | none => os
    | some sem => (s.name.elim os os.remove).remove sem.name
  ({ sem := none, index := -1, name := none }, os)

def openOrCreate (s : Subscription) (os : Semaphores SemaphoreName) (address : Nat) (semName : SemaphoreName)
    (index : Nat) : Subscription × Semaphores SemaphoreName :=
  let os := if s.name.isSome then (s.close os).2 else os
  let opened := os.openOrCreate semName 0
  (⟨some ⟨address, opened.1, semName⟩, index, some semName⟩, opened.2)

/-- Closing unlinks names and touches no semaphore object. -/
theorem close_semaphores (s : Subscription) (os : Semaphores SemaphoreName) :
    (s.close os).2.created = os.created ∧ (s.close os).2.count = os.count ∧
    ∀ k o, (s.close os).2.names k = some o → os.names k = some o := by
  have hremove : ∀ (os : Semaphores SemaphoreName) k k' o, (os.remove k').names k = some o →
      os.names k = some o := by
    intro os k k' o h
    by_cases hk : k = k'
    · subst hk
      simp [Semaphores.remove] at h
    · simpa [Semaphores.remove, hk] using h
  cases hs : s.sem with
  | none => simp [close, hs]
  | some sem =>
    cases hn : s.name with
    | none =>
      simp only [close, hs, hn, Option.elim_none]
      exact ⟨rfl, rfl, fun k o h => hremove _ _ _ _ h⟩
    | some name =>
      simp only [close, hs, hn, Option.elim_some]
      exact ⟨rfl, rfl, fun k o h => hremove _ _ _ _ (hremove _ _ _ _ h)⟩

end Subscription

structure TopicService where
  subscriptions : ConcurrentBag Subscription
  idPool : IDPool
  subscribers : Nat → SubscriptionSharedData
  buffer : CyclicBuffer
  semaphores : Semaphores SemaphoreName
  heap : Nat

namespace TopicService

/-- A service over a new segment, whose table is filled with zeros. -/
def new (buffer : CyclicBuffer) : TopicService where
  subscriptions := .new 256 .new
  idPool := .new 256
  subscribers := fun _ => ⟨0, 0, false, false, 0⟩
  buffer := buffer
  semaphores := .fresh
  heap := 0

/-- `opens` says whether the system gets a semaphore for the name. An exception comes
with what the service is by then: the id rented, the slot taken and nothing pushed. -/
def subscribe (t : TopicService) (pid : Nat) (opens : Bool) :
    Except (TopicError × TopicService) (Nat × TopicService) :=
  match t.idPool.rent with
  | none => .error (.cannotFindFreeId, t)
  | some (index, idPool) =>
    let t := { t with
      idPool := idPool
      subscribers := Function.update t.subscribers index ((t.subscribers index).reset pid) }
    if opens then
      let opened := Subscription.new.openOrCreate t.semaphores t.heap ⟨pid, index⟩ index
      .ok (index, { t with
        semaphores := opened.2
        heap := t.heap + 1
        subscriptions := (t.subscriptions.push opened.1).2 })
    else .error (.cannotOpenSemaphore, t)

/-- The weak compare-exchange may also fail where its comparison holds. -/
def unsubscribe (t : TopicService) (pid id : Nat) (weakFailure : Bool) : Bool × TopicService :=
  let r := t.subscribers id
  if r.pid = pid then
    if r.pendingRemove = false ∧ weakFailure = false then
      (true, { t with subscribers := Function.update t.subscribers id { r with pendingRemove := true } })
    else (false, t)
  else (false, t)

/-- The first loop of `NotifyAll`: what happens to one subscription met. -/
def visit (w : TopicService × List Subscription) (s : Subscription) : TopicService × List Subscription :=
  let t := w.1
  let slot := s.index.toNat
  let data := t.subscribers slot
  if data.pendingRemove then (t, s :: w.2)
  else
    let nextIndex := if data.notified = 0 then subWord t.buffer.nextIndex 1 else data.nextIndex
    ({ t with
        subscribers := Function.update t.subscribers slot
          { data with notified := addWord data.notified 1, nextIndex := nextIndex }
        semaphores := s.sem.elim t.semaphores (fun sem => t.semaphores.release sem.handle) }, w.2)

/-- The second loop: take one subscription out of the bag. The reference to its
slot is taken before `Close` gives the copy the index -1. -/
def discard (t : TopicService) (s : Subscription) : Except IDPoolError TopicService :=
  match t.subscriptions.remove s with
  | (false, _) => .ok t
  | (true, subscriptions) =>
    let slot := s.index.toNat
    let closed := s.close t.semaphores
    let t := { t with
      subscriptions := subscriptions
      semaphores := closed.2
      subscribers := Function.update t.subscribers slot
        { t.subscribers slot with pendingRemove := false, active := false } }
    if 0 ≤ closed.1.index then
      match t.idPool.returns closed.1.index.toNat with
      | .error e => .error e
      | .ok idPool => .ok { t with idPool := idPool }
    else .ok t

/-- What a subscription taken out leaves behind. -/
def without (t : TopicService) (s : Subscription) : TopicService :=
  { t with
    subscriptions := (t.subscriptions.remove s).2
    semaphores := (s.close t.semaphores).2
    subscribers := Function.update t.subscribers s.index.toNat
      { t.subscribers s.index.toNat with pendingRemove := false, active := false } }

/-- The copy's index is -1 when it is asked for, so no id goes back to the pool. -/
theorem discard_eq (t : TopicService) (s : Subscription) :
    t.discard s = .ok (if (t.subscriptions.remove s).1 then t.without s else t) := by
  unfold discard
  split
  · rename_i hr
    rw [hr]
    rfl
  · rename_i hr
    rw [hr]
    simp [Subscription.close, without, hr]

def discardAll : TopicService → List Subscription → Except IDPoolError TopicService
  | t, [] => .ok t
  | t, s :: toRemove =>
    match t.discard s with
    | .error e => .error e
    | .ok t => discardAll t toRemove

/-- `toRemove` is emptied from its last entry to its first. -/
def notifyAll (t : TopicService) : Except IDPoolError TopicService :=
  let visited := t.subscriptions.items.foldl visit (t, [])
  visited.1.discardAll visited.2

/-- The subscription is to be notified, and its semaphore is among those the system does not raise. -/
def refuses (t : TopicService) (refused : List Nat) (s : Subscription) : Bool :=
  !(t.subscribers s.index.toNat).pendingRemove && s.sem.any fun sem => refused.contains sem.handle

/-- The first loop when a `Release` throws: that slot has counted the entry, its semaphore
has not, and nobody behind it is notified or taken out. -/
def refusedPass (refused : List Nat) : TopicService → List Subscription → Option TopicService
  | _, [] => none
  | t, s :: subs =>
    if t.refuses refused s then some { (visit (t, []) s).1 with semaphores := t.semaphores }
    else refusedPass refused (visit (t, []) s).1 subs

def prepare (t : TopicService) (minSize : Nat) (type : UInt64) : Except PoolError (WriterScope × TopicService) :=
  match t.buffer.writeScope minSize type with
  | .error e => .error e
  | .ok (scope, buffer) => .ok (scope, { t with buffer := buffer })

theorem prepare_ok {t t' : TopicService} {minSize : Nat} {type : UInt64} {scope : WriterScope}
    (h : t.prepare minSize type = .ok (scope, t')) :
    ∃ memory, t.buffer.memory.getWriteSpan minSize = .ok (scope.span, memory) ∧ scope.type = type ∧
      t' = { t with buffer := { t.buffer with memory := memory } } := by
  unfold prepare CyclicBuffer.writeScope at h
  cases hspan : t.buffer.memory.getWriteSpan minSize with
  | error e => simp [hspan] at h
  | ok it =>
    obtain ⟨span, memory⟩ := it
    simp only [hspan] at h
    cases h
    exact ⟨memory, rfl, rfl, rfl⟩

/-- The destructor of a `PublishScope`. A `Release` that throws out of it ends the process. -/
def publish (t : TopicService) (scope : WriterScope) : Except IDPoolError TopicService :=
  let published := { t with buffer := scope.destroy t.buffer }
  if 0 < scope.span.committed then published.notifyAll else .ok published

theorem visit_buffer (w : TopicService × List Subscription) (s : Subscription) :
    (visit w s).1.buffer = w.1.buffer := by
  unfold visit
  dsimp only
  split <;> rfl

theorem visits_buffer (subs : List Subscription) (w : TopicService × List Subscription) :
    (subs.foldl visit w).1.buffer = w.1.buffer := by
  induction subs generalizing w with
  | nil => rfl
  | cons s subs ih => exact (ih (visit w s)).trans (visit_buffer w s)

theorem discardAll_buffer (subs : List Subscription) (t : TopicService) :
    ∃ t', t.discardAll subs = .ok t' ∧ t'.buffer = t.buffer := by
  induction subs generalizing t with
  | nil => exact ⟨t, rfl, rfl⟩
  | cons s subs ih =>
    obtain ⟨t', ht', hb⟩ := ih (if (t.subscriptions.remove s).1 then t.without s else t)
    refine ⟨t', ?_, hb.trans ?_⟩
    · rw [discardAll, discard_eq]
      exact ht'
    · split <;> rfl

/-- The notification pass neither fails nor touches the buffer. -/
theorem notifyAll_buffer (t : TopicService) : ∃ t', t.notifyAll = .ok t' ∧ t'.buffer = t.buffer := by
  obtain ⟨t', ht', hb⟩ := discardAll_buffer (t.subscriptions.items.foldl visit (t, [])).2
    (t.subscriptions.items.foldl visit (t, [])).1
  exact ⟨t', ht', hb.trans (visits_buffer _ _)⟩

theorem publish_buffer (t : TopicService) (scope : WriterScope) :
    ∃ t', t.publish scope = .ok t' ∧ t'.buffer = scope.destroy t.buffer := by
  unfold publish
  split
  · exact notifyAll_buffer _
  · exact ⟨_, rfl, rfl⟩

def removeDanglingSubscriptionEntry (t : TopicService) (i : Nat) : TopicService :=
  let sub := t.subscribers i
  { t with
    semaphores := t.semaphores.remove ⟨sub.pid, i⟩
    subscribers := Function.update t.subscribers i { sub with pendingRemove := false } }

/-- One turn of the loop that rebuilds the subscriptions. -/
def rebuildEntry (running : Nat → Bool) (t : TopicService) (i : Nat) : Except TopicError TopicService :=
  let sub := t.subscribers i
  if sub.active then
    if sub.pendingRemove then .ok (t.removeDanglingSubscriptionEntry i)
    else if !running sub.pid then .ok (t.removeDanglingSubscriptionEntry i)
    else match t.idPool.tryRent i with
      | (false, _) => .error .cannotRebuildSubscription
      | (true, idPool) =>
        let opened := Subscription.new.openOrCreate t.semaphores t.heap ⟨sub.pid, i⟩ i
        .ok { t with
          idPool := idPool
          semaphores := opened.2
          heap := t.heap + 1
          subscriptions := (t.subscriptions.push opened.1).2 }
  else .ok t

def rebuildEntries (running : Nat → Bool) : TopicService → List Nat → Except TopicError TopicService
  | t, [] => .ok t
  | t, i :: rest =>
    match t.rebuildEntry running i with
    | .error e => .error e
    | .ok t => rebuildEntries running t rest

/-- The constructor over an existing segment: table and payload are kept. -/
def rebuild (t : TopicService) (running : Nat → Bool) : Except TopicError TopicService :=
  rebuildEntries running { t with
    subscriptions := .new 256 .new
    idPool := .new 256
    buffer := { t.buffer with memory := t.buffer.memory.unlock.2 } } (List.range 256)

end TopicService
