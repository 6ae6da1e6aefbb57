import Mathlib.Algebra.GroupWithZero.Nat
import ZeroCopyRpc.TopicService
import ZeroCopyRpc.Transitions

/-!
# One publisher, many subscribers

The publishing thread, the calls of Subscribe and Unsubscribe and the readers
of the clients interleave freely. A step is one access to what they share: the
publisher raises the index, and then for each subscription met looks at its
mark, counts the token, stores the start on the first one and releases the
semaphore; Subscribe resets the slot and then pushes; a reader acquires its
semaphore, loads the start before its first read, and tries to read.

A pass that nobody disturbs is the call `TopicService.notifyAll`.
-/
namespace SubscriptionMachine

open LinkedChain Transitions Words

/-- The publishing thread inside `NotifyAll`: the iterator's node, or the node
just read, and the subscriptions to remove, the last one first. -/
inductive Publisher where
  | idle
  | published
  | visiting (current : Option Nat) (toRemove : List Subscription)
  | checked (node : Nat) (toRemove : List Subscription)
  | storing (node : Nat) (toRemove : List Subscription)
  | releasing (node : Nat) (toRemove : List Subscription)
  | removing (toRemove : List Subscription)
  deriving DecidableEq, Repr

/-- A client's cursor on a slot, with the indexes it has read. -/
structure Reader where
  sem : Nat
  cursor : Option Cursor
  holding : Bool
  reads : List Nat
  deriving DecidableEq, Repr

/-- What is remembered of a push: for whom, how many entries had been published,
and the semaphore opened. -/
structure Pushed where
  pid : Nat
  entries : Nat
  object : Nat
  deriving DecidableEq, Repr

structure State where
  topic : TopicService
  publisher : Publisher
  /-- Slot and process of the Subscribe calls between their two steps. -/
  entering : List (Nat × Nat)
  readers : Nat → Option Reader
  pushed : Nat → Option Pushed

inductive Event where
  | publish (scope : WriterScope)
  | notify (lostRace : Bool)
  | reset (pid : Nat)
  | push (position : Nat)
  | unsubscribe (pid id : Nat) (weakFailure : Bool)
  | openSemaphore (slot : Nat)
  | acquire (slot : Nat)
  | load (slot : Nat)
  | tryRead (slot : Nat)
  deriving DecidableEq, Repr

def State.setSlot (s : State) (slot : Nat) (d : SubscriptionSharedData) : State :=
  { s with topic := { s.topic with subscribers := Function.update s.topic.subscribers slot d } }

def State.setReader (s : State) (slot : Nat) (r : Reader) : State :=
  { s with readers := Function.update s.readers slot (some r) }

def State.slot (s : State) (node : Nat) : Nat := (s.topic.subscriptions.value node).index.toNat

/-- The publisher's next step. Its `remove` misses the subscription when a push
gets between its reads and its compare-exchange. -/
def notify (s : State) (lostRace : Bool) : Option State :=
  match s.publisher with
  | .idle => none
  | .published => some { s with publisher := .visiting s.topic.subscriptions.itemsHead [] }
  | .visiting none toRemove => some { s with publisher := .removing toRemove }
  | .visiting (some n) toRemove =>
    if (s.topic.subscribers (s.slot n)).pendingRemove then
      some { s with publisher := .visiting (s.topic.subscriptions.next n) (s.topic.subscriptions.value n :: toRemove) }
    else some { s with publisher := .checked n toRemove }
  | .checked n toRemove =>
    let data := s.topic.subscribers (s.slot n)
    let next := if data.notified = 0 then Publisher.storing n toRemove else .releasing n toRemove
    some { s.setSlot (s.slot n) { data with notified := addWord data.notified 1 } with publisher := next }
  | .storing n toRemove =>
    let data := s.topic.subscribers (s.slot n)
    some { s.setSlot (s.slot n) { data with nextIndex := subWord s.topic.buffer.nextIndex 1 } with
      publisher := .releasing n toRemove }
  | .releasing n toRemove =>
    let semaphores := (s.topic.subscriptions.value n).sem.elim s.topic.semaphores
      (fun sem => s.topic.semaphores.release sem.handle)
    some { s with
      topic := { s.topic with semaphores := semaphores }
      publisher := .visiting (s.topic.subscriptions.next n) toRemove }
  | .removing [] => some { s with publisher := .idle }
  | .removing (sub :: toRemove) =>
    if lostRace then some { s with publisher := .removing toRemove }
    else match s.topic.discard sub with
      | .error _ => none
      | .ok topic => some { s with topic := topic, publisher := .removing toRemove }

/-- The second step of Subscribe: open the semaphore, push, and return to the caller. -/
def enter (s : State) (position index pid : Nat) : State :=
  let opened := Subscription.new.openOrCreate s.topic.semaphores s.topic.heap ⟨pid, index⟩ index
  { s with
    topic := { s.topic with
      semaphores := opened.2
      heap := s.topic.heap + 1
      subscriptions := (s.topic.subscriptions.push opened.1).2 }
    entering := s.entering.eraseIdx position
    pushed := Function.update s.pushed index
      (some ⟨pid, s.topic.buffer.nextIndex, opened.1.sem.elim 0 NamedSemaphore.handle⟩) }

def step : Machine State Event
  | s, .publish scope =>
    if s.publisher = .idle then
      let published := { s with topic := { s.topic with buffer := scope.destroy s.topic.buffer } }
      if 0 < scope.span.committed then some { published with publisher := .published } else some published
    else none
  | s, .notify lostRace => notify s lostRace
  | s, .reset pid => match s.topic.idPool.rent with
    | none => some s
    | some (index, idPool) =>
      let t := { s with topic := { s.topic with idPool := idPool }, entering := (index, pid) :: s.entering }
      some (t.setSlot index ((s.topic.subscribers index).reset pid))
  | s, .push position => match s.entering[position]? with
    | none => none
    | some (index, pid) => some (enter s position index pid)
  | s, .unsubscribe pid id weakFailure => some { s with topic := (s.topic.unsubscribe pid id weakFailure).2 }
  | s, .openSemaphore slot => match s.pushed slot, s.readers slot with
    | some p, none => match s.topic.semaphores.names ⟨p.pid, slot⟩ with
      | none => none
      | some object => some (s.setReader slot ⟨object, none, false, []⟩)
    | _, _ => none
  | s, .acquire slot => match s.readers slot with
    | none => none
    | some r =>
      if r.holding then none
      else match s.topic.semaphores.tryAcquire r.sem with
        | (false, _) => none
        | (true, semaphores) => some ({ s with topic := { s.topic with semaphores := semaphores } }.setReader slot
            { r with holding := true })
  | s, .load slot => match s.readers slot with
    | none => none
    | some r =>
      if r.holding = true ∧ r.cursor = none then
        some (s.setReader slot { r with
          cursor := some (CyclicBuffer.openCursorAt (s.topic.subscribers slot).nextIndex) })
      else none
  | s, .tryRead slot => match s.readers slot with
    | none => none
    | some r => match r.cursor with
      | none => none
      | some c =>
        if r.holding then match c.tryRead s.topic.buffer with
          | (true, c) => some (s.setReader slot
              { r with cursor := some c, holding := false, reads := r.reads ++ [c.index] })
          | (false, _) => some s
        else none

def start (buffer : CyclicBuffer) : State := ⟨.new buffer, .idle, [], fun _ => none, fun _ => none⟩

/-- The number of entries an event publishes. -/
def Event.entries : Event → Nat
  | .publish scope => if 0 < scope.span.committed then 1 else 0
  | _ => 0

def publications (events : List Event) : Nat := (events.map Event.entries).sum

variable {s s' : State} {head : Option Nat} {rest : List Nat} {n : Nat} {toRemove : List Subscription}

/-- Undisturbed, the steps spent on one node do what `visit` does. -/
theorem run_visit (s : State) (hp : s.publisher = .visiting (some n) toRemove) :
    ∃ k s', run step s (List.replicate k (.notify false)) = some s' ∧
      s'.publisher = .visiting (s.topic.subscriptions.next n)
        (TopicService.visit (s.topic, toRemove) (s.topic.subscriptions.value n)).2 ∧
      s'.topic = (TopicService.visit (s.topic, toRemove) (s.topic.subscriptions.value n)).1 ∧
      s'.topic.subscriptions = s.topic.subscriptions := by
  by_cases hm : (s.topic.subscribers (s.slot n)).pendingRemove = true
  · let t : State := { s with
      publisher := .visiting (s.topic.subscriptions.next n) (s.topic.subscriptions.value n :: toRemove) }
    have ht : step s (.notify false) = some t := by simp [step, notify, hp, hm, t]
    simp only [State.slot] at hm
    refine ⟨1, t, run_step ht, ?_, ?_, rfl⟩ <;> simp [t, TopicService.visit, hm]
  · let data := s.topic.subscribers (s.slot n)
    let os := (s.topic.subscriptions.value n).sem.elim s.topic.semaphores
      (fun sem => s.topic.semaphores.release sem.handle)
    let nextIndex := if data.notified = 0 then subWord s.topic.buffer.nextIndex 1 else data.nextIndex
    have hvisit : TopicService.visit (s.topic, toRemove) (s.topic.subscriptions.value n) = ({ s.topic with
        subscribers := Function.update s.topic.subscribers (s.slot n)
          { data with notified := addWord data.notified 1, nextIndex := nextIndex }
        semaphores := os }, toRemove) := by
      simp only [TopicService.visit]
      exact if_neg hm
    rw [hvisit]
    let checked : State := { s with publisher := .checked n toRemove }
    let counted : State := s.setSlot (s.slot n) { data with notified := addWord data.notified 1 }
    let stored : State :=
      s.setSlot (s.slot n) { data with notified := addWord data.notified 1, nextIndex := nextIndex }
    let released : State := { stored with
      topic := { stored.topic with semaphores := os }
      publisher := .visiting (s.topic.subscriptions.next n) toRemove }
    have h₁ : step s (.notify false) = some checked := by simp [step, notify, hp, hm, checked]
    have h₃ : step { stored with publisher := .releasing n toRemove } (.notify false) = some released := rfl
    by_cases hz : data.notified = 0
    · have h₂ : step checked (.notify false) = some { counted with publisher := .storing n toRemove } := by
        change some { counted with
          publisher := if data.notified = 0 then .storing n toRemove else .releasing n toRemove } = _
        rw [if_pos hz]
      have hstore : step { counted with publisher := .storing n toRemove } (.notify false) =
          some { stored with publisher := .releasing n toRemove } := by
        change some { counted.setSlot (s.slot n) { Function.update s.topic.subscribers (s.slot n) _ (s.slot n) with
          nextIndex := subWord s.topic.buffer.nextIndex 1 } with publisher := .releasing n toRemove } = _
        simp only [counted, stored, nextIndex, State.setSlot, Function.update_self, Function.update_idem, if_pos hz]
      exact ⟨4, released, run_join (run_step h₁)
        (run_join (run_step h₂) (run_join (run_step hstore) (run_step h₃))),
        rfl, rfl, rfl⟩
    · have h₂ : step checked (.notify false) = some { stored with publisher := .releasing n toRemove } := by
        change some { counted with
          publisher := if data.notified = 0 then .storing n toRemove else .releasing n toRemove } = _
        rw [if_neg hz]
        simp only [counted, stored, nextIndex, if_neg hz]
      exact ⟨3, released, run_join (run_step h₁) (run_join (run_step h₂) (run_step h₃)), rfl, rfl, rfl⟩

theorem run_replicate_add {e : Event} {j k : Nat} {t : State} (h₁ : run step s (List.replicate j e) = some t)
    (h₂ : run step t (List.replicate k e) = some s') : run step s (List.replicate (j + k) e) = some s' := by
  rw [List.replicate_add]
  exact run_join h₁ h₂

/-- Undisturbed, the iterator meets the nodes of its chain as the first loop of
`notifyAll` does. -/
theorem run_visits (hp : s.publisher = .visiting head toRemove)
    (hchain : Chain s.topic.subscriptions.next head rest) :
    ∃ k s', run step s (List.replicate k (.notify false)) = some s' ∧
      s'.publisher =
        .visiting none ((rest.map s.topic.subscriptions.value).foldl TopicService.visit (s.topic, toRemove)).2 ∧
      s'.topic = ((rest.map s.topic.subscriptions.value).foldl TopicService.visit (s.topic, toRemove)).1 := by
  induction rest generalizing s head toRemove with
  | nil =>
    rw [chain_nil] at hchain
    subst hchain
    exact ⟨0, s, rfl, hp, rfl⟩
  | cons n rest ih =>
    obtain ⟨rfl, hrest⟩ := hchain
    obtain ⟨j, t, ht, htp, htt, hbag⟩ := run_visit s hp
    obtain ⟨k, s', hs', hp', ht'⟩ := ih htp (by rw [hbag]; exact hrest)
    rw [hbag, htt] at hp' ht'
    exact ⟨j + k, s', run_replicate_add ht hs', hp', ht'⟩

theorem run_removals (hp : s.publisher = .removing toRemove) :
    ∃ k s', run step s (List.replicate k (.notify false)) = some s' ∧ s'.publisher = .idle ∧
      s.topic.discardAll toRemove = .ok s'.topic := by
  induction toRemove generalizing s with
  | nil =>
    exact ⟨1, { s with publisher := .idle }, run_step (by simp [step, notify, hp]), rfl, rfl⟩
  | cons sub toRemove ih =>
    let topic := if (s.topic.subscriptions.remove sub).1 then s.topic.without sub else s.topic
    let t : State := { s with topic := topic, publisher := .removing toRemove }
    have hdiscard : s.topic.discard sub = .ok topic := TopicService.discard_eq s.topic sub
    have ht : step s (.notify false) = some t := by
      simp only [step, notify, hp, hdiscard]
      rfl
    obtain ⟨k, s', hs', hp', hall⟩ := ih (s := t) rfl
    refine ⟨1 + k, s', run_replicate_add (run_step ht) hs', hp', ?_⟩
    simp only [TopicService.discardAll, hdiscard]
    exact hall

/-- Undisturbed, the publisher's steps after a publication are `notifyAll`. -/
theorem run_notifyAll {subs : List Subscription} (hp : s.publisher = .published)
    (hbag : s.topic.subscriptions.Holds subs) :
    ∃ k s', run step s (List.replicate k (.notify false)) = some s' ∧ s'.publisher = .idle ∧
      s.topic.notifyAll = .ok s'.topic := by
  obtain ⟨used, free, hnodes, rfl⟩ := id hbag
  have hbegin : step s (.notify false) =
      some { s with publisher := .visiting s.topic.subscriptions.itemsHead [] } := by
    simp [step, notify, hp]
  obtain ⟨j, t, ht, htp, htt⟩ :=
    run_visits (s := { s with publisher := .visiting s.topic.subscriptions.itemsHead [] })
    rfl hnodes.items
  let toRemove := ((used.map s.topic.subscriptions.value).foldl TopicService.visit (s.topic, [])).2
  have hend : step t (.notify false) = some { t with publisher := .removing toRemove } := by
    simp only [step, notify, htp]
    rfl
  obtain ⟨k, s', hs', hp', hall⟩ := run_removals (s := { t with publisher := .removing toRemove }) rfl
  refine ⟨1 + j + (1 + k), s', run_replicate_add (run_replicate_add (run_step hbegin) ht)
    (run_replicate_add (run_step hend) hs'), hp', ?_⟩
  rw [TopicService.notifyAll, hbag.items_eq]
  have htopic : t.topic = ((used.map s.topic.subscriptions.value).foldl TopicService.visit (s.topic, [])).1 := htt
  rw [← htopic]
  exact hall

end SubscriptionMachine
