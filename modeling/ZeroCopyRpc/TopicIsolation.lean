import ZeroCopyRpc.ReplyEnvelopes

/-!
# A topic by itself

The dispatcher serves all topics of a channel from one loop, through one buffer
and two tables. What it does for one name is here a machine of its own, which
knows one service and what is left under its name. The channel, looked at under
one name, goes through the steps of that machine, for the messages that bear the
name and in the order in which they come.
-/
namespace TopicIsolation

open LittleEndian ReceiveBuffer Envelopes ReplyEnvelopes Transitions

/-- The dispatcher receives the envelope of a call; a thread that publishes changes
its topic; the clients change their queues. -/
inductive Event where
  | message (s : Sent)
  | publish (topicName : TopicName) (change : TopicService → TopicService)
  | clients (queues : ResponseQueues)

def changeTopic (c : Channel) (topicName : TopicName) (change : TopicService → TopicService) : Channel :=
  { c with server := { c.server with
      topics := Function.update c.server.topics topicName ((c.server.topics topicName).map change) } }

def step : Machine Dispatcher Event
  | d, .message s => dispatchMessages d s.receipt
  | d, .publish topicName change => some { d with channel := changeTopic d.channel topicName change }
  | d, .clients queues => some (setQueues d queues)

/-- The name as the dispatcher finds it. -/
def name : Call → Option TopicName
  | .connect _ => none
  | .subscribe topicName => some (setTopicName topicName)
  | .invokeUnsubscribe topicName _ => some (setTopicName topicName)
  | .createTopic topicName _ _ => some (setTopicName topicName)
  | .removeTopic topicName => some (setTopicName topicName)
  | .destroy => none

def about (n : TopicName) : Event → Bool
  | .message s => name s.call == some n
  | .publish topicName _ => topicName == n
  | .clients _ => false

/-- What there is under one name. -/
structure Place where
  service : Option TopicService
  left : Remains

def place (c : Channel) (n : TopicName) : Place := ⟨c.server.topics n, c.remains n⟩

namespace Place

variable (p : Place)

def subscribe (pid : Nat) (opens : Bool) : Option Place :=
  match p.service with
  | none => some p
  | some topic => (topic.subscribe pid opens).toOption.map fun r => { p with service := some r.2 }

def unsubscribe (pid slothId : Nat) (weakFailure : Bool) : Place :=
  { p with service := p.service.map fun topic => (topic.unsubscribe pid slothId weakFailure).2 }

def create (messageCount bufferSize : Nat) (running : Nat → Bool) : Option Place :=
  match p.service with
  | some _ => some p
  | none =>
    if messageCount = 0 then none
    else (p.left.construct messageCount bufferSize running).toOption.map fun topic => { p with service := some topic }

def remove : Place :=
  match p.service with
  | none => p
  | some topic =>
    ⟨none, if topic.subscriptions.empty then .object ⟨0, fun _ => 0⟩ topic.semaphores else .left topic⟩

end Place

/-- The machine of one topic. It never looks at a name. -/
def alone : Machine Place Event
  | p, .message s => match s.call with
    | .subscribe _ => p.subscribe s.caller.pid.toNat s.chance.opens
    | .invokeUnsubscribe _ sloth => some (p.unsubscribe s.caller.pid.toNat sloth.toNat s.chance.weakFailure)
    | .createTopic _ messageCount bufferSize => p.create messageCount.toNat bufferSize.toNat s.running
    | .removeTopic _ => some p.remove
    | .connect _ => some p
    | .destroy => some p
  | p, .publish _ change => some { p with service := p.service.map change }
  | p, .clients _ => some p

variable {c : Channel} {n m : TopicName}

section Places

theorem subscribe_place {s t : SharedMemoryServer} {pid id : Nat} {opens : Bool}
    (h : s.subscribe m pid opens = .ok (id, t)) (left : Remains) :
    ∃ p, Place.subscribe ⟨s.topics m, left⟩ pid opens = some p ∧ p.left = left ∧
      t.topics = Function.update s.topics m p.service := by
  unfold SharedMemoryServer.subscribe at h
  cases htopic : s.topics m with
  | none =>
    rw [htopic] at h
    cases h
    exact ⟨⟨none, left⟩, rfl, rfl, (Function.update_eq_self_iff.mpr htopic.symm).symm⟩
  | some topic =>
    rw [htopic] at h
    cases hok : topic.subscribe pid opens with
    | error _ =>
      simp only [hok] at h
      cases h
    | ok r =>
      simp only [hok] at h
      cases h
      exact ⟨⟨some r.2, left⟩, by simp only [Place.subscribe, hok]; rfl, rfl, rfl⟩

theorem onUnsubscribe_place (s : SharedMemoryServer) (pid slothId : Nat) (weakFailure : Bool) (left : Remains) :
    (s.onUnsubscribe m pid slothId weakFailure).2.topics =
      Function.update s.topics m (Place.unsubscribe ⟨s.topics m, left⟩ pid slothId weakFailure).service := by
  unfold SharedMemoryServer.onUnsubscribe
  cases htopic : s.topics m with
  | none => exact (Function.update_eq_self_iff.mpr htopic.symm).symm
  | some topic => rfl

/-- The channel as a table of places; only one of them changes. -/
theorem place_update {c' : Channel} {p : Place}
    (htopics : c'.server.topics = Function.update c.server.topics m p.service)
    (hremains : c'.remains = Function.update c.remains m p.left) : place c' = Function.update (place c) m p := by
  funext k
  by_cases hk : k = m
  · subst hk
    rw [place, htopics, hremains, Function.update_self, Function.update_self, Function.update_self]
  · rw [place, htopics, hremains, Function.update_of_ne hk, Function.update_of_ne hk, Function.update_of_ne hk, place]

theorem onCreateTopic_place {messageCount bufferSize : Nat} {running : Nat → Bool} {r : TopicName × Channel}
    (h : c.onCreateTopic m messageCount bufferSize running = some r) :
    ∃ p, (place c m).create messageCount bufferSize running = some p ∧
      place r.2 = Function.update (place c) m p := by
  unfold Channel.onCreateTopic at h
  cases htopic : c.server.topics m with
  | some topic =>
    rw [htopic] at h
    cases h
    refine ⟨place c m, ?_, (Function.update_eq_self m (place c)).symm⟩
    simp only [Place.create, place, htopic]
  | none =>
    simp only [htopic, Option.ite_none_left_eq_some] at h
    obtain ⟨hcount, h⟩ := h
    cases hok : (c.remains m).construct messageCount bufferSize running with
    | error _ =>
      rw [hok] at h
      cases h
    | ok topic =>
      rw [hok] at h
      cases h
      refine ⟨⟨some topic, c.remains m⟩, ?_, place_update rfl (Function.update_eq_self ..).symm⟩
      simp only [Place.create, place, htopic, if_neg hcount, hok]
      rfl

theorem removeSubscription_place :
    place (c.removeSubscription m).2 = Function.update (place c) m (place c m).remove := by
  unfold Channel.removeSubscription
  cases htopic : c.server.topics m with
  | none =>
    have hsame : (place c m).remove = place c m := by
      simp only [Place.remove, place, htopic]
    rw [hsame, Function.update_eq_self]
  | some topic =>
    apply place_update <;> simp only [Place.remove, place, htopic]

theorem answer_handled {env : RequestEnvelope} {chance : Chance} {e : Effect} (h : c.answer env chance = some e) :
    e.channel.remains = c.remains ∧
    ∃ response, Handled c.server env.pid chance env.request response e.channel.server.topics := by
  obtain ⟨d, hd, rfl⟩ := Option.map_eq_some_iff.mp h
  obtain ⟨m, response, hhandled, -⟩ := dispatchMessage_handled hd
  exact ⟨rfl, response, hhandled⟩

/-- The spec of a call: under its name one step of that topic, and nothing under another. -/
theorem handle_place {s : Sent} {e : Effect} (h : s.call.handle s.caller c s.running s.chance = some e) :
    (name s.call = none ∧ place e.channel = place c) ∨
    ∃ m p, name s.call = some m ∧ alone (place c m) (.message s) = some p ∧
      place e.channel = Function.update (place c) m p := by
  obtain ⟨caller, call, behind, running, chance⟩ := s
  cases call with
  | connect created =>
    obtain ⟨hremains, response, hhandled⟩ := answer_handled h
    generalize htopics : e.channel.server.topics = topics at hhandled
    cases hhandled with
    | hello =>
      refine Or.inl ⟨rfl, ?_⟩
      funext k
      rw [place, htopics, hremains, place]
  | subscribe topicName =>
    obtain ⟨hremains, response, hhandled⟩ := answer_handled h
    generalize htopics : e.channel.server.topics = topics at hhandled
    cases hhandled with
    | subscribe granted =>
      obtain ⟨p, hp, hleft, hservice⟩ := subscribe_place granted (c.remains (setTopicName topicName))
      refine Or.inr ⟨setTopicName topicName, p, rfl, hp, place_update (htopics.trans hservice) ?_⟩
      rw [hremains, hleft, Function.update_eq_self]
  | invokeUnsubscribe topicName sloth =>
    obtain ⟨hremains, response, hhandled⟩ := answer_handled h
    generalize htopics : e.channel.server.topics = topics at hhandled
    cases hhandled with
    | unsubscribe =>
      have hservice := @onUnsubscribe_place (setTopicName topicName) c.server caller.pid.toNat sloth.toNat
        chance.weakFailure (c.remains (setTopicName topicName))
      refine Or.inr ⟨setTopicName topicName, _, rfl, rfl, place_update (htopics.trans hservice) ?_⟩
      exact hremains.trans (Function.update_eq_self ..).symm
  | createTopic topicName messageCount bufferSize =>
    obtain ⟨r, hr, rfl⟩ := Option.map_eq_some_iff.mp h
    obtain ⟨p, hp, hplace⟩ := onCreateTopic_place hr
    exact Or.inr ⟨setTopicName topicName, p, rfl, hp, hplace⟩
  | removeTopic topicName =>
    cases h
    exact Or.inr ⟨setTopicName topicName, _, rfl, rfl, removeSubscription_place⟩
  | destroy =>
    cases h
    exact Or.inl ⟨rfl, rfl⟩

end Places

section Steps

variable {d d' : Dispatcher}

theorem changeTopic_place (change : TopicService → TopicService) : place (changeTopic c m change) =
    Function.update (place c) m ⟨(c.server.topics m).map change, c.remains m⟩ :=
  place_update rfl (Function.update_eq_self ..).symm

/-- What bears the name is a step of the topic. -/
theorem step_own {e : Event} (h : about n e = true) (hs : step d e = some d') :
    alone (place d.channel n) e = some (place d'.channel n) := by
  cases e with
  | message s =>
    obtain ⟨effect, heffect, hchannel⟩ := handled_call hs
    obtain ⟨hnone, -⟩ | ⟨m, p, hname, hp, hplace⟩ := handle_place heffect
    · rw [about, hnone] at h
      cases h
    · rw [about, hname, beq_iff_eq, Option.some.injEq] at h
      subst h
      rw [hchannel, hplace, Function.update_self, hp]
  | publish topicName change =>
    cases hs
    obtain rfl : topicName = n := eq_of_beq h
    rw [changeTopic_place, Function.update_self]
    rfl
  | clients queues => cases h

/-- What does not leaves it alone. -/
theorem step_other {e : Event} (h : about n e = false) (hs : step d e = some d') :
    place d'.channel n = place d.channel n := by
  cases e with
  | message s =>
    obtain ⟨effect, heffect, hchannel⟩ := handled_call hs
    rw [hchannel]
    obtain ⟨-, hplace⟩ | ⟨m, p, hname, -, hplace⟩ := handle_place heffect
    · rw [hplace]
    · have hn : n ≠ m := by
        rintro rfl
        rw [about, hname, beq_self_eq_true] at h
        cases h
      rw [hplace, Function.update_of_ne hn]
  | publish topicName change =>
    cases hs
    have hn : n ≠ topicName := fun heq => by simp [about, heq] at h
    rw [changeTopic_place, Function.update_of_ne hn]
  | clients queues =>
    cases hs
    rfl

end Steps

/-- Whatever the server is asked about other topics, in between and through the same buffer and
queues: a topic goes through the steps of its own messages and publishers alone. -/
theorem topic_alone (d d' : Dispatcher) (n : TopicName) (events : List Event) (h : run step d events = some d') :
    run alone (place d.channel n) (events.filter (about n)) = some (place d'.channel n) :=
  run_project (v := fun d => place d.channel n) (fun _ _ _ => step_own) (fun _ _ _ => step_other) h

/-- An entry of one byte. -/
def oneByte (topic : TopicService) : TopicService :=
  match topic.prepare 1 0 with
  | .error _ => topic
  | .ok (scope, topic) =>
    match scope.commit topic.buffer 1 with
    | .error _ => topic
    | .ok (scope, buffer) =>
      match { topic with buffer := buffer }.publish scope with
      | .error _ => topic
      | .ok topic => topic

/-- Process 7 creates two topics and subscribes to one; both are published to, and the other is removed. -/
def mixed : List Event :=
  [.message ⟨process7, .createTopic [5] 4 64, [], fun _ => true, ⟨false, true⟩⟩,
    .message ⟨process7, .createTopic [6] 4 64, [], fun _ => true, ⟨false, true⟩⟩,
    .clients ⟨fun pid => if pid = 7 then some 0 else none, fun _ => [], 1⟩,
    .message ⟨process7, .subscribe [5], [], fun _ => true, ⟨false, true⟩⟩,
    .publish [6] oneByte, .publish [5] oneByte,
    .message ⟨process7, .removeTopic [6], [], fun _ => true, ⟨false, true⟩⟩]

theorem topic_alone_mixed : ∃ d', run step (start nothingLeft emptyBuffer) mixed = some d' ∧
    (d'.channel.server.topics [5]).map (fun topic => topic.semaphores.count 0) = some 1 ∧
    run alone (place (start nothingLeft emptyBuffer).channel [5]) (mixed.filter (about [5])) =
      some (place d'.channel [5]) := by
  have hrun : (run step (start nothingLeft emptyBuffer) mixed).map (fun d =>
      (d.channel.server.topics [5]).map fun topic => topic.semaphores.count 0) = some (some 1) := by
    decide +kernel
  obtain ⟨d', hd', hcount⟩ := Option.map_eq_some_iff.mp hrun
  exact ⟨d', hd', hcount, topic_alone (start nothingLeft emptyBuffer) d' [5] mixed hd'⟩

end TopicIsolation
