import ZeroCopyRpc.SharedMemoryServer
import ZeroCopyRpc.SubscriptionSlots

/-!
# What the dispatcher answers

The dispatcher thread takes one request after the other. Its loop has no
handler, so an exception ends it. In between, clients create and remove their
response queues and read from them, and topics are created, removed, opened
again over their segment and published to.

A blocking send waits while the queue is full, and the dispatcher waits with it:
until a client makes room it takes no other request. The reply to a subscription
is only tried.
-/
namespace RequestAnswers

open Transitions

/-- `waiting` is the reply that the dispatcher waits with, and the queue it is for. -/
structure World where
  server : SharedMemoryServer
  queues : ResponseQueues
  stopped : Bool
  waiting : Option (Nat × ResponseEnvelope)

inductive Event where
  | dispatch (env : RequestEnvelope) (chance : Chance)
  -- the send that waits has found room
  | resume
  | create (pid : Nat)
  | remove (pid : Nat)
  | receive (object : Nat)
  | createTopic (topicName : TopicName) (buffer : CyclicBuffer)
  | reopenTopic (topicName : TopicName) (running : Nat → Bool)
  | removeTopic (topicName : TopicName)
  | call (topicName : TopicName) (c : SubscriptionSlots.Call)

/-- What the dispatcher has done when it comes to send: the server, the queue and the
reply. An exception leaves the server only. -/
def prepared (s : SharedMemoryServer) (queues : ResponseQueues) (env : RequestEnvelope) (chance : Chance) :
    Except SharedMemoryServer (SharedMemoryServer × Nat × Response) :=
  match env.request with
  | .subscribe topicName =>
    match s.subscribe topicName env.pid chance.opens with
    | .error (_, s) => .error s
    | .ok (id, s) =>
      match s.getClient queues env.pid with
      | none => .error s
      | some (m, s) => .ok (s, m, .subscribe id)
  | .hello created =>
    match s.getClient queues env.pid with
    | none => .error s
    | some (m, s) => .ok (s, m, .hello created)
  | .unsubscribe topicName slothId =>
    match s.getClient queues env.pid with
    | none => .error s
    | some (m, s) =>
      let result := s.onUnsubscribe topicName env.pid slothId chance.weakFailure
      .ok (result.2, m, .unsubscribe (setTopicName topicName) result.1 slothId)

/-- Only the reply to a subscription may be dropped. -/
def triedOnly : Command → Bool
  | .subscribe _ => true
  | _ => false

theorem triedOnly_iff {request : Command} :
    triedOnly request = true ↔ ∃ topicName, request = .subscribe topicName := by
  cases request <;> simp [triedOnly]

/-- `dispatchMessage` sends the reply that has been prepared. -/
theorem dispatchMessage_eq (s : SharedMemoryServer) (queues : ResponseQueues)
    (env : RequestEnvelope) (chance : Chance) :
    s.dispatchMessage queues env chance = match prepared s queues env chance with
      | .error _ => none
      | .ok (t, m, response) => match t.send queues m ⟨env.correlationId, response⟩ with
        | some d => some d
        | none => if triedOnly env.request then some ⟨t, queues, none⟩ else none := by
  cases hr : env.request with
  | hello created =>
    simp only [SharedMemoryServer.dispatchMessage, SharedMemoryServer.onHelloResponse, prepared, hr]
    cases s.getClient queues env.pid with
    | none => rfl
    | some r => cases hsend : r.2.send queues r.1 ⟨env.correlationId, .hello created⟩ <;> simp [hsend, triedOnly]
  | unsubscribe topicName slothId =>
    simp only [SharedMemoryServer.dispatchMessage, prepared, hr]
    cases s.getClient queues env.pid with
    | none => rfl
    | some r =>
      simp only [triedOnly, Bool.false_eq_true, ↓reduceIte]
      split <;> assumption
  | subscribe topicName =>
    simp only [SharedMemoryServer.dispatchMessage, prepared, hr]
    cases s.subscribe topicName env.pid chance.opens with
    | error e => rfl
    | ok r =>
      cases hclient : r.2.getClient queues env.pid with
      | none => simp only [hclient]
      | some r' =>
        simp only [hclient, triedOnly, ↓reduceIte]
        split <;> split <;> simp_all

/-- Handling the request raises an exception. -/
def throws (s : SharedMemoryServer) (queues : ResponseQueues) (env : RequestEnvelope) (chance : Chance) : Bool :=
  match prepared s queues env chance with
  | .error _ => true
  | .ok _ => false

def World.setTopic (w : World) (topicName : TopicName) (topic : Option TopicService) : World :=
  { w with server := { w.server with topics := Function.update w.server.topics topicName topic } }

def step : Machine World Event
  | w, .dispatch env chance =>
    if w.stopped || w.waiting.isSome then none
    else match w.server.dispatchMessage w.queues env chance with
      | some d => some { w with server := d.server, queues := d.queues }
      | none => match prepared w.server w.queues env chance with
        | .error s => some { w with server := s, stopped := true }
        | .ok (s, m, response) => some { w with server := s, waiting := some (m, ⟨env.correlationId, response⟩) }
  | w, .resume => match w.waiting with
    | none => none
    | some (m, reply) => (w.queues.trySend 256 m reply).map fun queues => { w with queues := queues, waiting := none }
  | w, .create pid => (w.queues.createOnly pid).map (fun r => { w with queues := r.2 })
  | w, .remove pid => some { w with queues := w.queues.remove pid }
  | w, .receive object => (w.queues.receive object).map (fun r => { w with queues := r.2 })
  | w, .createTopic topicName buffer => match w.server.topics topicName with
    | some _ => none
    | none => some (w.setTopic topicName (some (.new buffer)))
  | w, .reopenTopic topicName running => match w.server.topics topicName with
    | none => none
    | some topic => (topic.rebuild running).toOption.map (fun topic => w.setTopic topicName (some topic))
  | w, .removeTopic topicName => some (w.setTopic topicName none)
  | w, .call topicName c => match w.server.topics topicName with
    | none => none
    | some topic => (SubscriptionSlots.call topic c).map (fun topic => w.setTopic topicName (some topic))

def start : World := ⟨.new (fun _ => none), .fresh, false, none⟩

/-- The response queue of the client that sent the request exists. -/
def QueueExists (w : World) : Event → Prop
  | .dispatch env _ => ∃ m, w.queues.names env.pid = some m
  | _ => True

/-- The id in the reply to a subscription is a slot of the topic, active and marked with the sender. -/
def Grants (s : SharedMemoryServer) (env : RequestEnvelope) (response : Response) : Prop :=
  ∀ topicName, env.request = .subscribe topicName → ∃ id topic, response = .subscribe id ∧
    s.topics topicName = some topic ∧ id < 256 ∧ (topic.subscribers id).active = true ∧
    (topic.subscribers id).pid = env.pid

/-- The loop goes on, does not wait, and has sent one reply with the request's id. -/
def Answers (env : RequestEnvelope) (w w' : World) : Prop :=
  w'.stopped = false ∧ w'.waiting = none ∧ ∃ m response,
    w'.queues.contents = Function.update w.queues.contents m
      (w.queues.contents m ++ [⟨env.correlationId, response⟩]) ∧
    Grants w'.server env response

/-- A topic to subscribe to exists and has a free id, and a semaphore can be opened for it. -/
def Servable (s : SharedMemoryServer) (env : RequestEnvelope) (chance : Chance) : Prop :=
  ∀ topicName, env.request = .subscribe topicName →
    chance.opens = true ∧ ∃ topic, s.topics topicName = some topic ∧ topic.idPool.head ≠ none

/-- The request can be served, and the queue that the server has for the sender is not full. -/
def Ready (w : World) : Event → Prop
  | .dispatch env chance => Servable w.server env chance ∧
    ∀ m, SharedMemoryServer.Attached w.server.clients w.queues env.pid m → (w.queues.contents m).length < 256
  | _ => True

/-- Every topic's pool, bag and table fit together. -/
def Sound (s : SharedMemoryServer) : Prop :=
  ∀ topicName topic, s.topics topicName = some topic → ∃ free subs, SubscriptionSlots.Inv topic free subs

variable {w w' : World} {s t : SharedMemoryServer} {queues : ResponseQueues} {env : RequestEnvelope} {chance : Chance}

theorem sound_update {topicName : TopicName} {topic : Option TopicService} (h : Sound s)
    (ht : t.topics = Function.update s.topics topicName topic)
    (htopic : ∀ t, topic = some t → ∃ free subs, SubscriptionSlots.Inv t free subs) : Sound t := by
  intro name t' hname
  rw [ht] at hname
  by_cases he : name = topicName
  · rw [he, Function.update_self] at hname
    exact htopic t' hname
  · rw [Function.update_of_ne he] at hname
    exact h name t' hname

theorem sound_congr (h : Sound s) (ht : t.topics = s.topics) : Sound t :=
  fun name topic hname => h name topic (ht ▸ hname)

theorem getClient_topics {pid m : Nat} (h : s.getClient queues pid = some (m, t)) : t.topics = s.topics := by
  unfold SharedMemoryServer.getClient at h
  split at h
  · cases h
    rfl
  · split at h
    · cases h
    · cases h
      rfl

theorem getClient_exists (s : SharedMemoryServer) {pid : Nat} (h : ∃ m, queues.names pid = some m) :
    ∃ m t, s.getClient queues pid = some (m, t) := by
  obtain ⟨m, hm⟩ := h
  unfold SharedMemoryServer.getClient
  cases hc : s.clients pid with
  | some o => exact ⟨o, s, rfl⟩
  | none =>
    simp only [MessageQueues.openOnly, hm]
    exact ⟨m, _, rfl⟩

theorem getClient_attached {pid m : Nat} (h : s.getClient queues pid = some (m, t)) :
    SharedMemoryServer.Attached s.clients queues pid m := (SharedMemoryServer.getClient_some h).1

/-- A reply is for the queue that the server has for the sender. -/
theorem prepared_attached {m : Nat} {response : Response}
    (h : prepared s queues env chance = .ok (t, m, response)) :
    SharedMemoryServer.Attached s.clients queues env.pid m := by
  cases hr : env.request with
  | hello created =>
    simp only [prepared, hr] at h
    cases hclient : s.getClient queues env.pid with
    | none =>
      rw [hclient] at h
      cases h
    | some r =>
      rw [hclient] at h
      cases h
      exact getClient_attached hclient
  | unsubscribe topicName slothId =>
    simp only [prepared, hr] at h
    cases hclient : s.getClient queues env.pid with
    | none =>
      rw [hclient] at h
      cases h
    | some r =>
      rw [hclient] at h
      cases h
      exact getClient_attached hclient
  | subscribe topicName =>
    simp only [prepared, hr] at h
    cases hsubscribe : s.subscribe topicName env.pid chance.opens with
    | error e =>
      rw [hsubscribe] at h
      cases h
    | ok r =>
      obtain ⟨id, u⟩ := r
      simp only [hsubscribe] at h
      cases hclient : u.getClient queues env.pid with
      | none =>
        rw [hclient] at h
        cases h
      | some r =>
        rw [hclient] at h
        cases h
        rw [← SharedMemoryServer.subscribe_clients hsubscribe]
        exact getClient_attached hclient

theorem grants_other {response : Response} (hr : ∀ topicName, env.request ≠ .subscribe topicName) :
    Grants t env response ↔ Servable s env chance :=
  iff_of_true (fun topicName h => absurd h (hr topicName)) (fun topicName h => absurd h (hr topicName))

theorem sound_onUnsubscribe {topicName : TopicName} {pid id : Nat} {weakFailure : Bool} (h : Sound s) :
    Sound (s.onUnsubscribe topicName pid id weakFailure).2 := by
  unfold SharedMemoryServer.onUnsubscribe
  cases htopic : s.topics topicName with
  | none => exact h
  | some topic =>
    refine sound_update h rfl ?_
    rintro _ ⟨⟩
    obtain ⟨free, subs, hinv⟩ := h topicName topic htopic
    obtain ⟨hpool, hbag, htable⟩ := SubscriptionSlots.unsubscribe_same topic pid id weakFailure
    exact ⟨free, subs, SubscriptionSlots.inv_congr hinv hpool hbag (fun i => (htable i).1)⟩

/-- What the server does with a subscription, up to the reply. -/
theorem subscribe_cases {topicName : TopicName} {pid : Nat} (h : Sound s) (opens : Bool) :
    (s.topics topicName = none ∧ s.subscribe topicName pid opens = .ok (0, s)) ∨
    (∃ topic e t, s.topics topicName = some topic ∧ (topic.idPool.head = none ∨ opens = false) ∧
      s.subscribe topicName pid opens = .error (e, t) ∧ Sound t) ∨
    ∃ topic topic' id t, s.topics topicName = some topic ∧ topic.idPool.head ≠ none ∧ opens = true ∧
      s.subscribe topicName pid opens = .ok (id, t) ∧ Sound t ∧ t.topics topicName = some topic' ∧
      id < 256 ∧ (topic'.subscribers id).active = true ∧ (topic'.subscribers id).pid = pid := by
  cases htopic : s.topics topicName with
  | none => exact Or.inl ⟨rfl, by simp only [SharedMemoryServer.subscribe, htopic]⟩
  | some topic =>
    right
    obtain ⟨free, subs, hinv⟩ := h topicName topic htopic
    have hsound : ∀ {topic' : TopicService} {free' : List Nat} {subs' : List Subscription},
        SubscriptionSlots.Inv topic' free' subs' →
        Sound { s with topics := Function.update s.topics topicName (some topic') } :=
      fun hinv' => sound_update h rfl (by rintro _ ⟨⟩; exact ⟨_, _, hinv'⟩)
    cases free with
    | nil =>
      have hfull := SubscriptionSlots.subscribe_full hinv pid opens
      refine Or.inl ⟨topic, .cannotFindFreeId, _, rfl, Or.inl ((SubscriptionSlots.head_iff hinv).mpr rfl), ?_,
        hsound hinv⟩
      simp only [SharedMemoryServer.subscribe, htopic, hfull]
    | cons i rest =>
      have hhead : topic.idPool.head ≠ none := by
        rw [Ne, SubscriptionSlots.head_iff hinv]
        exact List.cons_ne_nil i rest
      cases opens with
      | false =>
        obtain ⟨topic', hrefused, hinv', -⟩ := SubscriptionSlots.subscribe_refused hinv pid
        refine Or.inl ⟨topic, .cannotOpenSemaphore, _, rfl, Or.inr rfl, ?_, hsound hinv'⟩
        simp only [SharedMemoryServer.subscribe, htopic, hrefused]
      | true =>
        obtain ⟨topic', x, hok, hinv', -, htable⟩ := SubscriptionSlots.subscribe_ok hinv pid
        have hlt := hinv.pool.bound i List.mem_cons_self
        rw [hinv.pool_size] at hlt
        refine Or.inr ⟨topic, topic', i, _, rfl, hhead, rfl, ?_, hsound hinv',
          Function.update_self .., hlt, ?_, ?_⟩
        · simp only [SharedMemoryServer.subscribe, htopic, hok]
        · rw [htable, Function.update_self]
          rfl
        · rw [htable, Function.update_self]
          rfl

/-- The spec of `prepared`: an exception means that the request could not be served; else the
reply is right if and only if it could. -/
theorem prepared_cases (h : Sound s) (hqueue : ∃ m, queues.names env.pid = some m) (chance : Chance) :
    (∃ t, prepared s queues env chance = .error t ∧ Sound t ∧ ¬ Servable s env chance) ∨
    ∃ t m response, prepared s queues env chance = .ok (t, m, response) ∧ Sound t ∧
      (Grants t env response ↔ Servable s env chance) := by
  cases hr : env.request with
  | hello created =>
    obtain ⟨m, t, hclient⟩ := getClient_exists s hqueue
    refine Or.inr ⟨t, m, .hello created, by simp only [prepared, hr, hclient],
      sound_congr h (getClient_topics hclient), grants_other fun topicName => ?_⟩
    simp [hr]
  | unsubscribe topicName slothId =>
    obtain ⟨m, t, hclient⟩ := getClient_exists s hqueue
    refine Or.inr ⟨_, m, _, by simp only [prepared, hr, hclient]; rfl, ?_,
      grants_other fun topicName => by simp [hr]⟩
    exact sound_onUnsubscribe (sound_congr h (getClient_topics hclient))
  | subscribe topicName =>
    have hservable : Servable s env chance ↔
        chance.opens = true ∧ ∃ topic, s.topics topicName = some topic ∧ topic.idPool.head ≠ none := by
      simp [Servable, hr]
    have hgrants : ∀ t id, Grants t env (.subscribe id) ↔ ∃ topic, t.topics topicName = some topic ∧
        id < 256 ∧ (topic.subscribers id).active = true ∧ (topic.subscribers id).pid = env.pid := by
      simp [Grants, hr]
    have hprepared : ∀ {id : Nat} {t : SharedMemoryServer},
        s.subscribe topicName env.pid chance.opens = .ok (id, t) →
        ∃ m u, prepared s queues env chance = .ok (u, m, .subscribe id) ∧ u.topics = t.topics := by
      intro id t hsubscribe
      obtain ⟨m, u, hclient⟩ := getClient_exists t hqueue
      exact ⟨m, u, by simp only [prepared, hr, hsubscribe, hclient], getClient_topics hclient⟩
    obtain ⟨hnone, hsubscribe⟩ | ⟨topic, e, t, htopic, hlacks, hsubscribe, hsound⟩ |
      ⟨topic, topic', id, t, htopic, hhead, hopens, hsubscribe, hsound, hgranted, hid⟩ :=
        @subscribe_cases s topicName env.pid h chance.opens
    · obtain ⟨m, u, hok, htopics⟩ := hprepared hsubscribe
      refine Or.inr ⟨u, m, _, hok, sound_congr h htopics, ?_⟩
      rw [hservable, hgrants, htopics, hnone]
      simp
    · refine Or.inl ⟨t, by simp only [prepared, hr, hsubscribe], hsound, ?_⟩
      rw [hservable, htopic]
      rintro ⟨hopens, topic', ⟨⟩, hhead⟩
      rcases hlacks with hnone | hrefused
      · exact hhead hnone
      · rw [hrefused] at hopens
        cases hopens
    · obtain ⟨m, u, hok, htopics⟩ := hprepared hsubscribe
      refine Or.inr ⟨u, m, _, hok, sound_congr hsound htopics, ?_⟩
      rw [hservable, hgrants, htopics]
      exact iff_of_true ⟨topic', hgranted, hid⟩ ⟨hopens, topic, htopic, hhead⟩

/-- The dispatcher takes requests. -/
def Running (w : World) : Prop := w.stopped = false ∧ w.waiting = none

theorem send_iff {m : Nat} {reply : ResponseEnvelope} :
    (queues.contents m).length < 256 ↔ ∃ d, t.send queues m reply = some d := by
  rw [SharedMemoryServer.send, MessageQueues.trySend]
  by_cases hroom : (queues.contents m).length < 256 <;> simp [hroom]

/-- A running dispatcher handles the request, and answers it if and only if it is ready to be answered. -/
theorem step_dispatch (h : Sound w.server) (hrunning : Running w) (hqueue : ∃ m, w.queues.names env.pid = some m)
    (chance : Chance) : ∃ w', step w (.dispatch env chance) = some w' ∧ Sound w'.server ∧
      (Answers env w w' ↔ Ready w (.dispatch env chance)) := by
  have hgo : ¬ ((w.stopped || w.waiting.isSome) = true) := by simp [hrunning.1, hrunning.2]
  simp only [step]
  rw [if_neg hgo, dispatchMessage_eq]
  obtain ⟨t, herror, hsound, hnot⟩ | ⟨t, m, response, hok, hsound, hgrants⟩ := prepared_cases h hqueue chance
  · rw [herror]
    refine ⟨{ w with server := t, stopped := true }, rfl, hsound, iff_of_false ?_ fun hready => hnot hready.1⟩
    rintro ⟨hstopped, -⟩
    cases hstopped
  · have hattached := prepared_attached hok
    have hroom : Ready w (.dispatch env chance) ↔
        Servable w.server env chance ∧ (w.queues.contents m).length < 256 := by
      refine and_congr_right fun _ => ⟨fun hall => hall m hattached, fun hlt o ho => ?_⟩
      rw [SharedMemoryServer.attached_unique hattached ho]
      exact hlt
    rw [hok, hroom]
    cases hsend : t.send w.queues m ⟨env.correlationId, response⟩ with
    | some d =>
      obtain ⟨rfl, -, hqueues⟩ := SharedMemoryServer.send_some hsend
      have hcontents := (MessageQueues.trySend_some hqueues).2.2
      refine ⟨{ w with server := d.server, queues := d.queues }, by simp only [hsend], hsound, ?_⟩
      rw [and_iff_left (send_iff.mpr ⟨d, hsend⟩), ← hgrants]
      constructor
      · rintro ⟨-, -, m', response', hcontents', hgranted⟩
        have hreply : response' = response := by
          have hm := congrFun (hcontents.symm.trans hcontents') m
          by_cases hmm : m = m'
          · subst hmm
            rw [Function.update_self, Function.update_self] at hm
            simpa using List.append_cancel_left hm.symm
          · rw [Function.update_self, Function.update_of_ne hmm] at hm
            simp at hm
        exact hreply ▸ hgranted
      · exact fun hgranted => ⟨hrunning.1, hrunning.2, m, response, hcontents, hgranted⟩
    | none =>
      have hfull : ¬ (w.queues.contents m).length < 256 := by
        rw [@send_iff t w.queues m ⟨env.correlationId, response⟩, hsend]
        simp
      by_cases htried : triedOnly env.request = true
      · simp only [htried, ↓reduceIte]
        refine ⟨{ w with server := t }, by simp only [hsend], hsound,
          iff_of_false ?_ fun hready => hfull hready.2⟩
        rintro ⟨-, -, m', response', hcontents, -⟩
        have hlength := congrArg List.length (congrFun hcontents m')
        rw [Function.update_self, List.length_append, List.length_singleton] at hlength
        exact Nat.succ_ne_self _ hlength.symm
      · simp only [htried, Bool.false_eq_true, ↓reduceIte]
        refine ⟨{ w with server := t, waiting := some (m, ⟨env.correlationId, response⟩) },
          by simp only [hsend], hsound, iff_of_false ?_ fun hready => hfull hready.2⟩
        rintro ⟨-, hwaiting, -⟩
        cases hwaiting

theorem sound_step {e : Event} (h : Sound w.server) (hqueue : QueueExists w e) (hstep : step w e = some w') :
    Sound w'.server := by
  cases e with
  | dispatch env chance =>
    by_cases hrunning : Running w
    · obtain ⟨v, hv, hsound, -⟩ := step_dispatch h hrunning hqueue chance
      rw [hv, Option.some.injEq] at hstep
      exact hstep ▸ hsound
    · have hbusy : (w.stopped || w.waiting.isSome) = true := by
        by_contra hnot
        exact hrunning (by simpa [Running] using hnot)
      simp only [step] at hstep
      rw [if_pos hbusy] at hstep
      cases hstep
  | resume =>
    simp only [step] at hstep
    cases hwaiting : w.waiting with
    | none =>
      rw [hwaiting] at hstep
      cases hstep
    | some reply =>
      rw [hwaiting] at hstep
      obtain ⟨queues, -, rfl⟩ := Option.map_eq_some_iff.mp hstep
      exact h
  | create pid =>
    obtain ⟨r, -, rfl⟩ := Option.map_eq_some_iff.mp hstep
    exact h
  | remove pid =>
    cases hstep
    exact h
  | receive object =>
    obtain ⟨r, -, rfl⟩ := Option.map_eq_some_iff.mp hstep
    exact h
  | createTopic topicName buffer =>
    simp only [step] at hstep
    cases htopic : w.server.topics topicName with
    | some topic =>
      rw [htopic] at hstep
      cases hstep
    | none =>
      rw [htopic] at hstep
      cases hstep
      refine sound_update h rfl ?_
      rintro t ⟨⟩
      exact ⟨_, _, SubscriptionSlots.inv_new buffer⟩
  | reopenTopic topicName running =>
    simp only [step] at hstep
    cases htopic : w.server.topics topicName with
    | none =>
      rw [htopic] at hstep
      cases hstep
    | some topic =>
      rw [htopic] at hstep
      obtain ⟨topic', hok, hrebuilding⟩ := SubscriptionSlots.rebuild_ok topic running
      simp only [hok, Except.toOption, Option.map_some] at hstep
      cases hstep
      refine sound_update h rfl ?_
      rintro t ⟨⟩
      obtain ⟨free, subs, hinv, -⟩ := hrebuilding.state
      exact ⟨free, subs, hinv⟩
  | removeTopic topicName =>
    cases hstep
    refine sound_update h rfl ?_
    rintro t ⟨⟩
  | call topicName c =>
    simp only [step] at hstep
    cases htopic : w.server.topics topicName with
    | none =>
      rw [htopic] at hstep
      cases hstep
    | some topic =>
      rw [htopic] at hstep
      obtain ⟨free, subs, hinv⟩ := h topicName topic htopic
      obtain ⟨topic', free', subs', hok, hinv', -⟩ := SubscriptionSlots.call_ok hinv c
      simp only [hok, Option.map_some] at hstep
      cases hstep
      refine sound_update h rfl ?_
      rintro t ⟨⟩
      exact ⟨free', subs', hinv'⟩

/-- Only a request that is not ready to be answered keeps the dispatcher from the next one. -/
theorem running_step {e : Event} (h : Sound w.server) (hrunning : Running w) (hqueue : QueueExists w e)
    (hready : Ready w e) (hstep : step w e = some w') : Running w' := by
  cases e with
  | dispatch env chance =>
    obtain ⟨v, hv, -, hanswers⟩ := step_dispatch h hrunning hqueue chance
    rw [hv, Option.some.injEq] at hstep
    obtain ⟨hstopped, hwaiting, -⟩ := hanswers.mpr hready
    exact hstep ▸ ⟨hstopped, hwaiting⟩
  | resume =>
    simp only [step, hrunning.2] at hstep
    cases hstep
  | create pid | receive object =>
    obtain ⟨r, -, rfl⟩ := Option.map_eq_some_iff.mp hstep
    exact hrunning
  | remove pid | removeTopic topicName =>
    cases hstep
    exact hrunning
  | createTopic topicName buffer =>
    simp only [step] at hstep
    split at hstep
    · cases hstep
    · cases hstep
      exact hrunning
  | reopenTopic topicName running | call topicName c =>
    simp only [step] at hstep
    split at hstep
    · cases hstep
    · obtain ⟨topic, -, rfl⟩ := Option.map_eq_some_iff.mp hstep
      exact hrunning

theorem sound_start : Sound start.server := by
  intro topicName topic htopic
  cases htopic

/-- Each request of the run is taken and answered. -/
def AllAnswered (es : List Event) : Prop :=
  ∀ pre env chance suf w, es = pre ++ .dispatch env chance :: suf → run step start pre = some w →
    ∃ w', step w (.dispatch env chance) = some w' ∧ Answers env w w'

/-- In every run of requests whose senders have a response queue, every request is answered
if and only if each of them finds room in the queue that the server has for its sender, and
each subscription among them names a topic with a free id and gets a semaphore. -/
theorem requests_answered_iff (es : List Event) (hqueues : Guarded step QueueExists start es) :
    AllAnswered es ↔ Guarded step Ready start es := by
  have hsound : ∀ pre suf w, es = pre ++ suf → run step start pre = some w → Sound w.server := by
    intro pre suf w hes hw
    have hsteps : ∀ w e w', Sound w.server → QueueExists w e → step w e = some w' → Sound w'.server :=
      fun _ _ _ h hg hstep => sound_step h hg hstep
    exact guarded_visits hsteps sound_start hqueues ⟨pre, suf, hes, hw⟩
  constructor
  · intro hall pre e suf w hes hw
    cases e with
    | dispatch env chance =>
      obtain ⟨w', hstep, hanswers⟩ := hall pre env chance suf w hes hw
      have hrunning : Running w := by
        by_contra hnot
        have hbusy : (w.stopped || w.waiting.isSome) = true := by
          by_contra hgo
          exact hnot (by simpa [Running] using hgo)
        simp only [step] at hstep
        rw [if_pos hbusy] at hstep
        cases hstep
      obtain ⟨v, hv, -, hiff⟩ := step_dispatch (hsound pre _ w hes hw) hrunning (hqueues pre _ suf w hes hw) chance
      rw [hv, Option.some.injEq] at hstep
      subst hstep
      exact hiff.mp hanswers
    | _ => exact trivial
  · intro hready pre env chance suf w hes hw
    have hboth : Guarded step (fun w e => QueueExists w e ∧ Ready w e) start es :=
      fun pre e suf w hes hw => ⟨hqueues pre e suf w hes hw, hready pre e suf w hes hw⟩
    have hsteps : ∀ w e w', Sound w.server ∧ Running w → QueueExists w e ∧ Ready w e → step w e = some w' →
        Sound w'.server ∧ Running w' :=
      fun _ _ _ h hg hstep => ⟨sound_step h.1 hg.1 hstep, running_step h.1 h.2 hg.1 hg.2 hstep⟩
    have hinv := guarded_visits hsteps ⟨sound_start, rfl, rfl⟩ hboth ⟨pre, _, hes, hw⟩
    obtain ⟨w', hstep, -, hiff⟩ := step_dispatch hinv.1 hinv.2 (hqueues pre _ suf w hes hw) chance
    exact ⟨w', hstep, hiff.mpr (hready pre _ suf w hes hw)⟩

/-- Process 7 connects, subscribes to a topic that exists, and leaves it again. -/
def knownTopic : List Event :=
  [.create 7, .createTopic [116] (.new 4 64 (fun _ => ⟨0, 0, 0⟩) (fun _ => 0)),
    .dispatch ⟨1, 7, .hello 5⟩ ⟨false, true⟩, .dispatch ⟨2, 7, .subscribe [116]⟩ ⟨false, true⟩,
    .receive 0, .dispatch ⟨3, 7, .unsubscribe [116] 0⟩ ⟨false, true⟩]

theorem requests_answered_known_topic : (run step start knownTopic).isSome ∧ AllAnswered knownTopic := by
  have hroom : ∀ {w : World} {env : RequestEnvelope}, w.server.clients env.pid = some 0 ∨
      w.queues.names env.pid = some 0 →
      (w.server.clients env.pid = none ∨ w.server.clients env.pid = some 0) →
        (w.queues.contents 0).length < 256 →
      ∀ m, SharedMemoryServer.Attached w.server.clients w.queues env.pid m →
        (w.queues.contents m).length < 256 := by
    intro w env hnamed hcached hlt m hm
    have hzero : m = 0 := by
      rcases hm with hm | ⟨hnone, hm⟩
      · rcases hcached with hc | hc
        · rw [hm] at hc
          cases hc
        · rw [hm, Option.some.injEq] at hc
          exact hc
      · rcases hnamed with hn | hn
        · rw [hnone] at hn
          cases hn
        · rw [hm, Option.some.injEq] at hn
          exact hn
    rwa [hzero]
  have hqueues : Guarded step QueueExists start knownTopic :=
    guarded_step trivial rfl <| guarded_step trivial rfl <| guarded_step ⟨0, rfl⟩ rfl <|
      guarded_step ⟨0, rfl⟩ rfl <|
      guarded_step trivial rfl <| guarded_step ⟨0, rfl⟩ rfl <| guarded_nil _ _ _
  have hready : Guarded step Ready start knownTopic := by
    refine guarded_step trivial rfl <| guarded_step trivial rfl <|
      guarded_step ⟨?_, hroom (Or.inr rfl) (Or.inl rfl) (by decide)⟩ rfl <|
      guarded_step ⟨?_, hroom (Or.inl rfl) (Or.inr rfl) (by decide +kernel)⟩ rfl <| guarded_step trivial rfl <|
      guarded_step ⟨?_, hroom (Or.inl rfl) (Or.inr rfl) (by decide +kernel)⟩ rfl <| guarded_nil _ _ _
    · rintro topicName ⟨⟩
    · rintro topicName ⟨⟩
      exact ⟨rfl, _, rfl, by decide +kernel⟩
    · rintro topicName ⟨⟩
  exact ⟨rfl, (requests_answered_iff knownTopic hqueues).mpr hready⟩

/-- Process 7 subscribes to a topic that does not exist and gets slot 0. -/
def unknownTopic : List Event := [.create 7, .dispatch ⟨1, 7, .subscribe [116]⟩ ⟨false, true⟩]

theorem unknown_topic_not_answered : Guarded step QueueExists start unknownTopic ∧
    (∃ w, run step start unknownTopic = some w ∧ w.queues.contents 0 = [⟨1, .subscribe 0⟩]) ∧
    ¬ AllAnswered unknownTopic := by
  refine ⟨guarded_step trivial rfl <| guarded_step ⟨0, rfl⟩ rfl <| guarded_nil _ _ _, ⟨_, rfl, rfl⟩, ?_⟩
  intro hall
  obtain ⟨w', hstep, -, -, m, response, -, hid⟩ :=
    hall [.create 7] ⟨1, 7, .subscribe [116]⟩ ⟨false, true⟩ [] _ rfl rfl
  cases hstep
  obtain ⟨id, topic, -, htopic, -⟩ := hid [116] rfl
  cases htopic

end RequestAnswers
