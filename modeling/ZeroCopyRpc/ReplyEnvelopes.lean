import ZeroCopyRpc.ClientShutdown
import ZeroCopyRpc.Envelopes
import ZeroCopyRpc.RequestAnswers

/-!
# What the clients receive

The replies are packed structures too, and a client's dispatcher receives them
into one buffer as the server does. Which handler reads the buffer depends on the
request, not on the type of the reply. Whatever bytes the server is sent, every
reply that gets into a queue fits its envelope, so the client reads back what the
server answered.
-/
namespace ReplyEnvelopes

open LittleEndian ReceiveBuffer Envelopes Transitions

section Client

/-- The reply as it is sent; no constructor fills the name of an unsubscription. -/
def bytes (stack : Bytes 256) (env : ResponseEnvelope) : List UInt8 :=
  match env.response with
  | .hello requestCreated => toBytes 8 4 ++ (toBytes 16 env.correlationId ++ toBytes 8 requestCreated)
  | .subscribe id => toBytes 8 5 ++ (toBytes 16 env.correlationId ++ toBytes 1 id)
  | .unsubscribe topicName isSuccess slothId =>
    toBytes 8 7 ++ (toBytes 16 env.correlationId ++ (toBytes 1 isSuccess.toNat ++ (toBytes 1 slothId ++
      (stack.setTopicName topicName).val)))

theorem bytes_length (stack : Bytes 256) (env : ResponseEnvelope) : (bytes stack env).length ≤ 1024 := by
  have hname : ∀ str, (stack.setTopicName str).val.length = 256 := fun str => (stack.setTopicName str).property
  unfold bytes
  split <;> simp only [List.length_append, toBytes_length, hname] <;> omega

def packet (stack : Bytes 256) (env : ResponseEnvelope) : Packet := ⟨bytes stack env, bytes_length stack env⟩

/-- The buffer, as the dispatcher and each handler of the client read it. -/
def read (memory : List UInt8) : SharedMemoryClient.Buffer Nat where
  msgType := messageType memory
  correlationId := field memory 8 16
  requestCreated := field memory 24 8
  id := field memory 24 1
  topicName := text memory 26
  isSuccess := decide (field memory 24 1 ≠ 0)
  slothId := field memory 25 1

/-- What the handler of a request takes from the buffer. -/
def handled (b : SharedMemoryClient.Buffer Nat) : SharedMemoryClient.Handler → Response
  | .onHelloReceived => .hello b.requestCreated
  | .onSubscribed => .subscribe b.id
  | .onUnsubscribed => .unsubscribe b.topicName b.isSuccess b.slothId

/-- The request that a reply answers is of this kind. -/
def handler : Response → SharedMemoryClient.Handler
  | .hello _ => .onHelloReceived
  | .subscribe _ => .onSubscribed
  | .unsubscribe _ _ _ => .onUnsubscribed

/-- The numbers fit into the fields, and the name into its field. -/
def Suits : Response → Prop
  | .hello requestCreated => Fits 8 requestCreated
  | .subscribe id => Fits 1 id
  | .unsubscribe topicName _ slothId => setTopicName topicName = topicName ∧ Fits 1 slothId

structure Sendable (env : ResponseEnvelope) : Prop where
  correlationId : Fits 16 env.correlationId
  response : Suits env.response

def type : Response → Nat
  | .hello _ => 4
  | .subscribe _ => 5
  | .unsubscribe _ _ _ => 7

/-- The buffer shows the reply to the handler. -/
structure ReadsBack (b : SharedMemoryClient.Buffer Nat) (env : ResponseEnvelope) : Prop where
  msgType : b.msgType = type env.response
  correlationId : b.correlationId = env.correlationId
  response : handled b (handler env.response) = env.response

variable {correlationId : Nat}

/-- The type and the correlation id, and where the response starts. -/
theorem read_head {type : Nat} (htype : Fits 8 type) (hid : Fits 16 correlationId) (rest : List UInt8) :
    (read (toBytes 8 type ++ (toBytes 16 correlationId ++ rest))).msgType = type ∧
    (read (toBytes 8 type ++ (toBytes 16 correlationId ++ rest))).correlationId = correlationId := by
  constructor
  · exact field_toBytes htype _
  · change field (toBytes 8 type ++ (toBytes 16 correlationId ++ rest)) (8 + 0) 16 = correlationId
    rw [field_skip (toBytes_length 8 type), field_toBytes hid]

theorem field_response (type : Nat) (rest : List UInt8) (offset n : Nat) :
    field (toBytes 8 type ++ (toBytes 16 correlationId ++ rest)) (8 + (16 + offset)) n = field rest offset n := by
  rw [field_skip (toBytes_length 8 type), field_skip (toBytes_length 16 correlationId)]

theorem text_response (type : Nat) (rest : List UInt8) (offset : Nat) :
    text (toBytes 8 type ++ (toBytes 16 correlationId ++ rest)) (8 + (16 + offset)) = text rest offset := by
  rw [text_skip (toBytes_length 8 type), text_skip (toBytes_length 16 correlationId)]

theorem readsBack {env : ResponseEnvelope} (h : Sendable env) (stack : Bytes 256) (rest : List UInt8) :
    ReadsBack (read (bytes stack env ++ rest)) env := by
  obtain ⟨hid, hsuits⟩ := h
  obtain ⟨correlationId, response⟩ := env
  cases response with
  | hello requestCreated =>
    let memory := toBytes 8 4 ++ (toBytes 16 correlationId ++ (toBytes 8 requestCreated ++ rest))
    have hbytes : bytes stack ⟨correlationId, .hello requestCreated⟩ ++ rest = memory := by
      simp only [bytes, List.append_assoc, memory]
    have hcreated : field memory (8 + (16 + 0)) 8 = requestCreated := by
      rw [field_response, field_toBytes hsuits]
    obtain ⟨htype, hcorrelation⟩ := read_head (fits_long (by decide : 4 < _)) hid
      (toBytes 8 requestCreated ++ rest)
    rw [hbytes]
    exact ⟨htype, hcorrelation, congrArg Response.hello hcreated⟩
  | subscribe id =>
    let memory := toBytes 8 5 ++ (toBytes 16 correlationId ++ (toBytes 1 id ++ rest))
    have hbytes : bytes stack ⟨correlationId, .subscribe id⟩ ++ rest = memory := by
      simp only [bytes, List.append_assoc, memory]
    have hfield : field memory (8 + (16 + 0)) 1 = id := by
      rw [field_response, field_toBytes hsuits]
    obtain ⟨htype, hcorrelation⟩ := read_head (fits_long (by decide : 5 < _)) hid (toBytes 1 id ++ rest)
    rw [hbytes]
    exact ⟨htype, hcorrelation, congrArg Response.subscribe hfield⟩
  | unsubscribe topicName isSuccess slothId =>
    obtain ⟨hname, hsloth⟩ := hsuits
    let name := (stack.setTopicName topicName).val ++ rest
    let memory :=
      toBytes 8 7 ++ (toBytes 16 correlationId ++ (toBytes 1 isSuccess.toNat ++ (toBytes 1 slothId ++ name)))
    have hbytes : bytes stack ⟨correlationId, .unsubscribe topicName isSuccess slothId⟩ ++ rest = memory := by
      simp only [bytes, List.append_assoc, memory, name]
    have hbool : Fits 1 isSuccess.toNat := by
      cases isSuccess <;> rfl
    have hsuccess : field memory (8 + (16 + 0)) 1 = isSuccess.toNat := by
      rw [field_response, field_toBytes hbool]
    have hslot : field memory (8 + (16 + (1 + 0))) 1 = slothId := by
      rw [field_response, field_skip (toBytes_length 1 _), field_toBytes hsloth]
    have htext : text memory (8 + (16 + (1 + (1 + 0)))) = topicName := by
      rw [text_response, text_skip (toBytes_length 1 _), text_skip (toBytes_length 1 _), text_setTopicName, hname]
    have hdecide : decide (field memory 24 1 ≠ 0) = isSuccess := by
      have hfield : field memory 24 1 = isSuccess.toNat := hsuccess
      rw [hfield]
      cases isSuccess <;> rfl
    obtain ⟨htype, hcorrelation⟩ := read_head (fits_long (by decide : 7 < _)) hid
      (toBytes 1 isSuccess.toNat ++ (toBytes 1 slothId ++ name))
    rw [hbytes]
    refine ⟨htype, hcorrelation, ?_⟩
    change Response.unsubscribe (text memory 26) (decide (field memory 24 1 ≠ 0)) (field memory 25 1) = _
    rw [hdecide]
    exact congrArg₂ (fun n s => Response.unsubscribe n isSuccess s) htext hslot

/-- The client reads the reply back over whatever its buffer held. -/
theorem received_readsBack {env : ResponseEnvelope} (h : Sendable env) (stack : Bytes 256) (buffer : Buffer)
    (behind : List UInt8) : ReadsBack (read ((buffer.receive (packet stack env)).bytes ++ behind)) env := by
  have hbytes : (buffer.receive (packet stack env)).bytes ++ behind =
      bytes stack env ++ (buffer.bytes.drop (bytes stack env).length ++ behind) :=
    List.append_assoc _ _ _
  rw [hbytes]
  exact readsBack h stack _

end Client

section Server

/-- Every topic's pool, bag and table fit together, and every reply in a queue can be sent. -/
structure Inv (c : Channel) : Prop where
  topics : ∀ name t, c.server.topics name = some t → ∃ free subs, SubscriptionSlots.Inv t free subs
  replies : ∀ object, ∀ env ∈ c.queues.contents object, Sendable env

variable {c : Channel} {running : Nat → Bool} {chance : Chance}

theorem fits_field (memory : List UInt8) (offset n : Nat) : Fits n (field memory offset n) := by
  have hlength : ((memory.drop offset).take n).length ≤ n := by
    rw [List.length_take]
    omega
  exact fits_le (fits_ofBytes _) hlength

/-- A queue holds what it held, and possibly one more reply that can be sent. -/
theorem replies_send {queues queues' : ResponseQueues} {m : Nat} {env : ResponseEnvelope}
    (h : ∀ object, ∀ e ∈ queues.contents object, Sendable e) (henv : Sendable env)
    (hsend : queues.trySend 256 m env = some queues') : ∀ object, ∀ e ∈ queues'.contents object, Sendable e := by
  obtain ⟨-, -, hcontents⟩ := MessageQueues.trySend_some hsend
  intro object e he
  rw [hcontents] at he
  by_cases hobject : object = m
  · rw [hobject, Function.update_self, List.mem_append, List.mem_singleton] at he
    rcases he with he | he
    · exact h m e he
    · exact he ▸ henv
  · rw [Function.update_of_ne hobject] at he
    exact h object e he

/-- What is replied to a command, and the topics that handling it leaves. -/
inductive Handled (s : SharedMemoryServer) (pid : Nat) (chance : Chance) :
    Command → Response → (TopicName → Option TopicService) → Prop where
  | hello (created : Nat) : Handled s pid chance (.hello created) (.hello created) s.topics
  | subscribe {topicName : TopicName} {id : Nat} {t : SharedMemoryServer}
    (granted : s.subscribe topicName pid chance.opens = .ok (id, t)) :
    Handled s pid chance (.subscribe topicName) (.subscribe id) t.topics
  | unsubscribe (topicName : TopicName) (slothId : Nat) : Handled s pid chance (.unsubscribe topicName slothId)
    (.unsubscribe (setTopicName topicName) (s.onUnsubscribe topicName pid slothId chance.weakFailure).1 slothId)
    (s.onUnsubscribe topicName pid slothId chance.weakFailure).2.topics

theorem onUnsubscribe_congr {s t : SharedMemoryServer} (h : t.topics = s.topics) (topicName : TopicName)
    (pid id : Nat) (weakFailure : Bool) :
    (t.onUnsubscribe topicName pid id weakFailure).1 = (s.onUnsubscribe topicName pid id weakFailure).1 ∧
    (t.onUnsubscribe topicName pid id weakFailure).2.topics =
      (s.onUnsubscribe topicName pid id weakFailure).2.topics := by
  simp only [SharedMemoryServer.onUnsubscribe, h]
  cases s.topics topicName with
  | none => exact ⟨rfl, h⟩
  | some topic => exact ⟨rfl, rfl⟩

theorem prepared_handled {s t : SharedMemoryServer} {queues : ResponseQueues} {env : RequestEnvelope} {m : Nat}
    {response : Response} (h : RequestAnswers.prepared s queues env chance = .ok (t, m, response)) :
    Handled s env.pid chance env.request response t.topics := by
  cases hr : env.request with
  | hello created =>
    simp only [RequestAnswers.prepared, hr] at h
    cases hclient : s.getClient queues env.pid with
    | none =>
      rw [hclient] at h
      cases h
    | some r =>
      rw [hclient] at h
      cases h
      rw [RequestAnswers.getClient_topics hclient]
      exact .hello created
  | subscribe topicName =>
    simp only [RequestAnswers.prepared, hr] at h
    cases hsubscribe : s.subscribe topicName env.pid chance.opens with
    | error e =>
      rw [hsubscribe] at h
      cases h
    | ok r =>
      obtain ⟨id, u⟩ := r
      simp only [hsubscribe] at h
      cases hclient : u.getClient queues env.pid with
      | none =>
        rw [hclient] at h
        cases h
      | some r =>
        rw [hclient] at h
        cases h
        rw [RequestAnswers.getClient_topics hclient]
        exact .subscribe hsubscribe
  | unsubscribe topicName slothId =>
    simp only [RequestAnswers.prepared, hr] at h
    cases hclient : s.getClient queues env.pid with
    | none =>
      rw [hclient] at h
      cases h
    | some r =>
      rw [hclient] at h
      cases h
      obtain ⟨hsuccess, htopics⟩ := onUnsubscribe_congr (RequestAnswers.getClient_topics hclient) topicName env.pid
        slothId chance.weakFailure
      rw [hsuccess, htopics]
      exact .unsubscribe topicName slothId

/-- The server handles a request by one reply to its sender, or it drops the reply to a
subscription that the queue has no room for. -/
theorem dispatchMessage_handled {s : SharedMemoryServer} {queues : ResponseQueues} {env : RequestEnvelope}
    {d : Dispatched} (h : s.dispatchMessage queues env chance = some d) :
    ∃ m response, Handled s env.pid chance env.request response d.server.topics ∧
      SharedMemoryServer.Attached s.clients queues env.pid m ∧
      (queues.trySend 256 m ⟨env.correlationId, response⟩ = some d.queues ∨
        (∃ topicName, env.request = .subscribe topicName) ∧ d.queues = queues ∧
        256 ≤ (queues.contents m).length) := by
  rw [RequestAnswers.dispatchMessage_eq] at h
  cases hprepared : RequestAnswers.prepared s queues env chance with
  | error t =>
    rw [hprepared] at h
    cases h
  | ok r =>
    obtain ⟨t, m, response⟩ := r
    have hhandled := prepared_handled hprepared
    have hattached := RequestAnswers.prepared_attached hprepared
    simp only [hprepared] at h
    cases hsend : t.send queues m ⟨env.correlationId, response⟩ with
    | some d' =>
      rw [hsend] at h
      cases h
      obtain ⟨hserver, -, hqueues⟩ := SharedMemoryServer.send_some hsend
      exact ⟨m, response, hserver ▸ hhandled, hattached, Or.inl hqueues⟩
    | none =>
      simp only [hsend] at h
      split at h
      · rename_i htried
        cases h
        have hfull := MessageQueues.trySend_none (Option.map_eq_none_iff.mp hsend)
        exact ⟨m, response, hhandled, hattached, Or.inr ⟨RequestAnswers.triedOnly_iff.mp htried, rfl, hfull⟩⟩
      · cases h

/-- The id of a subscription is a byte. -/
theorem inv_subscribe {topicName : TopicName} {pid id : Nat} {opens : Bool} {s : SharedMemoryServer} (h : Inv c)
    (hsubscribe : c.server.subscribe topicName pid opens = .ok (id, s)) :
    Fits 1 id ∧ RequestAnswers.Sound s := by
  obtain ⟨-, hok⟩ | ⟨-, e, t, -, -, herror, -⟩ | ⟨-, -, i, t, -, -, -, hok, hsound, -, hlt, -⟩ :=
    @RequestAnswers.subscribe_cases c.server topicName pid h.topics opens
  · rw [hok] at hsubscribe
    cases hsubscribe
    exact ⟨fits_byte (by decide), h.topics⟩
  · rw [herror] at hsubscribe
    cases hsubscribe
  · rw [hok] at hsubscribe
    cases hsubscribe
    exact ⟨fits_byte hlt, hsound⟩

/-- What the server answers can be sent when what it was asked can. -/
theorem inv_answer {env : RequestEnvelope} {e : Effect} (h : Inv c) (hanswer : c.answer env chance = some e)
    (hid : Fits 16 env.correlationId) (hcreated : ∀ created, env.request = .hello created → Fits 8 created)
    (hsloth : ∀ topicName slothId, env.request = .unsubscribe topicName slothId → Fits 1 slothId) :
    Inv e.channel := by
  obtain ⟨d, hd, rfl⟩ := Option.map_eq_some_iff.mp hanswer
  obtain ⟨m, response, hhandled, -, hqueues⟩ := dispatchMessage_handled hd
  have hnext : Sendable ⟨env.correlationId, response⟩ ∧
      ∀ name t, d.server.topics name = some t → ∃ free subs, SubscriptionSlots.Inv t free subs := by
    generalize hr : env.request = request at hhandled
    generalize d.server.topics = topics at hhandled
    cases hhandled with
    | hello created => exact ⟨⟨hid, hcreated created hr⟩, h.topics⟩
    | subscribe granted =>
      obtain ⟨hbyte, htopics⟩ := inv_subscribe h granted
      exact ⟨⟨hid, hbyte⟩, htopics⟩
    | unsubscribe topicName slothId =>
      exact ⟨⟨hid, setTopicName_idem topicName, hsloth topicName slothId hr⟩,
        RequestAnswers.sound_onUnsubscribe h.topics⟩
  refine ⟨hnext.2, ?_⟩
  rcases hqueues with hsend | ⟨-, hsame, -⟩
  · exact replies_send h.replies hnext.1 hsend
  · change ∀ object, ∀ e ∈ d.queues.contents object, Sendable e
    exact hsame ▸ h.replies

/-- A service is constructed well, over a new segment and over one that was left. -/
theorem inv_construct (r : Remains) {messageCount bufferSize : Nat} {topic : TopicService}
    (h : r.construct messageCount bufferSize running = .ok topic) :
    ∃ free subs, SubscriptionSlots.Inv topic free subs := by
  cases r with
  | left t =>
    obtain ⟨t', hok, hrebuilding⟩ := SubscriptionSlots.rebuild_ok t running
    rw [Remains.construct, hok] at h
    cases h
    obtain ⟨free, subs, hinv, -⟩ := hrebuilding.state
    exact ⟨free, subs, hinv⟩
  | object shm os =>
    let t := TopicClearing.service (TopicSegment.new shm messageCount bufferSize) os 0
    have hstart : SubscriptionSlots.Rebuilding t t 0 := by
      refine ⟨⟨List.range 256, [], ?_, fun i _ hi => List.mem_range.mpr hi⟩, fun i => ⟨rfl, rfl⟩⟩
      exact ⟨(IDPool.new_free 256).1, (IDPool.new_free 256).2,
        ConcurrentBag.new_holds 256 Subscription.new, rfl, List.nodup_nil, by simp⟩
    simp only [Remains.construct, TopicClearing.construct] at h
    by_cases hsize : shm.size = 0
    · rw [if_pos hsize] at h
      cases h
      obtain ⟨free, subs, hinv, -⟩ := hstart.state
      exact ⟨free, subs, hinv⟩
    · obtain ⟨t', hok, hrebuilding⟩ := SubscriptionSlots.rebuildEntries_ok hstart (n := 256) rfl running
      rw [if_neg hsize, List.range_eq_range', hok] at h
      cases h
      obtain ⟨free, subs, hinv, -⟩ := hrebuilding.state
      exact ⟨free, subs, hinv⟩

theorem inv_onCreateTopic {topicName : TopicName} {messageCount bufferSize : Nat}
    {r : TopicName × Channel} (h : Inv c)
    (hcreate : c.onCreateTopic topicName messageCount bufferSize running = some r) : Inv r.2 := by
  unfold Channel.onCreateTopic at hcreate
  cases htopic : c.server.topics topicName with
  | some _ =>
    rw [htopic] at hcreate
    cases hcreate
    exact h
  | none =>
    simp only [htopic] at hcreate
    by_cases hcount : messageCount = 0
    · rw [if_pos hcount] at hcreate
      cases hcreate
    · rw [if_neg hcount] at hcreate
      cases hok : (c.remains topicName).construct messageCount bufferSize running with
      | error _ =>
        rw [hok] at hcreate
        cases hcreate
      | ok topic =>
        rw [hok] at hcreate
        cases hcreate
        refine ⟨RequestAnswers.sound_update h.topics rfl ?_, h.replies⟩
        rintro _ ⟨⟩
        exact inv_construct _ hok

theorem inv_removeSubscription (h : Inv c) (topicName : TopicName) : Inv (c.removeSubscription topicName).2 := by
  unfold Channel.removeSubscription
  cases c.server.topics topicName with
  | none => exact h
  | some topic =>
    refine ⟨?_, h.replies⟩
    intro name t ht
    by_cases hname : name = topicName
    · rw [hname] at ht
      simp only [Function.update_self] at ht
      cases ht
    · simp only [Function.update_of_ne hname] at ht
      exact h.topics name t ht

/-- An iteration keeps the invariant, whatever bytes the switch looks at. -/
theorem inv_dispatch {memory : List UInt8} {e : Effect} (h : Inv c)
    (hdispatch : c.dispatch memory running chance = some e) : Inv e.channel := by
  have hid : Fits 16 (field memory 8 16) := fits_field memory 8 16
  unfold Channel.dispatch at hdispatch
  split at hdispatch
  · exact inv_answer h hdispatch hid (by rintro created ⟨⟩) (by rintro topicName slothId ⟨⟩)
  · obtain ⟨r, hr, rfl⟩ := Option.map_eq_some_iff.mp hdispatch
    exact inv_onCreateTopic h hr
  · refine inv_answer h hdispatch hid ?_ (by rintro topicName slothId ⟨⟩)
    rintro created ⟨⟩
    exact fits_field memory 28 8
  · refine inv_answer h hdispatch hid (by rintro created ⟨⟩) ?_
    rintro topicName slothId ⟨⟩
    exact fits_field memory 28 1
  · cases hdispatch
    exact inv_removeSubscription h _
  · cases hdispatch
    exact h

/-- The dispatcher receives a message; a client makes, removes or reads its queue. -/
inductive Event where
  | message (r : Receipt)
  | createQueue (pid : Nat)
  | removeQueue (pid : Nat)
  | receive (object : Nat)

def setQueues (d : Dispatcher) (queues : ResponseQueues) : Dispatcher :=
  { d with channel := { d.channel with queues := queues } }

def step : Machine Dispatcher Event
  | d, .message r => dispatchMessages d r
  | d, .createQueue pid => (d.channel.queues.createOnly pid).map fun r => setQueues d r.2
  | d, .removeQueue pid => some (setQueues d (d.channel.queues.remove pid))
  | d, .receive object => (d.channel.queues.receive object).map fun r => setQueues d r.2

/-- A server without topics, over whatever is left under their names and in its buffer. -/
def start (remains : TopicName → Remains) (buffer : Buffer) : Dispatcher where
  channel := ⟨.new (fun _ => none), .fresh, remains⟩
  buffer := buffer
  canceled := false
  promises := []

theorem inv_step {d d' : Dispatcher} {e : Event} (h : Inv d.channel)
    (hstep : step d e = some d') : Inv d'.channel := by
  cases e with
  | message r =>
    simp only [step, dispatchMessages] at hstep
    by_cases hend : d.canceled = true
    · rw [if_pos hend] at hstep
      cases hstep
    · rw [if_neg hend] at hstep
      obtain ⟨e, he, rfl⟩ := Option.map_eq_some_iff.mp hstep
      exact inv_dispatch h he
  | createQueue pid =>
    obtain ⟨⟨object, queues⟩, hr, rfl⟩ := Option.map_eq_some_iff.mp hstep
    obtain ⟨-, -, -, hcontents, -⟩ := MessageQueues.createOnly_some hr
    refine ⟨h.topics, ?_⟩
    intro object env henv
    change env ∈ queues.contents object at henv
    rw [hcontents] at henv
    by_cases hobject : object = d.channel.queues.created
    · rw [hobject, Function.update_self] at henv
      cases henv
    · rw [Function.update_of_ne hobject] at henv
      exact h.replies object env henv
  | removeQueue pid =>
    cases hstep
    exact ⟨h.topics, h.replies⟩
  | receive object =>
    obtain ⟨⟨reply, queues⟩, hr, rfl⟩ := Option.map_eq_some_iff.mp hstep
    obtain ⟨rest, hheld, -, -, hcontents⟩ := MessageQueues.receive_some hr
    refine ⟨h.topics, ?_⟩
    intro o env henv
    change env ∈ queues.contents o at henv
    rw [hcontents] at henv
    by_cases hobject : o = object
    · rw [hobject, Function.update_self] at henv
      apply h.replies object env
      rw [hheld]
      exact List.mem_cons_of_mem reply henv
    · rw [Function.update_of_ne hobject] at henv
      exact h.replies o env henv

theorem inv_start (remains : TopicName → Remains) (buffer : Buffer) : Inv (start remains buffer).channel := by
  constructor
  · intro name t ht
    cases ht
  · intro object env henv
    cases henv

/-- Whatever messages the server has received and handled, of any bytes: each reply that waits
in a queue is one its client reads back, over whatever the client's buffer holds. -/
theorem replies_read (remains : TopicName → Remains) (initial : Buffer) (events : List Event) (d : Dispatcher)
    (h : run step (start remains initial) events = some d) (object : Nat) (env : ResponseEnvelope)
    (henv : env ∈ d.channel.queues.contents object) (stack : Bytes 256) (buffer : Buffer) (behind : List UInt8) :
    ReadsBack (read ((buffer.receive (packet stack env)).bytes ++ behind)) env := by
  have hinv : Inv d.channel :=
    run_invariant (I := fun d => Inv d.channel) (fun d e d' h hstep => inv_step h hstep) (inv_start remains initial) h
  exact received_readsBack (hinv.replies object env henv) stack buffer behind

/-- Process 7 with all bytes of its id and its stack zero. -/
def process7 : Caller := ⟨.zero 16, 7, 0, .zero 256⟩

def connect7 : Sent := ⟨process7, .connect 5, [], fun _ => true, ⟨false, true⟩⟩

def nothingLeft : TopicName → Remains := fun _ => .object ⟨0, fun _ => 0⟩ .fresh

def emptyBuffer : Buffer := ⟨List.replicate 1024 0, List.length_replicate⟩

/-- Process 7 makes its queue and connects. -/
theorem replies_read_connect : ∃ d, run step (start nothingLeft emptyBuffer)
      [.createQueue 7, .message connect7.receipt] = some d ∧
    ReadsBack (read ((emptyBuffer.receive (packet (.zero 256) ⟨0, .hello 5⟩)).bytes ++ [])) ⟨0, .hello 5⟩ := by
  have hrun : (run step (start nothingLeft emptyBuffer) [.createQueue 7, .message connect7.receipt]).map
      (fun d => d.channel.queues.contents 0) = some [⟨0, .hello 5⟩] := by
    decide +kernel
  obtain ⟨d, hd, hcontents⟩ := Option.map_eq_some_iff.mp hrun
  refine ⟨d, hd, ?_⟩
  apply replies_read nothingLeft emptyBuffer _ d hd 0 ⟨0, .hello 5⟩
  rw [hcontents]
  exact List.mem_singleton_self _

end Server

section Calls

/-- The request that a call waits for an answer to, as the server sees it. -/
def command : Call → Option Command
  | .connect created => some (.hello created.toNat)
  | .subscribe topicName => some (.subscribe (setTopicName topicName))
  | .invokeUnsubscribe topicName sloth => some (.unsubscribe (setTopicName topicName) sloth.toNat)
  | _ => none

/-- The reply of the server has this shape. -/
def Replies : Command → Response → Prop
  | .hello created, r => r = .hello created
  | .subscribe _, r => ∃ id, r = .subscribe id
  | .unsubscribe topicName slothId, r => ∃ isSuccess, r = .unsubscribe (setTopicName topicName) isSuccess slothId

theorem replyTo_read {b : SharedMemoryClient.Buffer Nat} {env : ResponseEnvelope} {c : Command} (h : ReadsBack b env)
    (hreplies : Replies c env.response) : b = ClientShutdown.replyTo env.correlationId b c := by
  obtain ⟨hid, response⟩ := env
  obtain ⟨htype, hcorrelation, hresponse⟩ := h
  obtain ⟨msgType, correlationId, requestCreated, id, topicName, isSuccess, slothId⟩ := b
  cases htype
  cases hcorrelation
  cases c with
  | hello created =>
    obtain rfl : response = .hello created := hreplies
    obtain rfl : requestCreated = created := Response.hello.inj hresponse
    rfl
  | subscribe name =>
    obtain ⟨id, rfl⟩ := hreplies
    rfl
  | unsubscribe name sloth =>
    obtain ⟨success, rfl⟩ := hreplies
    obtain ⟨hname, -, hsloth⟩ := Response.unsubscribe.inj hresponse
    obtain rfl : topicName = setTopicName name := hname
    obtain rfl : slothId = sloth := hsloth
    rfl

theorem replies_handled {s : SharedMemoryServer} {pid : Nat} {chance : Chance} {c : Command} {response : Response}
    {topics : TopicName → Option TopicService} (h : Handled s pid chance c response topics) :
    Replies c response := by
  cases h with
  | hello created => rfl
  | subscribe granted => exact ⟨_, rfl⟩
  | unsubscribe topicName slothId => exact ⟨_, rfl⟩

/-- What the caller's dispatcher will find: one new reply in the queue that the server has for
the caller's process, which reads as the reply to the call over any buffer. -/
def Answered (d d' : Dispatcher) (caller : Caller) (c : Command) : Prop :=
  ∃ m env, SharedMemoryServer.Attached d.channel.server.clients d.channel.queues caller.pid.toNat m ∧
    d'.channel.queues.contents = Function.update d.channel.queues.contents m (d.channel.queues.contents m ++ [env]) ∧
    ∀ (stack : Bytes 256) (buffer : Buffer) (behind : List UInt8),
      let b := read ((buffer.receive (packet stack env)).bytes ++ behind)
      b = ClientShutdown.replyTo (ofBytes caller.correlationId.val) b c

/-- The reply to a subscription was dropped, because the caller's queue was full. -/
def Dropped (d d' : Dispatcher) (caller : Caller) (c : Command) : Prop :=
  (∃ name, c = .subscribe name) ∧ d'.channel.queues = d.channel.queues ∧
  ∃ m, SharedMemoryServer.Attached d.channel.server.clients d.channel.queues caller.pid.toNat m ∧
    256 ≤ (d.channel.queues.contents m).length

/-- Where the call is answered, handling it is answering the request that it stands for. -/
theorem handle_answer {caller : Caller} {chan : Channel} {running : Nat → Bool} {chance : Chance} {call : Call}
    {c : Command} (h : command call = some c) : call.handle caller chan running chance =
      chan.answer ⟨ofBytes caller.correlationId.val, caller.pid.toNat, c⟩ chance := by
  cases call with
  | connect created =>
    cases h
    rfl
  | subscribe topicName =>
    cases h
    rfl
  | invokeUnsubscribe topicName sloth =>
    cases h
    rfl
  | _ => cases h

/-- An iteration that receives a call handles it. -/
theorem handled_call {d d' : Dispatcher} {s : Sent} (h : dispatchMessages d s.receipt = some d') :
    ∃ e, s.call.handle s.caller d.channel s.running s.chance = some e ∧ d'.channel = e.channel := by
  have hcall := dispatchMessages_call d s
  rw [h, Option.map_some, serveCalls] at hcall
  by_cases hend : d.seen.2.1 = true
  · rw [if_pos hend] at hcall
    cases hcall
  · rw [if_neg hend] at hcall
    obtain ⟨e, he, hseen⟩ := Option.map_eq_some_iff.mp hcall.symm
    exact ⟨e, he, (congrArg Prod.fst hseen).symm⟩

/-- In every state that the server can reach, a handled call of a client is answered by a reply
that the client reads as such, unless the call subscribes and finds the client's queue full. -/
theorem call_answered (remains : TopicName → Remains) (initial : Buffer) (events : List Event) (d d' : Dispatcher)
    (s : Sent) (c : Command) (h : run step (start remains initial) events = some d)
    (hcommand : command s.call = some c)
    (hstep : step d (.message s.receipt) = some d') : Dropped d d' s.caller c ∨ Answered d d' s.caller c := by
  have hinv : Inv d.channel :=
    run_invariant (I := fun d => Inv d.channel) (fun d e d' h hstep => inv_step h hstep) (inv_start remains initial) h
  have hinv' : Inv d'.channel := inv_step hinv hstep
  obtain ⟨e, he, hchannel⟩ := handled_call hstep
  rw [handle_answer hcommand] at he
  obtain ⟨dispatched, hd, rfl⟩ := Option.map_eq_some_iff.mp he
  have hqueues : d'.channel.queues = dispatched.queues := congrArg Channel.queues hchannel
  obtain ⟨m, r, hhandled, hattached, hsend | ⟨hname, hsame, hfull⟩⟩ := dispatchMessage_handled hd
  · have hsent := (MessageQueues.trySend_some hsend).2.2
    have hreplies : Replies c r := replies_handled hhandled
    refine Or.inr ⟨m, _, hattached, hqueues ▸ hsent, ?_⟩
    intro stack buffer behind b
    have hmem : (⟨ofBytes s.caller.correlationId.val, r⟩ : ResponseEnvelope) ∈ d'.channel.queues.contents m := by
      rw [hqueues, hsent, Function.update_self]
      exact List.mem_append_right _ List.mem_cons_self
    exact replyTo_read (received_readsBack (hinv'.replies m _ hmem) stack buffer behind) hreplies
  · exact Or.inl ⟨hname, hqueues.trans hsame, m, hattached, hfull⟩

/-- Process 7 makes its queue; its call to connect is answered. -/
theorem call_answered_connect : ∃ d d', run step (start nothingLeft emptyBuffer) [.createQueue 7] = some d ∧
    (Dropped d d' process7 (.hello 5) ∨ Answered d d' process7 (.hello 5)) := by
  have hrun : ((run step (start nothingLeft emptyBuffer) [.createQueue 7]).bind
      fun d => (step d (.message connect7.receipt)).map fun _ => true) = some true := by
    decide +kernel
  obtain ⟨d, hd, hnext⟩ := Option.bind_eq_some_iff.mp hrun
  obtain ⟨d', hd', -⟩ := Option.map_eq_some_iff.mp hnext
  exact ⟨d, d', hd, call_answered nothingLeft emptyBuffer [.createQueue 7] d d' connect7 (.hello 5) hd rfl hd'⟩

end Calls

end ReplyEnvelopes
