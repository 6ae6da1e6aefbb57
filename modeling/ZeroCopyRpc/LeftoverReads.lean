import ZeroCopyRpc.ReceiveBuffer
import ZeroCopyRpc.SubscriptionSlots

/-!
# When a leftover is read

For each message that is not complete there are a server and two leftovers that
give two effects. The server is new and has one client and at most one topic; the
leftovers differ in one byte, where the missing field or name goes on, or give
the message a type and no type.
-/
namespace ReceiveBuffer

open LittleEndian

variable {m : Packet} {c : Channel} {running : Nat → Bool} {chance : Chance}

/-- A topic that a process has subscribed to `n` times, and nobody else. -/
def seated (pid : Nat) : Nat → TopicService
  | 0 => createTopic (fun _ => ⟨0, 0, 0⟩) fun _ => 0
  | n + 1 => match (seated pid n).subscribe pid true with
    | .error _ => seated pid n
    | .ok (_, topic) => topic

/-- A new server beside one client, whose queue is open and empty. -/
def probe (pid : Nat) (topics : TopicName → Option TopicService) : Channel where
  server := .new topics
  queues := ⟨Function.update (fun _ => none) pid (some 0), fun _ => [], 1⟩
  remains := fun _ => .object ⟨0, fun _ => 0⟩ .fresh

def noTopic : TopicName → Option TopicService := fun _ => none

def oneTopic (topicName : TopicName) (topic : TopicService) : TopicName → Option TopicService :=
  Function.update noTopic topicName (some topic)

/-- The client's queue when the reply is there. -/
def answered (pid : Nat) (env : ResponseEnvelope) : ResponseQueues :=
  ⟨Function.update (fun _ => none) pid (some 0), Function.update (fun _ => []) 0 [env], 1⟩

/-- What an effect shows of the queues. -/
def heard (e : Option Effect) : Option ResponseQueues := e.map fun e => e.channel.queues

variable {topics : TopicName → Option TopicService} {correlationId pid : Nat} {topicName : TopicName}

theorem free_cons {n : Nat} (h : n < 256) :
    List.range' n (256 - n) = n :: List.range' (n + 1) (256 - (n + 1)) := by
  have hcount : 256 - n = 256 - (n + 1) + 1 := by omega
  rw [hcount, List.range'_succ]

theorem seated_inv (pid : Nat) {n : Nat} (h : n ≤ 256) :
    (∃ subs, SubscriptionSlots.Inv (seated pid n) (List.range' n (256 - n)) subs) ∧
    ∀ i < n, ((seated pid n).subscribers i).pid = pid ∧ ((seated pid n).subscribers i).pendingRemove = false := by
  induction n with
  | zero =>
    refine ⟨⟨[], ?_⟩, fun i hi => absurd hi (Nat.not_lt_zero i)⟩
    have hnew := SubscriptionSlots.inv_new
      (.new defaultMessageCount defaultBufferSize (fun _ => ⟨0, 0, 0⟩) fun _ => 0)
    rw [List.range_eq_range'] at hnew
    exact hnew
  | succ n ih =>
    obtain ⟨⟨subs, hinv⟩, hslots⟩ := ih (by omega)
    rw [free_cons (by omega)] at hinv
    obtain ⟨topic, sub, hsub, hinv', -, htable⟩ := SubscriptionSlots.subscribe_ok hinv pid
    have hseated : seated pid (n + 1) = topic := by simp only [seated, hsub]
    rw [hseated, htable]
    refine ⟨⟨_, hinv'⟩, fun i hi => ?_⟩
    by_cases hin : i = n
    · rw [hin, Function.update_self]
      exact ⟨rfl, rfl⟩
    · rw [Function.update_of_ne hin]
      exact hslots i (by omega)

/-- The next subscriber gets the slot after those that are taken. -/
theorem seated_subscribe (owner : Nat) {n : Nat} (h : n < 256) (pid : Nat) :
    ∃ topic, (seated owner n).subscribe pid true = .ok (n, topic) := by
  obtain ⟨⟨subs, hinv⟩, -⟩ := seated_inv owner (Nat.le_of_lt h)
  rw [free_cons h] at hinv
  obtain ⟨topic, -, hsub, -⟩ := SubscriptionSlots.subscribe_ok hinv pid
  exact ⟨topic, hsub⟩

theorem answered_injective {env env' : ResponseEnvelope} (h : answered pid env = answered pid env') : env = env' := by
  have hcontents : (answered pid env).contents 0 = (answered pid env').contents 0 := by rw [h]
  exact List.head_eq_of_cons_eq hcontents

theorem probe_names (pid : Nat) (topics : TopicName → Option TopicService) :
    (probe pid topics).queues.names = Function.update (fun _ => none) pid (some 0) := rfl

theorem probe_getClient (pid : Nat) (s : SharedMemoryServer) (hclients : s.clients = fun _ => none) :
    s.getClient (probe pid topics).queues pid =
      some (0, { s with clients := Function.update s.clients pid (some 0) }) := by
  have hopen : (probe pid topics).queues.openOnly pid = some 0 := by
    rw [MessageQueues.openOnly, probe_names, Function.update_self]
  simp only [SharedMemoryServer.getClient, hclients, hopen]

/-- Only the client that is there is answered. -/
theorem answer_pid {env : RequestEnvelope} {queues : ResponseQueues}
    (h : heard ((probe pid topics).answer env chance) = some queues) : env.pid = pid := by
  rw [heard, Option.map_eq_some_iff] at h
  obtain ⟨e, he, -⟩ := h
  rw [Channel.answer, Option.map_eq_some_iff] at he
  obtain ⟨d, hd, -⟩ := he
  obtain ⟨object, hattached, -⟩ := SharedMemoryServer.dispatchMessage_some hd
  by_contra hne
  rcases hattached with hcached | ⟨-, hopen⟩
  · cases hcached
  · have hnone : (probe pid topics).queues.names env.pid = none := by
      rw [probe_names, Function.update_of_ne hne]
    rw [hnone] at hopen
    cases hopen

theorem answer_hello (created : Nat) :
    heard ((probe pid topics).answer ⟨correlationId, pid, .hello created⟩ chance) =
    some (answered pid ⟨correlationId, .hello created⟩) := by
  simp only [Channel.answer, SharedMemoryServer.dispatchMessage, SharedMemoryServer.onHelloResponse]
  rw [probe_getClient pid _ rfl]
  rfl

theorem answer_subscribe {id : Nat} {s : SharedMemoryServer}
    (h : (probe pid topics).server.subscribe topicName pid chance.opens = .ok (id, s)) :
    heard ((probe pid topics).answer ⟨correlationId, pid, .subscribe topicName⟩ chance) =
      some (answered pid ⟨correlationId, .subscribe id⟩) := by
  simp only [Channel.answer, SharedMemoryServer.dispatchMessage, h]
  rw [probe_getClient pid _ (SharedMemoryServer.subscribe_clients h)]
  rfl

theorem answer_unsubscribe (slothId : Nat) :
    heard ((probe pid topics).answer ⟨correlationId, pid, .unsubscribe topicName slothId⟩ chance) =
      some (answered pid ⟨correlationId, .unsubscribe (setTopicName topicName)
        ((probe pid topics).server.onUnsubscribe topicName pid slothId chance.weakFailure).1 slothId⟩) := by
  simp only [Channel.answer, SharedMemoryServer.dispatchMessage]
  rw [probe_getClient pid _ rfl]
  simp only [SharedMemoryServer.onUnsubscribe]
  cases htopic : topics topicName with
  | none =>
    simp only [probe, SharedMemoryServer.new, htopic]
    rfl
  | some topic =>
    simp only [probe, SharedMemoryServer.new, htopic]
    rfl

theorem noTopic_eq (topicName : TopicName) : noTopic topicName = none := rfl

theorem oneTopic_self (topicName : TopicName) (topic : TopicService) :
    oneTopic topicName topic topicName = some topic := by
  rw [oneTopic, Function.update_self]

theorem oneTopic_other {other : TopicName} (topic : TopicService) (h : other ≠ topicName) :
    oneTopic topicName topic other = none := by
  rw [oneTopic, Function.update_of_ne h, noTopic]

theorem subscribe_found (pid : Nat) {owner n : Nat} (h : topics topicName = some (seated owner n)) (hn : n < 256) :
    ∃ s, (probe pid topics).server.subscribe topicName pid true = .ok (n, s) := by
  obtain ⟨topic, hsub⟩ := seated_subscribe owner hn pid
  simp only [SharedMemoryServer.subscribe, probe, SharedMemoryServer.new, h, hsub]
  exact ⟨_, rfl⟩

theorem subscribe_missing (pid : Nat) (opens : Bool) (h : topics topicName = none) :
    ∃ s, (probe pid topics).server.subscribe topicName pid opens = .ok (0, s) := by
  simp only [SharedMemoryServer.subscribe, probe, SharedMemoryServer.new, h]
  exact ⟨_, rfl⟩

theorem onUnsubscribe_found {n id : Nat} (h : topics topicName = some (seated pid n)) (hid : id < n) (hn : n ≤ 256) :
    ((probe pid topics).server.onUnsubscribe topicName pid id false).1 = true := by
  obtain ⟨hpid, hpending⟩ := (seated_inv pid hn).2 id hid
  simp only [SharedMemoryServer.onUnsubscribe, probe, SharedMemoryServer.new, h, TopicService.unsubscribe]
  rw [if_pos hpid, if_pos ⟨hpending, trivial⟩]

theorem onUnsubscribe_missing {id : Nat} (h : topics topicName = none) :
    ((probe pid topics).server.onUnsubscribe topicName pid id chance.weakFailure).1 = false := by
  simp only [SharedMemoryServer.onUnsubscribe, probe, SharedMemoryServer.new, h]

theorem removeSubscription_fst (c : Channel) (topicName : TopicName) :
    (c.removeSubscription topicName).1 = (c.server.topics topicName).isSome := by
  unfold Channel.removeSubscription
  split <;> rename_i h <;> rw [h] <;> rfl

/-- The promise gets the topic of the name that was asked for. -/
theorem onCreateTopic_fst {c' : Channel} {messageCount bufferSize : Nat} {name : TopicName}
    (h : c.onCreateTopic topicName messageCount bufferSize running = some (name, c')) : name = topicName := by
  unfold Channel.onCreateTopic at h
  split at h
  · cases h
    rfl
  · split at h
    · cases h
    · split at h
      · cases h
      · cases h
        rfl

theorem onCreateTopic_found (pid : Nat) (topicName : TopicName) (topic : TopicService)
    (messageCount bufferSize : Nat) :
    (probe pid (oneTopic topicName topic)).onCreateTopic topicName messageCount bufferSize running =
      some (topicName, probe pid (oneTopic topicName topic)) := by
  have htopic := oneTopic_self topicName topic
  simp only [Channel.onCreateTopic, probe, SharedMemoryServer.new, htopic]

section memory

variable {memory : List UInt8} {offset n k : Nat}

/-- Two numbers differ when one of their bytes does. -/
theorem field_ne (hk : k < memory.length) (hfrom : offset ≤ k) (hto : k < offset + n) :
    field (memory.set k 0) offset n ≠ field (memory.set k 1) offset n := by
  intro h
  have hbytes := ofBytes_injective (by simp only [List.length_take, List.length_drop, List.length_set]) h
  have hread : ∀ y, (((memory.set k y).drop offset).take n)[k - offset]? = some y := by
    intro y
    rw [List.getElem?_take_of_lt (by omega), List.getElem?_drop, Nat.add_sub_cancel' hfrom, List.getElem?_set_self hk]
  have hbyte := hread 0
  rw [hbytes, hread 1, Option.some.injEq] at hbyte
  cases hbyte

theorem field_lt (memory : List UInt8) (offset : Nat) : field memory offset 1 < 256 := by
  rw [field]
  cases memory.drop offset with
  | nil =>
    rw [List.take_nil, ofBytes]
    omega
  | cons b rest =>
    have := b.toNat_lt
    rw [List.take_succ_cons, List.take_zero, ofBytes, ofBytes]
    omega

/-- A name that does not end in the message ends where the leftover does. -/
theorem text_ne {front : List UInt8} (hoffset : offset ≤ front.length)
    (hopen : 0 ∉ front.drop offset) (hn : 0 < n) :
    text ((front ++ List.replicate n 1).set front.length 0) offset ≠
      text ((front ++ List.replicate n 1).set front.length 1) offset := by
  have hall : ∀ b ∈ front.drop offset, decide (b ≠ 0) = true := by
    intro b hb
    rw [decide_eq_true_iff]
    rintro rfl
    exact hopen hb
  obtain ⟨n, rfl⟩ := Nat.exists_eq_succ_of_ne_zero (Nat.ne_of_gt hn)
  have hset : ∀ y, text ((front ++ List.replicate (n + 1) 1).set front.length y) offset =
      front.drop offset ++ (y :: List.replicate n 1).takeWhile (· ≠ 0) := by
    intro y
    rw [List.set_append_right _ _ (Nat.le_refl _), Nat.sub_self, List.replicate_succ, List.set_cons_zero, text,
      List.drop_append_of_le_length hoffset, List.takeWhile_append_of_pos hall]
  intro h
  rw [Nat.succ_eq_add_one, hset 0, hset 1, List.append_cancel_left_eq] at h
  cases h

end memory

section differ

/-- In some state of the server the two memories have different effects. -/
def Differ (a b : List UInt8) : Prop :=
  ∃ c : Channel, c.dispatch a (fun _ => true) ⟨false, true⟩ ≠ c.dispatch b (fun _ => true) ⟨false, true⟩

variable {a b : List UInt8}

/-- One client is answered in the one run, and in the other it is not answered or differently. -/
theorem replies_differ {ra rb : Command} {ea eb : ResponseEnvelope} (topics : TopicName → Option TopicService)
    (hda : ∀ c, Channel.dispatch c a (fun _ => true) ⟨false, true⟩ =
      c.answer (requestEnvelope a ra) ⟨false, true⟩)
    (hdb : ∀ c, Channel.dispatch c b (fun _ => true) ⟨false, true⟩ =
      c.answer (requestEnvelope b rb) ⟨false, true⟩)
    (ha : heard ((probe (field a 24 4) topics).answer ⟨field a 8 16, field a 24 4, ra⟩ ⟨false, true⟩) =
      some (answered (field a 24 4) ea))
    (hb : field b 24 4 = field a 24 4 → ea.response ≠ eb.response ∧
      heard ((probe (field a 24 4) topics).answer ⟨field b 8 16, field a 24 4, rb⟩ ⟨false, true⟩) =
        some (answered (field a 24 4) eb)) : Differ a b := by
  refine ⟨probe (field a 24 4) topics, fun h => ?_⟩
  rw [hda, hdb, requestEnvelope, requestEnvelope] at h
  have hheard := congrArg heard h
  rw [ha] at hheard
  have hpid : field b 24 4 = field a 24 4 := answer_pid hheard.symm
  obtain ⟨hne, hb⟩ := hb hpid
  rw [hpid, hb, Option.some.injEq] at hheard
  exact hne (congrArg ResponseEnvelope.response (answered_injective hheard))

theorem hello_differ (ha : messageType a = 3) (hb : messageType b = 3) (hne : field a 28 8 ≠ field b 28 8) :
    Differ a b := by
  apply replies_differ noTopic (fun _ => dispatch_hello ha) (fun _ => dispatch_hello hb)
  · exact answer_hello _
  · intro _
    exact ⟨fun h => hne (Response.hello.inj h), answer_hello _⟩

theorem subscribe_differ (ha : messageType a = 1) (hb : messageType b = 1)
    (hne : field a 24 4 ≠ field b 24 4 ∨ text a 28 ≠ text b 28) : Differ a b := by
  -- the topic of the one name has its first slot taken; without a topic the answer is slot 0
  obtain ⟨sa, hsa⟩ := subscribe_found (field a 24 4) (oneTopic_self (text a 28) (seated 0 1)) (by omega)
  apply replies_differ (oneTopic (text a 28) (seated 0 1)) (fun _ => dispatch_subscribe ha)
    (fun _ => dispatch_subscribe hb)
  · exact answer_subscribe hsa
  · intro hpid
    have hname : text b 28 ≠ text a 28 := fun h => hne.elim (fun hf => hf hpid.symm) (fun ht => ht h.symm)
    obtain ⟨sb, hsb⟩ := subscribe_missing (field a 24 4) true (oneTopic_other (seated 0 1) hname)
    exact ⟨fun h => (by cases h), answer_subscribe hsb⟩

theorem unsubscribe_differ (ha : messageType a = 6) (hb : messageType b = 6)
    (hne : field a 28 1 ≠ field b 28 1 ∨ text a 29 ≠ text b 29) : Differ a b := by
  -- the topic of the one name has the slot taken by the process that asks
  have hslot := field_lt a 28
  have hfound := onUnsubscribe_found (oneTopic_self (text a 29) (seated (field a 24 4) (field a 28 1 + 1)))
    (Nat.lt_succ_self (field a 28 1)) hslot
  apply replies_differ (oneTopic (text a 29) (seated (field a 24 4) (field a 28 1 + 1)))
    (fun _ => dispatch_unsubscribe ha) (fun _ => dispatch_unsubscribe hb)
  · exact answer_unsubscribe _
  · intro hpid
    refine ⟨fun h => ?_, answer_unsubscribe _⟩
    obtain ⟨-, hsuccess, hslots⟩ := Response.unsubscribe.inj h
    have hname : text b 29 ≠ text a 29 := fun h => hne.elim (fun hf => hf hslots) (fun ht => ht h.symm)
    rw [hfound, onUnsubscribe_missing (oneTopic_other _ hname)] at hsuccess
    cases hsuccess

theorem create_differ (ha : messageType a = 2) (hb : messageType b = 2)
    (hne : field a 292 8 ≠ field b 292 8 ∨ text a 28 ≠ text b 28) : Differ a b := by
  refine ⟨probe 0 (oneTopic (text a 28) (seated 0 0)), fun h => ?_⟩
  rw [dispatch_create ha, dispatch_create hb, onCreateTopic_found, Option.map_some] at h
  obtain ⟨⟨name, c⟩, hr, heq⟩ := Option.map_eq_some_iff.mp h.symm
  obtain rfl := onCreateTopic_fst hr
  have hpromise := Option.some.inj (congrArg Effect.promise heq)
  rw [Prod.mk.injEq] at hpromise
  exact hne.elim (fun hf => hf hpromise.1.symm) (fun ht => ht (Result.topic.inj hpromise.2).symm)

theorem remove_differ (ha : messageType a = 8) (hb : messageType b = 8)
    (hne : field a 284 8 ≠ field b 284 8 ∨ text a 28 ≠ text b 28) : Differ a b := by
  refine ⟨probe 0 (oneTopic (text a 28) (seated 0 0)), fun h => ?_⟩
  rw [dispatch_remove ha, dispatch_remove hb] at h
  have hpromise := Option.some.inj (congrArg Effect.promise (Option.some.inj h))
  rw [Prod.mk.injEq, Result.removed.injEq, removeSubscription_fst, removeSubscription_fst] at hpromise
  obtain ⟨hpointer, hresult⟩ := hpromise
  have hname : text b 28 ≠ text a 28 := fun h => hne.elim (fun hf => hf hpointer) (fun ht => ht h.symm)
  have hfound := oneTopic_self (text a 28) (seated 0 0)
  have hmissing := oneTopic_other (seated 0 0) hname
  simp only [probe, SharedMemoryServer.new, hfound, hmissing] at hresult
  cases hresult

/-- The last byte of an envelope's fields is read. -/
theorem size_differ {memory : List UInt8} {type size : Nat} {name : Option Nat} (hlength : memory.length = 1024)
    (hlayout : layout type = some (size, name)) (ha : messageType (memory.set (size - 1) 0) = type)
    (hb : messageType (memory.set (size - 1) 1) = type) :
    Differ (memory.set (size - 1) 0) (memory.set (size - 1) 1) := by
  unfold layout at hlayout
  split at hlayout <;> cases hlayout
  · exact subscribe_differ ha hb (Or.inl (field_ne (by omega) (by omega) (by omega)))
  · exact create_differ ha hb (Or.inl (field_ne (by omega) (by omega) (by omega)))
  · exact hello_differ ha hb (field_ne (by omega) (by omega) (by omega))
  · exact unsubscribe_differ ha hb (Or.inl (field_ne (by omega) (by omega) (by omega)))
  · exact remove_differ ha hb (Or.inl (field_ne (by omega) (by omega) (by omega)))

theorem name_differ {type size offset : Nat} (hlayout : layout type = some (size, some offset))
    (ha : messageType a = type) (hb : messageType b = type) (hne : text a offset ≠ text b offset) : Differ a b := by
  unfold layout at hlayout
  split at hlayout <;> cases hlayout
  · exact subscribe_differ ha hb (Or.inr hne)
  · exact create_differ ha hb (Or.inr hne)
  · exact unsubscribe_differ ha hb (Or.inr hne)
  · exact remove_differ ha hb (Or.inr hne)

/-- Every envelope has a visible effect in some state. -/
theorem handled_differ (ha : (layout (messageType a)).isSome) (hb : layout (messageType b) = none) : Differ a b := by
  obtain ⟨⟨size, name⟩, hlayout⟩ := Option.isSome_iff_exists.mp ha
  have hsilent : ∀ pid topics env, some (answered pid env) ≠ heard (some ⟨probe pid topics, none⟩) := by
    intro pid topics env h
    have hcontents : (answered pid env).contents 0 = [] :=
      congrFun (congrArg MessageQueues.contents (Option.some.inj h)) 0
    cases hcontents
  unfold layout at hlayout
  split at hlayout <;> rename_i htype <;> cases hlayout
  · obtain ⟨s, hs⟩ := subscribe_missing (field a 24 4) true (noTopic_eq (text a 28))
    refine ⟨probe (field a 24 4) noTopic, fun h => ?_⟩
    rw [dispatch_subscribe htype, dispatch_other hb] at h
    exact hsilent _ _ _ ((answer_subscribe hs).symm.trans (congrArg heard h))
  · refine ⟨probe 0 (oneTopic (text a 28) (seated 0 0)), fun h => ?_⟩
    rw [dispatch_create htype, dispatch_other hb, onCreateTopic_found] at h
    cases congrArg Effect.promise (Option.some.inj h)
  · refine ⟨probe (field a 24 4) noTopic, fun h => ?_⟩
    rw [dispatch_hello htype, dispatch_other hb] at h
    exact hsilent _ _ _ ((answer_hello _).symm.trans (congrArg heard h))
  · refine ⟨probe (field a 24 4) noTopic, fun h => ?_⟩
    rw [dispatch_unsubscribe htype, dispatch_other hb] at h
    exact hsilent _ _ _ ((answer_unsubscribe _).symm.trans (congrArg heard h))
  · refine ⟨probe 0 noTopic, fun h => ?_⟩
    rw [dispatch_remove htype, dispatch_other hb] at h
    cases congrArg Effect.promise (Option.some.inj h)

end differ

section leftovers

/-- Bytes of 1, but for one. -/
def filled (k : Nat) (y : UInt8) : Buffer :=
  ⟨(List.replicate 1024 1).set k y, by rw [List.length_set, List.length_replicate]⟩

/-- What the switch then sees of a message. -/
def under (m : Packet) (k : Nat) (y : UInt8) : List UInt8 :=
  (m.bytes ++ List.replicate (1024 - m.bytes.length) 1).set k y

/-- A whole buffer may have been received, unless it ends the loop. -/
theorem held_of_type {b : Buffer} (h : messageType b.bytes ≠ 0) : Held b := by
  refine ⟨b, ⟨b.bytes, Nat.le_of_eq b.size⟩, ?_, h⟩
  have hnil : b.bytes.drop b.bytes.length = [] := List.drop_length
  rw [Buffer.receive, Buffer.mk.injEq, hnil, List.append_nil]

theorem filled_held {k : Nat} (hk : 8 ≤ k) (y : UInt8) : Held (filled k y) := by
  apply held_of_type
  have htake : ((List.replicate 1024 (1 : UInt8)).set k y).take 8 = List.replicate 8 1 := by
    rw [List.take_set_of_le hk, List.take_replicate]
    rfl
  rw [filled, messageType, field, List.drop_zero, htake]
  decide

theorem under_eq {k : Nat} (hk : m.bytes.length ≤ k) (y : UInt8) :
    m.bytes ++ ((filled k y).bytes.drop m.bytes.length ++ []) = under m k y := by
  rw [filled, under, List.append_nil, List.set_append_right _ _ hk, List.drop_set,
    if_neg (by omega), List.drop_replicate]

theorem padded_length (m : Packet) :
    (m.bytes ++ List.replicate (1024 - m.bytes.length) (1 : UInt8)).length = 1024 := by
  have := m.fits
  rw [List.length_append, List.length_replicate]
  omega

theorem under_type {k : Nat} (hlong : 8 ≤ m.bytes.length) (hk : m.bytes.length ≤ k) (y : UInt8) :
    messageType (under m k y) = messageType m.bytes := by
  rw [under, List.set_append_right _ _ hk, messageType_append hlong]

theorem acts_same (h : ActsOnMessage m) {k : Nat} (hlen : m.bytes.length ≤ k) (hk : 8 ≤ k) :
    ¬ Differ (under m k 0) (under m k 1) := by
  rintro ⟨c, hne⟩
  apply hne
  have hsame := h c [] (fun _ => true) ⟨false, true⟩ _ _ (filled_held hk 0) (filled_held hk 1)
  rw [iteration_eq, iteration_eq, under_eq hlen, under_eq hlen] at hsame
  exact hsame

/-- Bytes of 255, which begin no handled type. -/
def blank : Buffer := ⟨List.replicate 1024 255, List.length_replicate⟩

theorem blank_held : Held blank := by
  apply held_of_type
  decide +kernel

/-- A whole message of the type, with bytes of 1 in its fields. -/
def envelope (type : Nat) : Buffer :=
  ⟨toBytes 8 type ++ List.replicate 1016 1, by rw [List.length_append, toBytes_length, List.length_replicate]⟩

theorem layout_cases {type : Nat} (h : (layout type).isSome) :
    type = 1 ∨ type = 2 ∨ type = 3 ∨ type = 6 ∨ type = 8 := by
  unfold layout at h
  split at h
  · exact Or.inl rfl
  · exact Or.inr (Or.inl rfl)
  · exact Or.inr (Or.inr (Or.inl rfl))
  · exact Or.inr (Or.inr (Or.inr (Or.inl rfl)))
  · exact Or.inr (Or.inr (Or.inr (Or.inr rfl)))
  · cases h

theorem envelope_type {type : Nat} (h : (layout type).isSome) : messageType (envelope type).bytes = type := by
  have hfits : Fits 8 type := fits_long (by rcases layout_cases h with rfl | rfl | rfl | rfl | rfl <;> omega)
  have htake : (toBytes 8 type ++ List.replicate 1016 1).take 8 = toBytes 8 type :=
    List.take_left' (toBytes_length 8 type)
  rw [envelope, messageType, field, List.drop_zero, htake, ofBytes_toBytes hfits]

/-- The rest of a message over the beginning of it is the message. -/
theorem envelope_under {type : Nat} (h : m.bytes <+: toBytes 8 type) :
    m.bytes ++ ((envelope type).bytes.drop m.bytes.length ++ []) = (envelope type).bytes := by
  obtain ⟨tail, htail⟩ := h
  have hbytes : (envelope type).bytes = m.bytes ++ (tail ++ List.replicate 1016 1) := by
    rw [← List.append_assoc, htail]
    rfl
  rw [hbytes, List.append_nil, List.drop_left]

/-- The last byte of the number stays that of the leftover. -/
theorem blank_layout (hshort : m.bytes.length < 8) :
    layout (messageType (m.bytes ++ (blank.bytes.drop m.bytes.length ++ []))) = none := by
  rw [← Option.not_isSome_iff_eq_none]
  intro hsome
  have hlength := left_length blank m []
  have hbytes := toBytes_messageType (Nat.le_trans (by omega) hlength)
  have hlast : ((m.bytes ++ (blank.bytes.drop m.bytes.length ++ [])).take 8)[7]? = some 255 := by
    rw [List.getElem?_take_of_lt (by omega), List.getElem?_append_right (by omega), List.append_nil, blank,
      List.drop_replicate, List.getElem?_replicate, if_pos (by omega)]
  rw [← hbytes] at hlast
  rcases layout_cases hsome with h | h | h | h | h
  all_goals
    rw [h] at hlast
    cases hlast

theorem acts_short (h : ActsOnMessage m) (hshort : m.bytes.length < 8) {type : Nat} (htype : (layout type).isSome) :
    ¬ m.bytes <+: toBytes 8 type := by
  intro hprefix
  have hmessage : messageType (envelope type).bytes = type := envelope_type htype
  have hpositive : type ≠ 0 := by
    rintro rfl
    cases htype
  obtain ⟨c, hne⟩ := handled_differ (hmessage.symm ▸ htype) (blank_layout hshort)
  apply hne
  have hheld : Held (envelope type) := by
    apply held_of_type
    rw [hmessage]
    exact hpositive
  have hsame := h c [] (fun _ => true) ⟨false, true⟩ _ _ hheld blank_held
  rw [iteration_eq, iteration_eq, envelope_under hprefix] at hsame
  exact hsame

/-- An iteration acts on the message alone exactly when the message has all that is read of it. -/
theorem acts_iff_complete (m : Packet) : ActsOnMessage m ↔ Complete m := by
  constructor
  · intro h
    by_cases hfull : m.bytes.length = 1024
    · exact Or.inl hfull
    · by_cases hshort : m.bytes.length < 8
      · exact Or.inr (Or.inl ⟨hshort, fun type htype => acts_short h hshort htype⟩)
      · have hlong : 8 ≤ m.bytes.length := by omega
        have hfits := m.fits
        refine Or.inr (Or.inr ⟨hlong, fun size name hlayout => ?_⟩)
        have hsize : size ≤ m.bytes.length := by
          by_contra hlt
          have hlast : m.bytes.length ≤ size - 1 := by omega
          apply acts_same h hlast (by omega)
          exact size_differ (padded_length m) hlayout (under_type hlong hlast 0) (under_type hlong hlast 1)
        refine ⟨hsize, ?_⟩
        rintro offset rfl
        by_contra hopen
        apply acts_same h (Nat.le_refl _) hlong
        have hoffset : offset ≤ m.bytes.length := Nat.le_trans (layout_offset hlayout) hsize
        exact name_differ hlayout (under_type hlong (Nat.le_refl _) 0) (under_type hlong (Nat.le_refl _) 1)
          (text_ne hoffset hopen (by omega))
  · intro h c behind running chance old old' _ _
    exact complete_iteration h behind old old'

/-- Nothing but a type: the server answers with the rest of an earlier request. -/
theorem acts_broken : ¬ ActsOnMessage ⟨[3, 0, 0, 0, 0, 0, 0, 0], by decide⟩ := by
  intro h
  have hlong : 8 ≤ [3, 0, 0, 0, 0, 0, 0, (0 : UInt8)].length := by decide
  have hlast : [3, 0, 0, 0, 0, 0, 0, (0 : UInt8)].length ≤ 35 := by decide
  apply acts_same h hlast (by omega)
  have htype : ∀ y, messageType (under ⟨[3, 0, 0, 0, 0, 0, 0, 0], by decide⟩ 35 y) = 3 :=
    fun y => (under_type hlong hlast y).trans rfl
  have hlayout : layout 3 = some (36, none) := rfl
  exact size_differ (padded_length _) hlayout (htype 0) (htype 1)

end leftovers

end ReceiveBuffer
