import Mathlib.Data.List.TakeWhile
import ZeroCopyRpc.MessageQueue
import ZeroCopyRpc.TopicService

/-!
# The server's dispatcher

Requests of all clients come in through the server's queue. The reply to a
request goes through the queue that bears the process id of the request; the
server opens it by name once and keeps the handle. A process id stands for the
queue name `<channel>.<pid>`.

`none` is an exception that leaves the dispatcher thread, or a blocking send
into a full queue.
-/

/-- The bytes of a name. -/
abbrev TopicName := List UInt8

/-- `strncpy_s` reads up to the first zero and is told one byte less than the field has;
it keeps one of these for the terminator. -/
def setTopicName (str : TopicName) : TopicName := (str.takeWhile (· ≠ 0)).take 254

theorem setTopicName_ne_zero (str : TopicName) : ∀ b ∈ setTopicName str, b ≠ 0 := by
  intro b hb
  have hzero := List.mem_takeWhile_imp (List.mem_of_mem_take hb)
  simpa using hzero

theorem setTopicName_length (str : TopicName) : (setTopicName str).length ≤ 254 := by
  rw [setTopicName, List.length_take]
  omega

/-- A name is kept when it fits and holds no zero. -/
theorem setTopicName_eq_iff {str : TopicName} : setTopicName str = str ↔
    str.length ≤ 254 ∧ ∀ b ∈ str, b ≠ 0 := by
  constructor
  · intro h
    exact ⟨h ▸ setTopicName_length str, h ▸ setTopicName_ne_zero str⟩
  · rintro ⟨hlength, hzero⟩
    rw [setTopicName, List.takeWhile_eq_self_iff.mpr (by simpa using hzero), List.take_of_length_le hlength]

@[simp] theorem setTopicName_idem (str : TopicName) : setTopicName (setTopicName str) = setTopicName str :=
  setTopicName_eq_iff.mpr ⟨setTopicName_length str, setTopicName_ne_zero str⟩

inductive Command where
  | hello (created : Nat)
  | subscribe (topicName : TopicName)
  | unsubscribe (topicName : TopicName) (slothId : Nat)
  deriving DecidableEq, Repr

structure RequestEnvelope where
  correlationId : Nat
  pid : Nat
  request : Command
  deriving DecidableEq, Repr

inductive Response where
  | hello (requestCreated : Nat)
  | subscribe (id : Nat)
  | unsubscribe (topicName : TopicName) (isSuccess : Bool) (slothId : Nat)
  deriving DecidableEq, Repr

structure ResponseEnvelope where
  correlationId : Nat
  response : Response
  deriving DecidableEq, Repr

abbrev ResponseQueues := MessageQueues Nat ResponseEnvelope

structure SharedMemoryServer where
  topics : TopicName → Option TopicService
  clients : Nat → Option Nat

/-- What the system does while a request is handled: whether a weak compare-exchange fails
where its comparison holds, and whether there is a semaphore for a name. -/
structure Chance where
  weakFailure : Bool
  opens : Bool
  deriving DecidableEq, Repr

/-- What handling one request leaves: the object the reply went into, if it went anywhere. -/
structure Dispatched where
  server : SharedMemoryServer
  queues : ResponseQueues
  reply : Option Nat

namespace SharedMemoryServer

def new (topics : TopicName → Option TopicService) : SharedMemoryServer := ⟨topics, fun _ => none⟩

/-- A topic that does not exist is answered with slot 0. -/
def subscribe (s : SharedMemoryServer) (topicName : TopicName) (pid : Nat) (opens : Bool) :
    Except (TopicError × SharedMemoryServer) (Nat × SharedMemoryServer) :=
  match s.topics topicName with
  | some topic =>
    match topic.subscribe pid opens with
    | .error (e, topic) => .error (e, { s with topics := Function.update s.topics topicName (some topic) })
    | .ok (sloth, topic) => .ok (sloth, { s with topics := Function.update s.topics topicName (some topic) })
  | none => .ok (0, s)

def onUnsubscribe (s : SharedMemoryServer) (topicName : TopicName) (pid id : Nat) (weakFailure : Bool) :
    Bool × SharedMemoryServer :=
  match s.topics topicName with
  | some topic =>
    let result := topic.unsubscribe pid id weakFailure
    (result.1, { s with topics := Function.update s.topics topicName (some result.2) })
  | none => (false, s)

/-- The cached handle, or one opened by name and then cached. -/
def getClient (s : SharedMemoryServer) (queues : ResponseQueues) (pid : Nat) : Option (Nat × SharedMemoryServer) :=
  match s.clients pid with
  | some m => some (m, s)
  | none =>
    match queues.openOnly pid with
    | none => none
    | some m => some (m, { s with clients := Function.update s.clients pid (some m) })

def send (s : SharedMemoryServer) (queues : ResponseQueues) (m : Nat) (env : ResponseEnvelope) : Option Dispatched :=
  (queues.trySend 256 m env).map (fun queues => ⟨s, queues, some m⟩)

def onHelloResponse (s : SharedMemoryServer) (queues : ResponseQueues) (pid now correlationId : Nat) :
    Option Dispatched :=
  match s.getClient queues pid with
  | none => none
  | some (m, s) => s.send queues m ⟨correlationId, .hello now⟩

/-- One turn of `DispatchMessages`. -/
def dispatchMessage (s : SharedMemoryServer) (queues : ResponseQueues) (env : RequestEnvelope) (chance : Chance) :
    Option Dispatched :=
  match env.request with
  | .subscribe topicName =>
    match s.subscribe topicName env.pid chance.opens with
    | .error _ => none
    | .ok (id, s) =>
      match s.getClient queues env.pid with
      | none => none
      | some (m, s) =>
        -- only this reply is tried: when the queue is full it is dropped and logged
        match s.send queues m ⟨env.correlationId, .subscribe id⟩ with
        | none => some ⟨s, queues, none⟩
        | some d => some d
  | .hello created => s.onHelloResponse queues env.pid created env.correlationId
  | .unsubscribe topicName slothId =>
    match s.getClient queues env.pid with
    | none => none
    | some (m, s) =>
      let result := s.onUnsubscribe topicName env.pid slothId chance.weakFailure
      result.2.send queues m ⟨env.correlationId, .unsubscribe (setTopicName topicName) result.1 slothId⟩

theorem subscribe_clients {s t : SharedMemoryServer} {topicName : TopicName} {pid id : Nat} {opens : Bool}
    (h : s.subscribe topicName pid opens = .ok (id, t)) : t.clients = s.clients := by
  unfold subscribe at h
  split at h
  · split at h
    · cases h
    · cases h
      rfl
  · cases h
    rfl

theorem onUnsubscribe_clients (s : SharedMemoryServer) (topicName : TopicName) (pid id : Nat) (weakFailure : Bool) :
    (s.onUnsubscribe topicName pid id weakFailure).2.clients = s.clients := by
  unfold onUnsubscribe
  split <;> rfl

/-- The handle a reply goes through: the cached one, else the one the name leads to. -/
def Attached (clients : Nat → Option Nat) (queues : ResponseQueues) (pid m : Nat) : Prop :=
  clients pid = some m ∨ (clients pid = none ∧ queues.names pid = some m)

theorem attached_unique {clients : Nat → Option Nat} {queues : ResponseQueues} {pid m o : Nat}
    (h : Attached clients queues pid m) (ho : Attached clients queues pid o) : o = m := by
  rcases h with hm | ⟨hnone, hm⟩ <;> rcases ho with ho | ⟨hnone', ho⟩
  · exact Option.some.inj (ho.symm.trans hm)
  · rw [hm] at hnone'
    cases hnone'
  · rw [ho] at hnone
    cases hnone
  · exact Option.some.inj (ho.symm.trans hm)

theorem getClient_some {s t : SharedMemoryServer} {queues : ResponseQueues} {pid m : Nat}
    (h : s.getClient queues pid = some (m, t)) :
    Attached s.clients queues pid m ∧ t.clients = Function.update s.clients pid (some m) := by
  unfold getClient at h
  split at h
  · rename_i hm
    cases h
    exact ⟨Or.inl hm, (Function.update_eq_self_iff.mpr hm.symm).symm⟩
  · rename_i hm
    split at h
    · cases h
    · rename_i hq
      cases h
      exact ⟨Or.inr ⟨hm, hq⟩, rfl⟩

theorem send_some {s : SharedMemoryServer} {queues : ResponseQueues} {m : Nat} {env : ResponseEnvelope}
    {d : Dispatched} (h : s.send queues m env = some d) :
    d.server = s ∧ d.reply = some m ∧ queues.trySend 256 m env = some d.queues := by
  unfold send at h
  rw [Option.map_eq_some_iff] at h
  obtain ⟨q, hq, rfl⟩ := h
  exact ⟨rfl, rfl, hq⟩

/-- Handling a request attaches the server to one queue of the process, and
either puts the reply there or drops it because that queue is full. -/
theorem dispatchMessage_some {s : SharedMemoryServer} {queues : ResponseQueues} {env : RequestEnvelope}
    {chance : Chance} {d : Dispatched} (h : s.dispatchMessage queues env chance = some d) :
    ∃ m, Attached s.clients queues env.pid m ∧ d.server.clients = Function.update s.clients env.pid (some m) ∧
      ((∃ response, d.reply = some m ∧ queues.trySend 256 m ⟨env.correlationId, response⟩ = some d.queues) ∨
        (d.reply = none ∧ d.queues = queues ∧ 256 ≤ (queues.contents m).length)) := by
  cases hr : env.request with
  | hello created =>
    simp only [dispatchMessage, hr, onHelloResponse] at h
    cases hg : s.getClient queues env.pid with
    | none => simp [hg] at h
    | some mt =>
      obtain ⟨m, t⟩ := mt
      rw [hg] at h
      obtain ⟨hat, hcl⟩ := getClient_some hg
      obtain ⟨hs, hreply, hq⟩ := send_some h
      exact ⟨m, hat, hs ▸ hcl, Or.inl ⟨_, hreply, hq⟩⟩
  | subscribe topicName =>
    simp only [dispatchMessage, hr] at h
    cases hsub : s.subscribe topicName env.pid chance.opens with
    | error e => simp [hsub] at h
    | ok it =>
      obtain ⟨id, t⟩ := it
      simp only [hsub] at h
      cases hg : t.getClient queues env.pid with
      | none => simp [hg] at h
      | some mu =>
        obtain ⟨m, u⟩ := mu
        simp only [hg] at h
        obtain ⟨hat, hcl⟩ := getClient_some hg
        rw [subscribe_clients hsub] at hat hcl
        cases hsend : u.send queues m ⟨env.correlationId, .subscribe id⟩ with
        | none =>
          rw [hsend] at h
          cases h
          have hfull := MessageQueues.trySend_none (Option.map_eq_none_iff.mp hsend)
          exact ⟨m, hat, hcl, Or.inr ⟨rfl, rfl, hfull⟩⟩
        | some d' =>
          rw [hsend] at h
          cases h
          obtain ⟨hs, hreply, hq⟩ := send_some hsend
          exact ⟨m, hat, hs ▸ hcl, Or.inl ⟨_, hreply, hq⟩⟩
  | unsubscribe topicName slothId =>
    simp only [dispatchMessage, hr] at h
    cases hg : s.getClient queues env.pid with
    | none => simp [hg] at h
    | some mt =>
      obtain ⟨m, t⟩ := mt
      simp only [hg] at h
      obtain ⟨hat, hcl⟩ := getClient_some hg
      obtain ⟨hs, hreply, hq⟩ := send_some h
      refine ⟨m, hat, ?_, Or.inl ⟨_, hreply, hq⟩⟩
      rw [hs, onUnsubscribe_clients]
      exact hcl

end SharedMemoryServer

/-- The default arguments of `CreateTopic`. -/
def defaultMessageCount : Nat := 256
def defaultBufferSize : Nat := 8 * 1024 * 1024

/-- A topic created with the defaults over a new segment. -/
def createTopic (items : Nat → Entry) (bytes : Nat → UInt8) : TopicService :=
  .new (.new defaultMessageCount defaultBufferSize items bytes)

def defaultMaxMessageSize : Nat := defaultBufferSize / defaultMessageCount * 3 / 2
