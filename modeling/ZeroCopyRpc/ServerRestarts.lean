import ZeroCopyRpc.SharedMemoryServer
import ZeroCopyRpc.Transitions

/-!
# Servers that come and go on a channel

A server opens the channel's queue or makes it, and so does a client. The queue
outlives the server: the dispatcher of the next one takes what is left in it. A
server that closes without topics removes the queue's name, and so does the
command that clears a channel. Whoever has the queue open keeps it, and who comes
next gets a queue of its own.

A dispatcher leaves its loop when it takes an exit message, whoever sent it. A
topic command holds the address of a promise in the process of its sender.

`sent` and `received` are history variables. A server is meant by its place in
the list of all servers there have been; an exit message does not say who sent it.
-/
namespace ServerRestarts

open Transitions

inductive Message where
  | exit (server : Nat)
  | request (env : RequestEnvelope)
  | createTopic (server : Nat) (topicName : TopicName)
  | removeTopic (server : Nat) (topicName : TopicName)
  deriving DecidableEq, Repr

def Message.isExit : Message → Bool
  | .exit _ => true
  | _ => false

/-- The server whose message it is; a request may be taken by any. -/
def Message.owner : Message → Option Nat
  | .exit server => some server
  | .request _ => none
  | .createTopic server _ => some server
  | .removeTopic server _ => some server

structure Server (κ : Type) where
  channel : κ
  messageQueue : Nat
  topics : List TopicName
  -- the dispatcher thread is in its loop
  dispatching : Bool
  -- the destructor has sent its message
  closing : Bool
  alive : Bool

namespace Server

variable {κ : Type}

/-- `SharedMemoryServer::SharedMemoryServer`. -/
def new (channel : κ) (messageQueue : Nat) : Server κ := ⟨channel, messageQueue, [], true, false, true⟩

/-- One turn of `DispatchMessages`, as far as the server's lifetime depends on it. It
always ends: a request whose handling throws, or whose reply waits for room, is
not modelled here. -/
def handle (s : Server κ) : Message → Server κ
  | .exit _ => { s with dispatching := false }
  | .request _ => s
  | .createTopic _ topicName => { s with topics := if topicName ∈ s.topics then s.topics else topicName :: s.topics }
  | .removeTopic _ topicName => { s with topics := s.topics.erase topicName }

/-- The server's threads may call it. -/
def isOpen (s : Server κ) : Bool := s.alive && !s.closing

end Server

structure World (κ : Type) where
  queues : MessageQueues κ Message
  servers : List (Server κ)
  -- the queue that each client has open
  clients : List Nat
  sent : Nat → List Message
  received : Nat → List (Nat × Message)

inductive Event (κ : Type) where
  | openServer (channel : κ)
  | openClient (channel : κ)
  | request (client : Nat) (env : RequestEnvelope)
  | createTopic (server : Nat) (topicName : TopicName)
  | removeTopic (server : Nat) (topicName : TopicName)
  | dispatch (server : Nat)
  | close (server : Nat)
  | destroy (server : Nat)
  | crash (server : Nat)
  | clear (channel : κ)

variable {κ : Type} [DecidableEq κ]

def start : World κ := ⟨.fresh, [], [], fun _ => [], fun _ => []⟩

namespace World

omit [DecidableEq κ] in
/-- The places of the queue are taken one by one. -/
def send (w : World κ) (object : Nat) (message : Message) : Option (World κ) :=
  (w.queues.trySend 256 object message).map fun queues => { w with
    queues := queues
    sent := Function.update w.sent object (w.sent object ++ [message]) }

end World

def step : Machine (World κ) (Event κ)
  | w, .openServer channel =>
    let r := w.queues.openOrCreate channel
    some { w with
      queues := r.2
      servers := w.servers ++ [.new channel r.1] }
  | w, .openClient channel =>
    let r := w.queues.openOrCreate channel
    some { w with
      queues := r.2
      clients := w.clients ++ [r.1] }
  | w, .request client env => w.clients[client]?.bind fun object => w.send object (.request env)
  | w, .createTopic i topicName => w.servers[i]?.bind fun s =>
    if s.isOpen then w.send s.messageQueue (.createTopic i (setTopicName topicName)) else none
  | w, .removeTopic i topicName => w.servers[i]?.bind fun s =>
    if s.isOpen then w.send s.messageQueue (.removeTopic i (setTopicName topicName)) else none
  | w, .dispatch i => w.servers[i]?.bind fun s =>
    if s.dispatching then (w.queues.receive s.messageQueue).map fun r => { w with
      queues := r.2
      servers := w.servers.set i (s.handle r.1)
      received := Function.update w.received s.messageQueue (w.received s.messageQueue ++ [(i, r.1)]) }
    else none
  | w, .close i => w.servers[i]?.bind fun s =>
    if s.isOpen then (w.send s.messageQueue (.exit i)).map fun v => { v with
      servers := w.servers.set i { s with closing := true } }
    else none
  | w, .destroy i => w.servers[i]?.bind fun s =>
    -- the thread has been joined; the map still holds the topics that were deleted
    if s.alive ∧ s.closing ∧ s.dispatching = false then some { w with
      queues := if s.topics = [] then w.queues.remove s.channel else w.queues
      servers := w.servers.set i { s with alive := false } }
    else none
  | w, .crash i => w.servers[i]?.bind fun s =>
    if s.alive then some { w with servers := w.servers.set i { s with alive := false, dispatching := false } }
    else none
  | w, .clear channel => some { w with queues := w.queues.remove channel }

def exits (l : List Message) : Nat := l.countP Message.isExit

namespace World

omit [DecidableEq κ] in
def dispatchers (w : World κ) (object : Nat) : Nat :=
  w.servers.countP fun s => s.dispatching && s.messageQueue == object

omit [DecidableEq κ] in
/-- The messages that wait in front of the one that was sent to the queue as number `n`. -/
def ahead (w : World κ) (object n : Nat) : List Message :=
  (w.queues.contents object).take (n - (w.received object).length)

end World

structure Inv (w : World κ) : Prop where
  names : ∀ k o, w.queues.names k = some o → o < w.queues.created
  servers : ∀ s ∈ w.servers, s.messageQueue < w.queues.created
  clients : ∀ o ∈ w.clients, o < w.queues.created
  empty : ∀ o, w.queues.created ≤ o → w.queues.contents o = []
  account : ∀ o, w.sent o = (w.received o).map Prod.snd ++ w.queues.contents o

/-- What a step does to a queue: messages are put behind the others, or the first one is taken.
A dispatcher that begins on it got it by its name. -/
inductive Change (w w' : World κ) (o : Nat) : Prop where
  | put (new : List Message) (known : new ≠ [] → o < w.queues.created)
    (contents : w'.queues.contents o = w.queues.contents o ++ new) (sent : w'.sent o = w.sent o ++ new)
    (received : w'.received o = w.received o)
    (dispatchers : w'.dispatchers o ≤ w.dispatchers o ∨ ∃ k, w'.queues.names k = some o)
  | taken (i : Nat) (m : Message) (contents : w.queues.contents o = m :: w'.queues.contents o)
    (sent : w'.sent o = w.sent o) (received : w'.received o = w.received o ++ [(i, m)])
    (dispatchers : w.dispatchers o = w'.dispatchers o + exits [m]) (dispatching : 0 < w.dispatchers o)

variable {w w' : World κ}

omit [DecidableEq κ] in
theorem inv_start : Inv (start : World κ) := by
  constructor <;> simp [start, MessageQueues.fresh]

omit [DecidableEq κ] in
theorem change_refl {o : Nat} (hcontents : w'.queues.contents o = w.queues.contents o) (hsent : w'.sent o = w.sent o)
    (hreceived : w'.received o = w.received o)
    (hdispatchers : w'.dispatchers o ≤ w.dispatchers o ∨ ∃ k, w'.queues.names k = some o) : Change w w' o :=
  .put [] (fun hne => absurd rfl hne) (by rw [hcontents, List.append_nil])
    (by rw [hsent, List.append_nil]) hreceived hdispatchers

section Send

variable {object : Nat} {m : Message}

omit [DecidableEq κ] in
theorem send_frame (h : w.send object m = some w') : w'.servers = w.servers ∧ w'.clients = w.clients ∧
    w'.queues.names = w.queues.names ∧ w'.queues.created = w.queues.created ∧ w'.received = w.received := by
  obtain ⟨q, hq, rfl⟩ := Option.map_eq_some_iff.mp h
  obtain ⟨hnames, hcreated, -⟩ := MessageQueues.trySend_some hq
  exact ⟨rfl, rfl, hnames, hcreated, rfl⟩

omit [DecidableEq κ] in
theorem send_object (h : w.send object m = some w') (o : Nat) : ∃ new, (new ≠ [] → o = object ∧ new = [m]) ∧
    w'.queues.contents o = w.queues.contents o ++ new ∧ w'.sent o = w.sent o ++ new := by
  obtain ⟨q, hq, rfl⟩ := Option.map_eq_some_iff.mp h
  obtain ⟨-, -, hcontents⟩ := MessageQueues.trySend_some hq
  by_cases ho : o = object
  · subst ho
    refine ⟨[m], fun _ => ⟨rfl, rfl⟩, ?_, Function.update_self ..⟩
    rw [hcontents, Function.update_self]
  · refine ⟨[], fun hne => absurd rfl hne, ?_, ?_⟩
    · rw [hcontents, Function.update_of_ne ho, List.append_nil]
    · rw [List.append_nil]
      exact Function.update_of_ne ho _ _

end Send

section Servers

/-- Replacing one server changes the count by that server. -/
theorem count_set {α : Type} {l : List α} {i : Nat} {a b : α} (h : l[i]? = some a) (p : α → Bool) :
    (l.set i b).countP p + (if p a then 1 else 0) = l.countP p + (if p b then 1 else 0) := by
  obtain ⟨hlt, hget⟩ := List.getElem?_eq_some_iff.mp h
  have hpos : p a = true → 0 < l.countP p :=
    fun hp => List.countP_pos_iff.mpr ⟨a, List.mem_of_getElem? h, hp⟩
  rw [List.countP_set hlt, hget]
  by_cases hp : p a = true
  · have hcount := hpos hp
    simp only [hp, if_true]
    omega
  · simp only [hp, Bool.false_eq_true, if_false]
    omega

omit [DecidableEq κ] in
/-- A server that is replaced by one that dispatches no more than it does. -/
theorem dispatchers_set_le {i : Nat} {s t : Server κ} (h : w.servers[i]? = some s)
    (hw : w'.servers = w.servers.set i t)
    (hqueue : t.messageQueue = s.messageQueue)
    (hdispatching : t.dispatching = true → s.dispatching = true) (o : Nat) :
    w'.dispatchers o ≤ w.dispatchers o := by
  have hcount := count_set h (fun s => s.dispatching && s.messageQueue == o) (b := t)
  have hle : (t.dispatching && t.messageQueue == o) = true → (s.dispatching && s.messageQueue == o) = true := by
    rw [hqueue, Bool.and_eq_true, Bool.and_eq_true]
    exact fun ⟨ht, ho⟩ => ⟨hdispatching ht, ho⟩
  rw [World.dispatchers, World.dispatchers, hw]
  by_cases ht : (t.dispatching && t.messageQueue == o) = true
  · simp only [ht, hle ht, if_true] at hcount
    omega
  · simp only [ht, Bool.false_eq_true, if_false] at hcount
    split at hcount <;> omega

omit [DecidableEq κ] in
theorem handle_messageQueue (s : Server κ) (m : Message) : (s.handle m).messageQueue = s.messageQueue := by
  cases m <;> rfl

omit [DecidableEq κ] in
theorem handle_dispatching {s : Server κ} (h : s.dispatching = true) (m : Message) :
    (s.handle m).dispatching = !m.isExit := by
  cases m
  case exit => rfl
  all_goals exact h

end Servers

/-- Opening leaves what lies in the queues. -/
theorem opened_contents (h : Inv w) (channel : κ) (o : Nat) :
    (w.queues.openOrCreate channel).2.contents o = w.queues.contents o := by
  rcases MessageQueues.openOrCreate_object w.queues channel with ⟨-, hsame⟩ | ⟨-, -, -, hnew⟩
  · rw [hsame]
  · rw [hnew]
    by_cases ho : o = w.queues.created
    · rw [ho, Function.update_self, h.empty _ (Nat.le_refl _)]
    · rw [Function.update_of_ne ho]

theorem change_open {o : Nat} (h : Inv w) {channel : κ} (hqueues : w'.queues = (w.queues.openOrCreate channel).2)
    (hsent : w'.sent = w.sent) (hreceived : w'.received = w.received)
    (hservers : w'.servers = w.servers ∨ w'.servers =
      w.servers ++ [.new channel (w.queues.openOrCreate channel).1]) :
    Change w w' o := by
  have hcontents : w'.queues.contents o = w.queues.contents o := by
    rw [hqueues, opened_contents h]
  refine change_refl hcontents (congrFun hsent o) (congrFun hreceived o) ?_
  rcases hservers with hservers | hservers
  · exact Or.inl (by rw [World.dispatchers, hservers, World.dispatchers])
  · by_cases ho : (w.queues.openOrCreate channel).1 = o
    · refine Or.inr ⟨channel, ?_⟩
      rw [hqueues, MessageQueues.openOrCreate_name, Function.update_self, ho]
    · left
      rw [World.dispatchers, hservers, List.countP_append, World.dispatchers]
      simp [Server.new, ho]

omit [DecidableEq κ] in
theorem change_send {object o : Nat} {m : Message} {v : World κ} (h : w.send object m = some v)
    (hknown : object < w.queues.created) (hqueues : w'.queues = v.queues) (hsent : w'.sent = v.sent)
    (hreceived : w'.received = v.received)
    (hservers : w'.dispatchers o ≤ w.dispatchers o) : Change w w' o := by
  obtain ⟨new, hobject, hcontents, hnew⟩ := send_object h o
  obtain ⟨-, -, -, -, hsame⟩ := send_frame h
  exact .put new (fun hne => (hobject hne).1 ▸ hknown) (by rw [hqueues, hcontents]) (by rw [hsent, hnew])
    (by rw [hreceived, hsame]) (Or.inl hservers)

omit [DecidableEq κ] in
theorem change_receive {o i : Nat} {s : Server κ} {m : Message} {q : MessageQueues κ Message}
    (hs : w.servers[i]? = some s) (hdispatching : s.dispatching = true)
    (hq : w.queues.receive s.messageQueue = some (m, q)) :
    Change w { w with
      queues := q
      servers := w.servers.set i (s.handle m)
      received := Function.update w.received s.messageQueue (w.received s.messageQueue ++ [(i, m)]) } o := by
  obtain ⟨rest, hhead, -, -, hcontents⟩ := MessageQueues.receive_some hq
  by_cases ho : o = s.messageQueue
  · subst ho
    refine .taken i m ?_ rfl (Function.update_self ..) ?_ ?_
    · rw [hhead, hcontents, Function.update_self]
    · have hcount := count_set hs (fun t => t.dispatching && t.messageQueue == s.messageQueue) (b := s.handle m)
      simp only [hdispatching, handle_messageQueue, handle_dispatching hdispatching, beq_self_eq_true, Bool.and_true,
        if_true] at hcount
      simp only [World.dispatchers, exits, List.countP_singleton]
      cases hexit : m.isExit <;>
        simp only [hexit, Bool.not_true, Bool.not_false, if_true, Bool.false_eq_true, if_false] at hcount ⊢ <;> omega
    · exact List.countP_pos_iff.mpr ⟨s, List.mem_of_getElem? hs, by simp [hdispatching]⟩
  · refine change_refl ?_ rfl ?_ ?_
    · simp only [hcontents, Function.update_of_ne ho]
    · exact Function.update_of_ne ho _ _
    · exact Or.inl (dispatchers_set_le hs rfl (handle_messageQueue s m) (fun _ => hdispatching) o)

/-- The spec of a step, one queue at a time. -/
theorem step_change (h : Inv w) {e : Event κ} (hs : step w e = some w') (o : Nat) : Change w w' o := by
  cases e with
  | openServer channel =>
    cases hs
    exact change_open h rfl rfl rfl (Or.inr rfl)
  | openClient channel =>
    cases hs
    exact change_open h rfl rfl rfl (Or.inl rfl)
  | clear channel =>
    cases hs
    exact change_refl rfl rfl rfl (Or.inl (Nat.le_refl _))
  | request client env =>
    obtain ⟨object, hc, hs⟩ := Option.bind_eq_some_iff.mp hs
    exact change_send hs (h.clients object (List.mem_of_getElem? hc)) rfl rfl rfl
      (by rw [World.dispatchers, (send_frame hs).1, World.dispatchers])
  | createTopic i topicName | removeTopic i topicName =>
    simp only [step, Option.bind_eq_some_iff, Option.ite_none_right_eq_some] at hs
    obtain ⟨s, hi, -, hs⟩ := hs
    exact change_send hs (h.servers s (List.mem_of_getElem? hi)) rfl rfl rfl
      (by rw [World.dispatchers, (send_frame hs).1, World.dispatchers])
  | close i =>
    simp only [step, Option.bind_eq_some_iff, Option.ite_none_right_eq_some, Option.map_eq_some_iff] at hs
    obtain ⟨s, hi, -, v, hv, rfl⟩ := hs
    refine change_send hv (h.servers s (List.mem_of_getElem? hi)) rfl rfl rfl ?_
    exact dispatchers_set_le (t := { s with closing := true }) hi rfl rfl id o
  | dispatch i =>
    simp only [step, Option.bind_eq_some_iff, Option.ite_none_right_eq_some, Option.map_eq_some_iff] at hs
    obtain ⟨s, hi, hdispatching, r, hr, rfl⟩ := hs
    exact change_receive hi hdispatching hr
  | destroy i =>
    simp only [step, Option.bind_eq_some_iff, Option.ite_none_right_eq_some] at hs
    obtain ⟨s, hi, -, hs⟩ := hs
    cases hs
    refine change_refl ?_ rfl rfl (Or.inl (dispatchers_set_le (t := { s with alive := false }) hi rfl rfl id o))
    change (if s.topics = [] then w.queues.remove s.channel else w.queues).contents o = w.queues.contents o
    split <;> rfl
  | crash i =>
    simp only [step, Option.bind_eq_some_iff, Option.ite_none_right_eq_some] at hs
    obtain ⟨s, hi, -, hs⟩ := hs
    cases hs
    refine change_refl rfl rfl rfl (Or.inl ?_)
    exact dispatchers_set_le (t := { s with alive := false, dispatching := false }) hi rfl rfl
      (fun hfalse => by cases hfalse) o

/-- What a step may do to the names and to those who hold a queue. -/
structure Frame (w w' : World κ) : Prop where
  created : w.queues.created ≤ w'.queues.created
  names : ∀ k o, w'.queues.names k = some o → w.queues.names k = some o ∨
    w.queues.created ≤ o ∧ o < w'.queues.created
  servers : ∀ s ∈ w'.servers, s.messageQueue < w'.queues.created ∨
    ∃ t ∈ w.servers, s.messageQueue = t.messageQueue
  clients : ∀ o ∈ w'.clients, o < w'.queues.created ∨ o ∈ w.clients

omit [DecidableEq κ] in
theorem frame_set {i : Nat} {s t : Server κ} (hi : w.servers[i]? = some s)
    (hservers : w'.servers = w.servers.set i t) (hqueue : t.messageQueue = s.messageQueue)
    (hclients : w'.clients = w.clients)
    (hcreated : w'.queues.created = w.queues.created)
    (hnames : ∀ k o, w'.queues.names k = some o → w.queues.names k = some o) : Frame w w' where
  created := Nat.le_of_eq hcreated.symm
  names := fun k o ho => Or.inl (hnames k o ho)
  servers := by
    intro x hx
    rw [hservers] at hx
    right
    rcases List.mem_or_eq_of_mem_set hx with hx | rfl
    · exact ⟨x, hx, rfl⟩
    · exact ⟨s, List.mem_of_getElem? hi, hqueue⟩
  clients := fun o ho => Or.inr (hclients ▸ ho)

omit [DecidableEq κ] in
theorem frame_send {object : Nat} {m : Message} (h : w.send object m = some w') : Frame w w' := by
  obtain ⟨hservers, hclients, hnames, hcreated, -⟩ := send_frame h
  constructor
  · exact Nat.le_of_eq hcreated.symm
  · exact fun k o ho => Or.inl (hnames ▸ ho)
  · exact fun s hs => Or.inr ⟨s, hservers ▸ hs, rfl⟩
  · exact fun o ho => Or.inr (hclients ▸ ho)

theorem frame_open (h : Inv w) {channel : κ} (hqueues : w'.queues = (w.queues.openOrCreate channel).2)
    (hservers : ∀ s ∈ w'.servers, s ∈ w.servers ∨ s.messageQueue = (w.queues.openOrCreate channel).1)
    (hclients : ∀ o ∈ w'.clients, o ∈ w.clients ∨ o = (w.queues.openOrCreate channel).1) : Frame w w' := by
  have hopened : (w.queues.openOrCreate channel).1 < w'.queues.created ∧ w.queues.created ≤ w'.queues.created ∧
      (w.queues.names channel = some (w.queues.openOrCreate channel).1 ∨
        w.queues.created ≤ (w.queues.openOrCreate channel).1) := by
    rw [hqueues]
    rcases MessageQueues.openOrCreate_object w.queues channel with ⟨hname, hsame⟩ | ⟨-, hobject, hcreated, -⟩
    · rw [hsame]
      exact ⟨h.names channel _ hname, Nat.le_refl _, Or.inl hname⟩
    · rw [hobject, hcreated]
      exact ⟨Nat.lt_succ_self _, Nat.le_succ _, Or.inr (Nat.le_refl _)⟩
  obtain ⟨hlt, hmono, hname⟩ := hopened
  constructor
  · exact hmono
  · intro k o ho
    rw [hqueues, MessageQueues.openOrCreate_name] at ho
    by_cases hk : k = channel
    · subst hk
      rw [Function.update_self, Option.some.injEq] at ho
      subst ho
      rcases hname with hname | hnew
      · exact Or.inl hname
      · exact Or.inr ⟨hnew, hlt⟩
    · rw [Function.update_of_ne hk] at ho
      exact Or.inl ho
  · intro s hs
    rcases hservers s hs with hs | hs
    · exact Or.inr ⟨s, hs, rfl⟩
    · exact Or.inl (hs ▸ hlt)
  · intro o ho
    rcases hclients o ho with ho | ho
    · exact Or.inr ho
    · exact Or.inl (ho ▸ hlt)

theorem step_frame (h : Inv w) {e : Event κ} (hs : step w e = some w') : Frame w w' := by
  cases e with
  | openServer channel =>
    cases hs
    refine frame_open h rfl (fun s hs => ?_) (fun o ho => Or.inl ho)
    rcases List.mem_append.mp hs with hs | hs
    · exact Or.inl hs
    · rw [List.mem_singleton.mp hs]
      exact Or.inr rfl
  | openClient channel =>
    cases hs
    refine frame_open h rfl (fun s hs => Or.inl hs) (fun o ho => ?_)
    rcases List.mem_append.mp ho with ho | ho
    · exact Or.inl ho
    · exact Or.inr (List.mem_singleton.mp ho)
  | clear channel =>
    cases hs
    exact ⟨Nat.le_refl _, fun k o ho => Or.inl (MessageQueues.remove_le ho), fun s hs => Or.inr ⟨s, hs, rfl⟩,
      fun o ho => Or.inr ho⟩
  | request client env =>
    obtain ⟨object, -, hs⟩ := Option.bind_eq_some_iff.mp hs
    exact frame_send hs
  | createTopic i topicName | removeTopic i topicName =>
    simp only [step, Option.bind_eq_some_iff, Option.ite_none_right_eq_some] at hs
    obtain ⟨s, -, -, hs⟩ := hs
    exact frame_send hs
  | close i =>
    simp only [step, Option.bind_eq_some_iff, Option.ite_none_right_eq_some, Option.map_eq_some_iff] at hs
    obtain ⟨s, hi, -, v, hv, rfl⟩ := hs
    obtain ⟨-, hclients, hnames, hcreated, -⟩ := send_frame hv
    exact frame_set (t := { s with closing := true }) hi rfl rfl hclients hcreated (fun k o ho => hnames ▸ ho)
  | dispatch i =>
    simp only [step, Option.bind_eq_some_iff, Option.ite_none_right_eq_some, Option.map_eq_some_iff] at hs
    obtain ⟨s, hi, -, r, hr, rfl⟩ := hs
    obtain ⟨rest, -, hnames, hcreated, -⟩ := MessageQueues.receive_some hr
    exact frame_set hi rfl (handle_messageQueue s _) rfl hcreated (fun k o ho => hnames ▸ ho)
  | destroy i =>
    simp only [step, Option.bind_eq_some_iff, Option.ite_none_right_eq_some] at hs
    obtain ⟨s, hi, -, hs⟩ := hs
    cases hs
    refine frame_set (t := { s with alive := false }) hi rfl rfl rfl ?_ fun k o ho => ?_
    · change (if s.topics = [] then w.queues.remove s.channel else w.queues).created = w.queues.created
      split <;> rfl
    · change (if s.topics = [] then w.queues.remove s.channel else w.queues).names k = some o at ho
      split at ho
      · exact MessageQueues.remove_le ho
      · exact ho
  | crash i =>
    simp only [step, Option.bind_eq_some_iff, Option.ite_none_right_eq_some] at hs
    obtain ⟨s, hi, -, hs⟩ := hs
    cases hs
    exact frame_set (t := { s with alive := false, dispatching := false }) hi rfl rfl rfl rfl (fun k o ho => ho)

omit [DecidableEq κ] in
/-- A queue that has lost its name does not get it back. -/
theorem frame_unnamed {k : κ} {o : Nat} (hframe : Frame w w') (hknown : o < w.queues.created)
    (hunnamed : w.queues.names k ≠ some o) : w'.queues.names k ≠ some o := by
  intro hname
  rcases hframe.names k o hname with hold | ⟨hnew, -⟩
  · exact hunnamed hold
  · exact absurd hknown (Nat.not_lt.mpr hnew)

theorem inv_step (h : Inv w) {e : Event κ} (hs : step w e = some w') : Inv w' := by
  have hframe := step_frame h hs
  constructor
  · intro k o ho
    rcases hframe.names k o ho with hold | ⟨-, hnew⟩
    · exact Nat.lt_of_lt_of_le (h.names k o hold) hframe.created
    · exact hnew
  · intro s hs
    rcases hframe.servers s hs with hnew | ⟨t, ht, hqueue⟩
    · exact hnew
    · rw [hqueue]
      exact Nat.lt_of_lt_of_le (h.servers t ht) hframe.created
  · intro o ho
    rcases hframe.clients o ho with hnew | hold
    · exact hnew
    · exact Nat.lt_of_lt_of_le (h.clients o hold) hframe.created
  · intro o ho
    have hempty := h.empty o (Nat.le_trans hframe.created ho)
    cases step_change h hs o with
    | put new known contents sent received dispatchers =>
      rw [contents, hempty, List.nil_append]
      by_contra hne
      exact absurd (known hne) (Nat.not_lt.mpr (Nat.le_trans hframe.created ho))
    | taken i m contents sent received dispatchers dispatching =>
      rw [hempty] at contents
      cases contents
  · intro o
    have haccount := h.account o
    cases step_change h hs o with
    | put new known contents sent received dispatchers =>
      rw [sent, haccount, received, contents, List.append_assoc]
    | taken i m contents sent received dispatchers dispatching =>
      rw [sent, haccount, received, contents, List.map_append, List.append_assoc]
      rfl

theorem inv_run {es : List (Event κ)} (h : run step start es = some w) : Inv w :=
  run_invariant (fun _ _ _ hinv hstep => inv_step hinv hstep) inv_start h

/-- The name leads elsewhere, and every dispatcher on the queue has an exit message to take
before it gets to the message. -/
structure Lost (o n : Nat) (w : World κ) : Prop where
  unnamed : ∀ k, w.queues.names k ≠ some o
  known : o < w.queues.created
  sent : n < (w.sent o).length
  waits : (w.received o).length ≤ n
  blocked : w.dispatchers o ≤ exits (w.ahead o n)

theorem lost_step {o n : Nat} (h : Inv w) (hlost : Lost o n w) {e : Event κ} (hs : step w e = some w') :
    Lost o n w' := by
  have hframe := step_frame h hs
  have hunnamed : ∀ k, w'.queues.names k ≠ some o :=
    fun k => frame_unnamed hframe hlost.known (hlost.unnamed k)
  have hknown := Nat.lt_of_lt_of_le hlost.known hframe.created
  have hlength : (w.sent o).length = (w.received o).length + (w.queues.contents o).length := by
    rw [h.account o, List.length_append, List.length_map]
  have hsent := hlost.sent
  have hwaits := hlost.waits
  have hblocked := hlost.blocked
  cases step_change h hs o with
  | put new known contents sent received dispatchers =>
    refine ⟨hunnamed, hknown, ?_, received ▸ hwaits, ?_⟩
    · rw [sent, List.length_append]
      omega
    · have hdispatchers : w'.dispatchers o ≤ w.dispatchers o := by
        rcases dispatchers with hle | ⟨k, hk⟩
        · exact hle
        · exact absurd hk (hunnamed k)
      rw [World.ahead, received, contents, List.take_append_of_le_length (by omega)]
      exact Nat.le_trans hdispatchers hblocked
  | taken i m contents sent received dispatchers dispatching =>
    -- a dispatcher took something, so the message was not the first
    have hlt : (w.received o).length < n := by
      by_contra hge
      have hzero : n - (w.received o).length = 0 := by omega
      rw [World.ahead, hzero, List.take_zero] at hblocked
      exact absurd (Nat.lt_of_lt_of_le dispatching hblocked) (Nat.lt_irrefl 0)
    refine ⟨hunnamed, hknown, sent ▸ hsent, ?_, ?_⟩
    · rw [received, List.length_append, List.length_singleton]
      omega
    · have hnext : n - (w.received o).length = n - (w'.received o).length + 1 := by
        rw [received, List.length_append, List.length_singleton]
        omega
      rw [World.ahead, contents, hnext, List.take_succ_cons, ← List.singleton_append, exits,
        List.countP_append] at hblocked
      rw [dispatchers, exits] at hblocked
      rw [World.ahead, exits]
      omega

section Receiving

variable {o n : Nat} {m : Message}

omit [DecidableEq κ] in
theorem received_of_lt (h : Inv w) (hm : (w.sent o)[n]? = some m) (hlt : n < (w.received o).length) :
    ∃ i, (w.received o)[n]? = some (i, m) := by
  rw [h.account o, List.getElem?_append_left (by rwa [List.length_map]), List.getElem?_map] at hm
  obtain ⟨⟨i, m'⟩, hget, rfl⟩ := Option.map_eq_some_iff.mp hm
  exact ⟨i, hget⟩

theorem sent_step (h : Inv w) {e : Event κ} (hs : step w e = some w') (hm : (w.sent o)[n]? = some m) :
    (w'.sent o)[n]? = some m := by
  obtain ⟨hlt, -⟩ := List.getElem?_eq_some_iff.mp hm
  cases step_change h hs o with
  | put new known contents sent received dispatchers => rwa [sent, List.getElem?_append_left hlt]
  | taken i m' contents sent received dispatchers dispatching => rwa [sent]

/-- The history only grows. -/
theorem sent_run (h : Inv w) {es : List (Event κ)} (hrun : run step w es = some w') (hm : (w.sent o)[n]? = some m) :
    (w'.sent o)[n]? = some m := by
  have hkeep : ∀ (v : World κ) (e : Event κ) (v' : World κ), (Inv v ∧ (v.sent o)[n]? = some m) →
      step v e = some v' →
      Inv v' ∧ (v'.sent o)[n]? = some m :=
    fun v e v' hv hstep => ⟨inv_step hv.1 hstep, sent_step hv.1 hstep hv.2⟩
  exact (run_invariant (I := fun v => Inv v ∧ (v.sent o)[n]? = some m) hkeep ⟨h, hm⟩ hrun).2

/-- A dispatcher takes the first message. -/
theorem dispatch_step (h : Inv w) {i : Nat} {s : Server κ} (hi : w.servers[i]? = some s)
    (hdispatching : s.dispatching = true)
    {rest : List Message} (hcontents : w.queues.contents s.messageQueue = m :: rest) :
    ∃ w', step w (.dispatch i) = some w' ∧ w'.queues.names = w.queues.names ∧
      w'.servers = w.servers.set i (s.handle m) ∧
      w'.queues.contents s.messageQueue = rest ∧ w'.sent s.messageQueue = w.sent s.messageQueue ∧
      w'.received s.messageQueue = w.received s.messageQueue ++ [(i, m)] ∧
      w.dispatchers s.messageQueue = w'.dispatchers s.messageQueue + exits [m] := by
  have hreceive : w.queues.receive s.messageQueue = some (m, { w.queues with
      contents := Function.update w.queues.contents s.messageQueue rest }) := by
    rw [MessageQueues.receive, hcontents]
  have hstep : step w (.dispatch i) = some { w with
      queues := { w.queues with contents := Function.update w.queues.contents s.messageQueue rest }
      servers := w.servers.set i (s.handle m)
      received := Function.update w.received s.messageQueue (w.received s.messageQueue ++ [(i, m)]) } := by
    rw [step, hi, Option.bind_some, if_pos hdispatching, hreceive, Option.map_some]
  have hreceived : ∀ f : List (Nat × Message), Function.update w.received s.messageQueue f s.messageQueue = f :=
    fun f => Function.update_self ..
  refine ⟨_, hstep, rfl, rfl, Function.update_self .., rfl, hreceived _, ?_⟩
  cases step_change h hstep s.messageQueue with
  | put new known contents sent received dispatchers =>
    have hsame := (hreceived _).symm.trans received
    simp at hsame
  | taken j m' contents sent received dispatchers dispatching =>
    have hsame := (hreceived _).symm.trans received
    obtain ⟨-, heq⟩ := Prod.mk.inj (List.singleton_inj.mp (List.append_cancel_left hsame))
    subst heq
    exact dispatchers

/-- A queue whose name leads to it is emptied by servers that are opened for it. -/
theorem received_named (h : Inv w) {k : κ} (hk : w.queues.names k = some o) (hm : (w.sent o)[n]? = some m) :
    ∃ es w', run step w es = some w' ∧ n < (w'.received o).length := by
  induction hd : n + 1 - (w.received o).length generalizing w with
  | zero => exact ⟨[], w, rfl, by omega⟩
  | succ d ih =>
    obtain ⟨hlt, -⟩ := List.getElem?_eq_some_iff.mp hm
    have hlength : (w.sent o).length = (w.received o).length + (w.queues.contents o).length := by
      rw [h.account o, List.length_append, List.length_map]
    obtain ⟨first, rest, hcontents⟩ : ∃ first rest, w.queues.contents o = first :: rest :=
      List.exists_cons_of_length_pos (by omega)
    have hopen : w.queues.openOrCreate k = (o, w.queues) := by
      rw [MessageQueues.openOrCreate, hk]
    let v : World κ := { w with servers := w.servers ++ [.new k o] }
    have hv : step w (.openServer k) = some v := by
      rw [step, hopen]
    have hlast : v.servers[w.servers.length]? = some (.new k o) := List.getElem?_concat_length
    obtain ⟨u, hu, hnames, -, -, hsent, hreceived, -⟩ := dispatch_step (inv_step h hv) hlast rfl hcontents
    have hone : (u.received o).length = (w.received o).length + 1 :=
      (congrArg List.length hreceived).trans (List.length_append ..)
    obtain ⟨es, w', hrun, hdone⟩ := ih (w := u) (inv_step (inv_step h hv) hu) ((congrFun hnames k).trans hk)
      ((congrArg (·[n]?) hsent).trans hm) (by omega)
    refine ⟨.openServer k :: .dispatch w.servers.length :: es, w', ?_, hdone⟩
    rw [run_cons, hv, Option.bind_some, run_cons, hu]
    exact hrun

/-- The dispatchers that run pass as many exit messages as there are of them. -/
theorem received_dispatched (h : Inv w) (hm : (w.sent o)[n]? = some m)
    (hexits : exits (w.ahead o n) < w.dispatchers o) :
    ∃ es w', run step w es = some w' ∧ n < (w'.received o).length := by
  induction hd : n + 1 - (w.received o).length generalizing w with
  | zero => exact ⟨[], w, rfl, by omega⟩
  | succ d ih =>
    obtain ⟨hlt, -⟩ := List.getElem?_eq_some_iff.mp hm
    have hlength : (w.sent o).length = (w.received o).length + (w.queues.contents o).length := by
      rw [h.account o, List.length_append, List.length_map]
    obtain ⟨first, rest, hcontents⟩ : ∃ first rest, w.queues.contents o = first :: rest :=
      List.exists_cons_of_length_pos (by omega)
    obtain ⟨s, hs, hqueue⟩ := List.countP_pos_iff.mp (Nat.lt_of_le_of_lt (Nat.zero_le _) hexits)
    rw [Bool.and_eq_true, beq_iff_eq] at hqueue
    obtain ⟨hdispatching, rfl⟩ := hqueue
    obtain ⟨i, hi⟩ := List.mem_iff_getElem?.mp hs
    obtain ⟨u, hu, -, -, hrest, hsent, hreceived, hcount⟩ := dispatch_step h hi hdispatching hcontents
    have hone : (u.received s.messageQueue).length = (w.received s.messageQueue).length + 1 :=
      (congrArg List.length hreceived).trans (List.length_append ..)
    by_cases hdone : n < (u.received s.messageQueue).length
    · exact ⟨[.dispatch i], u, run_step hu, hdone⟩
    · have hnext : n - (w.received s.messageQueue).length = n - (u.received s.messageQueue).length + 1 := by
        omega
      have hahead : exits (u.ahead s.messageQueue n) < u.dispatchers s.messageQueue := by
        rw [World.ahead, hcontents, hnext, List.take_succ_cons, ← List.singleton_append, exits, List.countP_append,
          hcount, exits, ← hrest] at hexits
        rw [World.ahead, exits]
        omega
      obtain ⟨es, w', hrun, hend⟩ := ih (w := u) (inv_step h hu) (by rwa [hsent]) hahead (by omega)
      refine ⟨.dispatch i :: es, w', ?_, hend⟩
      rw [run_cons, hu]
      exact hrun

end Receiving

/-- A message in a queue can still be received if and only if the name leads to the queue, or more
dispatchers run on it than exit messages wait in front of the message. -/
theorem received_some_day_iff (es : List (Event κ)) (w : World κ) (h : run step start es = some w) (o n : Nat)
    (m : Message) (hm : (w.sent o)[n]? = some m) :
    (∃ fs w' i, run step w fs = some w' ∧ (w'.received o)[n]? = some (i, m)) ↔
    n < (w.received o).length ∨ (∃ k, w.queues.names k = some o) ∨ exits (w.ahead o n) < w.dispatchers o := by
  have hinv := inv_run h
  constructor
  · rintro ⟨fs, w', i, hrun, hreceived⟩
    by_contra hnot
    simp only [not_or, not_exists, Nat.not_lt] at hnot
    obtain ⟨hwaits, hunnamed, hblocked⟩ := hnot
    obtain ⟨hlt, -⟩ := List.getElem?_eq_some_iff.mp hm
    have hknown : o < w.queues.created := by
      by_contra hge
      have haccount := congrArg List.length (hinv.account o)
      rw [hinv.empty o (Nat.not_lt.mp hge), List.append_nil, List.length_map] at haccount
      omega
    have hlost : Lost o n w := ⟨hunnamed, hknown, hlt, hwaits, hblocked⟩
    have hkeep : ∀ (v : World κ) (e : Event κ) (v' : World κ), (Inv v ∧ Lost o n v) → step v e = some v' →
        Inv v' ∧ Lost o n v' :=
      fun v e v' hv hstep => ⟨inv_step hv.1 hstep, lost_step hv.1 hv.2 hstep⟩
    have hend := (run_invariant (I := fun v => Inv v ∧ Lost o n v) hkeep ⟨hinv, hlost⟩ hrun).2.waits
    obtain ⟨hgot, -⟩ := List.getElem?_eq_some_iff.mp hreceived
    omega
  · intro hcases
    have hcan : ∃ fs w', run step w fs = some w' ∧ n < (w'.received o).length := by
      rcases hcases with hlt | ⟨k, hk⟩ | hexits
      · exact ⟨[], w, rfl, hlt⟩
      · exact received_named hinv hk hm
      · exact received_dispatched hinv hm hexits
    obtain ⟨fs, w', hrun, hlt⟩ := hcan
    have hinv' : Inv w' := run_invariant (fun _ _ _ hv hstep => inv_step hv hstep) hinv hrun
    obtain ⟨i, hi⟩ := received_of_lt hinv' (sent_run hinv hrun hm) hlt
    exact ⟨fs, w', i, hrun, hi⟩

/-- A server without topics closes before it has taken a request. -/
def overtaken : List (Event Nat) :=
  [.openServer 0, .openClient 0, .close 0, .request 0 ⟨7, 1, .hello 0⟩, .dispatch 0, .destroy 0]

theorem received_some_day_overtaken : ∃ w, run step start overtaken = some w ∧
    ((∃ fs w' i, run step w fs = some w' ∧ (w'.received 0)[1]? = some (i, .request ⟨7, 1, .hello 0⟩)) ↔
    1 < (w.received 0).length ∨ (∃ k, w.queues.names k = some 0) ∨ exits (w.ahead 0 1) < w.dispatchers 0) :=
  ⟨_, rfl, received_some_day_iff overtaken _ rfl 0 1 _ rfl⟩

section Attached

/-- The events that take the name from a channel's queue. -/
def Unlinks (k : κ) (w : World κ) : Event κ → Prop
  | .clear channel => channel = k
  | .destroy i => ∃ s, w.servers[i]? = some s ∧ s.channel = k ∧ s.topics = []
  | _ => False

/-- The queue that who comes now gets. -/
def World.opened (w : World κ) (k : κ) : Nat := (w.queues.openOrCreate k).1

variable {k : κ} {o : Nat}

theorem names_remove (q : MessageQueues κ Message) (channel : κ) (hname : q.names k = some o) :
    (q.remove channel).names k = some o ↔ channel ≠ k := by
  rw [MessageQueues.remove]
  by_cases hk : channel = k
  · subst hk
    simp
  · simp [Function.update_of_ne (Ne.symm hk), hname, hk]

theorem names_open (channel : κ) (hname : w.queues.names k = some o) :
    (w.queues.openOrCreate channel).2.names k = some o := by
  rw [MessageQueues.openOrCreate_name]
  by_cases hk : k = channel
  · subst hk
    rw [Function.update_self, MessageQueues.openOrCreate, hname]
  · rwa [Function.update_of_ne hk]

/-- A name is lost by these events only. -/
theorem step_names_iff {e : Event κ} (hname : w.queues.names k = some o) (hs : step w e = some w') :
    w'.queues.names k = some o ↔ ¬ Unlinks k w e := by
  cases e with
  | openServer channel | openClient channel =>
    cases hs
    simp only [Unlinks, not_false_eq_true, iff_true]
    exact names_open channel hname
  | clear channel =>
    cases hs
    exact names_remove w.queues channel hname
  | request client env =>
    obtain ⟨object, -, hs⟩ := Option.bind_eq_some_iff.mp hs
    rw [(send_frame hs).2.2.1]
    simp [Unlinks, hname]
  | createTopic i topicName | removeTopic i topicName =>
    simp only [step, Option.bind_eq_some_iff, Option.ite_none_right_eq_some] at hs
    obtain ⟨s, -, -, hs⟩ := hs
    rw [(send_frame hs).2.2.1]
    simp [Unlinks, hname]
  | close i =>
    simp only [step, Option.bind_eq_some_iff, Option.ite_none_right_eq_some, Option.map_eq_some_iff] at hs
    obtain ⟨s, -, -, v, hv, rfl⟩ := hs
    change v.queues.names k = some o ↔ _
    rw [(send_frame hv).2.2.1]
    simp [Unlinks, hname]
  | dispatch i =>
    simp only [step, Option.bind_eq_some_iff, Option.ite_none_right_eq_some, Option.map_eq_some_iff] at hs
    obtain ⟨s, -, -, r, hr, rfl⟩ := hs
    obtain ⟨rest, -, hnames, -⟩ := MessageQueues.receive_some hr
    simp [Unlinks, hnames, hname]
  | destroy i =>
    simp only [step, Option.bind_eq_some_iff, Option.ite_none_right_eq_some] at hs
    obtain ⟨s, hi, -, hs⟩ := hs
    cases hs
    by_cases htopics : s.topics = []
    · simp only [htopics, if_true, names_remove w.queues s.channel hname, Unlinks, hi, Option.some.injEq,
        exists_eq_left', and_true, ne_eq]
    · simp [htopics, Unlinks, hi, hname]
  | crash i =>
    simp only [step, Option.bind_eq_some_iff, Option.ite_none_right_eq_some] at hs
    obtain ⟨s, -, -, hs⟩ := hs
    cases hs
    simp [Unlinks, hname]

theorem opened_iff (hknown : o < w.queues.created) : w.opened k = o ↔ w.queues.names k = some o := by
  constructor
  · intro heq
    rcases MessageQueues.openOrCreate_object w.queues k with ⟨hname, -⟩ | ⟨-, hobject, -⟩
    · exact heq ▸ hname
    · rw [World.opened, hobject] at heq
      exact absurd hknown (heq ▸ Nat.lt_irrefl _)
  · intro hname
    rw [World.opened, MessageQueues.openOrCreate, hname]

/-- Two that open a channel one after the other, servers or clients, have the same queue if and
only if nothing in between took its name away. -/
theorem attached_iff (es : List (Event κ)) (w w₁ w₂ : World κ) (k : κ) (e : Event κ) (fs : List (Event κ))
    (he : e = .openServer k ∨ e = .openClient k) (h : run step start es = some w) (hs : step w e = some w₁)
    (hrun : run step w₁ fs = some w₂) :
    w₂.opened k = w.opened k ↔ Guarded step (fun v f => ¬ Unlinks k v f) w₁ fs := by
  have hinv : Inv w₁ := inv_step (inv_run h) hs
  have hname : w₁.queues.names k = some (w.opened k) := by
    rcases he with rfl | rfl <;>
    · cases hs
      rw [MessageQueues.openOrCreate_name, Function.update_self]
      rfl
  have hkeep : ∀ (v : World κ) (f : Event κ) (v' : World κ), (Inv v ∧ w.opened k < v.queues.created) →
      step v f = some v' → Inv v' ∧ w.opened k < v'.queues.created :=
    fun v f v' hv hstep => ⟨inv_step hv.1 hstep, Nat.lt_of_lt_of_le hv.2 (step_frame hv.1 hstep).created⟩
  have hstart : Inv w₁ ∧ w.opened k < w₁.queues.created := ⟨hinv, hinv.names k _ hname⟩
  rw [opened_iff (run_invariant hkeep hstart hrun).2]
  refine end_iff_guarded (P := fun v => v.queues.names k = some (w.opened k)) hkeep ?_ ?_ hstart hname hrun
  · exact fun v f v' _ hv hstep => step_names_iff hv hstep
  · exact fun v f v' hv hlost hstep => frame_unnamed (step_frame hv.1 hstep) hv.2 hlost

/-- The client of a server that goes away without topics, and the next server. -/
theorem attached_overtaken : ∃ w w₁ w₂, run step start (overtaken.take 1) = some w ∧
    step w (.openClient 0) = some w₁ ∧ run step w₁ (overtaken.drop 2) = some w₂ ∧
    (w₂.opened 0 = w.opened 0 ↔ Guarded step (fun v f => ¬ Unlinks 0 v f) w₁ (overtaken.drop 2)) :=
  ⟨_, _, _, rfl, rfl, rfl, attached_iff (overtaken.take 1) _ _ _ 0 (.openClient 0) (overtaken.drop 2)
    (Or.inr rfl) rfl rfl rfl⟩

end Attached

end ServerRestarts
