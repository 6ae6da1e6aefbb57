import ZeroCopyRpc.SharedMemoryServer
import ZeroCopyRpc.Transitions

/-!
# Clients that come and go, and where their replies end up

Client instances are built and destroyed over time, at most one at a time in
each process because the constructor creates the response queue of that name.
A call returns when its reply has been received, so an instance is destroyed
only when it waits for nothing; until then its queue keeps its name, and the
server handles a request in one step here.

The server keeps the handle it opened for a process id for its whole life. A
later instance in the same process has a new queue object under the same name,
and the server goes on writing into the old one.
-/
namespace ReplyRouting

open Transitions

/-- `messages` are the correlation ids with a callback; `clientQueue` is the object it created. -/
structure SharedMemoryClient where
  pid : Nat
  clientQueue : Nat
  alive : Bool
  messages : List Nat
  deriving DecidableEq, Repr

/-- A request in the server's queue, with the instance that sent it; the server sees the envelope only. -/
structure Packet where
  sender : Nat
  envelope : RequestEnvelope
  deriving DecidableEq, Repr

/-- A request the server has handled, and the queue object its reply was put into. -/
structure Handled where
  packet : Packet
  reply : Option Nat
  deriving DecidableEq, Repr

structure State where
  server : SharedMemoryServer
  srvQueue : List Packet
  queues : ResponseQueues
  clients : Nat → Option SharedMemoryClient
  instances : Nat
  nextId : Nat
  handled : List Handled

inductive Event where
  | create (pid : Nat)
  | request (client : Nat) (command : Command)
  | dispatch (chance : Chance)
  | receive (client : Nat)
  | destroy (client : Nat)
  -- what topics are created, removed and published to in between
  | changeTopics (topics : TopicName → Option TopicService)

def State.setClient (s : State) (i : Nat) (c : SharedMemoryClient) : State :=
  { s with clients := Function.update s.clients i (some c) }

def step : Machine State Event
  | s, .create pid =>
    match s.queues.createOnly pid with
    | none => some s
    | some (object, queues) =>
      some { s.setClient s.instances ⟨pid, object, true, []⟩ with
        queues := queues
        instances := s.instances + 1 }
  | s, .request i command =>
    match s.clients i with
    | none => none
    | some c =>
      if c.alive = true ∧ s.srvQueue.length < 256 then
        some { s.setClient i { c with messages := s.nextId :: c.messages } with
          srvQueue := s.srvQueue ++ [⟨i, ⟨s.nextId, c.pid, command⟩⟩]
          nextId := s.nextId + 1 }
      else none
  | s, .dispatch chance =>
    match s.srvQueue with
    | [] => none
    | packet :: rest =>
      match s.server.dispatchMessage s.queues packet.envelope chance with
      | none => none
      | some d =>
        some { s with
          server := d.server
          srvQueue := rest
          queues := d.queues
          handled := ⟨packet, d.reply⟩ :: s.handled }
  | s, .receive i =>
    match s.clients i with
    | none => none
    | some c =>
      if c.alive then
        match s.queues.receive c.clientQueue with
        | none => none
        | some (env, queues) =>
          -- the callback of the correlation id, if there is one, ends the call and is removed
          some { s.setClient i { c with messages := c.messages.filter (· ≠ env.correlationId) } with
            queues := queues }
      else none
  | s, .destroy i =>
    match s.clients i with
    | none => none
    | some c =>
      -- the dispatcher thread reads up to the exit message, then the name is removed
      if c.alive = true ∧ c.messages = [] then
        some { s.setClient i { c with alive := false } with
          queues := (s.queues.drain c.clientQueue).remove c.pid }
      else none
  | s, .changeTopics topics => some { s with server := { s.server with topics := topics } }

def start (topics : TopicName → Option TopicService) : State :=
  ⟨.new topics, [], .fresh, fun _ => none, 0, 0, []⟩

/-- Every reply went into the queue object that the sender of its request created. -/
def RepliesReachSender (s : State) : Prop :=
  ∀ x ∈ s.handled, ∀ o, x.reply = some o →
    ∃ c, s.clients x.packet.sender = some c ∧ c.clientQueue = o

/-- The requests of one process that the server has handled come from one client instance. -/
def OneClientPerProcess (s : State) : Prop :=
  ∀ x ∈ s.handled, ∀ y ∈ s.handled, x.packet.envelope.pid = y.packet.envelope.pid →
    x.packet.sender = y.packet.sender

/-- An instance that may be waiting: its queue still bears the name of its process. -/
structure WellPlaced (s : State) : Prop where
  built : ∀ i c, s.clients i = some c → i < s.instances ∧ c.clientQueue < s.queues.created
  apart : ∀ i j c d, s.clients i = some c → s.clients j = some d → c.clientQueue = d.clientQueue → i = j
  named : ∀ i c, s.clients i = some c → c.alive = true → s.queues.names c.pid = some c.clientQueue

/-- Ids of calls: a request under way is waited for, and its id occurs nowhere else. -/
structure WellNumbered (s : State) : Prop where
  pending : ∀ p ∈ s.srvQueue, ∃ c, s.clients p.sender = some c ∧ c.alive = true ∧ c.pid = p.envelope.pid ∧
    p.envelope.correlationId ∈ c.messages
  distinct : (s.srvQueue.map (fun p => p.envelope.correlationId)).Nodup
  fresh : ∀ p ∈ s.srvQueue, p.envelope.correlationId < s.nextId
  answered : ∀ o, ∀ env ∈ s.queues.contents o, env.correlationId < s.nextId ∧
    ∀ p ∈ s.srvQueue, p.envelope.correlationId ≠ env.correlationId

/-- Some reply went into a queue that its request's sender did not create. -/
def Misrouted (s : State) : Prop :=
  ∃ x ∈ s.handled, ∃ o, x.reply = some o ∧ ∀ c, s.clients x.packet.sender = some c → c.clientQueue ≠ o

/-- The handle the server keeps for a process belongs to the first instance it
served there, and every reply to that process went through it. -/
structure WellCached (s : State) : Prop where
  sender : ∀ x ∈ s.handled, ∃ c, s.clients x.packet.sender = some c ∧ c.pid = x.packet.envelope.pid
  reply : ∀ x ∈ s.handled, ∃ m, s.server.clients x.packet.envelope.pid = some m ∧
    (x.reply = none ∨ x.reply = some m)
  cached : ∀ pid m, s.server.clients pid = some m →
    ∃ x ∈ s.handled, x.packet.envelope.pid = pid ∧ x.reply = some m ∧
    ∃ c, s.clients x.packet.sender = some c ∧ c.clientQueue = m
  served : ∀ m, s.queues.contents m ≠ [] → ∃ pid, s.server.clients pid = some m
  -- what lies in the queue of a destroyed instance was meant for a later one
  unread : ∀ i c, s.clients i = some c → c.alive = false → s.queues.contents c.clientQueue ≠ [] →
    ∃ x ∈ s.handled, x.reply = some c.clientQueue ∧ x.packet.sender ≠ i
  strays : ∀ x ∈ s.handled, ∀ y ∈ s.handled, x.packet.envelope.pid = y.packet.envelope.pid →
    x.packet.sender ≠ y.packet.sender → Misrouted s

structure Inv (s : State) : Prop where
  placed : WellPlaced s
  numbered : WellNumbered s
  cache : WellCached s

theorem setClient_cases {clients : Nat → Option SharedMemoryClient} {i j : Nat} {c d : SharedMemoryClient}
    (h : Function.update clients i (some c) j = some d) : (j = i ∧ d = c) ∨ (j ≠ i ∧ clients j = some d) := by
  by_cases hj : j = i
  · subst hj
    rw [Function.update_self, Option.some.injEq] at h
    exact Or.inl ⟨rfl, h.symm⟩
  · rw [Function.update_of_ne hj] at h
    exact Or.inr ⟨hj, h⟩

/-- An instance keeps its process and its queue when its callbacks change or it is destroyed. -/
def Keeps (before after : Nat → Option SharedMemoryClient) : Prop :=
  ∀ i c, before i = some c → ∃ d, after i = some d ∧ d.pid = c.pid ∧ d.clientQueue = c.clientQueue

theorem keeps_new {clients : Nat → Option SharedMemoryClient} {i : Nat} (c : SharedMemoryClient)
    (hi : clients i = none) : Keeps clients (Function.update clients i (some c)) := by
  intro j d hd
  have hj : j ≠ i := by
    rintro rfl
    rw [hi] at hd
    cases hd
  exact ⟨d, by rw [Function.update_of_ne hj, hd], rfl, rfl⟩

theorem keeps_edit {clients : Nat → Option SharedMemoryClient} {i : Nat} {c c' : SharedMemoryClient}
    (hi : clients i = some c) (hpid : c'.pid = c.pid) (hqueue : c'.clientQueue = c.clientQueue) :
    Keeps clients (Function.update clients i (some c')) := by
  intro j d hd
  by_cases hj : j = i
  · subst hj
    rw [hi] at hd
    cases hd
    exact ⟨c', Function.update_self .., hpid, hqueue⟩
  · exact ⟨d, by rw [Function.update_of_ne hj, hd], rfl, rfl⟩

/-- Replies do not move: only the server's own step adds to what it has handled. -/
theorem cached_of_keeps {s t : State} (h : WellCached s) (hc : Keeps s.clients t.clients)
    (hserver : t.server.clients = s.server.clients) (hhandled : t.handled = s.handled)
    (hserved : ∀ m, t.queues.contents m ≠ [] → s.queues.contents m ≠ [])
    (hunread : ∀ i c, t.clients i = some c → c.alive = false → t.queues.contents c.clientQueue ≠ [] →
      ∃ d, s.clients i = some d ∧ d.alive = false ∧ d.clientQueue = c.clientQueue) : WellCached t where
  sender := by
    rw [hhandled]
    intro x hx
    obtain ⟨c, hcl, hpid⟩ := h.sender x hx
    obtain ⟨d, hd, hdpid, -⟩ := hc _ c hcl
    exact ⟨d, hd, hdpid.trans hpid⟩
  reply := by
    rw [hhandled, hserver]
    exact h.reply
  cached := by
    rw [hhandled, hserver]
    intro pid m hm
    obtain ⟨x, hx, hpid, hreply, c, hcl, hq⟩ := h.cached pid m hm
    obtain ⟨d, hd, -, hdq⟩ := hc _ c hcl
    exact ⟨x, hx, hpid, hreply, d, hd, hdq.trans hq⟩
  served := by
    rw [hserver]
    exact fun m hm => h.served m (hserved m hm)
  unread := by
    rw [hhandled]
    intro i c hcl hdead hne
    obtain ⟨d, hd, hddead, hq⟩ := hunread i c hcl hdead hne
    rw [← hq] at hne ⊢
    exact h.unread i d hd hddead (hserved _ hne)
  strays := by
    rw [hhandled]
    intro x hx y hy hpid hne
    obtain ⟨z, hz, o, ho, hstray⟩ := h.strays x hx y hy hpid hne
    refine ⟨z, hhandled ▸ hz, o, ho, ?_⟩
    intro d hd
    obtain ⟨c, hcl, -⟩ := h.sender z hz
    obtain ⟨e, he, -, heq⟩ := hc _ c hcl
    rw [hd] at he
    cases he
    rw [heq]
    exact hstray c hcl

theorem inv_start (topics : TopicName → Option TopicService) : Inv (start topics) where
  placed := by constructor <;> simp [start]
  numbered := by constructor <;> simp [start, MessageQueues.fresh]
  cache := by constructor <;> simp [start, SharedMemoryServer.new, MessageQueues.fresh]

theorem inv_create {s : State} {pid object : Nat} {queues : ResponseQueues} (h : Inv s)
    (hcreate : s.queues.createOnly pid = some (object, queues)) :
    Inv { s.setClient s.instances ⟨pid, object, true, []⟩ with
      queues := queues
      instances := s.instances + 1 } := by
  obtain ⟨hfree, rfl, hnames, hcontents, hcreated⟩ := MessageQueues.createOnly_some hcreate
  have hnew : s.clients s.instances = none := by
    cases hc : s.clients s.instances with
    | none => rfl
    | some c => exact absurd (h.placed.built _ c hc).1 (Nat.lt_irrefl _)
  have hold : ∀ m, queues.contents m ≠ [] → s.queues.contents m ≠ [] := by
    intro m hm
    rw [hcontents] at hm
    by_cases he : m = s.queues.created
    · rw [he, Function.update_self] at hm
      exact absurd rfl hm
    · rwa [Function.update_of_ne he] at hm
  constructor
  · constructor
    · intro i c hi
      change i < s.instances + 1 ∧ c.clientQueue < queues.created
      rw [hcreated]
      rcases setClient_cases hi with ⟨rfl, rfl⟩ | ⟨-, hi⟩
      · exact ⟨Nat.lt_succ_self _, Nat.lt_succ_self _⟩
      · obtain ⟨h₁, h₂⟩ := h.placed.built i c hi
        omega
    · intro i j c d hi hj hq
      rcases setClient_cases hi with ⟨rfl, rfl⟩ | ⟨-, hi⟩ <;>
        rcases setClient_cases hj with ⟨rfl, rfl⟩ | ⟨-, hj⟩
      · rfl
      · exact absurd (hq ▸ (h.placed.built j d hj).2) (Nat.lt_irrefl _)
      · exact absurd (hq ▸ (h.placed.built i c hi).2) (Nat.lt_irrefl _)
      · exact h.placed.apart i j c d hi hj hq
    · intro i c hi halive
      change queues.names c.pid = some c.clientQueue
      rw [hnames]
      rcases setClient_cases hi with ⟨rfl, rfl⟩ | ⟨-, hi⟩
      · exact Function.update_self ..
      · have hn := h.placed.named i c hi halive
        have hne : c.pid ≠ pid := by
          rintro rfl
          rw [hfree] at hn
          cases hn
        rw [Function.update_of_ne hne, hn]
  · constructor
    · intro p hp
      obtain ⟨c, hc, hrest⟩ := h.numbered.pending p hp
      have hne : p.sender ≠ s.instances := (h.placed.built _ c hc).1.ne
      exact ⟨c, (Function.update_of_ne hne ..).trans hc, hrest⟩
    · exact h.numbered.distinct
    · exact h.numbered.fresh
    · intro o env henv
      change env ∈ queues.contents o at henv
      have hne := hold o (List.ne_nil_of_mem henv)
      by_cases he : o = s.queues.created
      · rw [he, hcontents, Function.update_self] at henv
        cases henv
      · rw [hcontents, Function.update_of_ne he] at henv
        exact h.numbered.answered o env henv
  · refine cached_of_keeps h.cache (keeps_new _ hnew) rfl rfl hold ?_
    intro i c hi hdead hne
    rcases setClient_cases hi with ⟨rfl, rfl⟩ | ⟨-, hi⟩
    · cases hdead
    · exact ⟨c, hi, hdead, rfl⟩

/-- An edit of an instance that is not brought back and does not lose its name. -/
theorem placed_edit {s t : State} {i : Nat} {c : SharedMemoryClient} (c' : SharedMemoryClient) (h : WellPlaced s)
    (hi : s.clients i = some c) (hpid : c'.pid = c.pid) (hqueue : c'.clientQueue = c.clientQueue)
    (halive : c'.alive = true → c.alive = true) (hclients : t.clients = Function.update s.clients i (some c'))
    (hinstances : t.instances = s.instances) (hcreated : t.queues.created = s.queues.created)
    (hnames : ∀ j d, t.clients j = some d → d.alive = true → t.queues.names d.pid = s.queues.names d.pid) :
    WellPlaced t := by
  have hback : ∀ j d, t.clients j = some d → ∃ e, s.clients j = some e ∧ e.pid = d.pid ∧
      e.clientQueue = d.clientQueue ∧ (d.alive = true → e.alive = true) := by
    intro j d hd
    rw [hclients] at hd
    rcases setClient_cases hd with ⟨rfl, rfl⟩ | ⟨-, hd⟩
    · exact ⟨c, hi, hpid.symm, hqueue.symm, halive⟩
    · exact ⟨d, hd, rfl, rfl, id⟩
  constructor
  · intro j d hd
    obtain ⟨e, he, -, hq, -⟩ := hback j d hd
    rw [hinstances, hcreated, ← hq]
    exact h.built j e he
  · intro j k d e hd he hq
    obtain ⟨d', hd', -, hqd, -⟩ := hback j d hd
    obtain ⟨e', he', -, hqe, -⟩ := hback k e he
    exact h.apart j k d' e' hd' he' (hqd.trans (hq.trans hqe.symm))
  · intro j d hd hlive
    obtain ⟨e, he, hp, hq, ha⟩ := hback j d hd
    rw [hnames j d hd hlive, ← hp, ← hq]
    exact h.named j e he (ha hlive)

theorem inv_request {s : State} {i : Nat} {c : SharedMemoryClient} (command : Command) (h : Inv s)
    (hi : s.clients i = some c) (halive : c.alive = true) :
    Inv { s.setClient i { c with messages := s.nextId :: c.messages } with
      srvQueue := s.srvQueue ++ [⟨i, ⟨s.nextId, c.pid, command⟩⟩]
      nextId := s.nextId + 1 } := by
  constructor
  · exact placed_edit { c with messages := s.nextId :: c.messages } h.placed hi rfl rfl id rfl rfl rfl
      (fun _ _ _ _ => rfl)
  · constructor
    · intro p hp
      rcases List.mem_append.mp hp with hp | hp
      · obtain ⟨d, hd, hlive, hpid, hmem⟩ := h.numbered.pending p hp
        by_cases he : p.sender = i
        · rw [he, hi] at hd
          cases hd
          refine ⟨{ c with messages := s.nextId :: c.messages }, ?_, hlive, hpid, List.mem_cons_of_mem _ hmem⟩
          rw [he]
          exact Function.update_self ..
        · exact ⟨d, (Function.update_of_ne he ..).trans hd, hlive, hpid, hmem⟩
      · rw [List.mem_singleton] at hp
        subst hp
        exact ⟨{ c with messages := s.nextId :: c.messages }, Function.update_self .., halive,
          rfl, List.mem_cons_self⟩
    · change ((s.srvQueue ++ [_]).map (fun p : Packet => p.envelope.correlationId)).Nodup
      rw [List.map_append, List.nodup_append]
      refine ⟨h.numbered.distinct, by simp, ?_⟩
      intro a ha b hb
      obtain ⟨p, hp, rfl⟩ := List.mem_map.mp ha
      simp only [List.map_cons, List.map_nil, List.mem_singleton] at hb
      have := h.numbered.fresh p hp
      omega
    · intro p hp
      change p.envelope.correlationId < s.nextId + 1
      rcases List.mem_append.mp hp with hp | hp
      · exact Nat.lt_succ_of_lt (h.numbered.fresh p hp)
      · rw [List.mem_singleton.mp hp]
        exact Nat.lt_succ_self _
    · intro o env henv
      obtain ⟨hlt, hne⟩ := h.numbered.answered o env henv
      refine ⟨Nat.lt_succ_of_lt hlt, ?_⟩
      intro p hp
      rcases List.mem_append.mp hp with hp | hp
      · exact hne p hp
      · rw [List.mem_singleton.mp hp]
        exact hlt.ne'
  · refine cached_of_keeps h.cache (keeps_edit hi rfl rfl) rfl rfl (fun _ => id) ?_
    intro j d hd hdead hne
    rcases setClient_cases hd with ⟨rfl, rfl⟩ | ⟨-, hd⟩
    · exact absurd hdead (by simp [halive])
    · exact ⟨d, hd, hdead, rfl⟩

theorem inv_receive {s : State} {i : Nat} {c : SharedMemoryClient} {env : ResponseEnvelope} {queues : ResponseQueues}
    (h : Inv s) (hi : s.clients i = some c) (halive : c.alive = true)
    (hreceive : s.queues.receive c.clientQueue = some (env, queues)) :
    Inv { s.setClient i { c with messages := c.messages.filter (· ≠ env.correlationId) } with
      queues := queues } := by
  obtain ⟨rest, hfull, hnames, hcreated, hcontents⟩ := MessageQueues.receive_some hreceive
  have hsub : ∀ o, ∀ e ∈ queues.contents o, e ∈ s.queues.contents o := by
    intro o e he
    rw [hcontents] at he
    by_cases ho : o = c.clientQueue
    · subst ho
      rw [Function.update_self] at he
      rw [hfull]
      exact List.mem_cons_of_mem _ he
    · rwa [Function.update_of_ne ho] at he
  have hne : ∀ o, queues.contents o ≠ [] → s.queues.contents o ≠ [] := by
    intro o ho
    obtain ⟨e, he⟩ := List.exists_mem_of_ne_nil _ ho
    exact List.ne_nil_of_mem (hsub o e he)
  have henv : env ∈ s.queues.contents c.clientQueue := hfull ▸ List.mem_cons_self
  constructor
  · exact placed_edit { c with messages := c.messages.filter (· ≠ env.correlationId) } h.placed hi rfl
      rfl id rfl rfl hcreated
      (fun _ _ _ _ => congrFun hnames _)
  · constructor
    · intro p hp
      obtain ⟨d, hd, hlive, hpid, hmem⟩ := h.numbered.pending p hp
      by_cases he : p.sender = i
      · rw [he, hi] at hd
        cases hd
        refine ⟨{ c with messages := c.messages.filter (· ≠ env.correlationId) }, ?_, hlive, hpid,
          List.mem_filter.mpr ⟨hmem, ?_⟩⟩
        · rw [he]
          exact Function.update_self ..
        · exact decide_eq_true ((h.numbered.answered _ env henv).2 p hp)
      · exact ⟨d, (Function.update_of_ne he ..).trans hd, hlive, hpid, hmem⟩
    · exact h.numbered.distinct
    · exact h.numbered.fresh
    · exact fun o e he => h.numbered.answered o e (hsub o e he)
  · refine cached_of_keeps h.cache (keeps_edit hi rfl rfl) rfl rfl hne ?_
    intro j d hd hdead _
    rcases setClient_cases hd with ⟨rfl, rfl⟩ | ⟨-, hd⟩
    · exact absurd hdead (by simp [halive])
    · exact ⟨d, hd, hdead, rfl⟩

theorem inv_destroy {s : State} {i : Nat} {c : SharedMemoryClient} (h : Inv s) (hi : s.clients i = some c)
    (halive : c.alive = true) (hidle : c.messages = []) :
    Inv { s.setClient i { c with alive := false } with queues := (s.queues.drain c.clientQueue).remove c.pid } := by
  have hsub : ∀ o, Function.update s.queues.contents c.clientQueue [] o ≠ [] →
      o ≠ c.clientQueue ∧ s.queues.contents o ≠ [] := by
    intro o ho
    by_cases he : o = c.clientQueue
    · rw [he, Function.update_self] at ho
      exact absurd rfl ho
    · rw [Function.update_of_ne he] at ho
      exact ⟨he, ho⟩
  constructor
  · refine placed_edit { c with alive := false } h.placed hi rfl rfl ?_ rfl rfl rfl ?_
    · intro hdead
      cases hdead
    · intro j d hd hlive
      rcases setClient_cases hd with ⟨rfl, rfl⟩ | ⟨hj, hd⟩
      · cases hlive
      · refine Function.update_of_ne ?_ ..
        -- two instances that are alive have different names, since the queues are different
        intro hpid
        have h₁ := h.placed.named j d hd hlive
        have h₂ := h.placed.named i c hi halive
        rw [hpid, h₂, Option.some.injEq] at h₁
        exact hj (h.placed.apart j i d c hd hi h₁.symm)
  · constructor
    · intro p hp
      obtain ⟨d, hd, hlive, hpid, hmem⟩ := h.numbered.pending p hp
      have hne : p.sender ≠ i := by
        intro he
        rw [he, hi] at hd
        cases hd
        rw [hidle] at hmem
        cases hmem
      exact ⟨d, (Function.update_of_ne hne ..).trans hd, hlive, hpid, hmem⟩
    · exact h.numbered.distinct
    · exact h.numbered.fresh
    · intro o e he
      obtain ⟨hne, -⟩ := hsub o (List.ne_nil_of_mem he)
      have he : e ∈ s.queues.contents o := Function.update_of_ne hne [] s.queues.contents ▸ he
      exact h.numbered.answered o e he
  · refine cached_of_keeps h.cache (keeps_edit hi rfl rfl) rfl rfl (fun o ho => (hsub o ho).2) ?_
    intro j d hd hdead hne
    rcases setClient_cases hd with ⟨rfl, rfl⟩ | ⟨-, hd⟩
    · exact absurd rfl (hsub _ hne).1
    · exact ⟨d, hd, hdead, rfl⟩

/-- The first handle for a process is opened while the sender waits: it is the sender's
own queue, and nothing is in it yet. -/
theorem opened_empty {s : State} {i pid m : Nat} {c : SharedMemoryClient} (h : Inv s) (hi : s.clients i = some c)
    (halive : c.alive = true) (hpid : c.pid = pid) (huncached : s.server.clients pid = none)
    (hname : s.queues.names pid = some m) : c.clientQueue = m ∧ s.queues.contents m = [] := by
  have hm : c.clientQueue = m := by
    have hn := h.placed.named i c hi halive
    rw [hpid, hname, Option.some.injEq] at hn
    exact hn.symm
  refine ⟨hm, ?_⟩
  by_contra hne
  obtain ⟨pid', hpid'⟩ := h.cache.served m hne
  obtain ⟨x, hx, hxpid, -, d, hd, hdq⟩ := h.cache.cached pid' m hpid'
  obtain ⟨e, he, hepid⟩ := h.cache.sender x hx
  rw [hd] at he
  cases he
  have hsame := h.placed.apart _ i d c hd hi (hdq.trans hm.symm)
  rw [hsame, hi] at hd
  cases hd
  rw [← hxpid, ← hepid, hpid, huncached] at hpid'
  cases hpid'

/-- A request handled after one of another instance in the same process: its reply, or one
that fills the queue it would have gone into, is in a queue of the wrong instance. -/
theorem misrouted_dispatch {s : State} {packet : Packet} {rest : List Packet} {d : Dispatched}
    {c : SharedMemoryClient} {x : Handled} {m : Nat} (h : Inv s) (hc : s.clients packet.sender = some c)
    (halive : c.alive = true) (hpid : c.pid = packet.envelope.pid)
    (hattached : SharedMemoryServer.Attached s.server.clients s.queues packet.envelope.pid m)
    (hreply : (∃ response, d.reply = some m ∧
        s.queues.trySend 256 m ⟨packet.envelope.correlationId, response⟩ = some d.queues) ∨
      (d.reply = none ∧ d.queues = s.queues ∧ 256 ≤ (s.queues.contents m).length))
    (hx : x ∈ s.handled) (hxpid : x.packet.envelope.pid = packet.envelope.pid)
    (hne : x.packet.sender ≠ packet.sender) :
    Misrouted { s with
      server := d.server, srvQueue := rest, queues := d.queues, handled := ⟨packet, d.reply⟩ :: s.handled } := by
  obtain ⟨m', hm', -⟩ := h.cache.reply x hx
  rw [hxpid] at hm'
  have hm : m' = m := SharedMemoryServer.attached_unique hattached (Or.inl hm')
  subst hm
  obtain ⟨z, hz, hzpid, hzreply, owner, howner, hqueue⟩ := h.cache.cached _ m' hm'
  obtain ⟨e, he, hepid⟩ := h.cache.sender z hz
  have hsame : owner = e := Option.some.inj (howner.symm.trans he)
  subst hsame
  by_cases hz' : z.packet.sender = packet.sender
  · obtain ⟨y, hy, o, ho, hstray⟩ := h.cache.strays x hx z hz (hxpid.trans hzpid.symm) (hz' ▸ hne)
    exact ⟨y, List.mem_cons_of_mem _ hy, o, ho, hstray⟩
  · have hapart : ∀ i b, s.clients i = some b → i ≠ z.packet.sender → b.clientQueue ≠ m' := by
      intro i b hb hi hq
      exact hi (h.placed.apart i _ b owner hb howner (hq.trans hqueue.symm))
    rcases hreply with ⟨response, hr, -⟩ | ⟨-, -, hfull⟩
    · exact ⟨⟨packet, d.reply⟩, List.mem_cons_self, m', hr, fun b hb => hapart _ b hb (Ne.symm hz')⟩
    · have hdead : owner.alive = false := by
        by_contra hlive
        have h₁ := h.placed.named _ owner howner (Bool.not_eq_false _ ▸ hlive)
        have h₂ := h.placed.named _ c hc halive
        rw [hepid, hzpid, ← hpid, h₂, Option.some.injEq] at h₁
        exact hapart _ c hc (Ne.symm hz') (h₁.trans hqueue)
      have hfilled : s.queues.contents owner.clientQueue ≠ [] := by
        intro hempty
        rw [← hqueue, hempty] at hfull
        cases hfull
      obtain ⟨y, hy, hyreply, hyne⟩ := h.cache.unread _ owner howner hdead hfilled
      exact ⟨y, List.mem_cons_of_mem _ hy, m', hqueue ▸ hyreply, fun b hb => hapart _ b hb hyne⟩

/-- Only the queue that the reply went into can have become non-empty. -/
theorem filled_dispatch {queues : ResponseQueues} {m correlationId : Nat} {d : Dispatched}
    (hreply : (∃ response, d.reply = some m ∧
      queues.trySend 256 m ⟨correlationId, response⟩ = some d.queues) ∨
      (d.reply = none ∧ d.queues = queues ∧ 256 ≤ (queues.contents m).length)) {o : Nat}
        (ho : d.queues.contents o ≠ []) :
    queues.contents o ≠ [] ∨ (o = m ∧ d.reply = some m) := by
  rcases hreply with ⟨response, hr, hsend⟩ | ⟨-, hqueues, -⟩
  · by_cases he : o = m
    · exact Or.inr ⟨he, hr⟩
    · rw [(MessageQueues.trySend_some hsend).2.2, Function.update_of_ne he] at ho
      exact Or.inl ho
  · exact Or.inl (hqueues ▸ ho)

/-- A handle that is cached stays cached. -/
theorem clients_dispatch {clients : Nat → Option Nat} {queues : ResponseQueues} {pid m p o : Nat}
    (hattached : SharedMemoryServer.Attached clients queues pid m) (ho : clients p = some o) :
    Function.update clients pid (some m) p = some o := by
  by_cases he : p = pid
  · subst he
    rw [Function.update_self, SharedMemoryServer.attached_unique hattached (Or.inl ho)]
  · rw [Function.update_of_ne he, ho]

theorem cached_dispatch {s : State} {packet : Packet} {rest : List Packet} {chance : Chance} {d : Dispatched}
    (h : Inv s) (hq : s.srvQueue = packet :: rest)
    (hd : s.server.dispatchMessage s.queues packet.envelope chance = some d) :
    WellCached { s with
      server := d.server, srvQueue := rest, queues := d.queues, handled := ⟨packet, d.reply⟩ :: s.handled } := by
  obtain ⟨m, hattached, hserver, hreply⟩ := SharedMemoryServer.dispatchMessage_some hd
  obtain ⟨c, hc, halive, hpid, -⟩ := h.numbered.pending packet (hq ▸ List.mem_cons_self)
  have hcontents : ∀ o, d.queues.contents o ≠ [] → s.queues.contents o ≠ [] ∨ (o = m ∧ d.reply = some m) :=
    fun _ ho => filled_dispatch hreply ho
  have hkept : ∀ p o, s.server.clients p = some o → d.server.clients p = some o := by
    intro p o ho
    rw [hserver]
    exact clients_dispatch hattached ho
  have hnew : d.server.clients packet.envelope.pid = some m := by rw [hserver, Function.update_self]
  constructor
  · intro x hx
    rcases List.mem_cons.mp hx with rfl | hx
    · exact ⟨c, hc, hpid⟩
    · exact h.cache.sender x hx
  · intro x hx
    rcases List.mem_cons.mp hx with rfl | hx
    · refine ⟨m, hnew, ?_⟩
      rcases hreply with ⟨response, hr, -⟩ | ⟨hr, -, -⟩
      · exact Or.inr hr
      · exact Or.inl hr
    · obtain ⟨o, ho, hrest⟩ := h.cache.reply x hx
      exact ⟨o, hkept _ o ho, hrest⟩
  · intro pid o ho
    cases hold : s.server.clients pid with
    | some o' =>
      have he : o' = o := Option.some.inj ((hkept pid o' hold).symm.trans ho)
      obtain ⟨x, hx, hrest⟩ := h.cache.cached pid o (he ▸ hold)
      exact ⟨x, List.mem_cons_of_mem _ hx, hrest⟩
    | none =>
      have hp : pid = packet.envelope.pid := by
        by_contra hne
        change d.server.clients pid = some o at ho
        rw [hserver, Function.update_of_ne hne, hold] at ho
        cases ho
      subst hp
      have hm : m = o := Option.some.inj (hnew.symm.trans ho)
      subst hm
      have hname : s.queues.names packet.envelope.pid = some m := by
        rcases hattached with hm | ⟨-, hm⟩
        · rw [hold] at hm
          cases hm
        · exact hm
      obtain ⟨hqueue, hempty⟩ := opened_empty h hc halive hpid hold hname
      refine ⟨⟨packet, d.reply⟩, List.mem_cons_self, rfl, ?_, c, hc, hqueue⟩
      rcases hreply with ⟨response, hr, -⟩ | ⟨-, -, hfull⟩
      · exact hr
      · rw [hempty] at hfull
        cases hfull
  · intro o ho
    rcases hcontents o ho with ho | ⟨rfl, -⟩
    · obtain ⟨pid, hp⟩ := h.cache.served o ho
      exact ⟨pid, hkept pid o hp⟩
    · exact ⟨_, hnew⟩
  · intro i e he hdead hne
    rcases hcontents _ hne with hne | ⟨hm, hr⟩
    · obtain ⟨x, hx, hrest⟩ := h.cache.unread i e he hdead hne
      exact ⟨x, List.mem_cons_of_mem _ hx, hrest⟩
    · refine ⟨⟨packet, d.reply⟩, List.mem_cons_self, by rw [hm]; exact hr, ?_⟩
      -- the sender of the request is alive and this instance is not
      rintro rfl
      have hsame : c = e := Option.some.inj (hc.symm.trans he)
      rw [← hsame, halive] at hdead
      cases hdead
  · intro x hx y hy hxy hne
    -- only pairs with the new request are new
    rcases List.mem_cons.mp hx with rfl | hx <;> rcases List.mem_cons.mp hy with rfl | hy
    · exact absurd rfl hne
    · exact misrouted_dispatch h hc halive hpid hattached hreply hy hxy.symm (Ne.symm hne)
    · exact misrouted_dispatch h hc halive hpid hattached hreply hx hxy hne
    · obtain ⟨z, hz, o, ho, hstray⟩ := h.cache.strays x hx y hy hxy hne
      exact ⟨z, List.mem_cons_of_mem _ hz, o, ho, hstray⟩

theorem inv_dispatch {s : State} {packet : Packet} {rest : List Packet} {chance : Chance} {d : Dispatched}
    (h : Inv s) (hq : s.srvQueue = packet :: rest)
    (hd : s.server.dispatchMessage s.queues packet.envelope chance = some d) :
    Inv { s with
      server := d.server, srvQueue := rest, queues := d.queues, handled := ⟨packet, d.reply⟩ :: s.handled } := by
  have hcache := cached_dispatch h hq hd
  obtain ⟨m, -, -, hreply⟩ := SharedMemoryServer.dispatchMessage_some hd
  have hqueues : d.queues.names = s.queues.names ∧ d.queues.created = s.queues.created ∧
      ∀ o, ∀ env ∈ d.queues.contents o, env ∈ s.queues.contents o ∨
        env.correlationId = packet.envelope.correlationId := by
    rcases hreply with ⟨response, -, hsend⟩ | ⟨-, hqueues, -⟩
    · obtain ⟨hnames, hcreated, hcontents⟩ := MessageQueues.trySend_some hsend
      refine ⟨hnames, hcreated, ?_⟩
      intro o env henv
      rw [hcontents] at henv
      by_cases he : o = m
      · subst he
        rw [Function.update_self, List.mem_append, List.mem_singleton] at henv
        exact henv.imp id (congrArg _)
      · exact Or.inl (Function.update_of_ne he _ s.queues.contents ▸ henv)
    · rw [hqueues]
      exact ⟨rfl, rfl, fun o env => Or.inl⟩
  have hdistinct := h.numbered.distinct
  rw [hq, List.map_cons, List.nodup_cons] at hdistinct
  have hmem : ∀ p ∈ rest, p ∈ s.srvQueue := fun p hp => hq ▸ List.mem_cons_of_mem _ hp
  refine ⟨⟨?_, h.placed.apart, ?_⟩, ⟨fun p hp => h.numbered.pending p (hmem p hp), hdistinct.2,
    fun p hp => h.numbered.fresh p (hmem p hp), ?_⟩, hcache⟩
  · intro i c hi
    change i < s.instances ∧ c.clientQueue < d.queues.created
    rw [hqueues.2.1]
    exact h.placed.built i c hi
  · intro i c hi halive
    change d.queues.names c.pid = some c.clientQueue
    rw [hqueues.1]
    exact h.placed.named i c hi halive
  · intro o env henv
    rcases hqueues.2.2 o env henv with hold | hnew
    · obtain ⟨hlt, hne⟩ := h.numbered.answered o env hold
      exact ⟨hlt, fun p hp => hne p (hmem p hp)⟩
    · rw [hnew]
      refine ⟨h.numbered.fresh packet (hq ▸ List.mem_cons_self), ?_⟩
      intro p hp he
      exact hdistinct.1 (List.mem_map.mpr ⟨p, hp, he⟩)

theorem inv_step (s : State) (e : Event) (t : State) (h : Inv s) (hstep : step s e = some t) : Inv t := by
  cases e with
  | create pid =>
    simp only [step] at hstep
    split at hstep
    · cases hstep
      exact h
    · rename_i hcreate
      cases hstep
      exact inv_create h hcreate
  | request i command =>
    simp only [step] at hstep
    split at hstep
    · cases hstep
    · rename_i c hi
      split at hstep
      · rename_i hc
        cases hstep
        exact inv_request command h hi hc.1
      · cases hstep
  | dispatch chance =>
    simp only [step] at hstep
    split at hstep
    · cases hstep
    · rename_i packet rest hq
      split at hstep
      · cases hstep
      · rename_i d hd
        cases hstep
        exact inv_dispatch h hq hd
  | receive i =>
    simp only [step] at hstep
    split at hstep
    · cases hstep
    · rename_i c hi
      split at hstep
      · rename_i halive
        split at hstep
        · cases hstep
        · rename_i hreceive
          cases hstep
          exact inv_receive h hi halive hreceive
      · cases hstep
  | destroy i =>
    simp only [step] at hstep
    split at hstep
    · cases hstep
    · rename_i c hi
      split at hstep
      · rename_i hc
        cases hstep
        exact inv_destroy h hi hc.1 hc.2
      · cases hstep
  | changeTopics topics =>
    cases hstep
    exact ⟨⟨h.placed.built, h.placed.apart, h.placed.named⟩,
      ⟨h.numbered.pending, h.numbered.distinct, h.numbered.fresh, h.numbered.answered⟩,
      ⟨h.cache.sender, h.cache.reply, h.cache.cached, h.cache.served, h.cache.unread, h.cache.strays⟩⟩

theorem inv_run {topics : TopicName → Option TopicService} {s : State} {es : List Event}
    (h : run step (start topics) es = some s) : Inv s :=
  run_invariant inv_step (inv_start topics) h

/-- In every run, all replies reach the instances that asked for them exactly when no process
has requests of two of its instances handled. -/
theorem replies_reach_sender_iff (topics : TopicName → Option TopicService) (es : List Event) (s : State)
    (h : run step (start topics) es = some s) : RepliesReachSender s ↔ OneClientPerProcess s := by
  have hinv := inv_run h
  constructor
  · intro hroute x hx y hy hpid
    by_contra hne
    obtain ⟨z, hz, o, ho, hstray⟩ := hinv.cache.strays x hx y hy hpid hne
    obtain ⟨c, hc, hq⟩ := hroute z hz o ho
    exact hstray c hc hq
  · intro hone x hx o ho
    -- the reply went through the cached handle, which belongs to the one instance served
    obtain ⟨m, hm, hreply⟩ := hinv.cache.reply x hx
    obtain ⟨y, hy, hpid, -, c, hc, hq⟩ := hinv.cache.cached _ m hm
    rw [hone y hy x hx hpid] at hc
    refine ⟨c, hc, ?_⟩
    rcases hreply with hnone | hsome
    · rw [ho] at hnone
      cases hnone
    · rw [ho, Option.some.injEq] at hsome
      exact hq.trans hsome.symm

/-- One client of process 7 that says hello and is answered. -/
def oneClient : List Event := [.create 7, .request 0 (.hello 1), .dispatch ⟨false, true⟩, .receive 0, .destroy 0]

theorem replies_reach_sender_one_client :
    ∃ s, run step (start fun _ => none) oneClient = some s ∧ (RepliesReachSender s ↔ OneClientPerProcess s) := by
  have h : (run step (start fun _ => none) oneClient).isSome = true := by decide +kernel
  obtain ⟨s, hs⟩ := Option.isSome_iff_exists.mp h
  exact ⟨s, hs, replies_reach_sender_iff _ _ s hs⟩

/-- A second client of the process waits for a reply that lies in the first one's queue. -/
theorem second_client_waits : ∃ s, run step (start fun _ => none)
    (oneClient ++ [.create 7, .request 1 (.hello 2), .dispatch ⟨false, true⟩]) = some s ∧
    ¬ RepliesReachSender s := by
  have h : (run step (start fun _ => none)
      (oneClient ++ [.create 7, .request 1 (.hello 2), .dispatch ⟨false, true⟩])).map
      (fun s => (s.handled.head?, s.clients 1)) =
      some (some ⟨⟨1, 1, 7, .hello 2⟩, some 0⟩, some ⟨7, 1, true, [1]⟩) := by decide +kernel
  obtain ⟨s, hs, hobs⟩ := Option.map_eq_some_iff.mp h
  refine ⟨s, hs, ?_⟩
  intro hroute
  simp only [Prod.mk.injEq] at hobs
  obtain ⟨c, hc, hq⟩ := hroute _ (List.mem_of_mem_head? hobs.1) 0 rfl
  rw [hobs.2] at hc
  cases hc
  cases hq

end ReplyRouting
