import ZeroCopyRpc.RequestAnswers

/-!
# Bounded queues between the clients and the server

Every queue holds 256 messages. A thread that makes a request waits while the
server's queue is full and then until its reply arrives, so a process has at most
as many requests under way as it has threads. The server waits when a client's
queue is full, but it drops the reply to a subscription. The dispatcher thread of
a client only takes replies and never waits for the server.

`busy` counts the threads of a process that are inside a request. `dropped` is a
history variable.
-/
namespace FlowControl

open Transitions

structure World where
  server : SharedMemoryServer
  queues : ResponseQueues
  srvQueue : List RequestEnvelope
  calling : List RequestEnvelope
  busy : Nat → Nat
  stopped : Bool
  dropped : Nat → Nat

inductive Event where
  | openClient (pid : Nat)
  | call (env : RequestEnvelope)
  | send (thread : Nat)
  | dispatch (chance : Chance)
  | deliver (pid : Nat)
  -- what topics are created, removed and published to in between
  | changeTopics (topics : TopicName → Option TopicService)

def start : World := ⟨.new fun _ => none, .fresh, [], [], fun _ => 0, false, fun _ => 0⟩

/-- A reply that goes nowhere leaves its thread waiting. -/
def World.afterDispatch (w : World) (pid : Nat) (rest : List RequestEnvelope) (d : Dispatched) : World := { w with
  server := d.server
  queues := d.queues
  srvQueue := rest
  dropped := if d.reply.isNone then Function.update w.dropped pid (w.dropped pid + 1) else w.dropped }

def step (threads : Nat → Nat) : Machine World Event
  | w, .openClient pid => (w.queues.createOnly pid).map fun r => { w with queues := r.2 }
  | w, .call env =>
    if (w.queues.names env.pid).isSome ∧ w.busy env.pid < threads env.pid then some { w with
      calling := env :: w.calling
      busy := Function.update w.busy env.pid (w.busy env.pid + 1) }
    else none
  | w, .send i =>
    match w.calling[i]? with
    | none => none
    | some env =>
      if w.srvQueue.length < 256 then
        some { w with srvQueue := w.srvQueue ++ [env], calling := w.calling.eraseIdx i }
      else none
  | w, .dispatch chance =>
    match w.srvQueue with
    | [] => none
    | env :: rest =>
      if w.stopped then none
      else match w.server.dispatchMessage w.queues env chance with
        | some d => some (w.afterDispatch env.pid rest d)
        | none => if RequestAnswers.throws w.server w.queues env chance then some { w with stopped := true } else none
  | w, .deliver pid =>
    match w.queues.names pid with
    | none => none
    | some m => (w.queues.receive m).map fun r => { w with
        queues := r.2
        busy := Function.update w.busy pid (w.busy pid - 1) }
  | w, .changeTopics topics => some { w with server := { w.server with topics := topics } }

/-- The replies that wait for a process. -/
def World.held (w : World) (pid : Nat) : List ResponseEnvelope :=
  match w.queues.names pid with
  | none => []
  | some m => w.queues.contents m

/-- The requests of a process in a list. -/
def ofPid (pid : Nat) (requests : List RequestEnvelope) : Nat := requests.countP fun env => env.pid == pid

structure Inv (threads : Nat → Nat) (w : World) : Prop where
  clients : ∀ pid m, w.server.clients pid = some m → w.queues.names pid = some m
  apart : ∀ pid pid' m, w.queues.names pid = some m → w.queues.names pid' = some m → pid = pid'
  old : ∀ pid m, w.queues.names pid = some m → m < w.queues.created
  opened : ∀ env ∈ w.calling ++ w.srvQueue, (w.queues.names env.pid).isSome = true
  account : ∀ pid, w.busy pid =
    ofPid pid w.calling + ofPid pid w.srvQueue + (w.held pid).length + w.dropped pid
  bound : ∀ pid, w.busy pid ≤ threads pid

variable {threads : Nat → Nat} {w w' : World}

theorem inv_start (threads : Nat → Nat) : Inv threads start := by
  constructor <;> simp [start, SharedMemoryServer.new, MessageQueues.fresh, World.held, ofPid]

/-- The handle that a reply goes through is the queue of the process. -/
theorem names_attached (h : Inv threads w) {pid m : Nat}
    (hattached : SharedMemoryServer.Attached w.server.clients w.queues pid m) : w.queues.names pid = some m := by
  rcases hattached with hclient | ⟨-, hname⟩
  · exact h.clients pid m hclient
  · exact hname

theorem held_eq {pid m : Nat} (hname : w.queues.names pid = some m) : w.held pid = w.queues.contents m := by
  rw [World.held, hname]

theorem ofPid_cons (pid : Nat) (env : RequestEnvelope) (l : List RequestEnvelope) :
    ofPid pid (env :: l) = ofPid pid l + if env.pid = pid then 1 else 0 := by
  rw [ofPid, List.countP_cons, ofPid]
  simp

theorem ofPid_append (pid : Nat) (l₁ l₂ : List RequestEnvelope) :
    ofPid pid (l₁ ++ l₂) = ofPid pid l₁ + ofPid pid l₂ := List.countP_append

/-- A request that is taken out of a list. -/
theorem ofPid_eraseIdx {l : List RequestEnvelope} {i : Nat} {env : RequestEnvelope}
    (h : l[i]? = some env) (pid : Nat) :
    ofPid pid l = ofPid pid (l.eraseIdx i) + if env.pid = pid then 1 else 0 := by
  obtain ⟨hlt, hget⟩ := List.getElem?_eq_some_iff.mp h
  have hsplit : l = l.take i ++ env :: l.drop (i + 1) := by
    rw [← hget, List.getElem_cons_drop, List.take_append_drop]
  have herase : l.eraseIdx i = l.take i ++ l.drop (i + 1) := List.eraseIdx_eq_take_drop_succ ..
  rw [herase, ofPid_append]
  calc ofPid pid l = ofPid pid (l.take i ++ env :: l.drop (i + 1)) := congrArg (ofPid pid) hsplit
    _ = _ := by rw [ofPid_append, ofPid_cons, Nat.add_assoc]

/-- A process that waits for a request in the server's queue has room for the reply, unless it
has more threads than its queue has places. -/
theorem room (h : Inv threads w) {env : RequestEnvelope} {rest : List RequestEnvelope} {m : Nat}
    (hqueue : w.srvQueue = env :: rest) (hname : w.queues.names env.pid = some m)
    (hthreads : threads env.pid ≤ 256) : (w.queues.contents m).length < 256 := by
  have haccount := h.account env.pid
  have hbound := h.bound env.pid
  rw [hqueue, ofPid_cons, if_pos rfl, held_eq hname] at haccount
  omega

/-- A request is not handled when it raises an exception or finds the queue full. -/
theorem dispatchMessage_none {s : SharedMemoryServer} {queues : ResponseQueues} {env : RequestEnvelope}
    {chance : Chance} (h : s.dispatchMessage queues env chance = none)
    (hthrows : RequestAnswers.throws s queues env chance = false) :
    ∃ m, SharedMemoryServer.Attached s.clients queues env.pid m ∧ 256 ≤ (queues.contents m).length := by
  rw [RequestAnswers.throws] at hthrows
  rw [RequestAnswers.dispatchMessage_eq] at h
  cases hprepared : RequestAnswers.prepared s queues env chance with
  | error t =>
    rw [hprepared] at hthrows
    cases hthrows
  | ok r =>
    obtain ⟨t, m, response⟩ := r
    simp only [hprepared] at h
    refine ⟨m, RequestAnswers.prepared_attached hprepared, ?_⟩
    cases hsend : t.send queues m ⟨env.correlationId, response⟩ with
    | some d =>
      rw [hsend] at h
      cases h
    | none => exact MessageQueues.trySend_none (Option.map_eq_none_iff.mp hsend)

section Steps

/-- Changing the queue of one process changes what is held for that process only. -/
theorem held_update (v : World) (h : Inv threads w) {pid m : Nat} {replies : List ResponseEnvelope}
    (hname : w.queues.names pid = some m) (hnames : v.queues.names = w.queues.names)
    (hcontents : v.queues.contents = Function.update w.queues.contents m replies) :
    v.held pid = replies ∧ ∀ other, other ≠ pid → v.held other = w.held other := by
  constructor
  · have hname' : v.queues.names pid = some m := by
      rw [hnames, hname]
    rw [held_eq hname', hcontents, Function.update_self]
  · intro other hother
    cases ho : w.queues.names other with
    | none => simp only [World.held, hnames, ho]
    | some o =>
      have hne : o ≠ m := by
        rintro rfl
        exact hother (h.apart other pid o ho hname)
      simp only [World.held, hnames, ho, hcontents, Function.update_of_ne hne]

theorem inv_openClient {pid object : Nat} {queues : ResponseQueues} (h : Inv threads w)
    (hcreate : w.queues.createOnly pid = some (object, queues)) : Inv threads { w with queues := queues } := by
  obtain ⟨hnone, -, hnames, hcontents, hcreated⟩ := MessageQueues.createOnly_some hcreate
  have hkeep : ∀ p m, w.queues.names p = some m → queues.names p = some m := by
    intro p m hp
    have hne : p ≠ pid := by
      rintro rfl
      rw [hnone] at hp
      cases hp
    rw [hnames, Function.update_of_ne hne, hp]
  -- the new queue is empty and no process has it yet
  have hcases : ∀ p m, queues.names p = some m → (p = pid ∧ m = w.queues.created) ∨
      w.queues.names p = some m := by
    intro p m hp
    rw [hnames] at hp
    by_cases heq : p = pid
    · rw [heq, Function.update_self] at hp
      exact Or.inl ⟨heq, (Option.some.inj hp).symm⟩
    · rw [Function.update_of_ne heq] at hp
      exact Or.inr hp
  constructor
  · exact fun p m hp => hkeep p m (h.clients p m hp)
  · intro p p' m hp hp'
    have hused : ∀ q, w.queues.names q = some m → m ≠ w.queues.created := fun q hq => Nat.ne_of_lt (h.old q m hq)
    rcases hcases p m hp with ⟨hpid, hm⟩ | hp
    · rcases hcases p' m hp' with ⟨hpid', -⟩ | hp'
      · exact hpid.trans hpid'.symm
      · exact absurd hm (hused p' hp')
    · rcases hcases p' m hp' with ⟨-, hm⟩ | hp'
      · exact absurd hm (hused p hp)
      · exact h.apart p p' m hp hp'
  · intro p m hp
    change m < queues.created
    rw [hcreated]
    rcases hcases p m hp with ⟨-, rfl⟩ | hp
    · exact Nat.lt_succ_self _
    · exact Nat.lt_succ_of_lt (h.old p m hp)
  · intro env henv
    obtain ⟨m, hm⟩ := Option.isSome_iff_exists.mp (h.opened env henv)
    exact Option.isSome_iff_exists.mpr ⟨m, hkeep _ m hm⟩
  · intro p
    have hheld : ({ w with queues := queues } : World).held p = w.held p := by
      by_cases heq : p = pid
      · subst heq
        have hnew : queues.names p = some w.queues.created := by
          rw [hnames, Function.update_self]
        simp only [World.held, hnew, hnone, hcontents, Function.update_self]
      · cases hp : w.queues.names p with
        | none => simp only [World.held, hnames, Function.update_of_ne heq, hp]
        | some m =>
          have hne : m ≠ w.queues.created := Nat.ne_of_lt (h.old p m hp)
          simp only [World.held, hkeep p m hp, hp, hcontents, Function.update_of_ne hne]
    change w.busy p = _ + _ + (World.held _ p).length + w.dropped p
    rw [hheld]
    exact h.account p
  · exact h.bound

theorem inv_call {env : RequestEnvelope} (h : Inv threads w) (hopen : (w.queues.names env.pid).isSome = true)
    (hbusy : w.busy env.pid < threads env.pid) : Inv threads { w with
      calling := env :: w.calling
      busy := Function.update w.busy env.pid (w.busy env.pid + 1) } := by
  constructor
  · exact h.clients
  · exact h.apart
  · exact h.old
  · intro e he
    rcases List.mem_cons.mp he with rfl | he
    · exact hopen
    · exact h.opened e he
  · intro pid
    have haccount := h.account pid
    have hheld : ({ w with
      calling := env :: w.calling
      busy := Function.update w.busy env.pid (w.busy env.pid + 1) } : World).held pid = w.held pid := rfl
    rw [hheld, ofPid_cons]
    by_cases hpid : env.pid = pid
    · subst hpid
      simp only [Function.update_self, if_true]
      omega
    · simp only [Function.update_of_ne (Ne.symm hpid), if_neg hpid]
      omega
  · intro pid
    by_cases hpid : pid = env.pid
    · subst hpid
      simp only [Function.update_self]
      omega
    · simp only [Function.update_of_ne hpid]
      exact h.bound pid

theorem inv_send {i : Nat} {env : RequestEnvelope} (h : Inv threads w) (hi : w.calling[i]? = some env) :
    Inv threads { w with srvQueue := w.srvQueue ++ [env], calling := w.calling.eraseIdx i } := by
  have hmem : env ∈ w.calling := List.mem_of_getElem? hi
  constructor
  · exact h.clients
  · exact h.apart
  · exact h.old
  · intro e he
    simp only [List.mem_append, List.mem_singleton] at he
    rcases he with he | he | rfl
    · exact h.opened e (List.mem_append_left _ (List.mem_of_mem_eraseIdx he))
    · exact h.opened e (List.mem_append_right _ he)
    · exact h.opened _ (List.mem_append_left _ hmem)
  · intro pid
    have haccount := h.account pid
    rw [ofPid_eraseIdx hi pid] at haccount
    have hheld : ({ w with srvQueue := w.srvQueue ++ [env], calling := w.calling.eraseIdx i } : World).held pid =
        w.held pid := rfl
    have hone : ofPid pid [env] = if env.pid = pid then 1 else 0 := by
      rw [ofPid_cons]
      simp [ofPid]
    rw [hheld, ofPid_append, hone]
    simp only
    omega
  · exact h.bound

theorem inv_dispatch {env : RequestEnvelope} {rest : List RequestEnvelope} {chance : Chance} {d : Dispatched}
    (h : Inv threads w) (hqueue : w.srvQueue = env :: rest)
    (hd : w.server.dispatchMessage w.queues env chance = some d) :
    Inv threads (w.afterDispatch env.pid rest d) := by
  obtain ⟨m, hattached, hclients, hreply⟩ := SharedMemoryServer.dispatchMessage_some hd
  have hname := names_attached h hattached
  have hnames : d.queues.names = w.queues.names ∧ d.queues.created = w.queues.created := by
    rcases hreply with ⟨response, -, hsend⟩ | ⟨-, hsame, -⟩
    · obtain ⟨hn, hc, -⟩ := MessageQueues.trySend_some hsend
      exact ⟨hn, hc⟩
    · rw [hsame]
      exact ⟨rfl, rfl⟩
  constructor
  · intro pid o ho
    change d.server.clients pid = some o at ho
    change d.queues.names pid = some o
    rw [hclients] at ho
    rw [hnames.1]
    by_cases hpid : pid = env.pid
    · rw [hpid, Function.update_self] at ho
      rw [hpid, hname, ho]
    · rw [Function.update_of_ne hpid] at ho
      exact h.clients pid o ho
  · intro p p' o hp hp'
    exact h.apart p p' o (hnames.1 ▸ hp) (hnames.1 ▸ hp')
  · intro p o hp
    change o < d.queues.created
    rw [hnames.2]
    exact h.old p o (hnames.1 ▸ hp)
  · intro e he
    change (d.queues.names e.pid).isSome = true
    rw [hnames.1]
    apply h.opened e
    rw [hqueue]
    rcases List.mem_append.mp he with he | he
    · exact List.mem_append_left _ he
    · exact List.mem_append_right _ (List.mem_cons_of_mem _ he)
  · intro pid
    have haccount := h.account pid
    rw [hqueue, ofPid_cons] at haccount
    change w.busy pid = ofPid pid w.calling + ofPid pid rest + ((w.afterDispatch env.pid rest d).held pid).length +
      (w.afterDispatch env.pid rest d).dropped pid
    rcases hreply with ⟨response, hsome, hsend⟩ | ⟨hnone, hsame, -⟩
    · obtain ⟨-, -, hcontents⟩ := MessageQueues.trySend_some hsend
      obtain ⟨hself, hother⟩ := held_update (w.afterDispatch env.pid rest d) h hname hnames.1 hcontents
      have hdropped : (w.afterDispatch env.pid rest d).dropped = w.dropped := by
        simp only [World.afterDispatch, hsome, Option.isNone_some, Bool.false_eq_true, if_false]
      rw [hdropped]
      by_cases hpid : pid = env.pid
      · subst hpid
        rw [held_eq hname] at haccount
        rw [hself, List.length_append, List.length_singleton]
        simp only [if_true] at haccount
        omega
      · rw [hother pid hpid]
        simp only [if_neg (Ne.symm hpid)] at haccount
        omega
    · have hheld : (w.afterDispatch env.pid rest d).held pid = w.held pid := by
        simp only [World.held, World.afterDispatch, hsame]
      have hdropped : (w.afterDispatch env.pid rest d).dropped =
          Function.update w.dropped env.pid (w.dropped env.pid + 1) := by
        simp only [World.afterDispatch, hnone, Option.isNone_none, if_true]
      rw [hheld, hdropped]
      by_cases hpid : pid = env.pid
      · subst hpid
        rw [Function.update_self]
        simp only [if_true] at haccount
        omega
      · rw [Function.update_of_ne hpid]
        simp only [if_neg (Ne.symm hpid)] at haccount
        omega
  · exact h.bound

theorem inv_deliver {pid m : Nat} {reply : ResponseEnvelope} {queues : ResponseQueues} (h : Inv threads w)
    (hname : w.queues.names pid = some m) (hreceive : w.queues.receive m = some (reply, queues)) :
    Inv threads { w with queues := queues, busy := Function.update w.busy pid (w.busy pid - 1) } := by
  obtain ⟨rest, hheld, hnames, hcreated, hcontents⟩ := MessageQueues.receive_some hreceive
  obtain ⟨hself, hother⟩ := held_update
    { w with queues := queues, busy := Function.update w.busy pid (w.busy pid - 1) } h hname hnames hcontents
  constructor
  · intro p o ho
    change queues.names p = some o
    rw [hnames]
    exact h.clients p o ho
  · intro p p' o hp hp'
    exact h.apart p p' o (hnames ▸ hp) (hnames ▸ hp')
  · intro p o hp
    change o < queues.created
    rw [hcreated]
    exact h.old p o (hnames ▸ hp)
  · intro e he
    change (queues.names e.pid).isSome = true
    rw [hnames]
    exact h.opened e he
  · intro p
    have haccount := h.account p
    by_cases hp : p = pid
    · subst hp
      rw [held_eq hname, hheld, List.length_cons] at haccount
      rw [hself]
      simp only [Function.update_self]
      omega
    · rw [hother p hp]
      simp only [Function.update_of_ne hp]
      exact haccount
  · intro p
    have hbound := h.bound p
    by_cases hp : p = pid
    · subst hp
      simp only [Function.update_self]
      omega
    · simp only [Function.update_of_ne hp]
      exact hbound

theorem inv_step {e : Event} (h : Inv threads w) (hstep : step threads w e = some w') : Inv threads w' := by
  cases e with
  | openClient pid =>
    obtain ⟨⟨object, queues⟩, hr, rfl⟩ := Option.map_eq_some_iff.mp hstep
    exact inv_openClient h hr
  | call env =>
    simp only [step] at hstep
    by_cases hguard : (w.queues.names env.pid).isSome = true ∧ w.busy env.pid < threads env.pid
    · rw [if_pos hguard] at hstep
      cases hstep
      exact inv_call h hguard.1 hguard.2
    · rw [if_neg hguard] at hstep
      cases hstep
  | send i =>
    simp only [step] at hstep
    cases hi : w.calling[i]? with
    | none =>
      rw [hi] at hstep
      cases hstep
    | some env =>
      simp only [hi] at hstep
      split at hstep
      · cases hstep
        exact inv_send h hi
      · cases hstep
  | dispatch chance =>
    simp only [step] at hstep
    cases hqueue : w.srvQueue with
    | nil =>
      rw [hqueue] at hstep
      cases hstep
    | cons env rest =>
      simp only [hqueue] at hstep
      split at hstep
      · cases hstep
      · cases hd : w.server.dispatchMessage w.queues env chance with
        | some d =>
          simp only [hd] at hstep
          cases hstep
          exact inv_dispatch h hqueue hd
        | none =>
          simp only [hd] at hstep
          split at hstep
          · cases hstep
            refine ⟨h.clients, h.apart, h.old, fun e he => h.opened e (hqueue ▸ he), ?_, h.bound⟩
            intro pid
            rw [← hqueue]
            exact h.account pid
          · cases hstep
  | deliver pid =>
    simp only [step] at hstep
    cases hname : w.queues.names pid with
    | none =>
      rw [hname] at hstep
      cases hstep
    | some m =>
      simp only [hname] at hstep
      obtain ⟨⟨reply, queues⟩, hr, rfl⟩ := Option.map_eq_some_iff.mp hstep
      exact inv_deliver h hname hr
  | changeTopics topics =>
    cases hstep
    exact ⟨h.clients, h.apart, h.old, h.opened, h.account, h.bound⟩

end Steps

/-- The next reply is to a subscription and finds the queue full. -/
def Drops (w : World) : Prop :=
  ∃ env rest chance d, w.srvQueue = env :: rest ∧ w.stopped = false ∧
    w.server.dispatchMessage w.queues env chance = some d ∧ d.reply = none

/-- The dispatcher waits for a client to make room. -/
def Blocks (w : World) : Prop :=
  ∃ env rest chance, w.srvQueue = env :: rest ∧ w.stopped = false ∧
    w.server.dispatchMessage w.queues env chance = none ∧
    RequestAnswers.throws w.server w.queues env chance = false

theorem not_drops (h : Inv threads w) (hthreads : ∀ pid, threads pid ≤ 256) : ¬ Drops w := by
  rintro ⟨env, rest, chance, d, hqueue, -, hd, hnone⟩
  obtain ⟨m, hattached, -, hreply⟩ := SharedMemoryServer.dispatchMessage_some hd
  have hroom := room h hqueue (names_attached h hattached) (hthreads env.pid)
  rcases hreply with ⟨response, hsome, -⟩ | ⟨-, -, hfull⟩
  · rw [hnone] at hsome
    cases hsome
  · omega

theorem not_blocks (h : Inv threads w) (hthreads : ∀ pid, threads pid ≤ 256) : ¬ Blocks w := by
  rintro ⟨env, rest, chance, hqueue, -, hd, hthrows⟩
  obtain ⟨m, hattached, hfull⟩ := dispatchMessage_none hd hthrows
  have hroom := room h hqueue (names_attached h hattached) (hthreads env.pid)
  omega

section Full

/-- A process has its queue, `k` of its threads got their replies into it, and nothing else is under way. -/
structure Filled (w : World) (pid m k : Nat) : Prop where
  srvQueue : w.srvQueue = []
  calling : w.calling = []
  stopped : w.stopped = false
  topics : w.server.topics = fun _ => none
  attached : SharedMemoryServer.Attached w.server.clients w.queues pid m
  name : w.queues.names pid = some m
  held : (w.queues.contents m).length = k
  busy : w.busy pid = k

/-- One more thread sends a request. -/
def World.asked (w : World) (env : RequestEnvelope) : World := { w with
  srvQueue := [env]
  calling := []
  busy := Function.update w.busy env.pid (w.busy env.pid + 1) }

theorem run_ask {pid m k : Nat} (h : Filled w pid m k) (hk : k < threads pid) (id : Nat) (request : Command) :
    run (step threads) w [.call ⟨id, pid, request⟩, .send 0] = some (w.asked ⟨id, pid, request⟩) := by
  have hbusy : w.busy pid < threads pid := h.busy ▸ hk
  have hname : (w.queues.names pid).isSome = true := by
    rw [h.name]
    rfl
  simp only [run_cons, run_nil, step, hname, hbusy, and_self, if_true, Option.bind_some, List.getElem?_cons_zero,
    h.srvQueue, h.calling, List.length_nil, Nat.zero_lt_succ, List.eraseIdx_cons_zero, List.nil_append, World.asked]

theorem getClient_attached {s : SharedMemoryServer} {queues : ResponseQueues} {pid m : Nat}
    (h : SharedMemoryServer.Attached s.clients queues pid m) (hname : queues.names pid = some m) :
    s.getClient queues pid = some (m, { s with clients := Function.update s.clients pid (some m) }) := by
  unfold SharedMemoryServer.getClient
  rcases h with hclient | ⟨hnone, -⟩
  · simp only [hclient]
    rw [Function.update_eq_self_iff.mpr hclient.symm]
  · simp only [hnone, MessageQueues.openOnly, hname]

theorem filled_succ {pid m k : Nat} (h : Filled w pid m k) (hk : k < threads pid) (hroom : k < 256) :
    ∃ es w', run (step threads) w es = some w' ∧ Filled w' pid m (k + 1) := by
  have hask := run_ask h hk 0 (.hello 0)
  have hsend : w.queues.trySend 256 m ⟨0, .hello 0⟩ = some { w.queues with
      contents := Function.update w.queues.contents m (w.queues.contents m ++ [⟨0, .hello 0⟩]) } :=
    if_pos (h.held ▸ hroom)
  have hclient := getClient_attached h.attached h.name
  have hdispatch : step threads (w.asked ⟨0, pid, .hello 0⟩) (.dispatch ⟨false, true⟩) =
      some ((w.asked ⟨0, pid, .hello 0⟩).afterDispatch pid [] ⟨
        { w.server with clients := Function.update w.server.clients pid (some m) }, { w.queues with
          contents := Function.update w.queues.contents m (w.queues.contents m ++ [⟨0, .hello 0⟩]) },
            some m⟩) := by
    simp only [step, World.asked, h.stopped, Bool.false_eq_true, if_false, SharedMemoryServer.dispatchMessage,
      SharedMemoryServer.onHelloResponse, hclient, SharedMemoryServer.send, hsend, Option.map_some]
  refine ⟨_, _, run_join hask (run_step hdispatch), ?_⟩
  constructor
  · rfl
  · rfl
  · exact h.stopped
  · exact h.topics
  · exact Or.inl (Function.update_self ..)
  · exact h.name
  · simp only [World.afterDispatch, Function.update_self, List.length_append, List.length_singleton, h.held]
  · simp only [World.afterDispatch, World.asked, Function.update_self, h.busy]

theorem filled (pid k : Nat) (hk : k ≤ threads pid) (hroom : k ≤ 256) :
    ∃ es w m, run (step threads) start es = some w ∧ Filled w pid m k := by
  induction k with
  | zero =>
    refine ⟨[.openClient pid], _, 0, rfl, ?_⟩
    constructor
    · rfl
    · rfl
    · rfl
    · rfl
    · exact Or.inr ⟨rfl, Function.update_self ..⟩
    · exact Function.update_self ..
    · rfl
    · rfl
  | succ k ih =>
    obtain ⟨es, w, m, hrun, hfilled⟩ := ih (by omega) (by omega)
    obtain ⟨fs, w', hrun', hfilled'⟩ := filled_succ hfilled hk hroom
    exact ⟨es ++ fs, w', m, run_join hrun hrun', hfilled'⟩

/-- With more threads than places, one reply is dropped and another one blocks the server. -/
theorem full {pid : Nat} (hpid : 256 < threads pid) :
    (∃ es w, run (step threads) start es = some w ∧ Drops w) ∧
    ∃ es w, run (step threads) start es = some w ∧ Blocks w := by
  obtain ⟨es, w, m, hrun, hfilled⟩ := filled pid 256 (Nat.le_of_lt hpid) (Nat.le_refl 256)
  have hclient := getClient_attached hfilled.attached hfilled.name
  have hfull : ∀ env, w.queues.trySend 256 m env = none := by
    intro env
    exact if_neg (by rw [hfilled.held]; exact Nat.lt_irrefl 256)
  constructor
  · refine ⟨_, _, run_join hrun (run_ask hfilled hpid 0 (.subscribe [])),
      ⟨0, pid, .subscribe []⟩, [], ⟨false, true⟩,
      ⟨{ w.server with clients := Function.update w.server.clients pid (some m) }, w.queues, none⟩, rfl,
      hfilled.stopped, ?_, rfl⟩
    simp only [World.asked, SharedMemoryServer.dispatchMessage, SharedMemoryServer.subscribe, hfilled.topics, hclient,
      SharedMemoryServer.send, hfull, Option.map_none]
  · refine ⟨_, _, run_join hrun (run_ask hfilled hpid 0 (.hello 0)), ⟨0, pid, .hello 0⟩,
      [], ⟨false, true⟩, rfl, hfilled.stopped, ?_, ?_⟩
    · simp only [World.asked, SharedMemoryServer.dispatchMessage, SharedMemoryServer.onHelloResponse, hclient,
        SharedMemoryServer.send, hfull, Option.map_none]
    · simp only [World.asked, RequestAnswers.throws, RequestAnswers.prepared, hclient]

end Full

theorem inv_run {es : List Event} (h : run (step threads) start es = some w) : Inv threads w :=
  run_invariant (fun _ _ _ h hstep => inv_step h hstep) (inv_start threads) h

/-- No reply is ever dropped if and only if no process has more than 256 threads, and under
the same condition the server never waits for a client. -/
theorem never_full_iff (threads : Nat → Nat) :
    ((∀ es w, run (step threads) start es = some w → ¬ Drops w) ↔ ∀ pid, threads pid ≤ 256) ∧
    ((∀ es w, run (step threads) start es = some w → ¬ Blocks w) ↔ ∀ pid, threads pid ≤ 256) := by
  constructor
  · constructor
    · intro hnever pid
      by_contra hpid
      obtain ⟨⟨es, w, hrun, hdrops⟩, -⟩ := full (Nat.not_le.mp hpid)
      exact hnever es w hrun hdrops
    · exact fun hthreads es w hrun => not_drops (inv_run hrun) hthreads
  · constructor
    · intro hnever pid
      by_contra hpid
      obtain ⟨-, es, w, hrun, hblocks⟩ := full (Nat.not_le.mp hpid)
      exact hnever es w hrun hblocks
    · exact fun hthreads es w hrun => not_blocks (inv_run hrun) hthreads

end FlowControl
