import ZeroCopyRpc.QueuedObject
import ZeroCopyRpc.ReplyEnvelopes

/-!
# Topics that are created and removed by any thread

`CreateTopic` and `RemoveTopic` put the address of a promise into their envelope,
send it to the server's own queue and wait, while the clients send to the same
queue. The dispatcher writes the result to the address that it finds in its
buffer. The threads that publish change a topic at the same time, and the clients
change their queues.

A ticket stands for one call; the program does not have it.
-/
namespace TopicCommands

open ReceiveBuffer Envelopes QueuedObject Transitions

/-- What is applied to the server: a call that the dispatcher handles, or what another
thread does to a topic that is there, or to the clients' queues. -/
inductive Operation where
  | call (s : Sent)
  | publish (topicName : TopicName) (topic : TopicService)
  | clients (queues : ResponseQueues)

def setTopic (c : Channel) (topicName : TopicName) (topic : TopicService) : Channel :=
  { c with server := { c.server with topics := Function.update c.server.topics topicName (some topic) } }

/-- The operations one at a time, with the value of the promise. -/
def apply : Channel × Bool → Operation → Option (Option Result × (Channel × Bool))
  | (c, canceled), .call s =>
    if canceled then none
    else (s.call.handle s.caller c s.running s.chance).map fun e =>
      (e.promise.map Prod.snd, (e.channel, decide (s.call = .destroy)))
  | (c, canceled), .publish topicName topic =>
    if (c.server.topics topicName).isSome then some (none, (setTopic c topicName topic, canceled)) else none
  | (c, canceled), .clients queues => some (none, ({ c with queues := queues }, canceled))

/-- The calls that wait for a promise. -/
def promised : Call → Bool
  | .createTopic _ _ _ => true
  | .removeTopic _ => true
  | _ => false

abbrev Address (s : Sent) : Nat := s.caller.promise.toNat

/-- `promises` says what lies at an address: nothing, or a promise that may have its value.
`corrupted` is set when a result is written to an address without an unset promise. -/
structure World where
  dispatcher : Dispatcher
  srvQueue : List Receipt
  promises : Nat → Option (Option Result)
  sending : List (Nat × Sent)
  waiting : List (Nat × Nat)
  corrupted : Bool
  tickets : List Nat
  history : List (Observation Operation (Option Result))

inductive Event where
  | call (ticket : Nat) (s : Sent)
  | send (thread : Nat)
  | dispatch
  | finish (thread : Nat)
  | other (ticket : Nat) (op : Operation)

def start (d : Dispatcher) : World := ⟨d, [], fun _ => none, [], [], false, [], []⟩

/-- `Set` of the envelope. -/
def World.set (w : World) : Option (Nat × Result) → World
  | none => w
  | some (address, value) =>
    match w.promises address with
    | some none => { w with promises := Function.update w.promises address (some (some value)) }
    | _ => { w with corrupted := true }

/-- Other threads change the server without the dispatcher. -/
def changed (d : Dispatcher) : Operation → Option Dispatcher
  | .call _ => none
  | .publish topicName topic =>
    if (d.channel.server.topics topicName).isSome then
      some { d with channel := setTopic d.channel topicName topic }
    else none
  | .clients queues => some { d with channel := { d.channel with queues := queues } }

/-- A promise is made at an address where none is; a message is sent when there is room. -/
def step : Machine World Event
  | w, .call ticket s =>
    if ticket ∈ w.tickets then none
    else if promised s.call ∧ w.promises (Address s) ≠ none then none
    else some { w with
      promises := if promised s.call then Function.update w.promises (Address s) (some none) else w.promises
      sending := (ticket, s) :: w.sending
      tickets := ticket :: w.tickets
      history := w.history ++ [.invoked ticket (.call s)] }
  | w, .send i =>
    match w.sending[i]? with
    | none => none
    | some (ticket, s) =>
      if w.srvQueue.length < 256 then some { w with
        srvQueue := w.srvQueue ++ [s.receipt]
        sending := w.sending.eraseIdx i
        waiting := if promised s.call then (ticket, Address s) :: w.waiting else w.waiting }
      else none
  | w, .dispatch =>
    match w.srvQueue with
    | [] => none
    | r :: rest => (dispatchMessages w.dispatcher r).map fun d =>
      { w with dispatcher := d, srvQueue := rest }.set (d.promises.drop w.dispatcher.promises.length).head?
  | w, .finish i =>
    match w.waiting[i]? with
    | none => none
    | some (ticket, address) =>
      match w.promises address with
      | some (some value) => some { w with
          promises := Function.update w.promises address none
          waiting := w.waiting.eraseIdx i
          history := w.history ++ [.returned ticket (some value)] }
      | _ => none
  | w, .other ticket op =>
    if ticket ∈ w.tickets then none
    else (changed w.dispatcher op).map fun d => { w with
      dispatcher := d
      tickets := ticket :: w.tickets
      history := w.history ++ [.invoked ticket op, .returned ticket none] }

abbrev Abstract := QueuedObject.World (Channel × Bool) Operation (Option Result)

def entry (p : Nat × Sent) : Nat × Operation := (p.1, .call p.2)

/-- The addresses that calls are about to send. -/
def addresses (calls : List (Nat × Sent)) : List Nat :=
  (calls.filter fun p => promised p.2.call).map fun p => Address p.2

@[simp] theorem addresses_append (l₁ l₂ : List (Nat × Sent)) :
    addresses (l₁ ++ l₂) = addresses l₁ ++ addresses l₂ := by
  rw [addresses, List.filter_append, List.map_append, addresses, addresses]

@[simp] theorem addresses_cons (p : Nat × Sent) (l : List (Nat × Sent)) :
    addresses (p :: l) = if promised p.2.call then Address p.2 :: addresses l else addresses l := by
  rw [addresses, List.filter_cons]
  split <;> rfl

theorem mem_addresses {p : Nat × Sent} {l : List (Nat × Sent)} (hp : p ∈ l)
    (hpromised : promised p.2.call = true) :
    Address p.2 ∈ addresses l :=
  List.mem_map_of_mem (List.mem_filter.mpr ⟨hp, hpromised⟩)

/-- The addresses of the promises that a thread is about to send, or waits for. -/
def World.live (w : World) : List Nat := addresses w.sending ++ w.waiting.map Prod.snd

/-- The bytes in the queue are those of the calls `q`; a promise that is waited for
belongs to one of them, or to a call that was handled with the result it holds. -/
structure Rel (w : World) (a : Abstract) (q : List (Nat × Sent)) : Prop where
  object : a.object = (w.dispatcher.channel, w.dispatcher.canceled)
  calling : a.calling = w.sending.map entry
  queue : a.queue = q.map entry
  receipts : w.srvQueue = q.map fun p => p.2.receipt
  history : a.history = w.history
  tickets : ∀ t ∈ a.tickets, t ∈ w.tickets
  apart : w.live.Nodup
  begun : ∀ p ∈ w.sending, promised p.2.call = true → w.promises (Address p.2) = some none
  queued : ∀ p ∈ q, promised p.2.call = true →
    (p.1, Address p.2) ∈ w.waiting ∧ w.promises (Address p.2) = some none
  waiting : ∀ p ∈ w.waiting, (∃ s, (p.1, s) ∈ q ∧ promised s.call = true ∧ Address s = p.2) ∨
    ∃ op v, ⟨p.1, op, some v⟩ ∈ a.handled ∧ w.promises p.2 = some (some v)
  sane : w.corrupted = false

variable {w w' : World} {a : Abstract} {q : List (Nat × Sent)}

theorem rel_start (d : Dispatcher) : Rel (start d) (QueuedObject.start (d.channel, d.canceled)) [] := by
  constructor <;> simp [start, QueuedObject.start, QueuedObject.World.tickets, World.live, addresses]

/-- A promise that is waited for exists. -/
theorem promise_waiting (h : Rel w a q) {p : Nat × Nat} (hp : p ∈ w.waiting) : w.promises p.2 ≠ none := by
  rcases h.waiting p hp with ⟨s, hs, hpromised, haddress⟩ | ⟨op, v, -, hset⟩
  · rw [← haddress, (h.queued _ hs hpromised).2]
    exact Option.some_ne_none _
  · rw [hset]
    exact Option.some_ne_none _

theorem promise_live (h : Rel w a q) {address : Nat} (hlive : address ∈ w.live) : w.promises address ≠ none := by
  rcases List.mem_append.mp hlive with hlive | hlive
  · obtain ⟨p, hp, rfl⟩ := List.mem_map.mp hlive
    obtain ⟨hmem, hpromised⟩ := List.mem_filter.mp hp
    rw [h.begun p hmem hpromised]
    exact Option.some_ne_none _
  · obtain ⟨p, hp, rfl⟩ := List.mem_map.mp hlive
    exact promise_waiting h hp

/-- Threads that wait at one address are one. -/
theorem waiting_unique (h : Rel w a q) {t u address : Nat} (ht : (t, address) ∈ w.waiting)
    (hu : (u, address) ∈ w.waiting) : t = u := by
  have hnodup := (List.nodup_append.mp h.apart).2.1
  have heq := List.inj_on_of_nodup_map hnodup ht hu rfl
  exact congrArg Prod.fst heq

theorem sending_apart (h : Rel w a q) {p : Nat × Sent} {t address : Nat} (hp : p ∈ w.sending)
    (hpromised : promised p.2.call = true) (ht : (t, address) ∈ w.waiting) : Address p.2 ≠ address := by
  have hdisjoint := (List.nodup_append.mp h.apart).2.2
  apply hdisjoint
  · exact mem_addresses hp hpromised
  · exact List.mem_map_of_mem ht

theorem rel_call {ticket : Nat} {s : Sent} (h : Rel w a q) (hfresh : ticket ∉ w.tickets)
    (hfree : promised s.call = true → w.promises (Address s) = none) :
    Rel { w with
      promises := if promised s.call then Function.update w.promises (Address s) (some none) else w.promises
      sending := (ticket, s) :: w.sending
      tickets := ticket :: w.tickets
      history := w.history ++ [.invoked ticket (.call s)] }
    { a with calling := entry (ticket, s) :: a.calling, history := a.history ++ [.invoked ticket (.call s)] } q := by
  have hkeep : ∀ address, w.promises address ≠ none →
      (if promised s.call then Function.update w.promises (Address s) (some none) else w.promises) address =
        w.promises address := by
    intro address hsome
    split
    · rename_i hpromised
      apply Function.update_of_ne
      rintro rfl
      exact hsome (hfree hpromised)
    · rfl
  constructor
  · exact h.object
  · simp only [h.calling, List.map_cons]
  · exact h.queue
  · exact h.receipts
  · simp only [h.history]
  · intro t ht
    rcases List.mem_cons.mp ht with rfl | ht
    · exact List.mem_cons_self
    · exact List.mem_cons_of_mem _ (h.tickets t ht)
  · by_cases hpromised : promised s.call = true
    · have hlive : Address s ∉ w.live := fun hmem => promise_live h hmem (hfree hpromised)
      simp only [World.live, addresses_cons, if_pos hpromised, List.cons_append]
      exact List.nodup_cons.mpr ⟨hlive, h.apart⟩
    · simp only [World.live, addresses_cons, if_neg hpromised]
      exact h.apart
  · intro p hp hpromised
    rcases List.mem_cons.mp hp with rfl | hp
    · exact (congrFun (if_pos hpromised) _).trans (Function.update_self ..)
    · have hset := h.begun p hp hpromised
      exact (hkeep _ (by rw [hset]; exact Option.some_ne_none _)).trans hset
  · intro p hp hpromised
    obtain ⟨hwaiting, hset⟩ := h.queued p hp hpromised
    exact ⟨hwaiting, (hkeep _ (by rw [hset]; exact Option.some_ne_none _)).trans hset⟩
  · intro p hp
    rcases h.waiting p hp with hq | ⟨op, v, hhandled, hset⟩
    · exact Or.inl hq
    · exact Or.inr ⟨op, v, hhandled, (hkeep _ (promise_waiting h hp)).trans hset⟩
  · exact h.sane

theorem rel_send {i ticket : Nat} {s : Sent} (h : Rel w a q) (hi : w.sending[i]? = some (ticket, s)) :
    Rel { w with
      srvQueue := w.srvQueue ++ [s.receipt]
      sending := w.sending.eraseIdx i
      waiting := if promised s.call then (ticket, Address s) :: w.waiting else w.waiting }
    { a with
      calling := (w.sending.take i).map entry ++ (w.sending.drop (i + 1)).map entry
      queue := a.queue ++ [entry (ticket, s)] } (q ++ [(ticket, s)]) := by
  obtain ⟨hlt, hget⟩ := List.getElem?_eq_some_iff.mp hi
  have hsplit : w.sending = w.sending.take i ++ (ticket, s) :: w.sending.drop (i + 1) := by
    rw [← hget, List.getElem_cons_drop, List.take_append_drop]
  have herase : w.sending.eraseIdx i = w.sending.take i ++ w.sending.drop (i + 1) := List.eraseIdx_eq_take_drop_succ ..
  have hmem : (ticket, s) ∈ w.sending := hget ▸ List.getElem_mem hlt
  have hsub : ∀ p ∈ w.sending.eraseIdx i, p ∈ w.sending := fun p hp => List.mem_of_mem_eraseIdx hp
  have hwaiting : ∀ p ∈ w.waiting,
      p ∈ (if promised s.call then (ticket, Address s) :: w.waiting else w.waiting) := by
    intro p hp
    split
    · exact List.mem_cons_of_mem _ hp
    · exact hp
  constructor
  · exact h.object
  · simp only [herase, List.map_append]
  · simp only [h.queue, List.map_append, List.map_singleton]
  · simp only [h.receipts, List.map_append, List.map_singleton]
  · exact h.history
  · intro t ht
    apply h.tickets t
    simp only [QueuedObject.World.tickets, h.calling, List.mem_append] at ht ⊢
    rw [hsplit]
    simp only [List.map_append, List.map_cons, List.mem_append, List.mem_cons, List.map_nil,
      List.not_mem_nil, or_false] at ht ⊢
    tauto
  · -- the address moves from one part of the list to the other
    have hperm : (({ w with
        srvQueue := w.srvQueue ++ [s.receipt]
        sending := w.sending.eraseIdx i
        waiting := if promised s.call then (ticket, Address s) :: w.waiting else w.waiting } : World).live).Perm
          w.live := by
      have hsending : addresses w.sending = addresses (w.sending.take i ++ (ticket, s) :: w.sending.drop (i + 1)) :=
        congrArg addresses hsplit
      simp only [World.live, herase, hsending, addresses_append, addresses_cons]
      split
      · rw [List.append_assoc, List.append_assoc]
        exact List.perm_middle.append_left _
      · exact List.Perm.refl _
    exact hperm.nodup_iff.mpr h.apart
  · exact fun p hp hpromised => h.begun p (hsub p hp) hpromised
  · intro p hp hpromised
    rcases List.mem_append.mp hp with hp | hp
    · obtain ⟨hw, hset⟩ := h.queued p hp hpromised
      exact ⟨hwaiting _ hw, hset⟩
    · obtain rfl := List.mem_singleton.mp hp
      refine ⟨?_, h.begun _ hmem hpromised⟩
      simp only at hpromised
      rw [if_pos hpromised]
      exact List.mem_cons_self
  · intro p hp
    have hold : ∀ p ∈ w.waiting, (∃ s', (p.1, s') ∈ q ++ [(ticket, s)] ∧
        promised s'.call = true ∧ Address s' = p.2) ∨
        ∃ op v, ⟨p.1, op, some v⟩ ∈ a.handled ∧ w.promises p.2 = some (some v) := by
      intro p hp
      rcases h.waiting p hp with ⟨s', hs', hrest⟩ | hdone
      · exact Or.inl ⟨s', List.mem_append_left _ hs', hrest⟩
      · exact Or.inr hdone
    by_cases hpromised : promised s.call = true
    · simp only [if_pos hpromised] at hp
      rcases List.mem_cons.mp hp with rfl | hp
      · exact Or.inl ⟨s, List.mem_append_right _ List.mem_cons_self, hpromised, rfl⟩
      · exact hold p hp
    · simp only [if_neg hpromised] at hp
      exact hold p hp
  · exact h.sane

/-- The dispatcher sets the promise of the call it handles, and no other. -/
theorem handle_promise {s : Sent} {c : Channel} {e : Effect}
    (h : s.call.handle s.caller c s.running s.chance = some e) :
    (promised s.call = true ∧ ∃ v, e.promise = some (Address s, v)) ∨
    (promised s.call = false ∧ e.promise = none) := by
  have hanswer : ∀ {env : RequestEnvelope}, c.answer env s.chance = some e → e.promise = none := by
    intro env henv
    obtain ⟨d, -, rfl⟩ := Option.map_eq_some_iff.mp henv
    rfl
  cases hcall : s.call with
  | connect created =>
    rw [hcall] at h
    exact Or.inr ⟨rfl, hanswer h⟩
  | subscribe topicName =>
    rw [hcall] at h
    exact Or.inr ⟨rfl, hanswer h⟩
  | invokeUnsubscribe topicName sloth =>
    rw [hcall] at h
    exact Or.inr ⟨rfl, hanswer h⟩
  | createTopic topicName messageCount bufferSize =>
    rw [hcall] at h
    obtain ⟨r, -, rfl⟩ := Option.map_eq_some_iff.mp h
    exact Or.inl ⟨rfl, _, rfl⟩
  | removeTopic topicName =>
    rw [hcall] at h
    cases h
    exact Or.inl ⟨rfl, _, rfl⟩
  | destroy =>
    rw [hcall] at h
    cases h
    exact Or.inr ⟨rfl, rfl⟩

/-- An iteration over the bytes of a call applies the call. -/
theorem dispatchMessages_apply {d d' : Dispatcher} {s : Sent} (h : dispatchMessages d s.receipt = some d') :
    ∃ e, s.call.handle s.caller d.channel s.running s.chance = some e ∧
      d'.promises = d.promises ++ e.promise.toList ∧
      apply (d.channel, d.canceled) (.call s) = some (e.promise.map Prod.snd, (d'.channel, d'.canceled)) := by
  have hcall := dispatchMessages_call d s
  rw [h, Option.map_some, serveCalls] at hcall
  by_cases hend : d.canceled = true
  · have hseen : d.seen.2.1 = true := hend
    rw [if_pos hseen] at hcall
    cases hcall
  · have hseen : ¬ d.seen.2.1 = true := hend
    rw [if_neg hseen] at hcall
    obtain ⟨e, he, hresult⟩ := Option.map_eq_some_iff.mp hcall.symm
    obtain ⟨hchannel, hrest⟩ := Prod.mk.inj hresult
    obtain ⟨hcanceled, hpromises⟩ := Prod.mk.inj hrest
    refine ⟨e, he, hpromises.symm, ?_⟩
    have he' : s.call.handle s.caller d.channel s.running s.chance = some e := he
    simp only [apply, if_neg hend, he', Option.map_some, hchannel, hcanceled]

/-- What handling the first call in the queue leaves. -/
theorem rel_dispatch {ticket : Nat} {s : Sent} {rest : List (Nat × Sent)} {d : Dispatcher}
    (h : Rel w a ((ticket, s) :: rest))
    (honce : a.tickets.Nodup) (hd : dispatchMessages w.dispatcher s.receipt = some d) : ∃ a', Step apply a a' ∧
      Rel ({ w with dispatcher := d, srvQueue := rest.map fun p : Nat × Sent => p.2.receipt }.set
        (d.promises.drop w.dispatcher.promises.length).head?) a' rest := by
  obtain ⟨e, he, hpromises, happly⟩ := dispatchMessages_apply hd
  have hqueue : a.queue = (ticket, .call s) :: rest.map entry := h.queue
  have hnew : (d.promises.drop w.dispatcher.promises.length).head? = e.promise := by
    rw [hpromises, List.drop_left]
    cases e.promise <;> rfl
  have hticket : ticket ∉ rest.map Prod.fst := by
    rw [QueuedObject.World.tickets, hqueue, List.map_cons, List.append_assoc] at honce
    have htail := (List.nodup_append.mp honce).2.1
    rw [List.cons_append, List.nodup_cons] at htail
    intro hmem
    apply htail.1
    rw [List.map_map]
    exact List.mem_append_left _ hmem
  have hrest : ∀ p ∈ rest, p.1 ≠ ticket := by
    rintro p hp rfl
    exact hticket (List.mem_map_of_mem hp)
  refine ⟨_, Step.serve a ticket (.call s) (rest.map entry) _ _ hqueue (h.object ▸ happly), ?_⟩
  have htickets : ∀ t ∈ ({ a with
      object := (d.channel, d.canceled)
      queue := rest.map entry
      handled := a.handled ++ [⟨ticket, .call s, e.promise.map Prod.snd⟩] } : Abstract).tickets,
        t ∈ w.tickets := by
    intro t ht
    apply h.tickets t
    simp only [QueuedObject.World.tickets, hqueue, List.mem_append, List.map_append, List.map_cons, List.mem_cons,
      List.map_nil, List.not_mem_nil, or_false] at ht ⊢
    tauto
  rw [hnew]
  rcases handle_promise he with ⟨hpromised, v, hset⟩ | ⟨hpromised, hnone⟩
  · obtain ⟨hwaits, hunset⟩ := h.queued (ticket, s) List.mem_cons_self hpromised
    have hworld : ({ w with dispatcher := d, srvQueue := rest.map fun p => p.2.receipt } : World).set e.promise =
        { w with
          dispatcher := d
          srvQueue := rest.map fun p => p.2.receipt
          promises := Function.update w.promises (Address s) (some (some v)) } := by
      rw [hset, World.set]
      simp only at hunset
      simp only [hunset]
    rw [hworld]
    constructor
    · rfl
    · exact h.calling
    · rfl
    · rfl
    · exact h.history
    · exact htickets
    · exact h.apart
    · intro p hp hp'
      exact (Function.update_of_ne (sending_apart h hp hp' hwaits) ..).trans (h.begun p hp hp')
    · intro p hp hp'
      obtain ⟨hwaits', hunset'⟩ := h.queued p (List.mem_cons_of_mem _ hp) hp'
      refine ⟨hwaits', (Function.update_of_ne ?_ ..).trans hunset'⟩
      intro heq
      exact hrest p hp (waiting_unique h (heq ▸ hwaits') hwaits)
    · intro p hp
      by_cases heq : p.2 = Address s
      · -- the thread that waits for this call
        have hfirst : p.1 = ticket := waiting_unique h (heq ▸ hp) hwaits
        refine Or.inr ⟨.call s, v, ?_, ?_⟩
        · rw [hfirst, hset]
          exact List.mem_append_right _ List.mem_cons_self
        · rw [heq]
          exact Function.update_self ..
      · rcases h.waiting p hp with ⟨s', hs', hpromised', haddress⟩ | ⟨op, v', hhandled, hset'⟩
        · rcases List.mem_cons.mp hs' with hs' | hs'
          · obtain ⟨-, rfl⟩ := Prod.mk.inj hs'
            exact absurd haddress.symm heq
          · exact Or.inl ⟨s', hs', hpromised', haddress⟩
        · exact Or.inr ⟨op, v', List.mem_append_left _ hhandled, (Function.update_of_ne heq ..).trans hset'⟩
    · exact h.sane
  · rw [hnone] at htickets ⊢
    constructor
    · rfl
    · exact h.calling
    · rfl
    · rfl
    · exact h.history
    · exact htickets
    · exact h.apart
    · exact h.begun
    · exact fun p hp hp' => h.queued p (List.mem_cons_of_mem _ hp) hp'
    · intro p hp
      rcases h.waiting p hp with ⟨s', hs', hpromised', haddress⟩ | ⟨op, v, hhandled, hset⟩
      · rcases List.mem_cons.mp hs' with hs' | hs'
        · obtain ⟨-, rfl⟩ := Prod.mk.inj hs'
          rw [hpromised] at hpromised'
          cases hpromised'
        · exact Or.inl ⟨s', hs', hpromised', haddress⟩
      · exact Or.inr ⟨op, v, List.mem_append_left _ hhandled, hset⟩
    · exact h.sane

/-- A thread that finds its promise set returns what its call gave. -/
theorem rel_finish {i ticket address : Nat} {v : Result} (h : Rel w a q)
    (hi : w.waiting[i]? = some (ticket, address)) (hset : w.promises address = some (some v)) :
    ∃ a', Step apply a a' ∧ Rel { w with
      promises := Function.update w.promises address none
      waiting := w.waiting.eraseIdx i
      history := w.history ++ [.returned ticket (some v)] } a' q := by
  obtain ⟨hlt, hget⟩ := List.getElem?_eq_some_iff.mp hi
  have hmem : (ticket, address) ∈ w.waiting := hget ▸ List.getElem_mem hlt
  have hhandled : ∃ op, ⟨ticket, op, some v⟩ ∈ a.handled := by
    rcases h.waiting _ hmem with ⟨s, hs, hpromised, rfl⟩ | ⟨op, v', hop, hset'⟩
    · rw [(h.queued _ hs hpromised).2] at hset
      cases hset
    · rw [hset] at hset'
      cases hset'
      exact ⟨op, hop⟩
  obtain ⟨op, hop⟩ := hhandled
  have hsublist : (w.waiting.eraseIdx i).Sublist w.waiting := List.eraseIdx_sublist ..
  have hnodup : (w.waiting.map Prod.snd).Nodup := (List.nodup_append.mp h.apart).2.1
  -- the address of the thread that returns is nobody else's
  have hother : ∀ p ∈ w.waiting.eraseIdx i, p.2 ≠ address := by
    intro p hp heq
    obtain ⟨j, hj, hne, hjp⟩ := List.mem_eraseIdx_iff_getElem.mp hp
    apply hne
    have hj' : j < (w.waiting.map Prod.snd).length := by rw [List.length_map]; exact hj
    have hi' : i < (w.waiting.map Prod.snd).length := by rw [List.length_map]; exact hlt
    have hsame : (w.waiting.map Prod.snd)[j] = (w.waiting.map Prod.snd)[i] := by
      rw [List.getElem_map, List.getElem_map, hjp, hget]
      exact heq
    exact hnodup.getElem_inj_iff.mp hsame
  refine ⟨_, Step.finish a _ hop, ?_⟩
  constructor
  · exact h.object
  · exact h.calling
  · exact h.queue
  · exact h.receipts
  · simp only [h.history]
  · exact h.tickets
  · apply List.Nodup.sublist _ h.apart
    exact (List.Sublist.refl _).append (hsublist.map _)
  · intro p hp hpromised
    exact (Function.update_of_ne (sending_apart h hp hpromised hmem) ..).trans (h.begun p hp hpromised)
  · intro p hp hpromised
    obtain ⟨hwaits, hunset⟩ := h.queued p hp hpromised
    have hne : Address p.2 ≠ address := by
      rintro heq
      rw [heq, hset] at hunset
      cases hunset
    refine ⟨?_, (Function.update_of_ne hne ..).trans hunset⟩
    obtain ⟨j, hj, hjp⟩ := List.getElem_of_mem hwaits
    apply List.mem_eraseIdx_iff_getElem.mpr
    refine ⟨j, hj, ?_, hjp⟩
    rintro rfl
    rw [hget] at hjp
    exact hne (congrArg Prod.snd hjp).symm
  · intro p hp
    rcases h.waiting p (hsublist.subset hp) with hq | ⟨op', v', hop', hset'⟩
    · exact Or.inl hq
    · exact Or.inr ⟨op', v', hop', (Function.update_of_ne (hother p hp) ..).trans hset'⟩
  · exact h.sane

theorem rel_other {ticket : Nat} {op : Operation} {d : Dispatcher} (h : Rel w a q) (hfresh : ticket ∉ w.tickets)
    (hchanged : changed w.dispatcher op = some d) : ∃ a', Step apply a a' ∧ Rel { w with
      dispatcher := d
      tickets := ticket :: w.tickets
      history := w.history ++ [.invoked ticket op, .returned ticket none] } a' q := by
  have happly : apply (w.dispatcher.channel, w.dispatcher.canceled) op = some (none, (d.channel, d.canceled)) := by
    cases op with
    | call s => cases hchanged
    | publish topicName topic =>
      simp only [changed] at hchanged
      split at hchanged
      · rename_i hsome
        cases hchanged
        exact if_pos hsome
      · cases hchanged
    | clients queues =>
      cases hchanged
      rfl
  have hunused : ticket ∉ a.tickets := fun hmem => hfresh (h.tickets ticket hmem)
  refine ⟨_, Step.act a ticket op _ _ hunused (h.object ▸ happly), ?_⟩
  constructor
  · rfl
  · exact h.calling
  · exact h.queue
  · exact h.receipts
  · simp only [h.history]
  · intro t ht
    simp only [QueuedObject.World.tickets, List.map_append, List.map_singleton, List.mem_append,
      List.mem_singleton] at ht
    by_cases heq : t = ticket
    · exact heq ▸ List.mem_cons_self
    · apply List.mem_cons_of_mem
      apply h.tickets t
      simp only [QueuedObject.World.tickets, List.mem_append]
      tauto
  · exact h.apart
  · exact h.begun
  · exact h.queued
  · intro p hp
    rcases h.waiting p hp with hq | ⟨op', v, hhandled, hset⟩
    · exact Or.inl hq
    · exact Or.inr ⟨op', v, List.mem_append_left _ hhandled, hset⟩
  · exact h.sane

/-- Each step of the program is a step of the object behind a queue. -/
theorem rel_step {e : Event} (h : Rel w a q) (honce : a.tickets.Nodup) (hstep : step w e = some w') :
    ∃ a' q', Step apply a a' ∧ Rel w' a' q' := by
  cases e with
  | call ticket s =>
    simp only [step] at hstep
    by_cases hused : ticket ∈ w.tickets
    · rw [if_pos hused] at hstep
      cases hstep
    · rw [if_neg hused] at hstep
      by_cases htaken : promised s.call = true ∧ w.promises (Address s) ≠ none
      · rw [if_pos htaken] at hstep
        cases hstep
      · rw [if_neg htaken] at hstep
        cases hstep
        have hfree : promised s.call = true → w.promises (Address s) = none := by
          intro hpromised
          by_contra hsome
          exact htaken ⟨hpromised, hsome⟩
        have hunused : ticket ∉ a.tickets := fun hmem => hused (h.tickets ticket hmem)
        exact ⟨_, q, Step.invoke a ticket (.call s) hunused, rel_call h hused hfree⟩
  | send i =>
    simp only [step] at hstep
    cases hi : w.sending[i]? with
    | none =>
      rw [hi] at hstep
      cases hstep
    | some p =>
      obtain ⟨ticket, s⟩ := p
      simp only [hi] at hstep
      by_cases hroom : w.srvQueue.length < 256
      · rw [if_pos hroom] at hstep
        cases hstep
        obtain ⟨hlt, hget⟩ := List.getElem?_eq_some_iff.mp hi
        have hcalling : a.calling =
            (w.sending.take i).map entry ++ entry (ticket, s) :: (w.sending.drop (i + 1)).map entry := by
          rw [h.calling, ← List.map_cons, ← hget, List.getElem_cons_drop,
            ← List.map_append, List.take_append_drop]
        exact ⟨_, _, Step.send a _ _ _ hcalling, rel_send h hi⟩
      · rw [if_neg hroom] at hstep
        cases hstep
  | dispatch =>
    cases q with
    | nil =>
      have hempty : w.srvQueue = [] := h.receipts
      simp only [step, hempty] at hstep
      cases hstep
    | cons p rest =>
      obtain ⟨ticket, s⟩ := p
      have hqueue : w.srvQueue = s.receipt :: rest.map fun p => p.2.receipt := h.receipts
      simp only [step, hqueue] at hstep
      obtain ⟨d, hd, rfl⟩ := Option.map_eq_some_iff.mp hstep
      obtain ⟨a', ha', hrel⟩ := rel_dispatch h honce hd
      exact ⟨a', rest, ha', hrel⟩
  | finish i =>
    simp only [step] at hstep
    cases hi : w.waiting[i]? with
    | none =>
      rw [hi] at hstep
      cases hstep
    | some p =>
      obtain ⟨ticket, address⟩ := p
      simp only [hi] at hstep
      cases hset : w.promises address with
      | none =>
        rw [hset] at hstep
        cases hstep
      | some value =>
        cases value with
        | none =>
          rw [hset] at hstep
          cases hstep
        | some v =>
          simp only [hset] at hstep
          cases hstep
          obtain ⟨a', ha', hrel⟩ := rel_finish h hi hset
          exact ⟨a', q, ha', hrel⟩
  | other ticket op =>
    simp only [step] at hstep
    by_cases hused : ticket ∈ w.tickets
    · rw [if_pos hused] at hstep
      cases hstep
    · rw [if_neg hused] at hstep
      obtain ⟨d, hd, rfl⟩ := Option.map_eq_some_iff.mp hstep
      obtain ⟨a', ha', hrel⟩ := rel_other h hused hd
      exact ⟨a', q, ha', hrel⟩

/-- Every run of the program is one of the object behind a queue. -/
theorem run_rel {d : Dispatcher} {w w' : World} {a : Abstract} {q : List (Nat × Sent)} {events : List Event}
    (hreach : Reaches apply (QueuedObject.start (d.channel, d.canceled)) a) (h : Rel w a q)
    (hrun : run step w events = some w') :
    ∃ a' q', Reaches apply (QueuedObject.start (d.channel, d.canceled)) a' ∧ Rel w' a' q' := by
  induction events generalizing w a q with
  | nil =>
    cases hrun
    exact ⟨a, q, hreach, h⟩
  | cons e events ih =>
    obtain ⟨u, hu, hrest⟩ := run_cons_some hrun
    obtain ⟨a', q', ha', hrel⟩ := rel_step h (inv_reaches hreach).once hu
    exact ih (hreach.tail ha') hrel hrest

/-- In every interleaving of the calls of any threads and clients with what publishers and clients
do in between, results go to the promises of their own calls only, and there is one order of all
operations that gives every result that was returned and keeps the order of calls in time. -/
theorem calls_linearizable (d : Dispatcher) (events : List Event) (w : World)
    (h : run step (start d) events = some w) :
    w.corrupted = false ∧ ∃ order, Linearizes apply (d.channel, d.canceled) w.history order := by
  obtain ⟨a, q, hreach, hrel⟩ := run_rel (Reaches.refl _) (rel_start d) h
  refine ⟨hrel.sane, a.handled, ?_⟩
  rw [← hrel.history]
  exact linearizes hreach

def idle : Dispatcher := ReplyEnvelopes.start ReplyEnvelopes.nothingLeft ReplyEnvelopes.emptyBuffer

def removal : Sent := ⟨⟨.zero 16, 7, 4096, .zero 256⟩, .removeTopic [97], [], fun _ => true, ⟨false, true⟩⟩

def creation : Sent :=
  ⟨⟨.zero 16, 7, 8192, .zero 256⟩, .createTopic [97] 4 64, [], fun _ => true, ⟨false, true⟩⟩

/-- A thread calls to remove a topic before another one calls to create it, and its
message gets into the queue behind the other. -/
def overtaken : List Event :=
  [.call 1 removal, .call 2 creation, .other 3 (.clients .fresh), .send 0, .send 0, .dispatch, .dispatch,
    .finish 0, .finish 0]

/-- The results that were returned, in the order of time. -/
def World.returned (w : World) : List (Nat × Option Result) :=
  w.history.filterMap fun o => match o with
    | .invoked _ _ => none
    | .returned ticket result => some (ticket, result)

theorem run_overtaken : ∃ w, run step (start idle) overtaken = some w ∧
    w.returned = [(3, none), (1, some (.removed true)), (2, some (.topic [97]))] := by
  have hrun : (run step (start idle) overtaken).map World.returned =
      some [(3, none), (1, some (.removed true)), (2, some (.topic [97]))] := by
    decide +kernel
  exact Option.map_eq_some_iff.mp hrun

theorem calls_linearizable_overtaken : ∃ w, run step (start idle) overtaken = some w ∧
    w.returned = [(3, none), (1, some (.removed true)), (2, some (.topic [97]))] ∧
    w.corrupted = false ∧ ∃ order, Linearizes apply (idle.channel, idle.canceled) w.history order := by
  obtain ⟨w, hw, hreturned⟩ := run_overtaken
  exact ⟨w, hw, hreturned, calls_linearizable idle _ w hw⟩

end TopicCommands
