import ZeroCopyRpc.ServerRestarts

/-!
# Messages that only their own server may take

The exit message and the topic commands are meant for the server that sent them:
one ends the dispatcher that takes it, the others hold the address of a promise.
They lie in the same queue as the requests, and the next server on the channel
takes what it finds there. They reach their own server as long as the dispatchers of a
channel do not overlap and no server dies while one of them waits, and no longer.
-/
namespace ServerRestarts

open Transitions

variable {κ : Type} [DecidableEq κ]

/-- No server is opened where a dispatcher runs, and none dies with a message of its own in a queue
that has its name. -/
def Apart (w : World κ) : Event κ → Prop
  | .openServer channel => ∀ s ∈ w.servers, s.dispatching = true → w.queues.names channel ≠ some s.messageQueue
  | .crash i => ∀ s, w.servers[i]? = some s → ∀ m ∈ w.queues.contents s.messageQueue, m.owner = some i →
    ∀ k, w.queues.names k ≠ some s.messageQueue
  | _ => True

/-- Nothing is taken from the queue any more. -/
structure Dead (w : World κ) (o : Nat) : Prop where
  known : o < w.queues.created
  unnamed : ∀ k, w.queues.names k ≠ some o
  quiet : ∀ s ∈ w.servers, s.messageQueue = o → s.dispatching = false

/-- The message waits for its server. -/
def Awaited (w : World κ) (o : Nat) (m : Message) (i : Nat) : Prop :=
  ∃ s, w.servers[i]? = some s ∧ s.dispatching = true ∧ s.messageQueue = o ∧
    (m.isExit = true → s.closing = true)

structure Owned (w : World κ) : Prop where
  inv : Inv w
  single : ∀ (i j : Nat) (s t : Server κ), w.servers[i]? = some s → w.servers[j]? = some t →
    s.dispatching = true → t.dispatching = true → s.messageQueue = t.messageQueue → i = j
  queued : ∀ o, ∀ m ∈ w.queues.contents o, ∀ i, m.owner = some i → Awaited w o m i ∨ Dead w o
  -- nothing of a server waits behind its exit message
  order : ∀ o, (w.queues.contents o).Pairwise fun m m' => m.isExit = true → m'.owner = none
  living : ∀ s ∈ w.servers, s.dispatching = true → s.alive = true
  ended : ∀ s ∈ w.servers, s.alive = true → s.dispatching = false → s.closing = true
  pending : ∀ (i : Nat) (s : Server κ), w.servers[i]? = some s → s.dispatching = true → s.closing = true →
    .exit i ∈ w.queues.contents s.messageQueue
  received : ∀ o, ∀ p ∈ w.received o, p.2.owner = none ∨ p.2.owner = some p.1

variable {w w' : World κ}

omit [DecidableEq κ] in
theorem owned_start : Owned (start : World κ) := by
  constructor
  case inv => exact inv_start
  all_goals simp [start, MessageQueues.fresh]

omit [DecidableEq κ] in
theorem exit_owner {m : Message} (h : m.isExit = true) : ∃ i, m.owner = some i := by
  cases m
  case exit i => exact ⟨i, rfl⟩
  all_goals cases h

omit [DecidableEq κ] in
theorem exit_eq {m : Message} {i : Nat} (h : m.isExit = true) (hm : m.owner = some i) : m = .exit i := by
  cases m with
  | exit j => exact congrArg Message.exit (Option.some.inj hm)
  | request env => cases h
  | createTopic j topicName => cases h
  | removeTopic j topicName => cases h

omit [DecidableEq κ] in
/-- The servers of two worlds correspond, one of them apart from its flags. -/
theorem set_server {i j : Nat} {s t x : Server κ} (hi : w.servers[i]? = some s)
    (hx : (w.servers.set i t)[j]? = some x) :
    j = i ∧ x = t ∨ j ≠ i ∧ w.servers[j]? = some x := by
  obtain ⟨hlt, -⟩ := List.getElem?_eq_some_iff.mp hi
  by_cases hj : j = i
  · subst hj
    rw [List.getElem?_set_self hlt, Option.some.injEq] at hx
    exact Or.inl ⟨rfl, hx.symm⟩
  · rw [List.getElem?_set_ne (Ne.symm hj)] at hx
    exact Or.inr ⟨hj, hx⟩

/-- A queue that nobody takes from stays so. -/
theorem dead_step (h : Inv w) {o : Nat} (hdead : Dead w o) {e : Event κ} (hs : step w e = some w') : Dead w' o := by
  have hframe := step_frame h hs
  have hunnamed : ∀ k, w'.queues.names k ≠ some o :=
    fun k => frame_unnamed hframe hdead.known (hdead.unnamed k)
  refine ⟨Nat.lt_of_lt_of_le hdead.known hframe.created, hunnamed, fun s hs' hqueue => ?_⟩
  · -- a dispatcher there would have got the queue by its name
    have hnone : w.dispatchers o = 0 := by
      rw [World.dispatchers, List.countP_eq_zero]
      intro t ht hboth
      rw [Bool.and_eq_true, beq_iff_eq] at hboth
      rw [hdead.quiet t ht hboth.2] at hboth
      cases hboth.1
    have hzero : w'.dispatchers o = 0 := by
      cases step_change h hs o with
      | put new known contents sent received dispatchers =>
        rcases dispatchers with hle | ⟨k, hk⟩
        · omega
        · exact absurd hk (hunnamed k)
      | taken i m contents sent received dispatchers dispatching => omega
    rw [World.dispatchers, List.countP_eq_zero] at hzero
    by_contra hd
    rw [Bool.not_eq_false] at hd
    exact hzero s hs' (by rw [hd, hqueue, beq_self_eq_true]; rfl)

section Set

variable {i : Nat} {s t : Server κ}

omit [DecidableEq κ] in
/-- A server whose queue stays and that does not begin to dispatch keeps the others apart. -/
theorem single_set (h : Owned w) (hi : w.servers[i]? = some s) (hqueue : t.messageQueue = s.messageQueue)
    (hgoes : t.dispatching = true → s.dispatching = true) (a b : Nat) (x y : Server κ)
    (ha : (w.servers.set i t)[a]? = some x) (hb : (w.servers.set i t)[b]? = some y) (hx : x.dispatching = true)
    (hy : y.dispatching = true) (hsame : x.messageQueue = y.messageQueue) : a = b := by
  rcases set_server hi ha with ⟨rfl, rfl⟩ | ⟨-, ha'⟩ <;>
    rcases set_server hi hb with ⟨rfl, rfl⟩ | ⟨-, hb'⟩
  · rfl
  · exact h.single _ b s y hi hb' (hgoes hx) hy (hqueue ▸ hsame)
  · exact h.single a _ x s ha' hi hx (hgoes hy) (hqueue ▸ hsame)
  · exact h.single a b x y ha' hb' hx hy hsame

omit [DecidableEq κ] in
/-- The servers' part of the invariant after one server has changed. -/
theorem owned_set (h : Owned w) (hi : w.servers[i]? = some s) (hinv : Inv w')
    (hservers : w'.servers = w.servers.set i t) (hqueue : t.messageQueue = s.messageQueue)
    (hgoes : t.dispatching = true → s.dispatching = true) (hliving : t.dispatching = true → t.alive = true)
    (hended : t.alive = true → t.dispatching = false → t.closing = true)
    (hqueued : ∀ o, ∀ m ∈ w'.queues.contents o, ∀ j, m.owner = some j → Awaited w' o m j ∨ Dead w' o)
    (horder : ∀ o, (w'.queues.contents o).Pairwise fun m m' => m.isExit = true → m'.owner = none)
    (hpending : t.dispatching = true → t.closing = true → .exit i ∈ w'.queues.contents t.messageQueue)
    (hothers : ∀ j, j ≠ i → ∀ x, w.servers[j]? = some x → x.dispatching = true →
      .exit j ∈ w.queues.contents x.messageQueue → .exit j ∈ w'.queues.contents x.messageQueue)
    (hreceived : ∀ o, ∀ p ∈ w'.received o, p.2.owner = none ∨ p.2.owner = some p.1) : Owned w' := by
  refine ⟨hinv, ?_, hqueued, horder, ?_, ?_, ?_, hreceived⟩
  · rw [hservers]
    exact single_set h hi hqueue hgoes
  · intro x hx hd
    rcases List.mem_or_eq_of_mem_set (hservers ▸ hx) with hx | rfl
    · exact h.living x hx hd
    · exact hliving hd
  · intro x hx ha hd
    rcases List.mem_or_eq_of_mem_set (hservers ▸ hx) with hx | rfl
    · exact h.ended x hx ha hd
    · exact hended ha hd
  · intro j x hx hd hc
    rcases set_server hi (hservers ▸ hx) with ⟨rfl, rfl⟩ | ⟨hj, hx⟩
    · exact hpending hd hc
    · exact hothers j hj x hx hd (h.pending j x hx hd hc)

omit [DecidableEq κ] in
/-- A message keeps its server when that is another one, or goes on as before. -/
theorem awaited_set (hi : w.servers[i]? = some s) (hservers : w'.servers = w.servers.set i t) {o : Nat}
    {m : Message} {j : Nat} (hawaited : Awaited w o m j)
    (hkeep : j = i → t.dispatching = true ∧ t.messageQueue = s.messageQueue ∧
      (s.closing = true → t.closing = true)) :
    Awaited w' o m j := by
  obtain ⟨x, hx, hdispatching, hqueue, hclosing⟩ := hawaited
  by_cases hji : j = i
  · subst hji
    obtain ⟨hd, hq, hc⟩ := hkeep rfl
    obtain rfl : s = x := Option.some.inj (hi.symm.trans hx)
    obtain ⟨hlt, -⟩ := List.getElem?_eq_some_iff.mp hi
    refine ⟨t, ?_, hd, hq.trans hqueue, fun hexit => hc (hclosing hexit)⟩
    rw [hservers, List.getElem?_set_self hlt]
  · refine ⟨x, ?_, hdispatching, hqueue, hclosing⟩
    rw [hservers, List.getElem?_set_ne (Ne.symm hji)]
    exact hx

end Set

section Sends

variable {object : Nat} {m : Message}

omit [DecidableEq κ] in
theorem send_contents (h : w.send object m = some w') (o : Nat) : w'.queues.contents o = w.queues.contents o ∨
    o = object ∧ w'.queues.contents o = w.queues.contents o ++ [m] := by
  obtain ⟨new, hobject, hcontents, -⟩ := send_object h o
  by_cases hne : new = []
  · rw [hne, List.append_nil] at hcontents
    exact Or.inl hcontents
  · obtain ⟨ho, rfl⟩ := hobject hne
    exact Or.inr ⟨ho, hcontents⟩

omit [DecidableEq κ] in
theorem send_self (h : w.send object m = some w') :
    w'.queues.contents object = w.queues.contents object ++ [m] := by
  obtain ⟨q, hq, rfl⟩ := Option.map_eq_some_iff.mp h
  change q.contents object = _
  rw [(MessageQueues.trySend_some hq).2.2, Function.update_self]

omit [DecidableEq κ] in
theorem send_keeps (h : w.send object m = some w') {o : Nat} {m' : Message} (hm : m' ∈ w.queues.contents o) :
    m' ∈ w'.queues.contents o := by
  rcases send_contents h o with hsame | ⟨-, hnew⟩
  · exact hsame ▸ hm
  · rw [hnew]
    exact List.mem_append_left _ hm

theorem owned_request (h : Owned w) {client : Nat} {env : RequestEnvelope}
    (hs : step w (.request client env) = some w') : Owned w' := by
  have hinv := inv_step h.inv hs
  have hdead : ∀ o, Dead w o → Dead w' o := fun o hd => dead_step h.inv hd hs
  obtain ⟨object, -, hs⟩ := Option.bind_eq_some_iff.mp hs
  obtain ⟨hservers, -, -, -, hreceived⟩ := send_frame hs
  refine ⟨hinv, hservers ▸ h.single, ?_, ?_, hservers ▸ h.living, hservers ▸ h.ended, ?_,
    hreceived ▸ h.received⟩
  · intro o m' hm' i hi
    have hold : m' ∈ w.queues.contents o → Awaited w' o m' i ∨ Dead w' o := by
      intro hmem
      rcases h.queued o m' hmem i hi with hawaited | hd
      · left
        rw [Awaited, hservers]
        exact hawaited
      · exact Or.inr (hdead o hd)
    rcases send_contents hs o with hsame | ⟨-, hnew⟩
    · exact hold (hsame ▸ hm')
    · rw [hnew] at hm'
      rcases List.mem_append.mp hm' with hmem | hlast
      · exact hold hmem
      · rw [List.mem_singleton.mp hlast] at hi
        cases hi
  · intro o
    rcases send_contents hs o with hsame | ⟨-, hnew⟩
    · rw [hsame]
      exact h.order o
    · rw [hnew, List.pairwise_append]
      refine ⟨h.order o, List.pairwise_singleton _ _, fun _ _ b hb _ => ?_⟩
      rw [List.mem_singleton.mp hb]
      rfl
  · intro i s hi hd hc
    exact send_keeps hs (h.pending i s (hservers ▸ hi) hd hc)

omit [DecidableEq κ] in
theorem dispatching_of_open (h : Owned w) {i : Nat} {s : Server κ} (hi : w.servers[i]? = some s)
    (hopen : s.isOpen = true) : s.dispatching = true := by
  rw [Server.isOpen, Bool.and_eq_true, Bool.not_eq_true'] at hopen
  by_contra hd
  rw [h.ended s (List.mem_of_getElem? hi) hopen.1 (Bool.not_eq_true _ ▸ hd)] at hopen
  cases hopen.2

omit [DecidableEq κ] in
/-- No exit message waits in the queue of a server that is open. -/
theorem no_exit (h : Owned w) {i : Nat} {s : Server κ} (hi : w.servers[i]? = some s) (hopen : s.isOpen = true)
    {m' : Message} (hm' : m' ∈ w.queues.contents s.messageQueue) : m'.isExit = false := by
  have hdispatching := dispatching_of_open h hi hopen
  rw [Server.isOpen, Bool.and_eq_true, Bool.not_eq_true'] at hopen
  by_contra hexit
  rw [Bool.not_eq_false] at hexit
  obtain ⟨j, hj⟩ := exit_owner hexit
  rcases h.queued _ m' hm' j hj with ⟨t, ht, hd, hqueue, hclosing⟩ | hdead
  · obtain rfl : j = i := h.single j i t s ht hi hd hdispatching hqueue
    obtain rfl : s = t := Option.some.inj (hi.symm.trans ht)
    rw [hclosing hexit] at hopen
    cases hopen.2
  · rw [hdead.quiet s (List.mem_of_getElem? hi) rfl] at hdispatching
    cases hdispatching

omit [DecidableEq κ] in
/-- An open server sends a message of its own, and begins to close if that is its exit message. -/
theorem owned_send (h : Owned w) {i : Nat} {s : Server κ} {v : World κ} (hi : w.servers[i]? = some s)
    (hopen : s.isOpen = true) (hm : m.owner = some i) (hs : w.send s.messageQueue m = some v)
    (hinv : Inv { v with servers := w.servers.set i { s with closing := m.isExit } })
    (hdead : ∀ o, Dead w o → Dead { v with servers := w.servers.set i { s with closing := m.isExit } } o) :
    Owned { v with servers := w.servers.set i { s with closing := m.isExit } } := by
  have hdispatching := dispatching_of_open h hi hopen
  have hstate := hopen
  rw [Server.isOpen, Bool.and_eq_true, Bool.not_eq_true'] at hstate
  obtain ⟨halive, hclosing⟩ := hstate
  obtain ⟨hlt, -⟩ := List.getElem?_eq_some_iff.mp hi
  obtain ⟨-, -, -, -, hreceived⟩ := send_frame hs
  refine owned_set (t := { s with closing := m.isExit }) h hi hinv rfl rfl id (fun _ => halive) ?_ ?_ ?_ ?_ ?_ ?_
  · intro _ hd
    exact absurd hdispatching (by rw [hd]; exact Bool.false_ne_true)
  · intro o m' hm' j hj
    have hold : m' ∈ w.queues.contents o →
        Awaited { v with servers := w.servers.set i { s with closing := m.isExit } } o m' j ∨
        Dead { v with servers := w.servers.set i { s with closing := m.isExit } } o := by
      intro hmem
      rcases h.queued o m' hmem j hj with hawaited | hd
      · left
        refine awaited_set hi rfl hawaited ?_
        exact fun _ => ⟨hdispatching, rfl, fun hc => absurd hc (by rw [hclosing]; exact Bool.false_ne_true)⟩
      · exact Or.inr (hdead o hd)
    rcases send_contents hs o with hsame | ⟨ho, hnew⟩
    · exact hold (hsame ▸ hm')
    · change m' ∈ v.queues.contents o at hm'
      rw [hnew] at hm'
      rcases List.mem_append.mp hm' with hmem | hlast
      · exact hold hmem
      · rw [List.mem_singleton.mp hlast] at hj ⊢
        obtain rfl : i = j := Option.some.inj (hm.symm.trans hj)
        exact Or.inl ⟨_, List.getElem?_set_self hlt, hdispatching, ho.symm, id⟩
  · intro o
    change (v.queues.contents o).Pairwise _
    rcases send_contents hs o with hsame | ⟨ho, hnew⟩
    · rw [hsame]
      exact h.order o
    · rw [hnew, List.pairwise_append]
      refine ⟨h.order o, List.pairwise_singleton _ _, fun a ha b hb hexit' => ?_⟩
      rw [no_exit h hi hopen (ho ▸ ha)] at hexit'
      cases hexit'
  · intro _ hexit
    change Message.exit i ∈ v.queues.contents s.messageQueue
    obtain rfl : m = .exit i := exit_eq hexit hm
    rw [send_self hs]
    exact List.mem_append_right _ (List.mem_singleton_self _)
  · exact fun j _ x _ _ hmem => send_keeps hs hmem
  · intro o p hp
    exact h.received o p (hreceived ▸ hp)

end Sends

omit [DecidableEq κ] in
theorem set_same {i : Nat} {s : Server κ} (hi : w.servers[i]? = some s) : w.servers.set i s = w.servers := by
  obtain ⟨hlt, hget⟩ := List.getElem?_eq_some_iff.mp hi
  rw [← hget, List.set_getElem_self hlt]

omit [DecidableEq κ] in
/-- A topic command. -/
theorem owned_command (h : Owned w) (hinv : Inv w') {i : Nat} {s : Server κ} {m : Message}
    (hi : w.servers[i]? = some s) (hopen : s.isOpen = true) (hm : m.owner = some i) (hexit : m.isExit = false)
    (hs : w.send s.messageQueue m = some w') (hdead : ∀ o, Dead w o → Dead w' o) : Owned w' := by
  have hsame : { w' with servers := w.servers.set i { s with closing := m.isExit } } = w' := by
    have hclosing : s.closing = m.isExit := by
      rw [Server.isOpen, Bool.and_eq_true, Bool.not_eq_true'] at hopen
      rw [hopen.2, hexit]
    have hservers : w.servers.set i { s with closing := m.isExit } = w'.servers := by
      rw [← hclosing]
      exact (set_same hi).trans (send_frame hs).1.symm
    rw [hservers]
  rw [← hsame]
  exact owned_send h hi hopen hm hs (hsame.symm ▸ hinv) (hsame.symm ▸ hdead)

omit [DecidableEq κ] in
theorem getElem?_concat {s t : Server κ} {j : Nat} (h : (w.servers ++ [t])[j]? = some s) :
    w.servers[j]? = some s ∨ j = w.servers.length ∧ s = t := by
  by_cases hj : j < w.servers.length
  · rw [List.getElem?_append_left hj] at h
    exact Or.inl h
  · rw [List.getElem?_append_right (Nat.not_lt.mp hj)] at h
    obtain ⟨hlt, hget⟩ := List.getElem?_eq_some_iff.mp h
    rw [List.length_singleton] at hlt
    refine Or.inr ⟨by omega, ?_⟩
    rw [← hget, List.getElem_singleton]

theorem owned_openServer (h : Owned w) {channel : κ} (hapart : Apart w (.openServer channel))
    (hs : step w (.openServer channel) = some w') : Owned w' := by
  have hinv := inv_step h.inv hs
  have hdead : ∀ o, Dead w o → Dead w' o := fun o hd => dead_step h.inv hd hs
  cases hs
  have hnew : ∀ s ∈ w.servers, s.dispatching = true → s.messageQueue ≠ (w.queues.openOrCreate channel).1 := by
    intro s hs hd heq
    rcases MessageQueues.openOrCreate_object w.queues channel with ⟨hname, -⟩ | ⟨-, hobject, -⟩
    · exact hapart s hs hd (heq ▸ hname)
    · exact absurd (h.inv.servers s hs) (by rw [heq, hobject]; exact Nat.lt_irrefl _)
  refine ⟨hinv, ?_, ?_, ?_, ?_, ?_, ?_, h.received⟩
  · intro i j s t hi hj hsgoes htgoes hqueue
    rcases getElem?_concat hi with hi' | ⟨hi', rfl⟩ <;> rcases getElem?_concat hj with hj' | ⟨hj', rfl⟩
    · exact h.single i j s t hi' hj' hsgoes htgoes hqueue
    · exact absurd hqueue (hnew s (List.mem_of_getElem? hi') hsgoes)
    · exact absurd hqueue.symm (hnew t (List.mem_of_getElem? hj') htgoes)
    · exact hi'.trans hj'.symm
  · intro o m hm i hi
    rw [opened_contents h.inv channel o] at hm
    rcases h.queued o m hm i hi with ⟨x, hx, hrest⟩ | hd
    · obtain ⟨hlt, -⟩ := List.getElem?_eq_some_iff.mp hx
      exact Or.inl ⟨x, (List.getElem?_append_left hlt).trans hx, hrest⟩
    · exact Or.inr (hdead o hd)
  · intro o
    rw [opened_contents h.inv channel o]
    exact h.order o
  · intro s hs hd
    rcases List.mem_append.mp hs with hs | hs
    · exact h.living s hs hd
    · rw [List.mem_singleton.mp hs]
      rfl
  · intro s hs halive hd
    rcases List.mem_append.mp hs with hs | hs
    · exact h.ended s hs halive hd
    · rw [List.mem_singleton.mp hs] at hd
      cases hd
  · intro i s hi hd hc
    rcases getElem?_concat hi with hi' | ⟨-, rfl⟩
    · rw [opened_contents h.inv channel]
      exact h.pending i s hi' hd hc
    · cases hc

theorem owned_dispatch (h : Owned w) {i : Nat} (hs : step w (.dispatch i) = some w') : Owned w' := by
  have hinv := inv_step h.inv hs
  have hdead : ∀ o, Dead w o → Dead w' o := fun o hd => dead_step h.inv hd hs
  simp only [step, Option.bind_eq_some_iff, Option.ite_none_right_eq_some, Option.map_eq_some_iff] at hs
  obtain ⟨s, hi, hdispatching, ⟨m, q⟩, hr, rfl⟩ := hs
  obtain ⟨rest, hcontents, -, -, hupdate⟩ := MessageQueues.receive_some hr
  have hhead : m ∈ w.queues.contents s.messageQueue := hcontents ▸ List.mem_cons_self
  have hrest : q.contents s.messageQueue = rest := by
    rw [hupdate, Function.update_self]
  have hother : ∀ o, o ≠ s.messageQueue → q.contents o = w.queues.contents o := by
    intro o ho
    rw [hupdate, Function.update_of_ne ho]
  have hsub : ∀ o, (q.contents o).Sublist (w.queues.contents o) := by
    intro o
    by_cases ho : o = s.messageQueue
    · subst ho
      rw [hrest, hcontents]
      exact List.sublist_cons_self m rest
    · rw [hother o ho]
  -- who waits for a message of this queue is the server that takes from it
  have hsender : ∀ m' ∈ w.queues.contents s.messageQueue, ∀ j, m'.owner = some j →
      j = i ∧ (m'.isExit = true → s.closing = true) := by
    intro m' hm' j hj
    rcases h.queued _ m' hm' j hj with ⟨x, hx, hd, hqueue, hclosing⟩ | hd
    · obtain rfl : j = i := h.single j i x s hx hi hd hdispatching hqueue
      obtain rfl : s = x := Option.some.inj (hi.symm.trans hx)
      exact ⟨rfl, hclosing⟩
    · rw [hd.quiet s (List.mem_of_getElem? hi) rfl] at hdispatching
      cases hdispatching
  have hhandle : (s.handle m).alive = s.alive ∧ (s.handle m).closing = s.closing := by
    cases m <;> exact ⟨rfl, rfl⟩
  have hgoes := handle_dispatching hdispatching m
  have horder := h.order s.messageQueue
  rw [hcontents, List.pairwise_cons] at horder
  refine owned_set (t := s.handle m) h hi hinv rfl (handle_messageQueue s m)
    (fun _ => hdispatching) ?_ ?_ ?_ ?_ ?_ ?_ ?_
  · exact fun _ => hhandle.1.trans (h.living s (List.mem_of_getElem? hi) hdispatching)
  · intro _ hend
    rw [hgoes, Bool.not_eq_false'] at hend
    obtain ⟨j, hj⟩ := exit_owner hend
    exact hhandle.2.trans ((hsender m hhead j hj).2 hend)
  · intro o m' hm' j hj
    rcases h.queued o m' ((hsub o).subset hm') j hj with hawaited | hd
    · left
      refine awaited_set (t := s.handle m) hi rfl hawaited fun hji => ?_
      refine ⟨?_, handle_messageQueue s m, fun hc => hhandle.2.trans hc⟩
      rw [hgoes, Bool.not_eq_true']
      by_contra hexit
      rw [Bool.not_eq_false] at hexit
      -- the exit message was the last of the server's messages
      obtain ⟨x, hx, -, hqueue, -⟩ := hawaited
      subst hji
      obtain rfl : s = x := Option.some.inj (hi.symm.trans hx)
      subst hqueue
      change m' ∈ q.contents s.messageQueue at hm'
      rw [horder.1 m' (hrest ▸ hm') hexit] at hj
      cases hj
    · exact Or.inr (hdead o hd)
  · exact fun o => (h.order o).sublist (hsub o)
  · intro hd hc
    rw [handle_messageQueue]
    change Message.exit i ∈ q.contents s.messageQueue
    have hmem := h.pending i s hi hdispatching (hhandle.2.symm.trans hc)
    rw [hcontents] at hmem
    rw [hrest]
    rcases List.mem_cons.mp hmem with rfl | hmem
    · cases hd
    · exact hmem
  · intro j hj x hx hd hmem
    by_cases hqueue : x.messageQueue = s.messageQueue
    · exact absurd (h.single j i x s hx hi hd hdispatching hqueue) hj
    · change Message.exit j ∈ q.contents x.messageQueue
      rw [hother _ hqueue]
      exact hmem
  · intro o p hp
    by_cases ho : o = s.messageQueue
    · subst ho
      change p ∈ Function.update w.received s.messageQueue _ s.messageQueue at hp
      rw [Function.update_self] at hp
      rcases List.mem_append.mp hp with hp | hp
      · exact h.received _ p hp
      · rw [List.mem_singleton.mp hp]
        cases hm : m.owner with
        | none => exact Or.inl rfl
        | some j => exact Or.inr (congrArg some (hsender m hhead j hm).1)
    · change p ∈ Function.update w.received s.messageQueue _ o at hp
      rw [Function.update_of_ne ho] at hp
      exact h.received o p hp

omit [DecidableEq κ] in
/-- A server that is gone, or dies, waits for nothing that could still be taken. -/
theorem owned_end (h : Owned w) {i : Nat} {s t : Server κ} (hi : w.servers[i]? = some s) (hinv : Inv w')
    (hservers : w'.servers = w.servers.set i t) (hqueue : t.messageQueue = s.messageQueue)
    (halive : t.alive = false) (hdispatching : t.dispatching = false)
    (hcontents : ∀ o, w'.queues.contents o = w.queues.contents o) (hreceived : w'.received = w.received)
    (hdead : ∀ o, Dead w o → Dead w' o)
    (hlast : ∀ m ∈ w.queues.contents s.messageQueue, Awaited w s.messageQueue m i → m.owner = some i →
      Dead w' s.messageQueue) : Owned w' := by
  refine owned_set (t := t) h hi hinv hservers hqueue ?_ ?_ ?_ ?_ ?_ ?_ ?_ ?_
  · exact fun hd => absurd hd (by rw [hdispatching]; exact Bool.false_ne_true)
  · exact fun hd => absurd hd (by rw [hdispatching]; exact Bool.false_ne_true)
  · exact fun ha => absurd ha (by rw [halive]; exact Bool.false_ne_true)
  · intro o m hm j hj
    rw [hcontents o] at hm
    rcases h.queued o m hm j hj with hawaited | hd
    · by_cases hji : j = i
      · subst hji
        obtain ⟨x, hx, hrest⟩ := hawaited
        obtain rfl : s = x := Option.some.inj (hi.symm.trans hx)
        obtain rfl := hrest.2.1
        exact Or.inr (hlast m hm ⟨s, hi, hrest⟩ hj)
      · exact Or.inl (awaited_set hi hservers hawaited (fun heq => absurd heq hji))
    · exact Or.inr (hdead o hd)
  · intro o
    rw [hcontents o]
    exact h.order o
  · exact fun hd => absurd hd (by rw [hdispatching]; exact Bool.false_ne_true)
  · intro j _ x _ _ hmem
    rw [hcontents]
    exact hmem
  · rw [hreceived]
    exact h.received

theorem owned_step (h : Owned w) {e : Event κ} (hapart : Apart w e) (hs : step w e = some w') : Owned w' := by
  have hinv := inv_step h.inv hs
  have hdead : ∀ o, Dead w o → Dead w' o := fun o hd => dead_step h.inv hd hs
  cases e with
  | openServer channel => exact owned_openServer h hapart hs
  | dispatch i => exact owned_dispatch h hs
  | request client env => exact owned_request h hs
  | openClient channel =>
    cases hs
    have hcontents := opened_contents h.inv channel
    refine ⟨hinv, h.single, ?_, ?_, h.living, h.ended, ?_, h.received⟩
    · intro o m hm i hi
      exact (h.queued o m (hcontents o ▸ hm) i hi).imp id (hdead o)
    · intro o
      rw [hcontents o]
      exact h.order o
    · intro i s hi hd hc
      rw [hcontents]
      exact h.pending i s hi hd hc
  | clear channel =>
    cases hs
    exact ⟨hinv, h.single, fun o m hm i hi => (h.queued o m hm i hi).imp id (hdead o), h.order, h.living, h.ended,
      h.pending, h.received⟩
  | createTopic i topicName | removeTopic i topicName =>
    simp only [step, Option.bind_eq_some_iff, Option.ite_none_right_eq_some] at hs
    obtain ⟨s, hi, hopen, hs⟩ := hs
    exact owned_command h hinv hi hopen rfl rfl hs hdead
  | close i =>
    simp only [step, Option.bind_eq_some_iff, Option.ite_none_right_eq_some, Option.map_eq_some_iff] at hs
    obtain ⟨s, hi, hopen, v, hv, rfl⟩ := hs
    exact owned_send h hi hopen rfl hv hinv hdead
  | destroy i =>
    simp only [step, Option.bind_eq_some_iff, Option.ite_none_right_eq_some] at hs
    obtain ⟨s, hi, ⟨-, -, hended⟩, hs⟩ := hs
    cases hs
    refine owned_end (t := { s with alive := false }) h hi hinv rfl rfl rfl hended
      (fun o => ?_) rfl hdead fun m _ hawaited _ => ?_
    · change (if s.topics = [] then w.queues.remove s.channel else w.queues).contents o = w.queues.contents o
      split <;> rfl
    · obtain ⟨x, hx, hd, -⟩ := hawaited
      obtain rfl : s = x := Option.some.inj (hi.symm.trans hx)
      rw [hended] at hd
      cases hd
  | crash i =>
    simp only [step, Option.bind_eq_some_iff, Option.ite_none_right_eq_some] at hs
    obtain ⟨s, hi, -, hs⟩ := hs
    cases hs
    refine owned_end (t := { s with alive := false, dispatching := false }) h hi hinv rfl rfl rfl rfl
      (fun _ => rfl) rfl
      hdead fun m hm hawaited hj => ?_
    obtain ⟨x, hx, hd, -⟩ := hawaited
    obtain rfl : s = x := Option.some.inj (hi.symm.trans hx)
    refine ⟨h.inv.servers s (List.mem_of_getElem? hi), hapart s hi m hm hj, fun y hy hqueue => ?_⟩
    obtain ⟨j, hjy⟩ := List.mem_iff_getElem?.mp hy
    rcases set_server hi hjy with ⟨-, rfl⟩ | ⟨hji, hjy⟩
    · rfl
    · by_contra hyd
      rw [Bool.not_eq_false] at hyd
      exact hji (h.single j i y s hjy hi hyd hd hqueue)

/-- Every exit message and every topic command was taken by the server that sent it. -/
def TakenByOwn (w : World κ) : Prop := ∀ o, ∀ p ∈ w.received o, p.2.owner = none ∨ p.2.owner = some p.1

section Astray

variable {i j : Nat} {s t : Server κ}

omit [DecidableEq κ] in
theorem handle_request {m : Message} (h : m.owner = none) (s : Server κ) : s.handle m = s := by
  cases m
  case request => rfl
  all_goals cases h

/-- A dispatcher that has another server's message before it takes that. -/
theorem takes_astray (h : Inv w) (hj : w.servers[j]? = some t) (hd : t.dispatching = true) {m : Message}
    (hm : m ∈ w.queues.contents t.messageQueue) (hi : m.owner = some i)
    (hothers : ∀ m' ∈ w.queues.contents t.messageQueue, m'.owner ≠ some j) :
    ∃ fs u, Guarded step Apart w fs ∧ run step w fs = some u ∧ ¬ TakenByOwn u := by
  induction hl : w.queues.contents t.messageQueue generalizing w with
  | nil =>
    rw [hl] at hm
    cases hm
  | cons first rest ih =>
    obtain ⟨u, hu, -, hservers, hrest, -, hreceived, -⟩ := dispatch_step h hj hd hl
    have hapart : Apart w (.dispatch j) := trivial
    cases hfirst : first.owner with
    | some i' =>
      refine ⟨[.dispatch j], u, guarded_step hapart hu (guarded_nil _ _ _), run_step hu, fun hfine => ?_⟩
      have hlast := hfine t.messageQueue (j, first) (by rw [hreceived]; simp)
      have hforeign := hothers first (hl ▸ List.mem_cons_self)
      rcases hlast with hnone | hown
      · rw [hfirst] at hnone
        cases hnone
      · exact hforeign hown
    | none =>
      have hne : m ≠ first := by
        rintro rfl
        rw [hi] at hfirst
        cases hfirst
      rw [handle_request hfirst, set_same hj] at hservers
      have hm' : m ∈ u.queues.contents t.messageQueue := by
        rw [hl] at hm
        rw [hrest]
        exact (List.mem_cons.mp hm).resolve_left hne
      have hothers' : ∀ m' ∈ u.queues.contents t.messageQueue, m'.owner ≠ some j := by
        intro m' hmem
        rw [hrest] at hmem
        exact hothers m' (hl ▸ List.mem_cons_of_mem _ hmem)
      obtain ⟨fs, v, hguarded, hrun, hbad⟩ := ih (inv_step h hu) (hservers ▸ hj) hm' hothers' hrest
      refine ⟨.dispatch j :: fs, v, guarded_step hapart hu hguarded, ?_, hbad⟩
      rw [run_cons, hu]
      exact hrun

/-- Of two dispatchers on one queue, the one that has just begun may take the other's exit message. -/
theorem overlap_astray (h : Inv w) (hi : w.servers[i]? = some s) (hj : w.servers[j]? = some t) (hij : i ≠ j)
    (halive : s.alive = true) (hd : t.dispatching = true) (hqueue : s.messageQueue = t.messageQueue)
    (hpending : s.closing = true → .exit i ∈ w.queues.contents t.messageQueue)
    (hothers : ∀ m ∈ w.queues.contents t.messageQueue, m.owner ≠ some j) :
    ∃ fs u, Guarded step Apart w fs ∧ run step w fs = some u ∧ ¬ TakenByOwn u := by
  induction hl : w.queues.contents t.messageQueue generalizing w with
  | nil =>
    -- nothing waits, so the other server has not begun to close
    have hclosing : s.closing = false := by
      by_contra hc
      have hmem := hpending (Bool.not_eq_false _ ▸ hc)
      rw [hl] at hmem
      cases hmem
    have hopen : s.isOpen = true := by
      rw [Server.isOpen, halive, hclosing]
      rfl
    have hempty : w.queues.contents s.messageQueue = [] := hqueue ▸ hl
    obtain ⟨v, hv⟩ : ∃ v, w.send s.messageQueue (.exit i) = some v := by
      rw [World.send, MessageQueues.trySend, hempty]
      exact ⟨_, rfl⟩
    have hu : step w (.close i) = some { v with servers := w.servers.set i { s with closing := true } } := by
      rw [step, hi, Option.bind_some, if_pos hopen, hv, Option.map_some]
    have hcontents : v.queues.contents t.messageQueue = [.exit i] := by
      rw [← hqueue, send_self hv, hempty]
      rfl
    have hj' : (w.servers.set i { s with closing := true })[j]? = some t := by
      rw [List.getElem?_set_ne hij]
      exact hj
    have hmem : Message.exit i ∈ v.queues.contents t.messageQueue := hcontents ▸ List.mem_singleton_self _
    have hothers' : ∀ m ∈ v.queues.contents t.messageQueue, m.owner ≠ some j := by
      intro m hm
      rw [hcontents] at hm
      rw [List.mem_singleton.mp hm]
      exact fun heq => hij (Option.some.inj heq)
    obtain ⟨fs, u, hguarded, hrun, hbad⟩ := takes_astray (inv_step h hu) hj' hd hmem rfl hothers'
    refine ⟨.close i :: fs, u, guarded_step trivial hu hguarded, ?_, hbad⟩
    rw [run_cons, hu]
    exact hrun
  | cons first rest ih =>
    cases hfirst : first.owner with
    | some i' => exact takes_astray h hj hd (hl ▸ List.mem_cons_self) hfirst hothers
    | none =>
      obtain ⟨u, hu, -, hservers, hrest, -⟩ := dispatch_step h hj hd hl
      rw [handle_request hfirst, set_same hj] at hservers
      have hpending' : s.closing = true → .exit i ∈ u.queues.contents t.messageQueue := by
        intro hc
        have hmem := hpending hc
        rw [hl] at hmem
        rw [hrest]
        rcases List.mem_cons.mp hmem with rfl | hmem
        · cases hfirst
        · exact hmem
      have hothers' : ∀ m ∈ u.queues.contents t.messageQueue, m.owner ≠ some j := by
        intro m hm
        rw [hrest] at hm
        exact hothers m (hl ▸ List.mem_cons_of_mem _ hm)
      obtain ⟨fs, v, hguarded, hrun, hbad⟩ :=
        ih (inv_step h hu) (hservers ▸ hi) (hservers ▸ hj) hpending' hothers' hrest
      refine ⟨.dispatch j :: fs, v, guarded_step trivial hu hguarded, ?_, hbad⟩
      rw [run_cons, hu]
      exact hrun

omit [DecidableEq κ] in
/-- A message in a queue with its name is not from a server that does not exist yet. -/
theorem owner_lt (h : Owned w) {o : Nat} {k : κ} (hk : w.queues.names k = some o) {m : Message}
    (hm : m ∈ w.queues.contents o) : m.owner ≠ some w.servers.length := by
  intro hlast
  rcases h.queued o m hm _ hlast with ⟨x, hx, -⟩ | hdead
  · obtain ⟨hlt, -⟩ := List.getElem?_eq_some_iff.mp hx
    exact Nat.lt_irrefl _ hlt
  · exact hdead.unnamed k hk

/-- Each step that does not keep the servers apart can be followed by a message that goes astray. -/
theorem astray_of_not_apart (h : Owned w) {e : Event κ} (hs : step w e = some w') (hnot : ¬ Apart w e) :
    ∃ fs u, Guarded step Apart w' fs ∧ run step w' fs = some u ∧ ¬ TakenByOwn u := by
  have hinv := inv_step h.inv hs
  cases e with
  | openServer channel =>
    simp only [Apart, not_forall, not_not] at hnot
    obtain ⟨x, hx, hd, hname⟩ := hnot
    obtain ⟨i, hi⟩ := List.mem_iff_getElem?.mp hx
    obtain ⟨hlt, -⟩ := List.getElem?_eq_some_iff.mp hi
    have hopen : w.queues.openOrCreate channel = (x.messageQueue, w.queues) := by
      rw [MessageQueues.openOrCreate, hname]
    simp only [step, hopen, Option.some.injEq] at hs
    subst hs
    refine overlap_astray (i := i) (j := w.servers.length) (s := x)
      (t := .new channel x.messageQueue) hinv ?_ ?_ ?_ ?_ rfl rfl ?_ ?_
    · exact (List.getElem?_append_left hlt).trans hi
    · exact List.getElem?_concat_length
    · exact Nat.ne_of_lt hlt
    · exact h.living x hx hd
    · exact h.pending i x hi hd
    · exact fun m hm => owner_lt h hname hm
  | crash i =>
    simp only [Apart, not_forall, not_not] at hnot
    obtain ⟨x, hi, m, hm, howner, k, hname⟩ := hnot
    simp only [step, Option.bind_eq_some_iff, Option.ite_none_right_eq_some] at hs
    obtain ⟨s, hi', -, hs⟩ := hs
    obtain rfl : x = s := Option.some.inj (hi.symm.trans hi')
    cases hs
    let dead : Server κ := { x with alive := false, dispatching := false }
    let v : World κ := { w with servers := w.servers.set i dead ++ [.new k x.messageQueue] }
    have hopen : w.queues.openOrCreate k = (x.messageQueue, w.queues) := by
      rw [MessageQueues.openOrCreate, hname]
    have hv : step { w with servers := w.servers.set i dead } (.openServer k) = some v := by
      simp only [step, hopen]
      rfl
    -- the dead server was the only one that dispatched there
    have hapart : Apart { w with servers := w.servers.set i dead } (.openServer k) := by
      intro y hy hyd hyname
      have hyqueue : y.messageQueue = x.messageQueue := Option.some.inj (hyname.symm.trans hname)
      obtain ⟨j, hjy⟩ := List.mem_iff_getElem?.mp hy
      rcases set_server hi hjy with ⟨-, rfl⟩ | ⟨hji, hjy⟩
      · cases hyd
      · rcases h.queued _ m hm i howner with ⟨x', hx', hxd, -⟩ | hdead
        · obtain rfl : x = x' := Option.some.inj (hi.symm.trans hx')
          exact hji (h.single j i y x hjy hi hyd hxd hyqueue)
        · exact hdead.unnamed k hname
    have hlast : v.servers[w.servers.length]? = some (.new k x.messageQueue) := by
      have hlength : (w.servers.set i dead).length = w.servers.length := List.length_set
      rw [← hlength]
      exact List.getElem?_concat_length
    obtain ⟨fs, u, hguarded, hrun, hbad⟩ :=
      takes_astray (inv_step hinv hv) hlast rfl hm howner (fun m' hm' => owner_lt h hname hm')
    refine ⟨.openServer k :: fs, u, guarded_step hapart hv hguarded, ?_, hbad⟩
    rw [run_cons, hv]
    exact hrun
  | _ => exact absurd trivial hnot

end Astray

/-- Every exit message and every topic command that is ever taken is taken by the server that sent
it, if and only if the dispatchers of a channel do not overlap and no server dies while a message
of its own waits in a queue that has its name. -/
theorem taken_by_own_iff (es : List (Event κ)) (w : World κ) (h : run step start es = some w) :
    (∀ v fs u, Visits step start es v → Guarded step Apart v fs → run step v fs = some u → TakenByOwn u) ↔
    Guarded step Apart start es := by
  have hkeep : ∀ (v : World κ) (e : Event κ) (v' : World κ), Owned v → Apart v e →
      step v e = some v' → Owned v' :=
    fun v e v' hv hguard hstep => owned_step hv hguard hstep
  constructor
  · have hgeneral : ∀ s : World κ, Owned s → run step s es = some w →
        (∀ v fs u, Visits step s es v → Guarded step Apart v fs → run step v fs = some u → TakenByOwn u) →
        Guarded step Apart s es := by
      clear h
      induction es with
      | nil => exact fun s _ _ _ => guarded_nil step Apart s
      | cons e es ih =>
        intro s howned hrun hfine
        obtain ⟨t, ht, hrest⟩ := run_cons_some hrun
        have hvisit : ∀ v, Visits step t es v → Visits step s (e :: es) v := by
          rintro v ⟨pre, suf, rfl, hv⟩
          refine ⟨e :: pre, suf, rfl, ?_⟩
          rw [run_cons, ht]
          exact hv
        have hapart : Apart s e := by
          by_contra hnot
          obtain ⟨fs, u, hguarded, hu, hbad⟩ := astray_of_not_apart howned ht hnot
          exact hbad (hfine t fs u (hvisit t ⟨[], es, rfl, rfl⟩) hguarded hu)
        exact guarded_step hapart ht (ih t (hkeep s e t howned hapart ht) hrest fun v fs u hv =>
          hfine v fs u (hvisit v hv))
    exact hgeneral start owned_start h
  · intro hguarded v fs u hv hfs hu
    have howned : Owned v := guarded_visits hkeep owned_start hguarded hv
    exact (guarded_invariant hkeep howned hfs hu).received

/-- A server that dies while it closes, and the next one. -/
def died : List (Event Nat) := [.openServer 0, .createTopic 0 [116], .dispatch 0, .close 0, .crash 0, .openServer 0]

theorem taken_by_own_died : ∃ w, run step start died = some w ∧
    ((∀ v fs u, Visits step start died v → Guarded step Apart v fs → run step v fs = some u → TakenByOwn u) ↔
    Guarded step Apart start died) :=
  ⟨_, rfl, taken_by_own_iff died _ rfl⟩

end ServerRestarts
