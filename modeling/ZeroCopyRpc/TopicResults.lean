import ZeroCopyRpc.TopicCommands

/-!
# What `CreateTopic` and `RemoveTopic` return

All operations stand in one order. Whether a topic stands is decided by the last
call about its name, so the order alone gives the result of each removal, while
subscriptions, publishers and clients go on in between.
-/
namespace TopicCommands

open ReceiveBuffer Envelopes QueuedObject Transitions

/-- Whether a topic stands after the operations, if it did or did not before. -/
def standing (name : TopicName) : List (Entry Operation (Option Result)) → Bool → Bool
  | [], b => b
  | e :: es, b => standing name es (match e.op with
    | .call s => match s.call with
      | .createTopic topicName _ _ => b || decide (setTopicName topicName = name)
      | .removeTopic topicName => b && decide (setTopicName topicName ≠ name)
      | _ => b
    | _ => b)

def stands (c : Channel) (name : TopicName) : Bool := (c.server.topics name).isSome

variable {c : Channel} {name : TopicName}

theorem stands_update {topics : TopicName → Option TopicService} {topicName : TopicName} {topic : TopicService}
    (h : (topics topicName).isSome = true) (name : TopicName) :
    (Function.update topics topicName (some topic) name).isSome = (topics name).isSome := by
  by_cases hname : name = topicName
  · rw [hname, Function.update_self, h]
    rfl
  · rw [Function.update_of_ne hname]

theorem stands_subscribe {s t : SharedMemoryServer} {topicName : TopicName} {pid id : Nat} {opens : Bool}
    (h : s.subscribe topicName pid opens = .ok (id, t)) (name : TopicName) :
    (t.topics name).isSome = (s.topics name).isSome := by
  unfold SharedMemoryServer.subscribe at h
  cases htopic : s.topics topicName with
  | none =>
    rw [htopic] at h
    cases h
    rfl
  | some topic =>
    rw [htopic] at h
    cases hok : topic.subscribe pid opens with
    | error _ =>
      simp only [hok] at h
      cases h
    | ok r =>
      simp only [hok] at h
      cases h
      apply stands_update
      rw [htopic]
      rfl

theorem stands_onUnsubscribe (s : SharedMemoryServer) (topicName : TopicName) (pid id : Nat) (weakFailure : Bool)
    (name : TopicName) :
    ((s.onUnsubscribe topicName pid id weakFailure).2.topics name).isSome = (s.topics name).isSome := by
  unfold SharedMemoryServer.onUnsubscribe
  cases htopic : s.topics topicName with
  | none => rfl
  | some topic =>
    apply stands_update
    rw [htopic]
    rfl

/-- Answering a client neither creates nor removes a topic. -/
theorem stands_answer {env : RequestEnvelope} {chance : Chance} {e : Effect} (h : c.answer env chance = some e) :
    stands e.channel name = stands c name := by
  obtain ⟨d, hd, rfl⟩ := Option.map_eq_some_iff.mp h
  obtain ⟨m, response, hhandled, -⟩ := ReplyEnvelopes.dispatchMessage_handled hd
  change (d.server.topics name).isSome = (c.server.topics name).isSome
  generalize env.request = request at hhandled
  generalize d.server.topics = topics at hhandled
  cases hhandled with
  | hello created => rfl
  | subscribe granted => exact stands_subscribe granted name
  | unsubscribe topicName slothId =>
    exact stands_onUnsubscribe c.server topicName env.pid slothId chance.weakFailure name

theorem stands_create {topicName : TopicName} {messageCount bufferSize : Nat} {running : Nat → Bool}
    {r : TopicName × Channel} (h : c.onCreateTopic topicName messageCount bufferSize running = some r)
    (name : TopicName) : r.1 = topicName ∧ stands r.2 name = (stands c name || decide (topicName = name)) := by
  unfold Channel.onCreateTopic at h
  cases htopic : c.server.topics topicName with
  | some topic =>
    rw [htopic] at h
    cases h
    refine ⟨rfl, ?_⟩
    by_cases hname : topicName = name
    · subst hname
      rw [stands, htopic]
      rfl
    · rw [decide_eq_false hname, Bool.or_false]
  | none =>
    simp only [htopic] at h
    by_cases hcount : messageCount = 0
    · rw [if_pos hcount] at h
      cases h
    · rw [if_neg hcount] at h
      cases hok : (c.remains topicName).construct messageCount bufferSize running with
      | error _ =>
        rw [hok] at h
        cases h
      | ok topic =>
        rw [hok] at h
        cases h
        refine ⟨rfl, ?_⟩
        by_cases hname : topicName = name
        · subst hname
          simp only [stands, Function.update_self, Option.isSome_some, decide_true, Bool.or_true]
        · simp only [stands, Function.update_of_ne (Ne.symm hname), decide_eq_false hname, Bool.or_false]

theorem stands_remove (c : Channel) (topicName name : TopicName) :
    (c.removeSubscription topicName).1 = stands c topicName ∧
    stands (c.removeSubscription topicName).2 name = (stands c name && decide (topicName ≠ name)) := by
  unfold Channel.removeSubscription
  cases htopic : c.server.topics topicName with
  | none =>
    refine ⟨by rw [stands, htopic]; rfl, ?_⟩
    by_cases hname : topicName = name
    · subst hname
      simp only [stands, htopic, Option.isSome_none, Bool.false_and]
    · rw [decide_eq_true hname, Bool.and_true]
  | some topic =>
    refine ⟨by rw [stands, htopic]; rfl, ?_⟩
    by_cases hname : topicName = name
    · subst hname
      simp only [stands, Function.update_self, Option.isSome_none, ne_eq, not_true_eq_false,
        decide_false, Bool.and_false]
    · simp only [stands, Function.update_of_ne (Ne.symm hname), decide_eq_true hname, Bool.and_true]

/-- What a call leaves of the topics, and what its promise gets. -/
theorem standing_apply {s t : Channel × Bool} {e : Entry Operation (Option Result)}
    (h : apply s e.op = some (e.result, t)) (name : TopicName) :
    stands t.1 name = standing name [e] (stands s.1 name) := by
  obtain ⟨ticket, op, result⟩ := e
  obtain ⟨c, canceled⟩ := s
  cases op with
  | publish topicName topic =>
    simp only [apply] at h
    by_cases hsome : (c.server.topics topicName).isSome = true
    · rw [if_pos hsome] at h
      cases h
      exact stands_update hsome name
    · rw [if_neg hsome] at h
      cases h
  | clients queues =>
    cases h
    rfl
  | call s =>
    simp only [apply] at h
    by_cases hend : canceled = true
    · rw [if_pos hend] at h
      cases h
    · rw [if_neg hend] at h
      obtain ⟨e, he, hresult⟩ := Option.map_eq_some_iff.mp h
      obtain ⟨-, rfl⟩ := Prod.mk.inj hresult
      simp only [standing]
      cases hcall : s.call with
      | connect created =>
        rw [hcall] at he
        exact stands_answer he
      | subscribe topicName =>
        rw [hcall] at he
        exact stands_answer he
      | invokeUnsubscribe topicName sloth =>
        rw [hcall] at he
        exact stands_answer he
      | createTopic topicName messageCount bufferSize =>
        rw [hcall] at he
        obtain ⟨r, hr, rfl⟩ := Option.map_eq_some_iff.mp he
        exact (stands_create hr name).2
      | removeTopic topicName =>
        rw [hcall] at he
        cases he
        exact (stands_remove c (setTopicName topicName) name).2
      | destroy =>
        rw [hcall] at he
        cases he
        rfl

theorem standing_append (name : TopicName) (l₁ l₂ : List (Entry Operation (Option Result))) (b : Bool) :
    standing name (l₁ ++ l₂) b = standing name l₂ (standing name l₁ b) := by
  induction l₁ generalizing b with
  | nil => rfl
  | cons e l₁ ih => exact ih _

theorem executes_standing {s t : Channel × Bool} {es : List (Entry Operation (Option Result))}
    (h : Executes apply s es t) (name : TopicName) : stands t.1 name = standing name es (stands s.1 name) := by
  induction es generalizing s with
  | nil =>
    cases h
    rfl
  | cons e es ih =>
    obtain ⟨u, hu, hrest⟩ := h
    rw [ih hrest, standing_apply hu name]
    exact (standing_append name [e] es _).symm

theorem executes_split {s t : Channel × Bool} {pre post : List (Entry Operation (Option Result))}
    {e : Entry Operation (Option Result)} (h : Executes apply s (pre ++ e :: post) t) :
    ∃ u v, Executes apply s pre u ∧ apply u e.op = some (e.result, v) ∧ Executes apply v post t := by
  induction pre generalizing s with
  | nil =>
    obtain ⟨v, hv, hrest⟩ := h
    exact ⟨s, v, rfl, hv, hrest⟩
  | cons f pre ih =>
    obtain ⟨w, hw, hrest⟩ := h
    obtain ⟨u, v, hu, hv, hpost⟩ := ih hrest
    exact ⟨u, v, ⟨w, hw, hu⟩, hv, hpost⟩

/-- Once the exit command was handled, no call is. -/
theorem executes_canceled {s t : Channel × Bool} {es : List (Entry Operation (Option Result))}
    (h : Executes apply s es t) (hend : s.2 = true) : ∀ e ∈ es, ∀ s', e.op ≠ .call s' := by
  induction es generalizing s with
  | nil =>
    intro e he
    cases he
  | cons f es ih =>
    obtain ⟨u, hu, hrest⟩ := h
    obtain ⟨ticket, op, result⟩ := f
    obtain ⟨c, canceled⟩ := s
    cases hend
    cases op with
    | call s' => cases hu
    | publish topicName topic =>
      simp only [apply] at hu
      split at hu
      · cases hu
        intro e he s'
        rcases List.mem_cons.mp he with rfl | he
        · rintro ⟨⟩
        · exact ih hrest rfl e he s'
      · cases hu
    | clients queues =>
      cases hu
      intro e he s'
      rcases List.mem_cons.mp he with rfl | he
      · rintro ⟨⟩
      · exact ih hrest rfl e he s'

/-- The results of `CreateTopic` and `RemoveTopic` in one order of all operations: a removal
says whether the last call about the name created the topic, a creation gives the topic of the
name, where the name is what its field holds of it; and behind the exit command stands no call. -/
structure Ordered (c : Channel) (order : List (Entry Operation (Option Result))) : Prop where
  removed : ∀ pre e post s topicName, order = pre ++ e :: post → e.op = .call s →
    s.call = .removeTopic topicName →
    e.result = some (.removed (standing (setTopicName topicName) pre (stands c (setTopicName topicName))))
  created : ∀ e ∈ order, ∀ s topicName messageCount bufferSize, e.op = .call s →
    s.call = .createTopic topicName messageCount bufferSize → e.result = some (.topic (setTopicName topicName))
  exit : ∀ pre e post s, order = pre ++ e :: post → e.op = .call s → s.call = .destroy →
    ∀ f ∈ post, ∀ s', f.op ≠ .call s'

theorem apply_call {u v : Channel × Bool} {s : Sent} {result : Option Result}
    (h : apply u (.call s) = some (result, v)) : ∃ e, s.call.handle s.caller u.1 s.running s.chance = some e ∧
      result = e.promise.map Prod.snd ∧ v = (e.channel, decide (s.call = .destroy)) := by
  obtain ⟨c, canceled⟩ := u
  simp only [apply] at h
  by_cases hend : canceled = true
  · rw [if_pos hend] at h
    cases h
  · rw [if_neg hend] at h
    obtain ⟨e, he, hresult⟩ := Option.map_eq_some_iff.mp h
    obtain ⟨rfl, rfl⟩ := Prod.mk.inj hresult
    exact ⟨e, he, rfl, rfl⟩

theorem ordered {c : Channel} {canceled : Bool} {order : List (Entry Operation (Option Result))}
    (h : ∃ t, Executes apply (c, canceled) order t) : Ordered c order := by
  obtain ⟨t, ht⟩ := h
  constructor
  · rintro pre e post s topicName rfl hop hcall
    obtain ⟨u, v, hpre, hstep, -⟩ := executes_split ht
    rw [hop] at hstep
    obtain ⟨effect, heffect, hresult, -⟩ := apply_call hstep
    rw [hcall] at heffect
    cases heffect
    rw [hresult, ← executes_standing hpre]
    exact congrArg (fun b => some (Result.removed b)) (stands_remove u.1 (setTopicName topicName) topicName).1
  · intro e he s topicName messageCount bufferSize hop hcall
    obtain ⟨pre, post, rfl⟩ := List.append_of_mem he
    obtain ⟨u, v, -, hstep, -⟩ := executes_split ht
    rw [hop] at hstep
    obtain ⟨effect, heffect, hresult, -⟩ := apply_call hstep
    rw [hcall] at heffect
    obtain ⟨r, hr, rfl⟩ := Option.map_eq_some_iff.mp heffect
    rw [hresult]
    exact congrArg (fun n => some (Result.topic n)) (stands_create hr topicName).1
  · rintro pre e post s rfl hop hcall
    obtain ⟨u, v, -, hstep, hpost⟩ := executes_split ht
    rw [hop] at hstep
    obtain ⟨effect, -, -, rfl⟩ := apply_call hstep
    exact executes_canceled hpost (by rw [hcall]; rfl)

/-- In every interleaving, the results that were returned are those of one order of the calls in
which each removal and each creation has the result that the calls before it determine. -/
theorem topic_results (d : Dispatcher) (events : List Event) (w : World) (h : run step (start d) events = some w) :
    ∃ order, Linearizes apply (d.channel, d.canceled) w.history order ∧ Ordered d.channel order := by
  obtain ⟨a, q, hreach, hrel⟩ := run_rel (Reaches.refl _) (rel_start d) h
  have hlinear := linearizes hreach
  rw [hrel.history] at hlinear
  exact ⟨a.handled, hlinear, ordered hlinear.legal⟩

theorem topic_results_overtaken : ∃ w, run step (start idle) overtaken = some w ∧
    w.returned = [(3, none), (1, some (.removed true)), (2, some (.topic [97]))] ∧
    ∃ order, Linearizes apply (idle.channel, idle.canceled) w.history order ∧ Ordered idle.channel order := by
  obtain ⟨w, hw, hreturned⟩ := run_overtaken
  exact ⟨w, hw, hreturned, topic_results idle _ w hw⟩

end TopicCommands
