import ZeroCopyRpc.TcpTopicReplication

/-!
# Several topics through one socket

Frames carry no topic name, and the source reads one handshake per accepted
connection. The threads of two topics read the same stream, so whichever comes
first takes a frame of the topic that was asked for first.
-/
namespace TcpRouting

open Cells Framing TcpReplicator TcpTopicReplication Transitions

/-- Every entry a target topic has gained was published on the source topic of the same name. -/
def RoutesByTopic (target : Topic → TopicService) (s : State) : Prop :=
  ∀ t, ∃ gained, (s.target t).buffer.log = (target t).buffer.log ++ gained ∧
    ∀ m ∈ gained, m ∈ s.published t

/-- A target topic that no writer uses and that has room. -/
structure Ready (service : TopicService) : Prop where
  bounded : service.buffer.memory.Bounded
  free : service.buffer.memory.inUse = false
  room : 0 < service.buffer.memory.size

variable {target : Topic → TopicService} {s : State} {es : List Event}

/-- Without a topic no thread runs. -/
theorem untouched (h : run step (start [] target) es = some s) : ∀ t, (s.target t).buffer = (target t).buffer := by
  have hinv : s.requested = [] ∧ s.replicators = [] ∧ ∀ t, (s.target t).buffer = (target t).buffer := by
    refine run_invariant (I := fun s : State => s.requested = [] ∧ s.replicators = [] ∧
      ∀ t, (s.target t).buffer = (target t).buffer) ?_ ⟨rfl, rfl, fun _ => rfl⟩ h
    rintro s e s' ⟨hreq, hthreads, htarget⟩ hstep
    cases e with
    | create t bufferSize =>
      simp only [step] at hstep
      split at hstep <;> cases hstep <;> exact ⟨hreq, hthreads, htarget⟩
    | publish t m =>
      simp only [step] at hstep
      split at hstep
      · cases hstep
      · split at hstep
        · cases hstep
          exact ⟨hreq, hthreads, htarget⟩
        · cases hstep
    | notify t =>
      simp only [step] at hstep
      split at hstep
      · cases hstep
      · split at hstep
        · cases hstep
          exact ⟨hreq, hthreads, htarget⟩
        · cases hstep
    | replicateTopic =>
      simp only [step, hreq] at hstep
      cases hstep
    | connection i e =>
      simp only [step] at hstep
      split at hstep
      · rw [Option.map_eq_some_iff] at hstep
        obtain ⟨d, -, rfl⟩ := hstep
        exact ⟨hreq, hthreads, htarget⟩
      · cases hstep
    | thread i e =>
      simp only [step, hthreads, List.getElem?_nil] at hstep
      cases hstep
    | attend t service =>
      cases hstep
      refine ⟨hreq, hthreads, ?_⟩
      intro u
      by_cases hu : u = t
      · subst hu
        simpa [State.setTarget] using htarget u
      · simpa [State.setTarget, hu] using htarget u
  exact hinv.2.2

theorem routes_alone (topic : Topic) (htarget : ∀ t, Ready (target t))
    (h : run step (start [topic] target) es = some s) :
    RoutesByTopic target s := by
  have hinv := inv_run (htarget topic).bounded (htarget topic).free h
  intro t
  by_cases ht : t = topic
  · subst ht
    exact ⟨_, hinv.log, fun m hm => (sublist_of_inv hinv).subset hm⟩
  · exact ⟨[], by rw [hinv.others t ht, List.append_nil], fun m hm => absurd hm List.not_mem_nil⟩

/-- An entry of the first topic is on the wire and the thread of the second one is there to read it. -/
def misrouting (t₀ : Topic) : List Event :=
  [.create t₀ 1, .publish t₀ ⟨1, [7]⟩, .replicateTopic, .connection 0 (.deliverUp (handshake t₀.1).length),
    .connection 0 .accept, .replicateTopic, .notify t₀, .connection 0 .take, .connection 0 (.writeHeader 0),
    .connection 0 .writeBody, .connection 0 (.deliver 17)]

theorem misrouting_run (t₀ t₁ : Topic) (rest : List Topic) (target : Topic → TopicService) :
    ∃ s, run step (start (t₀ :: t₁ :: rest) target) (misrouting t₀) = some s ∧
      s.source = Function.update (fun _ => none) t₀ (some ⟨1, [⟨1, [7]⟩], 1⟩) ∧
      s.replicators = [⟨t₀, .header⟩, ⟨t₁, .header⟩] ∧ s.target = target ∧ s.socket = 0 ∧
      (s.connections 0).down = (messageHeader ⟨1, [7]⟩).toBytes 0 ++ [7] ∧ (s.connections 0).arrived = 17 := by
  have hsub : ∀ st : SourceTopic, subscribe (Function.update (fun _ => none) t₀ (some st)) t₀.1 =
      some (t₀, st) := by
    intro st
    simp [subscribe, t₀.2]
  have hsize : (messageHeader ⟨1, [7]⟩).size.toNat = 1 := by decide
  simp [misrouting, start, step, stepConnection, State.setConnection, Connection.new, readHandshake_handshake, hsub,
    State.passes, State.published, TcpReplicationMessage.toBytes_length, hsize]

/-- The second thread publishes the entry on its own topic. -/
theorem misrouted_read {t₀ t₁ : Topic} (ht : Ready (target t₁))
    (hthreads : s.replicators = [⟨t₀, .header⟩, ⟨t₁, .header⟩])
    (htarget : s.target = target) (hsocket : s.socket = 0)
    (hdown : (s.connections 0).down = (messageHeader ⟨1, [7]⟩).toBytes 0 ++ [7])
    (harrived : (s.connections 0).arrived = 17) :
    ∃ s', run step s [.thread 1 .readHeader, .thread 1 .readBody] = some s' ∧ s'.source = s.source ∧
      (s'.target t₁).buffer.log = (target t₁).buffer.log ++ [⟨1, [7]⟩] := by
  have hheader : (messageHeader ⟨1, [7]⟩).toBytes 0 = [1, 0, 0, 0, 0, 0, 0, 0, 1, 0, 0, 0, 0, 0, 0, 0] := by decide
  obtain ⟨span, memory, hspan⟩ := CyclicMemoryPool.getWriteSpan_granted ht.room ht.free
  obtain ⟨hbounded, hlive⟩ := Span.live_of_getWriteSpan ht.bounded hspan
  have hzero : span.committed = 0 := by
    obtain ⟨-, -, ⟨-, he, -⟩ | ⟨-, he, -⟩⟩ := CyclicMemoryPool.getWriteSpan_ok hspan <;> rw [he]
  have hprepare : (target t₁).prepare 1 1 =
      .ok (⟨span, 1⟩, { target t₁ with buffer := { (target t₁).buffer with memory := memory } }) := by
    simp [TopicService.prepare, CyclicBuffer.writeScope, hspan]
  have hcopy : span.Live (memory.copy span.start [7]) 1 :=
    ⟨hlive.locked, hlive.bound, hlive.long, hlive.committed_le, hlive.offset_eq⟩
  have hlong := hlive.long
  have hfits : (memory.copy span.start [7]).Bounded := ⟨hbounded.offset_le, hbounded.size_lt⟩
  have hcommit : span.commit (memory.copy span.start [7]) 1 = _ := Span.commit_of_live hfits hcopy
  rw [if_neg (by omega), hzero, Nat.zero_add] at hcommit
  obtain ⟨service, hpublish, hservice⟩ := TopicService.publish_buffer
    { target t₁ with buffer := { (target t₁).buffer with
      memory := { memory with offset := memory.offset + 1, buffer := store memory.buffer span.start [7] } } }
    ⟨{ span with committed := 1 }, 1⟩
  have hread : TcpReplicationMessage.ofBytes [1, 0, 0, 0, 0, 0, 0, 0, 1, 0, 0, 0, 0, 0, 0, 0] = ⟨1, 1⟩ := by decide
  have hcontent : slice (store memory.buffer span.start [7]) span.start 1 = [7] := slice_store_same _ _ [7]
  simp [step, stepThread, hthreads, htarget, hsocket, hdown, harrived, hheader, Connection.readable, hread, hprepare,
    State.setPhase, State.setTarget, State.setConnection, CyclicBuffer.copy, WriterScope.commit, hcommit, hpublish,
    hservice, WriterScope.destroy_log, WriterScope.content, hcontent]

/-- One topic at a time is routed by its name, and never more than one. -/
theorem routes_by_topic_iff (topics : List Topic) (hdistinct : topics.Nodup) (target : Topic → TopicService)
    (htarget : ∀ t, Ready (target t)) :
    (∀ es s, run step (start topics target) es = some s → RoutesByTopic target s) ↔ topics.length ≤ 1 := by
  constructor
  · intro hroutes
    rcases topics with _ | ⟨t₀, _ | ⟨t₁, rest⟩⟩
    · exact Nat.zero_le _
    · exact Nat.le_refl _
    · exfalso
      have hne : t₁ ≠ t₀ := by
        rintro rfl
        simp at hdistinct
      obtain ⟨s, hs, hsource, hthreads, htargets, hsocket, hdown, harrived⟩ := misrouting_run t₀ t₁ rest target
      obtain ⟨s', hs', hsource', hlog⟩ := misrouted_read (htarget t₁) hthreads htargets hsocket hdown harrived
      obtain ⟨gained, hgained, hpublished⟩ := hroutes _ s' (run_join hs hs') t₁
      rw [hlog, List.append_cancel_left_eq] at hgained
      have hmem := hpublished ⟨1, [7]⟩ (hgained ▸ List.mem_singleton_self _)
      simp [State.published, hsource', hsource, hne] at hmem
  · intro hlength es s h
    rcases topics with _ | ⟨topic, _ | ⟨second, rest⟩⟩
    · intro t
      exact ⟨[], by rw [untouched h t, List.append_nil], fun m hm => absurd hm List.not_mem_nil⟩
    · exact routes_alone topic htarget h
    · simp at hlength

theorem ready_smallTarget (t : Topic) : Ready (smallTarget t) where
  bounded := CyclicMemoryPool.new_bounded (by decide) _
  free := rfl
  room := Nat.zero_lt_succ 63

theorem routes_by_topic_two :
    ¬ ∀ es s, run step (start [⟨[97], by decide⟩, ⟨[98], by decide⟩] smallTarget) es = some s →
      RoutesByTopic smallTarget s := by
  intro h
  have hone := (routes_by_topic_iff [⟨[97], by decide⟩, ⟨[98], by decide⟩]
    (by decide) smallTarget ready_smallTarget).mp h
  exact absurd hone (by decide)

/-- With topics a and b, an entry published on a is published on the target's b. -/
theorem entry_on_wrong_topic : ∃ s, run step (start [⟨[97], by decide⟩, ⟨[98], by decide⟩] smallTarget)
    (misrouting ⟨[97], by decide⟩ ++ [.thread 1 .readHeader, .thread 1 .readBody]) = some s ∧
    ¬ RoutesByTopic smallTarget s := by
  have h : (run step (start [⟨[97], by decide⟩, ⟨[98], by decide⟩] smallTarget)
      (misrouting ⟨[97], by decide⟩ ++ [.thread 1 .readHeader, .thread 1 .readBody])).map
      (fun s => ((s.target ⟨[98], by decide⟩).buffer.log, s.published ⟨[98], by decide⟩)) =
      some ([⟨1, [7]⟩], []) := by decide +kernel
  obtain ⟨s, hs, hobs⟩ := Option.map_eq_some_iff.mp h
  rw [Prod.mk.injEq] at hobs
  refine ⟨s, hs, ?_⟩
  intro hroutes
  obtain ⟨gained, hgained, hpublished⟩ := hroutes ⟨[98], by decide⟩
  rw [hobs.1] at hgained
  rw [hobs.2] at hpublished
  obtain rfl : [⟨1, [7]⟩] = gained := hgained
  have hmem := hpublished ⟨1, [7]⟩ (List.mem_singleton_self _)
  cases hmem

end TcpRouting
