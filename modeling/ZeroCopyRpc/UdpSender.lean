import ZeroCopyRpc.ReplicationAgreement
import ZeroCopyRpc.Transitions

/-!
# Datagrams that could not be sent

Each topic has a thread that reads its cursor and sends the fragments of an entry
through the one socket of the source. A failed `send_to` is caught inside the loop
over the fragments: the thread sleeps and tries the same fragment again. The flags
that stop a thread are looked at only between two entries. The destructor sets
them, closes the socket and takes the members away, and does not wait for the
threads. A thread that is left then uses a member that is gone: the socket, or the
client that its cursor unsubscribes from when the thread returns.

The iterator points to the entry where it lies in shared memory. Here it carries
the entry's bytes: an entry keeps its bytes until its last fragment is sent, that
is, the publisher does not come around to them before.
-/
namespace UdpSender

open UdpReplicator Transitions

/-- Where a thread stands in `ReplicateLoop`. -/
inductive Location where
  | atLoop
  | reading
  | sending (iterator : UdpFrameIterator)
  | returned

/-- `entries` is a history variable: what was read, each with its stamp. -/
structure TopicReplicator where
  running : Bool
  location : Location
  entries : List (Nat × Message)

/-- How far the source's destructor is. In the last stage a thread has used a member that is gone. -/
inductive Stage where
  | alive | closed | destroyed | undefined
  deriving DecidableEq, Repr

/-- `sent` are the datagrams that left the socket, with the thread they are from. -/
structure World (κ : Type) where
  replicators : κ → Option TopicReplicator
  running : Bool
  stage : Stage
  sent : List (κ × Datagram)

inductive Event (κ : Type) where
  | replicateTopic (k : κ)
  | check (k : κ)
  | timeout (k : κ)
  | read (k : κ) (created : Nat) (message : Message)
  | send (k : κ) (fails : Bool)
  | finish (k : κ)
  -- the steps of the destructor
  | stop
  | stopTopic (k : κ)
  | close
  | destroy

variable {κ : Type} [DecidableEq κ]

def World.goto (w : World κ) (k : κ) (r : TopicReplicator) (location : Location) : World κ :=
  { w with replicators := Function.update w.replicators k (some { r with location := location }) }

/-- What a thread does with the members of the source. -/
def World.uses (w w' : World κ) : World κ := if w.stage = .destroyed then { w with stage := .undefined } else w'

def payloadSize : Nat := mtu - 16

/-- One step of the thread, given what it finds. -/
def act : World κ → Event κ → Option (World κ)
  | w, .replicateTopic k => match w.replicators k with
    | some _ => none
    | none =>
      if w.stage = .destroyed then none
      else some { w with replicators := Function.update w.replicators k (some ⟨true, .atLoop, []⟩) }
  | w, .check k => match w.replicators k with
    | some ⟨running, .atLoop, entries⟩ =>
      some (w.uses (w.goto k ⟨running, .atLoop, entries⟩ (if running && w.running then .reading else .returned)))
    | _ => none
  | w, .timeout k => match w.replicators k with
    | some ⟨running, .reading, entries⟩ =>
      some (w.uses (w.goto k ⟨running, .reading, entries⟩ (if running && w.running then .reading else .returned)))
    | _ => none
  | w, .read k created message => match w.replicators k with
    | some ⟨running, .reading, entries⟩ =>
      some (w.goto k ⟨running, .reading, entries ++ [(created, message)]⟩
        (.sending (.new message.bytes message.type.toUInt8 created)))
    | _ => none
  | w, .send k fails => match w.replicators k with
    | some ⟨running, .sending iterator, entries⟩ =>
      if iterator.canRead then
        match iterator.deref payloadSize, iterator.next payloadSize with
        | some datagram, some following =>
          -- a closed socket throws, and so does a failed send; the iterator stays
          if fails = true ∨ w.stage ≠ .alive then some (w.uses w)
          else some { w.goto k ⟨running, .sending iterator, entries⟩ (.sending following) with
            sent := w.sent ++ [(k, datagram)] }
        | _, _ => none
      else none
    | _ => none
  | w, .finish k => match w.replicators k with
    | some ⟨running, .sending iterator, entries⟩ =>
      if iterator.canRead then none else some (w.goto k ⟨running, .sending iterator, entries⟩ .atLoop)
    | _ => none
  | w, .stop => some { w with running := false }
  | w, .stopTopic k => match w.replicators k with
    | some r => some { w with replicators := Function.update w.replicators k (some { r with running := false }) }
    | none => none
  | w, .close => if w.stage = .alive then some { w with stage := .closed } else none
  | w, .destroy => if w.stage = .closed then some { w with stage := .destroyed } else none

/-- Once the behaviour is undefined nothing more is said. -/
def step : Machine (World κ) (Event κ) := fun w e => if w.stage = .undefined then none else act w e

def start : World κ := ⟨fun _ => none, true, .alive, []⟩

/-- The datagrams of one thread. -/
def World.sentBy (w : World κ) (k : κ) : List Datagram := (w.sent.filter fun s => s.1 = k).map Prod.snd

def datagrams (entries : List (Nat × Message)) : List Datagram := entries.flatMap fun e => send e.1 e.2

/-- How far a thread is with the entries it has read. -/
def Progress (r : TopicReplicator) (sent : List Datagram) : Prop :=
  match r.location with
  | .sending iterator => ∃ pre created message k, r.entries = pre ++ [(created, message)] ∧
      iterator = UdpMessage.iterator payloadSize ⟨created, message.type.toUInt8, message.bytes⟩ k ∧
      k ≤ UdpMessage.fragments payloadSize ⟨created, message.type.toUInt8, message.bytes⟩ ∧
      sent = datagrams pre ++ (send created message).take k
  | _ => sent = datagrams r.entries

def Inv (w : World κ) : Prop :=
  ∀ k, (w.replicators k = none → w.sentBy k = []) ∧ ∀ r, w.replicators k = some r → Progress r (w.sentBy k)

variable {w w' : World κ} {k : κ} {r : TopicReplicator}

theorem inv_start : Inv (start : World κ) := by
  intro k
  refine ⟨fun _ => rfl, ?_⟩
  rintro r ⟨⟩

/-- What one step does to one thread, with what leaves the socket. -/
inductive Turn : Option TopicReplicator → Option TopicReplicator → List Datagram → Prop where
  | started : Turn none (some ⟨true, .atLoop, []⟩) []
  | checked {running : Bool} {before after : Location} {entries : List (Nat × Message)}
    (idle : before = .atLoop ∨ before = .reading) (next : after = .reading ∨ after = .returned) :
    Turn (some ⟨running, before, entries⟩) (some ⟨running, after, entries⟩) []
  | read {running : Bool} {entries : List (Nat × Message)} (created : Nat) (message : Message) :
    Turn (some ⟨running, .reading, entries⟩)
      (some ⟨running, .sending (.new message.bytes message.type.toUInt8 created), entries ++ [(created, message)]⟩)
        []
  | sent {running : Bool} {iterator following : UdpFrameIterator} {entries : List (Nat × Message)}
    {datagram : Datagram} (canRead : iterator.canRead = true) (deref : iterator.deref payloadSize = some datagram)
    (next : iterator.next payloadSize = some following) :
    Turn (some ⟨running, .sending iterator, entries⟩) (some ⟨running, .sending following, entries⟩) [datagram]
  | finished {running : Bool} {iterator : UdpFrameIterator} {entries : List (Nat × Message)}
    (canRead : iterator.canRead = false) :
    Turn (some ⟨running, .sending iterator, entries⟩) (some ⟨running, .atLoop, entries⟩) []
  | stopped (r : TopicReplicator) : Turn (some r) (some { r with running := false }) []

/-- A step is a turn of one thread, or it leaves the threads alone: a send that failed, a step
of the destructor, or the use of a member that is gone. -/
inductive Outcome (w w' : World κ) : Prop where
  | turn (k : κ) (new : Option TopicReplicator) (datagrams : List Datagram)
    (taken : Turn (w.replicators k) new datagrams)
    (replicators : w'.replicators = Function.update w.replicators k new)
    (sent : w'.sent = w.sent ++ datagrams.map (Prod.mk k))
  | other (replicators : w'.replicators = w.replicators) (sent : w'.sent = w.sent)

/-- A thread that uses a member goes on only while it is there. -/
theorem outcome_uses {v : World κ} (h : Outcome w v) : Outcome w (w.uses v) := by
  rw [World.uses]
  split
  · exact .other rfl rfl
  · exact h

theorem next_location (go : Bool) :
    (if go then Location.reading else .returned) = .reading ∨
    (if go then Location.reading else .returned) = .returned := by
  cases go
  · exact Or.inr rfl
  · exact Or.inl rfl

/-- The spec of a step. -/
theorem step_outcome {e : Event κ} (hstep : step w e = some w') : Outcome w w' := by
  rw [step] at hstep
  split at hstep
  · cases hstep
  · cases e with
    | replicateTopic k =>
      simp only [act] at hstep
      split at hstep
      · cases hstep
      · rename_i hr
        split at hstep <;> cases hstep
        exact .turn k _ [] (hr ▸ .started) rfl (List.append_nil _).symm
    | check k =>
      simp only [act] at hstep
      split at hstep
      · rename_i running entries hr
        cases hstep
        exact outcome_uses (.turn k _ [] (hr ▸ .checked (Or.inl rfl) (next_location _)) rfl (List.append_nil _).symm)
      · cases hstep
    | timeout k =>
      simp only [act] at hstep
      split at hstep
      · rename_i running entries hr
        cases hstep
        exact outcome_uses (.turn k _ [] (hr ▸ .checked (Or.inr rfl) (next_location _)) rfl (List.append_nil _).symm)
      · cases hstep
    | read k created message =>
      simp only [act] at hstep
      split at hstep
      · rename_i running entries hr
        cases hstep
        exact .turn k _ [] (hr ▸ .read created message) rfl (List.append_nil _).symm
      · cases hstep
    | send k fails =>
      simp only [act] at hstep
      split at hstep
      · rename_i running iterator entries hr
        by_cases hread : iterator.canRead = true
        · rw [if_pos hread] at hstep
          split at hstep
          · rename_i datagram following hderef hnext
            by_cases hfails : fails = true ∨ w.stage ≠ .alive
            · rw [if_pos hfails] at hstep
              cases hstep
              exact outcome_uses (.other rfl rfl)
            · rw [if_neg hfails] at hstep
              cases hstep
              exact .turn k _ [datagram] (hr ▸ .sent hread hderef hnext) rfl rfl
          · cases hstep
        · rw [if_neg hread] at hstep
          cases hstep
      · cases hstep
    | finish k =>
      simp only [act] at hstep
      split at hstep
      · rename_i running iterator entries hr
        by_cases hread : iterator.canRead = true
        · rw [if_pos hread] at hstep
          cases hstep
        · rw [if_neg hread] at hstep
          cases hstep
          exact .turn k _ [] (hr ▸ .finished (Bool.not_eq_true _ ▸ hread)) rfl (List.append_nil _).symm
      · cases hstep
    | stop =>
      cases hstep
      exact .other rfl rfl
    | stopTopic k =>
      simp only [act] at hstep
      split at hstep
      · rename_i r hr
        cases hstep
        exact .turn k _ [] (hr ▸ .stopped r) rfl (List.append_nil _).symm
      · cases hstep
    | close | destroy =>
      simp only [act] at hstep
      split at hstep <;> cases hstep
      exact .other rfl rfl

theorem fragments_eq (created : Nat) (message : Message) : send created message =
    (List.range (UdpMessage.fragments payloadSize ⟨created, message.type.toUInt8, message.bytes⟩)).map
      (UdpMessage.fragment payloadSize ⟨created, message.type.toUInt8, message.bytes⟩) :=
  UdpMessage.datagrams_eq (by decide) _

/-- One more fragment of an entry. -/
theorem take_succ_send {created j : Nat} {message : Message}
    (hj : j < UdpMessage.fragments payloadSize ⟨created, message.type.toUInt8, message.bytes⟩) :
    (send created message).take (j + 1) = (send created message).take j ++
      [UdpMessage.fragment payloadSize ⟨created, message.type.toUInt8, message.bytes⟩ j] := by
  have hlength : j < (send created message).length := by
    rw [fragments_eq, List.length_map, List.length_range]
    exact hj
  have hget : (send created message)[j] =
      UdpMessage.fragment payloadSize ⟨created, message.type.toUInt8, message.bytes⟩ j := by
    simp only [fragments_eq, List.getElem_map, List.getElem_range]
  rw [List.take_add_one, List.getElem?_eq_getElem hlength, hget]
  rfl

theorem progress_sent {running : Bool} {iterator following : UdpFrameIterator} {entries : List (Nat × Message)}
    {datagram : Datagram} {sent : List Datagram} (h : Progress ⟨running, .sending iterator, entries⟩ sent)
    (hread : iterator.canRead = true) (hderef : iterator.deref payloadSize = some datagram)
    (hnext : iterator.next payloadSize = some following) :
    Progress ⟨running, .sending following, entries⟩ (sent ++ [datagram]) := by
  have hp : 0 < payloadSize := by decide
  obtain ⟨pre, created, message, j, hentries, hiterator, -, hsent⟩ := h
  have hj : j < UdpMessage.fragments payloadSize ⟨created, message.type.toUInt8, message.bytes⟩ := by
    have hcan := UdpMessage.iterator_canRead hp ⟨created, message.type.toUInt8, message.bytes⟩ j
    rw [← hiterator, hread] at hcan
    exact of_decide_eq_true hcan.symm
  rw [hiterator, UdpMessage.iterator_deref hp hj] at hderef
  rw [hiterator, UdpMessage.iterator_next hp hj] at hnext
  obtain rfl := Option.some.inj hderef
  obtain rfl := Option.some.inj hnext
  refine ⟨pre, created, message, j + 1, hentries, rfl, hj, ?_⟩
  rw [take_succ_send hj, ← List.append_assoc, ← hsent]

theorem progress_finished {running : Bool} {iterator : UdpFrameIterator} {entries : List (Nat × Message)}
    {sent : List Datagram} (h : Progress ⟨running, .sending iterator, entries⟩ sent)
    (hread : iterator.canRead = false) :
    sent = datagrams entries := by
  have hp : 0 < payloadSize := by decide
  obtain ⟨pre, created, message, j, hentries, hiterator, -, hsent⟩ := h
  have hj : UdpMessage.fragments payloadSize ⟨created, message.type.toUInt8, message.bytes⟩ ≤ j := by
    have hcan := UdpMessage.iterator_canRead hp ⟨created, message.type.toUInt8, message.bytes⟩ j
    rw [← hiterator, hread] at hcan
    exact Nat.not_lt.mp (of_decide_eq_false hcan.symm)
  have hall : (send created message).take j = send created message := by
    apply List.take_of_length_le
    rw [fragments_eq, List.length_map, List.length_range]
    exact hj
  have hentries' : entries = pre ++ [(created, message)] := hentries
  rw [hsent, hall, hentries', datagrams, datagrams, List.flatMap_append, List.flatMap_singleton]

/-- A thread gets on in its turn by what it sends. -/
theorem progress_turn {old : Option TopicReplicator} {new : TopicReplicator} {ds sent : List Datagram}
    (h : Turn old (some new) ds) (hnone : old = none → sent = []) (hold : ∀ r, old = some r → Progress r sent) :
    Progress new (sent ++ ds) := by
  cases h with
  | started =>
    rw [hnone rfl]
    rfl
  | checked idle next =>
    rw [List.append_nil]
    have hsent := hold _ rfl
    rcases idle with rfl | rfl <;> rcases next with rfl | rfl <;> exact hsent
  | read created message =>
    refine ⟨_, created, message, 0, rfl, UdpMessage.iterator_start
      ⟨created, message.type.toUInt8, message.bytes⟩ _, Nat.zero_le _, ?_⟩
    rw [List.take_zero, hold _ rfl]
  | sent canRead deref next => exact progress_sent (hold _ rfl) canRead deref next
  | finished canRead =>
    rw [List.append_nil]
    exact progress_finished (hold _ rfl) canRead
  | stopped r =>
    rw [List.append_nil]
    exact hold r rfl

theorem turn_some {old new : Option TopicReplicator} {ds : List Datagram} (h : Turn old new ds) :
    ∃ r, new = some r := by
  cases h <;> exact ⟨_, rfl⟩

theorem sentBy_append {ds : List Datagram} (hsent : w'.sent = w.sent ++ ds.map (Prod.mk k)) (j : κ) :
    w'.sentBy j = if k = j then w.sentBy j ++ ds else w.sentBy j := by
  simp only [World.sentBy, hsent, List.filter_append, List.map_append]
  by_cases hj : k = j
  · simp [hj, List.filter_map, Function.comp_def]
  · simp [hj, List.filter_map, Function.comp_def]

theorem inv_step {e : Event κ} (h : Inv w) (hstep : step w e = some w') : Inv w' := by
  intro j
  cases step_outcome hstep with
  | other replicators sent =>
    have hsame : w'.sentBy j = w.sentBy j := by rw [World.sentBy, sent, World.sentBy]
    rw [replicators, hsame]
    exact h j
  | turn k new ds taken replicators sent =>
    rw [replicators, sentBy_append sent j]
    by_cases hj : k = j
    · subst hj
      obtain ⟨r, rfl⟩ := turn_some taken
      rw [Function.update_self, if_pos rfl]
      refine ⟨fun hnone => absurd hnone (Option.some_ne_none r), ?_⟩
      rintro r' ⟨⟩
      exact progress_turn taken (h k).1 (h k).2
    · rw [Function.update_of_ne (Ne.symm hj), if_neg hj]
      exact h j

theorem inv_run {es : List (Event κ)} (h : run step (start : World κ) es = some w) : Inv w :=
  run_invariant (fun _ _ _ h hstep => inv_step h hstep) inv_start h

/-- The thread is not inside the loop over the fragments. -/
def Between (r : TopicReplicator) : Prop :=
  match r.location with
  | .sending _ => False
  | _ => True

theorem progress_initial {sent : List Datagram} (h : Progress r sent) : sent <+: datagrams r.entries := by
  obtain ⟨running, location, entries⟩ := r
  cases location with
  | sending iterator =>
    obtain ⟨pre, created, message, j, hentries, -, -, rfl⟩ := h
    have hentries' : entries = pre ++ [(created, message)] := hentries
    rw [hentries', datagrams, datagrams, List.flatMap_append, List.flatMap_singleton]
    exact List.prefix_append_right_inj _ |>.mpr (List.take_prefix _ _)
  | atLoop => exact h ▸ List.prefix_rfl
  | reading => exact h ▸ List.prefix_rfl
  | returned => exact h ▸ List.prefix_rfl

theorem progress_between {sent : List Datagram} (h : Progress r sent) (hbetween : Between r) :
    sent = datagrams r.entries := by
  obtain ⟨running, location, entries⟩ := r
  cases location with
  | sending iterator => cases hbetween
  | atLoop => exact h
  | reading => exact h
  | returned => exact h

/-- Whichever sends fail and however the threads alternate, each thread has sent the fragments of
the entries it read in order, none twice and none left out, and between two entries all of them. -/
theorem fragments_in_order (es : List (Event κ)) (w : World κ) (k : κ) (r : TopicReplicator)
    (h : run step start es = some w) (hr : w.replicators k = some r) :
    w.sentBy k <+: datagrams r.entries ∧ (Between r → w.sentBy k = datagrams r.entries) := by
  have hprogress := (inv_run h k).2 r hr
  exact ⟨progress_initial hprogress, progress_between hprogress⟩

/-- Two threads take turns with an entry of two fragments and one of one, and a send of each fails. -/
def retried : List (Event Nat) :=
  [.replicateTopic 0, .replicateTopic 1, .check 0, .check 1, .read 0 1 ⟨5, List.replicate 1485 1⟩,
    .read 1 2 ⟨6, [1, 2]⟩, .send 0 true, .send 0 false, .send 1 true, .send 1 false, .finish 1,
    .send 0 false, .finish 0]

/-- Whether a thread is at the start of its loop. -/
def TopicReplicator.looping (r : TopicReplicator) : Bool :=
  match r.location with
  | .atLoop => true
  | _ => false

theorem retried_thread : ∃ w r, run step start retried = some w ∧ w.replicators 0 = some r ∧
    r.entries = [(1, ⟨5, List.replicate 1485 1⟩)] ∧ Between r := by
  have hrun : ((run step start retried).bind fun w => (w.replicators 0).map fun r => (r.entries, r.looping)) =
      some ([(1, ⟨5, List.replicate 1485 1⟩)], true) := by
    decide +kernel
  obtain ⟨w, hw, hr⟩ := Option.bind_eq_some_iff.mp hrun
  obtain ⟨⟨running, location, entries⟩, hr, hfields⟩ := Option.map_eq_some_iff.mp hr
  obtain ⟨hentries, hlooping⟩ := Prod.mk.inj hfields
  refine ⟨w, _, hw, hr, hentries, ?_⟩
  cases location with
  | sending iterator => cases hlooping
  | _ => exact trivial

theorem fragments_in_order_retried : ∃ w r, run step start retried = some w ∧ w.replicators 0 = some r ∧
    w.sentBy 0 = datagrams [(1, ⟨5, List.replicate 1485 1⟩)] := by
  obtain ⟨w, r, hw, hr, hentries, hbetween⟩ := retried_thread
  exact ⟨w, r, hw, hr, hentries ▸ (fragments_in_order retried w 0 r hw hr).2 hbetween⟩

/-- A target that gets every datagram of a thread in order publishes the entries that the thread
has read, as they are, exactly when they can be carried; sends that failed leave no trace. -/
theorem replicated_iff (es : List (Event κ)) (w : World κ) (k : κ) (r : TopicReplicator)
    (h : run step start es = some w) (hr : w.replicators k = some r) (hbetween : Between r)
    (hsizes : ∀ e ∈ r.entries, 0 < e.2.bytes.length ∧ e.2.bytes.length < 0x100000000) (items : Nat → Entry)
    (bytes : Nat → UInt8) : ((Target.new (createTopic items bytes)).receiveAll (w.sentBy k)).map
        (fun target => target.defragmentator.buffer.log) = some (r.entries.map Prod.snd) ↔
      (∀ e ∈ r.entries, e.2.type.toNat < 0x100 ∧ e.2.bytes.length ≤ defaultBufferSize) ∧
        (0 :: (r.entries.filter fun e => ReplicationAgreement.payload < e.2.bytes.length).map Prod.fst).Pairwise
          (· < ·) := by
  rw [progress_between ((inv_run h k).2 r hr) hbetween, ← ReplicationAgreement.carried_iff]
  exact ReplicationAgreement.udpLog_iff items bytes hsizes

theorem replicated_retried : ∃ w r, run step start retried = some w ∧ w.replicators 0 = some r ∧
    ((Target.new (createTopic (fun _ => ⟨0, 0, 0⟩) fun _ => 0)).receiveAll (w.sentBy 0)).map
      (fun target => target.defragmentator.buffer.log) = some [⟨5, List.replicate 1485 1⟩] := by
  obtain ⟨w, r, hw, hr, hentries, hbetween⟩ := retried_thread
  have hiff := replicated_iff retried w 0 r hw hr hbetween (by rw [hentries]; decide +kernel)
    (fun _ => ⟨0, 0, 0⟩) fun _ => 0
  rw [hentries] at hiff
  exact ⟨w, r, hw, hr, hiff.mpr (by decide +kernel)⟩

section Destruction

/-- Of both threads, whether they have returned. -/
def returned (w : World Bool) : List (Option Bool) :=
  [false, true].map fun k => (w.replicators k).map fun r => match r.location with
    | .returned => true
    | _ => false

end Destruction

end UdpSender
