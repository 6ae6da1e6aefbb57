import ZeroCopyRpc.TcpReplicator
import ZeroCopyRpc.UdpReassembly
import ZeroCopyRpc.UdpReplicator

/-!
# The two replication paths

The same entries go over TCP and over UDP to topics created with the default
sizes, and everything is delivered once and in order. The TCP header has the
whole type; the UDP header has its lowest byte. A target's pool can be shorter
than the source's.
-/
namespace ReplicationAgreement

open Reassembly TcpReplicator UdpReplicator

variable {messages : List Message} {message : Message} {topic : TopicService}

section Tcp

theorem header_written (m : Message) (padding : UInt32) (rest : List UInt8) :
    TcpReplicationMessage.ofBytes ((written padding m ++ rest).take 16) = messageHeader m := by
  have htake : (written padding m ++ rest).take 16 = (messageHeader m).toBytes padding := by
    rw [written, List.append_assoc]
    exact List.take_left' (TcpReplicationMessage.toBytes_length _ _)
  rw [htake, TcpReplicationMessage.ofBytes_toBytes]

theorem body_written {m : Message} (h : m.bytes.length < 0x100000000) (padding : UInt32) (rest : List UInt8) :
    (written padding m ++ rest).drop 16 = m.bytes ++ rest := by
  rw [written, header_size h, List.take_length, List.append_assoc]
  exact List.drop_left' (TcpReplicationMessage.toBytes_length _ _)

/-- The lock of the topic's pool is free. -/
structure Ready (topic : TopicService) : Prop where
  bounded : topic.buffer.memory.Bounded
  free : topic.buffer.memory.inUse = false

/-- An entry that fits into the target's pool is published there as it was. -/
theorem readMessage_fits (ht : Ready topic) (hpos : 0 < message.bytes.length)
    (hlt : message.bytes.length < 0x100000000)
    (hfits : message.bytes.length ≤ topic.buffer.memory.size) (padding : UInt32) (rest : List UInt8) :
    ∃ topic', readMessage topic (written padding message ++ rest) = some (topic', rest) ∧ Ready topic' ∧
      topic'.buffer.memory.size = topic.buffer.memory.size ∧ topic'.buffer.log = topic.buffer.log ++ [message] := by
  obtain ⟨span, memory, hscope, hbounded, hsize, hlive, hzero⟩ :=
    writeScope_ok ht.bounded ht.free hfits message.type
  have hlive' : (WriterScope.mk span message.type).span.Live
      (memory.copy span.start message.bytes) message.bytes.length :=
    ⟨hlive.locked, hlive.bound, hlive.long, hlive.committed_le, hlive.offset_eq⟩
  obtain ⟨scope, b, hcommit, hlog, hbounded', hsize', hfree'⟩ := commit_destroy (b := { topic.buffer with
    memory := memory.copy span.start message.bytes }) ⟨hbounded.offset_le, hbounded.size_lt⟩ hlive' hzero hpos
  obtain ⟨topic', hpublish, hbuffer⟩ := ({ topic with buffer := b } : TopicService).publish_buffer scope
  refine ⟨topic', ?_, ⟨?_, ?_⟩, ?_, ?_⟩
  · have hprepare : topic.prepare message.bytes.length message.type =
        .ok (⟨span, message.type⟩, { topic with buffer := { topic.buffer with memory := memory } }) := by
      rw [TopicService.prepare, hscope]
    have htype : (messageHeader message).type = message.type := rfl
    rw [readMessage]
    simp only [header_written, body_written hlt, header_size hlt, htype, hprepare]
    rw [if_neg (by rw [List.length_append]; omega), List.take_left, List.drop_left]
    have hfilled : WriterScope.commit ⟨span, message.type⟩
        (CyclicBuffer.copy { topic.buffer with memory := memory } span.start message.bytes) message.bytes.length =
        .ok (scope, b) := hcommit
    simp only [hfilled, hpublish]
  · rw [hbuffer]
    exact hbounded'
  · rw [hbuffer]
    exact hfree'
  · rw [hbuffer]
    exact hsize'.trans hsize
  · rw [hbuffer]
    change (scope.destroy b).log = _
    rw [hlog]
    change topic.buffer.log ++
      [⟨message.type, Cells.slice (Cells.store memory.buffer span.start message.bytes) span.start
      message.bytes.length⟩] = _
    rw [Cells.slice_store_same]

/-- An entry longer than the target's pool ends the thread. -/
theorem readMessage_long (hlt : message.bytes.length < 0x100000000)
    (hlong : topic.buffer.memory.size < message.bytes.length) (padding : UInt32) (rest : List UInt8) :
    readMessage topic (written padding message ++ rest) = none := by
  obtain ⟨e, he⟩ := (CyclicMemoryPool.getWriteSpan_error_iff topic.buffer.memory message.bytes.length).mpr
    (Or.inl hlong)
  have hprepare : topic.prepare message.bytes.length (messageHeader message).type = .error e := by
    rw [TopicService.prepare, CyclicBuffer.writeScope, he]
  rw [readMessage]
  simp only [header_written, header_size hlt, hprepare]

/-- Over TCP all the entries arrive exactly when each fits into the target's pool. -/
theorem readMessages_iff (ht : Ready topic) (padding : UInt32)
    (hall : ∀ m ∈ messages, 0 < m.bytes.length ∧ m.bytes.length < 0x100000000) :
    (∃ topic', readMessages messages.length topic (messages.flatMap (written padding)) = some topic' ∧
      topic'.buffer.log = topic.buffer.log ++ messages) ↔
    ∀ m ∈ messages, m.bytes.length ≤ topic.buffer.memory.size := by
  induction messages generalizing topic with
  | nil => exact ⟨fun _ m hm => absurd hm List.not_mem_nil, fun _ => ⟨topic, rfl, (List.append_nil _).symm⟩⟩
  | cons m messages ih =>
    obtain ⟨hpos, hlt⟩ := hall m List.mem_cons_self
    rw [List.flatMap_cons, List.length_cons, readMessages, List.forall_mem_cons]
    by_cases hfits : m.bytes.length ≤ topic.buffer.memory.size
    · obtain ⟨topic', hread, ht', hsize, hlog⟩ := readMessage_fits ht hpos hlt hfits padding
        (messages.flatMap (written padding))
      have hrest := ih ht' (fun m' hm' => hall m' (List.mem_cons_of_mem _ hm'))
      rw [hlog, hsize, List.append_assoc] at hrest
      simp only [hread, hfits, true_and]
      exact hrest
    · simp only [readMessage_long hlt (Nat.lt_of_not_le hfits), hfits, false_and, reduceCtorEq, exists_false]

end Tcp

section Udp

variable {created c : Nat} {target : Target}

/-- The message as the UDP header leaves it. -/
def narrowed (message : Message) : Message := ⟨message.type.toUInt8.toUInt64, message.bytes⟩

/-- The payload of a datagram. -/
abbrev payload : Nat := mtu - 16

def udpMessage (created : Nat) (message : Message) : UdpMessage := ⟨created, message.type.toUInt8, message.bytes⟩

theorem multi_udp (hlt : message.bytes.length < 0x100000000) :
    Multi payload (udpMessage created message) ↔ payload < message.bytes.length := by
  rw [Multi, UdpMessage.sent_eq (show (udpMessage created message).bytes.length < 0x100000000 from hlt)]
  rfl

theorem stamped_one (m : UdpMessage) : Stamped [m] := List.pairwise_singleton _ _

theorem mem_one {m m' : UdpMessage} (h : m' ∈ [m]) : m' = m := List.mem_singleton.mp h

/-- One message alone is never in its own way. -/
theorem not_blocked (m : UdpMessage) (pre : List Datagram) : ¬ Blocked payload [m] c pre m := by
  rintro ⟨m', hnewest, -, hm⟩
  obtain rfl := mem_one hnewest.mem
  rcases hm with hwhole | hlt
  · exact hwhole hnewest.multi
  · exact Nat.lt_irrefl _ hlt

/-- The first datagrams of a message. -/
def sentBefore (m : UdpMessage) (k : Nat) : List Datagram := (List.range k).map (m.fragment payload)

theorem sentBefore_succ (m : UdpMessage) (k : Nat) :
    sentBefore m (k + 1) = sentBefore m k ++ [m.fragment payload k] := by
  rw [sentBefore, List.range_succ, List.map_append]
  rfl

theorem got_before {m : UdpMessage} {k j : Nat} (hk : k ≤ 0x10000) : Got (sentBefore m k) m j ↔ j < k := by
  constructor
  · rintro ⟨d, hd, -, hsequence⟩
    obtain ⟨i, hi, rfl⟩ := List.mem_map.mp hd
    have hi := List.mem_range.mp hi
    have hsequence : i % 0x10000 = j := hsequence
    omega
  · intro hj
    refine ⟨m.fragment payload j, List.mem_map.mpr ⟨j, List.mem_range.mpr hj, rfl⟩, rfl, ?_⟩
    exact Nat.mod_eq_of_lt (by omega)

theorem complete_before {m : UdpMessage} {k : Nat} (hk : k ≤ m.fragments payload)
    (hfew : m.fragments payload ≤ 0x10000) :
    Complete payload (sentBefore m k) m ↔ k = m.fragments payload := by
  constructor
  · intro hall
    by_contra hne
    have := (got_before (Nat.le_trans hk hfew)).mp (hall k (by omega))
    omega
  · rintro rfl j hj
    exact (got_before hfew).mpr hj

theorem newest_before {m : UdpMessage} {k : Nat} :
    Newest payload [m] c (sentBefore m k) m ↔ Multi payload m ∧ c < m.created ∧ 0 < k := by
  constructor
  · intro h
    refine ⟨h.multi, h.pos, ?_⟩
    obtain ⟨d, hd, -⟩ := h.seen
    obtain ⟨i, hi, -⟩ := List.mem_map.mp hd
    have := List.mem_range.mp hi
    omega
  · rintro ⟨hmulti, hpos, hk⟩
    refine ⟨List.mem_singleton_self m, hmulti, hpos, ⟨m.fragment payload 0, ?_, rfl⟩, ?_⟩
    · exact List.mem_map.mpr ⟨0, List.mem_range.mpr hk, rfl⟩
    · intro m' hm' _ _
      rw [mem_one hm']

/-- What a message adds to the log once all its datagrams are in. -/
def Reaches (c : Nat) (m : UdpMessage) : Prop := Multi payload m → c < m.created

theorem finishes_before {m : UdpMessage} {k : Nat} (hk : k < m.fragments payload)
    (hfew : m.fragments payload ≤ 0x10000) :
    Finishes payload [m] c (sentBefore m k) (m.fragment payload k) m ↔
      Reaches c m ∧ k + 1 = m.fragments payload := by
  rw [Finishes, ← sentBefore_succ, newest_before, complete_before (Nat.le_of_lt hk) hfew,
    complete_before hk hfew, Reaches]
  by_cases hm : Multi payload m
  · have htwo : 1 < m.fragments payload := (Chunks.one_lt_count (by decide)).mpr hm
    simp only [hm, not_true_eq_false, true_and, false_or, forall_const]
    omega
  · have hone : ¬ 1 < m.fragments payload := fun h => hm ((Chunks.one_lt_count (by decide)).mp h)
    simp only [hm, not_false_eq_true, true_or, false_imp_iff, true_and, true_iff]
    omega

/-- The state after the first datagrams of a message. -/
structure Receiving (c : Nat) (m : UdpMessage) (target : Target) (k : Nat) (target' : Target) : Prop where
  described : Described payload [m] c (sentBefore m k) target'.defragmentator
  size : target'.defragmentator.buffer.memory.size = target.defragmentator.buffer.memory.size
  before : ¬ (Reaches c m ∧ k = m.fragments payload) →
    target'.defragmentator.buffer.log = target.defragmentator.buffer.log
  after : Reaches c m ∧ k = m.fragments payload →
    target'.defragmentator.buffer.log = target.defragmentator.buffer.log ++ [⟨m.type.toUInt64, m.sent⟩]

theorem receiving (hidle : Idle payload c target.defragmentator) {m : UdpMessage}
    (hfits : m.sent.length ≤ target.defragmentator.buffer.memory.size) (hpos : 0 < m.fragments payload)
    (hfew : m.fragments payload ≤ 0x10000)
    (hreceived : ∀ k, k < m.fragments payload →
      received defaultMaxMessageSize (m.fragment payload k) = m.fragment payload k)
    (k : Nat) (hk : k ≤ m.fragments payload) :
    ∃ target', target.receiveAll (sentBefore m k) = some target' ∧ Receiving c m target k target' := by
  induction k with
  | zero =>
    refine ⟨target, rfl, described_idle hidle ?_, rfl, fun _ => rfl, ?_⟩
    · intro m' hm'
      rw [mem_one hm']
      exact hfits
    · rintro ⟨-, hzero⟩
      omega
  | succ k ih =>
    obtain ⟨mid, hmid, h⟩ := ih (Nat.le_of_succ_le hk)
    have hfrom : From payload [m] m k (m.fragment payload k) := ⟨List.mem_singleton_self m, hk, rfl⟩
    obtain ⟨b, t, ht, hb⟩ := step_returns (stamped_one m) (by decide) hfrom h.described (not_blocked m _)
    rw [finishes_before hk hfew] at hb
    have hcall : mid.defragmentator.processFragment (received defaultMaxMessageSize (m.fragment payload k)) =
        (.ok b, t) := by
      rw [hreceived k hk]
      exact ht.result
    obtain ⟨service, hservice⟩ := Target.receive_ok hcall
    have hlog := h.before (fun hdone => by omega)
    refine ⟨⟨service, t⟩, ?_, ?_, ht.size.trans h.size, ?_, ?_⟩
    · rw [sentBefore_succ, Target.receiveAll_append, hmid]
      simp only [Option.bind_some, Target.receiveAll, hservice]
    · rw [sentBefore_succ]
      exact ht.described
    · intro hnot
      have hfalse : b = false := by
        rw [← Bool.not_eq_true, hb]
        exact hnot
      change t.buffer.log = _
      rw [ht.log, hfalse, hlog]
      exact List.append_nil _
    · intro hdone
      change t.buffer.log = _
      rw [ht.log, hb.mpr hdone, hlog]
      rfl

theorem send_eq (created : Nat) (message : Message) :
    send created message = sentBefore (udpMessage created message) ((udpMessage created message).fragments payload) :=
  UdpMessage.datagrams_eq (by decide) _

/-- The newest stamp after a message; the frame of a message of one datagram leaves no stamp. -/
def newestAfter (c created : Nat) (message : Message) : Nat :=
  if payload < message.bytes.length then max c created else c

theorem idle_after {m : UdpMessage} {target' : Target} (hfew : m.fragments payload ≤ 0x10000)
    (hpos : 0 < m.fragments payload) (h : Receiving c m target (m.fragments payload) target') :
    Idle payload (if payload < m.sent.length then max c m.created else c) target'.defragmentator := by
  have hd := h.described
  have hcomplete := (complete_before (Nat.le_refl _) hfew).mpr rfl
  have hnone : target'.defragmentator.currentFrame = none := by
    cases hframe : target'.defragmentator.currentFrame with
    | none => rfl
    | some fr =>
      obtain ⟨m', hnewest, hopen⟩ := (open_iff (stamped_one m) hd).mp ⟨fr, hframe⟩
      rw [mem_one hnewest.mem] at hopen
      exact absurd hcomplete hopen
  refine ⟨hd.payload, hd.previous, hnone, ?_, hd.bounded, (hd.idle hnone).1⟩
  have hbase := hd.base_le
  by_cases hm : payload < m.sent.length
  · have hseen : Seen (sentBefore m (m.fragments payload)) m :=
      ⟨m.fragment payload 0, List.mem_map.mpr ⟨0, List.mem_range.mpr hpos, rfl⟩, rfl⟩
    have hle := hd.newest_le m (List.mem_singleton_self m) hm hseen
    rw [if_pos hm]
    rcases hd.newest with hsame | ⟨m', hm', -, -, he⟩
    · omega
    · rw [mem_one hm'] at he
      omega
  · rw [if_neg hm]
    rcases hd.newest with hsame | ⟨m', hm', hmulti, -⟩
    · exact hsame
    · rw [mem_one hm'] at hmulti
      exact absurd hmulti hm

theorem fragments_pos {m : UdpMessage} (hpos : 0 < m.sent.length) : 0 < m.fragments payload :=
  (Chunks.lt_count (by decide)).mpr (by omega)

theorem fragments_few {m : UdpMessage} (h : m.sent.length ≤ 0x10000 * payload) :
    m.fragments payload ≤ 0x10000 := by
  by_contra hmany
  have := (Chunks.lt_count (show 0 < payload by decide)).mp (Nat.lt_of_not_le hmany)
  omega

/-- A message that fits into the pool: whether it is published depends on the stamps only. -/
theorem receive_fits (hidle : Idle payload c target.defragmentator) (hpos : 0 < message.bytes.length)
    (hlt : message.bytes.length < 0x100000000)
    (hfits : message.bytes.length ≤ target.defragmentator.buffer.memory.size)
    (hpool : target.defragmentator.buffer.memory.size ≤ 0x10000 * payload) (created : Nat) :
    ∃ target', target.receiveAll (send created message) = some target' ∧
      Idle payload (newestAfter c created message) target'.defragmentator ∧
      target'.defragmentator.buffer.memory.size = target.defragmentator.buffer.memory.size ∧
      target'.defragmentator.buffer.log = target.defragmentator.buffer.log ++
        if payload < message.bytes.length → c < created then [narrowed message] else [] := by
  have hsent : (udpMessage created message).sent = message.bytes := UdpMessage.sent_eq hlt
  have hpos' : 0 < (udpMessage created message).fragments payload := fragments_pos (by rw [hsent]; exact hpos)
  have hfew := fragments_few (show (udpMessage created message).sent.length ≤ 0x10000 * payload by rw [hsent]; omega)
  have hreceived : ∀ k, k < (udpMessage created message).fragments payload →
      received defaultMaxMessageSize ((udpMessage created message).fragment payload k) =
        (udpMessage created message).fragment payload k := by
    intro k hk
    have hmem : (udpMessage created message).fragment payload k ∈ send created message := by
      rw [send_eq]
      exact List.mem_map.mpr ⟨k, List.mem_range.mpr hk, rfl⟩
    exact received_eq hmem
  obtain ⟨target', hrun, h⟩ := receiving hidle (by rw [hsent]; exact hfits) hpos' hfew hreceived _ (Nat.le_refl _)
  refine ⟨target', ?_, ?_, h.size, ?_⟩
  · rw [send_eq]
    exact hrun
  · have hidle' := idle_after hfew hpos' h
    rw [hsent] at hidle'
    exact hidle'
  · by_cases hreach : payload < message.bytes.length → c < created
    · have hreach' : Reaches c (udpMessage created message) := fun hm => hreach ((multi_udp hlt).mp hm)
      rw [if_pos hreach, h.after ⟨hreach', rfl⟩, hsent]
      rfl
    · have hreach' : ¬ Reaches c (udpMessage created message) := fun hr => hreach fun hm =>
        hr ((multi_udp hlt).mpr hm)
      rw [if_neg hreach, h.before (fun hd => hreach' hd.1), List.append_nil]

/-- Fragments that are not newer than the newest message leave an idle defragmentator alone. -/
theorem receive_stale (hidle : Idle payload c target.defragmentator) (ds : List Datagram)
    (hds : ∀ d ∈ ds, received defaultMaxMessageSize d = d ∧ d.header.size ≠ d.data.length ∧
      d.header.created ≤ c) :
    ∃ service, target.receiveAll ds = some ⟨service, target.defragmentator⟩ := by
  induction ds generalizing target with
  | nil => exact ⟨target.service, rfl⟩
  | cons d ds ih =>
    obtain ⟨hreceived, hfragment, hold⟩ := hds d List.mem_cons_self
    have hcall : target.defragmentator.processFragment (received defaultMaxMessageSize d) =
        (.ok false, target.defragmentator) := by
      have hnew : ¬ target.defragmentator.currentFrameCreated < d.header.created := by
        rw [hidle.newest]
        omega
      rw [hreceived, UdpFrameDefragmentator.processFragment, if_neg hfragment, hidle.previous]
      simp only [UdpFrameDefragmentator.currentFragment, hidle.current, hnew, ↓reduceIte,
        UdpFrameDefragmentator.countStale, Option.isSome_none, Bool.false_eq_true, false_and]
    obtain ⟨service, hservice⟩ := Target.receive_ok hcall
    have hidle' : Idle payload c (Target.mk service target.defragmentator).defragmentator := hidle
    obtain ⟨service', hrest⟩ := ih hidle' (fun e he => hds e (List.mem_cons_of_mem _ he))
    exact ⟨service', by rw [Target.receiveAll, hservice]; exact hrest⟩

/-- A fragment of a new message that the pool cannot hold ends the thread. -/
theorem receive_long (hidle : Idle payload c target.defragmentator) {d : Datagram}
    (hreceived : received defaultMaxMessageSize d = d) (hfragment : d.header.size ≠ d.data.length)
    (hnew : c < d.header.created) (hlong : target.defragmentator.buffer.memory.size < d.header.size) :
    target.receive d = none := by
  obtain ⟨e, he⟩ := (CyclicMemoryPool.getWriteSpan_error_iff target.defragmentator.buffer.memory d.header.size).mpr
    (Or.inl hlong)
  have hnew' : target.defragmentator.currentFrameCreated < d.header.created := by
    rw [hidle.newest]
    exact hnew
  have hcall : (target.defragmentator.processFragment d).1 = .error (.pool e) := by
    rw [UdpFrameDefragmentator.processFragment, if_neg hfragment, hidle.previous]
    simp only [UdpFrameDefragmentator.currentFragment, hidle.current, hnew', ↓reduceIte,
      UdpFrameDefragmentator.newFrame, UdpFrameDefragmentator.initializeNewFrame, CyclicBuffer.writeScope, he]
  rw [Target.receive, hreceived]
  cases hresult : target.defragmentator.processFragment d with
  | mk result t =>
    rw [hresult] at hcall
    have hcall : result = .error (.pool e) := hcall
    rw [hcall]

/-- The types survive the narrowing, the entries fit, and every message of
several fragments is stamped later than those before it. -/
structure Carried (size c : Nat) (sent : List (Nat × Message)) : Prop where
  narrow : ∀ e ∈ sent, narrowed e.2 = e.2
  fits : ∀ e ∈ sent, e.2.bytes.length ≤ size
  stamps : (c :: (sent.filter fun e => payload < e.2.bytes.length).map Prod.fst).Pairwise (· < ·)

theorem carried_cons {size : Nat} {sent : List (Nat × Message)} :
    Carried size c ((created, message) :: sent) ↔ narrowed message = message ∧ message.bytes.length ≤ size ∧
      (payload < message.bytes.length → c < created) ∧ Carried size (newestAfter c created message) sent := by
  have hstamps : (c :: (((created, message) :: sent).filter fun e => payload < e.2.bytes.length).map Prod.fst).Pairwise
        (· < ·) ↔ (payload < message.bytes.length → c < created) ∧
      (newestAfter c created message :: (sent.filter fun e => payload < e.2.bytes.length).map Prod.fst).Pairwise
        (· < ·) := by
    rw [newestAfter]
    by_cases hlong : payload < message.bytes.length
    · rw [List.filter_cons_of_pos (by simpa using hlong), if_pos hlong, List.map_cons]
      constructor
      · intro h
        obtain ⟨hc, hrest⟩ := List.pairwise_cons.mp h
        have hnew : c < created := hc created List.mem_cons_self
        rw [Nat.max_eq_right (Nat.le_of_lt hnew)]
        exact ⟨fun _ => hnew, hrest⟩
      · rintro ⟨hnew, hrest⟩
        rw [Nat.max_eq_right (Nat.le_of_lt (hnew hlong))] at hrest
        refine List.pairwise_cons.mpr ⟨?_, hrest⟩
        intro b hb
        rcases List.mem_cons.mp hb with rfl | hb
        · exact hnew hlong
        · exact Nat.lt_trans (hnew hlong) ((List.pairwise_cons.mp hrest).1 b hb)
    · rw [List.filter_cons_of_neg (by simpa using hlong), if_neg hlong]
      exact ⟨fun h => ⟨fun hl => absurd hl hlong, h⟩, fun h => h.2⟩
  constructor
  · intro h
    obtain ⟨hnew, hrest⟩ := hstamps.mp h.stamps
    exact ⟨h.narrow _ List.mem_cons_self, h.fits _ List.mem_cons_self, hnew,
      fun e he => h.narrow e (List.mem_cons_of_mem _ he), fun e he => h.fits e (List.mem_cons_of_mem _ he), hrest⟩
  · rintro ⟨hnarrow, hfits, hnew, h⟩
    refine ⟨?_, ?_, hstamps.mpr ⟨hnew, h.stamps⟩⟩
    · intro e he
      rcases List.mem_cons.mp he with rfl | he
      · exact hnarrow
      · exact h.narrow e he
    · intro e he
      rcases List.mem_cons.mp he with rfl | he
      · exact hfits
      · exact h.fits e he

/-- The fragments of a message that the pool cannot hold: an exception, or nothing. -/
theorem receive_unfit (hidle : Idle payload c target.defragmentator) (hlt : message.bytes.length < 0x100000000)
    (hpool : payload ≤ target.defragmentator.buffer.memory.size)
    (hlong : target.defragmentator.buffer.memory.size < message.bytes.length) (created : Nat) :
    target.receiveAll (send created message) = none ∨
      ∃ service, target.receiveAll (send created message) = some ⟨service, target.defragmentator⟩ := by
  have hsent : (udpMessage created message).sent = message.bytes := UdpMessage.sent_eq hlt
  have hfrom : ∀ d ∈ send created message, received defaultMaxMessageSize d = d ∧
      d.header.size ≠ d.data.length ∧
      d.header.created = created ∧ d.header.size = message.bytes.length := by
    intro d hd
    have hreceived := received_eq hd
    rw [send_eq] at hd
    obtain ⟨k, hk, rfl⟩ := List.mem_map.mp hd
    have hd' : From payload [udpMessage created message] (udpMessage created message) k
        ((udpMessage created message).fragment payload k) := ⟨List.mem_singleton_self _, List.mem_range.mp hk, rfl⟩
    refine ⟨hreceived, ?_, hd'.created, by rw [hd'.size, hsent]⟩
    intro he
    have hsmall := (whole_iff hd' (by decide)).mp he
    rw [multi_udp hlt] at hsmall
    omega
  by_cases hold : created ≤ c
  · refine Or.inr (receive_stale hidle _ fun d hd => ?_)
    obtain ⟨hreceived, hfragment, hcreated, -⟩ := hfrom d hd
    exact ⟨hreceived, hfragment, by rw [hcreated]; exact hold⟩
  · left
    have hpos : 0 < (udpMessage created message).fragments payload := fragments_pos (by rw [hsent]; omega)
    cases hds : send created message with
    | nil =>
      have hlength := congrArg List.length hds
      rw [send_eq, sentBefore, List.length_map, List.length_range, List.length_nil] at hlength
      omega
    | cons d ds =>
      obtain ⟨hreceived, hfragment, hcreated, hsize⟩ := hfrom d (by rw [hds]; exact List.mem_cons_self)
      rw [Target.receiveAll, receive_long hidle hreceived hfragment (by rw [hcreated]; omega)
        (by rw [hsize]; exact hlong)]

/-- Whatever the messages, the log gains at most one entry for each, and gains
them all as they were exactly when they are carried. -/
theorem receiveAll_cases (hidle : Idle payload c target.defragmentator) (sent : List (Nat × Message))
    (hall : ∀ e ∈ sent, 0 < e.2.bytes.length ∧ e.2.bytes.length < 0x100000000)
    (hpool : payload ≤ target.defragmentator.buffer.memory.size ∧
      target.defragmentator.buffer.memory.size ≤ 0x10000 * payload) :
    (target.receiveAll (sent.flatMap fun e => send e.1 e.2) = none ∧
      ¬ Carried target.defragmentator.buffer.memory.size c sent) ∨
    ∃ target' l, target.receiveAll (sent.flatMap fun e => send e.1 e.2) = some target' ∧
      target'.defragmentator.buffer.log = target.defragmentator.buffer.log ++ l ∧ l.length ≤ sent.length ∧
      (l = sent.map Prod.snd ↔ Carried target.defragmentator.buffer.memory.size c sent) := by
  induction sent generalizing target c with
  | nil =>
    refine Or.inr ⟨target, [], rfl, (List.append_nil _).symm, Nat.le_refl _, fun _ =>
      ⟨?_, ?_, ?_⟩, fun _ => rfl⟩
    · exact fun e he => absurd he List.not_mem_nil
    · exact fun e he => absurd he List.not_mem_nil
    · exact List.pairwise_singleton _ _
  | cons e sent ih =>
    obtain ⟨created, message⟩ := e
    obtain ⟨hpos, hlt⟩ := hall _ List.mem_cons_self
    have hrest : ∀ e ∈ sent, 0 < e.2.bytes.length ∧ e.2.bytes.length < 0x100000000 :=
      fun e he => hall e (List.mem_cons_of_mem _ he)
    rw [List.flatMap_cons, Target.receiveAll_append, carried_cons]
    by_cases hfits : message.bytes.length ≤ target.defragmentator.buffer.memory.size
    · obtain ⟨mid, hmid, hidle', hsize, hlog⟩ := receive_fits hidle hpos hlt hfits hpool.2 created
      rw [hmid, Option.bind_some]
      rcases ih hidle' hrest (by rw [hsize]; exact hpool) with ⟨hnone, hbad⟩ |
        ⟨target', l, hrun, hlog', hlength, hl⟩
      · rw [hsize] at hbad
        exact Or.inl ⟨hnone, fun h => hbad h.2.2.2⟩
      · rw [hsize] at hl
        refine Or.inr ⟨target', _, hrun, by rw [hlog', hlog, List.append_assoc], ?_, ?_⟩
        · rw [List.length_append, List.length_cons]
          split
          · rw [List.length_singleton]
            omega
          · rw [List.length_nil]
            omega
        · rw [List.map_cons]
          by_cases hreach : payload < message.bytes.length → c < created
          · rw [if_pos hreach, List.singleton_append, List.cons.injEq, hl]
            exact ⟨fun h => ⟨h.1, hfits, hreach, h.2⟩, fun h => ⟨h.1, h.2.2.2⟩⟩
          · rw [if_neg hreach, List.nil_append]
            constructor
            · intro he
              rw [he, List.length_cons, List.length_map] at hlength
              omega
            · exact fun h => absurd h.2.2.1 hreach
    · have hbad : ¬ (narrowed message = message ∧
          message.bytes.length ≤ target.defragmentator.buffer.memory.size ∧
          (payload < message.bytes.length → c < created) ∧
          Carried target.defragmentator.buffer.memory.size (newestAfter c created message) sent) := fun h =>
            hfits h.2.1
      rcases receive_unfit hidle hlt hpool.1 (Nat.lt_of_not_le hfits) created with hnone | ⟨service, hmid⟩
      · rw [hnone, Option.bind_none]
        exact Or.inl ⟨rfl, hbad⟩
      · rw [hmid, Option.bind_some]
        have hidle' : Idle payload c (Target.mk service target.defragmentator).defragmentator := hidle
        rcases ih hidle' hrest hpool with ⟨hnone, -⟩ | ⟨target', l, hrun, hlog, hlength, -⟩
        · exact Or.inl ⟨hnone, hbad⟩
        · refine Or.inr ⟨target', l, hrun, hlog, ?_, ?_, fun h => absurd h hbad⟩
          · rw [List.length_cons]
            omega
          · intro he
            rw [he, List.length_map, List.length_cons] at hlength
            omega

end Udp

theorem narrowed_eq_iff (message : Message) : narrowed message = message ↔ message.type.toNat < 0x100 := by
  have htype : message.type.toUInt8.toUInt64 = message.type ↔ message.type.toNat < 0x100 := by
    rw [← UInt64.toNat_inj]
    simp only [UInt8.toNat_toUInt64, UInt64.toNat_toUInt8]
    omega
  constructor
  · intro h
    exact htype.mp (congrArg Message.type h)
  · intro h
    exact congrArg (fun type => Message.mk type message.bytes) (htype.mpr h)

theorem carried_iff {size c : Nat} {sent : List (Nat × Message)} : Carried size c sent ↔
    (∀ e ∈ sent, e.2.type.toNat < 0x100 ∧ e.2.bytes.length ≤ size) ∧
      (c :: (sent.filter fun e => payload < e.2.bytes.length).map Prod.fst).Pairwise (· < ·) :=
  ⟨fun h => ⟨fun e he => ⟨(narrowed_eq_iff e.2).mp (h.narrow e he), h.fits e he⟩, h.stamps⟩,
    fun h => ⟨fun e he => (narrowed_eq_iff e.2).mpr (h.1 e he).1, fun e he => (h.1 e he).2, h.2⟩⟩

/-- The log of the topic that the TCP path fills, when the thread goes on to the end. -/
def tcpLog (topic : TopicService) (padding : UInt32) (messages : List Message) : Option (List Message) :=
  (readMessages messages.length topic (messages.flatMap (written padding))).map fun topic => topic.buffer.log

/-- The log of the topic that the UDP path fills; each entry is sent with a stamp. -/
def udpLog (topic : TopicService) (sent : List (Nat × Message)) : Option (List Message) :=
  ((Target.new topic).receiveAll (sent.flatMap fun e => send e.1 e.2)).map fun target =>
    target.defragmentator.buffer.log

theorem ready_created (items : Nat → Entry) (bytes : Nat → UInt8) : Ready (createTopic items bytes) :=
  ⟨CyclicMemoryPool.new_bounded (by decide) _, rfl⟩

theorem tcpLog_iff (items : Nat → Entry) (bytes : Nat → UInt8) (padding : UInt32)
    (hall : ∀ m ∈ messages, 0 < m.bytes.length ∧ m.bytes.length < 0x100000000) :
    tcpLog (createTopic items bytes) padding messages = some messages ↔
      ∀ m ∈ messages, m.bytes.length ≤ defaultBufferSize := by
  rw [tcpLog, Option.map_eq_some_iff]
  exact readMessages_iff (ready_created items bytes) padding hall

theorem udpLog_iff (items : Nat → Entry) (bytes : Nat → UInt8) {sent : List (Nat × Message)}
    (hall : ∀ e ∈ sent, 0 < e.2.bytes.length ∧ e.2.bytes.length < 0x100000000) :
    udpLog (createTopic items bytes) sent = some (sent.map Prod.snd) ↔ Carried defaultBufferSize 0 sent := by
  have hidle : Idle payload 0 (Target.new (createTopic items bytes)).defragmentator :=
    idle_new mtu (ready_created items bytes).bounded (ready_created items bytes).free
  rw [udpLog, Option.map_eq_some_iff]
  rcases receiveAll_cases hidle sent hall
      ⟨show payload ≤ defaultBufferSize by decide, show defaultBufferSize ≤ 0x10000 * payload by decide⟩ with
    ⟨hnone, hbad⟩ | ⟨target', l, hrun, hlog, -, hl⟩
  · rw [hnone]
    exact ⟨fun ⟨_, h, _⟩ => absurd h (by simp), fun h => absurd h hbad⟩
  · have hlog' : target'.defragmentator.buffer.log = l := hlog
    refine Iff.trans ?_ hl
    constructor
    · rintro ⟨t, ht, he⟩
      rw [hrun, Option.some.injEq] at ht
      rw [← hlog', ht]
      exact he
    · intro he
      exact ⟨target', hrun, hlog'.trans he⟩

/-- Both paths publish every entry as the source has it, exactly when each type
is below 256, each entry fits into the default buffer, and the stamps of the
messages of several fragments are positive and increase. -/
theorem paths_agree_iff (bufferSize : UInt32) (items items' : Nat → Entry)
    (bytes bytes' : Nat → UInt8) (padding : UInt32)
    (sent : List (Nat × Message))
    (haccepted : ∀ e ∈ sent, 0 < e.2.bytes.length ∧ e.2.bytes.length ≤ bufferSize.toNat) :
    (tcpLog (createTopic items bytes) padding (sent.map Prod.snd) = some (sent.map Prod.snd) ∧
      udpLog (createTopic items' bytes') sent = some (sent.map Prod.snd)) ↔
    (∀ e ∈ sent, e.2.type.toNat < 0x100 ∧ e.2.bytes.length ≤ defaultBufferSize) ∧
      (0 :: (sent.filter fun e => payload < e.2.bytes.length).map Prod.fst).Pairwise (· < ·) := by
  have hall : ∀ e ∈ sent, 0 < e.2.bytes.length ∧ e.2.bytes.length < 0x100000000 :=
    fun e he => ⟨(haccepted e he).1, Nat.lt_of_le_of_lt (haccepted e he).2 bufferSize.toNat_lt⟩
  have hall' : ∀ m ∈ sent.map Prod.snd, 0 < m.bytes.length ∧ m.bytes.length < 0x100000000 := by
    intro m hm
    obtain ⟨e, he, rfl⟩ := List.mem_map.mp hm
    exact hall e he
  rw [tcpLog_iff items bytes padding hall', udpLog_iff items' bytes' hall, carried_iff]
  constructor
  · exact fun h => h.2
  · rintro ⟨hsent, hstamps⟩
    refine ⟨?_, hsent, hstamps⟩
    intro m hm
    obtain ⟨e, he, rfl⟩ := List.mem_map.mp hm
    exact (hsent e he).2

/-- An entry of one datagram between two of several. -/
def mixed : List (Nat × Message) :=
  [(4, ⟨5, List.replicate 4000 1⟩), (2, ⟨6, [7, 8]⟩), (9, ⟨7, List.replicate 2000 3⟩)]

theorem paths_agree_mixed :
    tcpLog (createTopic (fun _ => ⟨0, 0, 0⟩) fun _ => 0) 0 (mixed.map Prod.snd) = some (mixed.map Prod.snd) ∧
      udpLog (createTopic (fun _ => ⟨0, 0, 0⟩) fun _ => 0) mixed = some (mixed.map Prod.snd) := by
  refine (paths_agree_iff 4096 _ _ _ _ 0 mixed ?_).mpr ⟨?_, ?_⟩
  · simp [mixed, -List.reduceReplicate]
  · simp [mixed, defaultBufferSize, -List.reduceReplicate]
  · simp [mixed, payload, mtu, -List.reduceReplicate]

/-- An entry of type 256 keeps its type over TCP and loses it over UDP. -/
theorem wide_type_differs :
    tcpLog (createTopic (fun _ => ⟨0, 0, 0⟩) fun _ => 0) 0 [⟨256, [7]⟩] = some [⟨256, [7]⟩] ∧
    udpLog (createTopic (fun _ => ⟨0, 0, 0⟩) fun _ => 0) [(1, ⟨256, [7]⟩)] = some [⟨0, [7]⟩] := by
  exact ⟨by decide +kernel, by decide +kernel⟩

end ReplicationAgreement
