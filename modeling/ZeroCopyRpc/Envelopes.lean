import ZeroCopyRpc.ReceiveBuffer

/-!
# What the program sends to the server

Each message is a packed structure that is sent as it lies in memory, so a name
of a topic always takes 256 bytes, whatever lies behind its terminator. The
dispatcher reads it back at fixed offsets. Here the two sides are put together:
for the messages of this program the loop over bytes does what a loop over the
calls does.
-/
namespace Envelopes

open LittleEndian ReceiveBuffer Transitions

/-- A field of `n` bytes. -/
abbrev Bytes (n : Nat) := { bytes : List UInt8 // bytes.length = n }

def Bytes.zero (n : Nat) : Bytes n := ⟨List.replicate n 0, List.length_replicate⟩

/-- `src` is followed by its terminator; what the destination held behind it stays. -/
def strncpyS (dest : List UInt8) (src : TopicName) (destsz : Nat) : List UInt8 :=
  if destsz = 0 then dest
  else
    let str := src.takeWhile (· ≠ 0)
    let copyLen := if str.length < destsz - 1 then str.length else destsz - 1
    str.take copyLen ++ 0 :: dest.drop (copyLen + 1)

theorem strncpyS_length {dest : List UInt8} {destsz : Nat} (h : destsz ≤ dest.length) (src : TopicName) :
    (strncpyS dest src destsz).length = dest.length := by
  unfold strncpyS
  split
  · rfl
  · simp only [List.length_append, List.length_cons, List.length_take, List.length_drop]
    split <;> omega

/-- `SetTopicName` of each envelope, over what its field held. -/
def Bytes.setTopicName (dest : Bytes 256) (str : TopicName) : Bytes 256 :=
  ⟨strncpyS dest.val str (256 - 1), by rw [strncpyS_length (by rw [dest.property]; omega), dest.property]⟩

/-- The field holds the name that the reader will find, its terminator, and the rest. -/
theorem setTopicName_bytes (dest : Bytes 256) (str : TopicName) : (dest.setTopicName str).val =
    setTopicName str ++ 0 :: dest.val.drop ((setTopicName str).length + 1) := by
  have hcopy : ∀ s : TopicName, s.take (if s.length < 254 then s.length else 254) = s.take 254 := by
    intro s
    split
    · rw [List.take_length, List.take_of_length_le (by omega)]
    · rfl
  have hlength : ∀ s : TopicName, (if s.length < 254 then s.length else 254) = (s.take 254).length := by
    intro s
    rw [List.length_take]
    split <;> omega
  simp only [Bytes.setTopicName, strncpyS, Nat.reduceSub, if_neg (by decide : ¬ 255 = 0)]
  rw [hcopy, hlength]
  rfl

/-- The reader finds the name, and nothing behind the field is read for it. -/
theorem text_setTopicName (dest : Bytes 256) (str : TopicName) (rest : List UInt8) :
    text ((dest.setTopicName str).val ++ rest) 0 = setTopicName str := by
  rw [setTopicName_bytes, List.append_assoc, List.cons_append, text, List.drop_zero,
    List.takeWhile_append_of_pos (by simpa using setTopicName_ne_zero str), List.takeWhile_cons]
  simp

section Fields

variable {front rest : List UInt8} {k : Nat}

/-- What lies behind `k` bytes is read `k` bytes later. -/
theorem field_skip (h : front.length = k) (offset n : Nat) :
    field (front ++ rest) (k + offset) n = field rest offset n := by
  rw [field, ← h, List.drop_length_add_append, field]

theorem text_skip (h : front.length = k) (offset : Nat) : text (front ++ rest) (k + offset) = text rest offset := by
  rw [text, ← h, List.drop_length_add_append, text]

theorem field_toBytes {n v : Nat} (h : Fits n v) (rest : List UInt8) : field (toBytes n v ++ rest) 0 n = v := by
  rw [field, List.drop_zero, List.take_left' (toBytes_length n v), ofBytes_toBytes h]

theorem field_bytes {n : Nat} (b : Bytes n) (rest : List UInt8) : field (b.val ++ rest) 0 n = ofBytes b.val := by
  rw [field, List.drop_zero, List.take_left' b.property]

theorem field_byte (b : UInt8) (rest : List UInt8) : field (b :: rest) 0 1 = b.toNat := by
  rw [field, List.drop_zero, List.take_succ_cons, List.take_zero, ofBytes, ofBytes, Nat.mul_zero, Nat.add_zero]

end Fields

/-- What the envelope of a call gets besides its arguments: a random id, the process id,
the address of the promise, and what the stack held where the envelope is made. -/
structure Caller where
  correlationId : Bytes 16
  pid : UInt32
  promise : UInt64
  stack : Bytes 256

/-- The calls that send to the server's queue. -/
inductive Call where
  | connect (created : UInt64)
  | subscribe (topicName : TopicName)
  | invokeUnsubscribe (topicName : TopicName) (sloth : UInt8)
  | createTopic (topicName : TopicName) (messageCount bufferSize : UInt32)
  | removeTopic (topicName : TopicName)
  -- the destructor of the server
  | destroy
  deriving DecidableEq

/-- The type, the correlation id and the process id. -/
def Caller.header (c : Caller) (type : Nat) : List UInt8 :=
  toBytes 8 type ++ (c.correlationId.val ++ toBytes 4 c.pid.toNat)

namespace Call

/-- The envelope as it is sent. Only the one of `InvokeUnsubscribe` has a request
that no constructor fills. -/
def bytes (c : Caller) : Call → List UInt8
  | .connect created => c.header 3 ++ toBytes 8 created.toNat
  | .subscribe topicName => c.header 1 ++ ((Bytes.zero 256).setTopicName topicName).val
  | .invokeUnsubscribe topicName sloth => c.header 6 ++ sloth :: (c.stack.setTopicName topicName).val
  | .createTopic topicName messageCount bufferSize =>
    c.header 2 ++ (((Bytes.zero 256).setTopicName topicName).val ++ (toBytes 4 messageCount.toNat ++
      (toBytes 4 bufferSize.toNat ++ toBytes 8 c.promise.toNat)))
  | .removeTopic topicName =>
    c.header 8 ++ (((Bytes.zero 256).setTopicName topicName).val ++ toBytes 8 c.promise.toNat)
  | .destroy => toBytes 8 0

/-- `sizeof` of the envelopes, and of the exit command. -/
def size : Call → Nat
  | .connect _ => 36
  | .subscribe _ => 284
  | .invokeUnsubscribe _ _ => 285
  | .createTopic _ _ _ => 300
  | .removeTopic _ => 292
  | .destroy => 8

theorem bytes_length (c : Caller) (call : Call) : (call.bytes c).length = call.size := by
  have hheader : ∀ type, (c.header type).length = 28 := by
    intro type
    simp only [Caller.header, List.length_append, toBytes_length, c.correlationId.property]
  have hname : ∀ (dest : Bytes 256) (str : TopicName), (dest.setTopicName str).val.length = 256 :=
    fun dest str => (dest.setTopicName str).property
  cases call <;> simp only [bytes, size, List.length_append, List.length_cons, hheader, hname, toBytes_length]

theorem size_le (call : Call) : call.size ≤ 1024 := by
  cases call <;> simp only [size] <;> omega

def packet (c : Caller) (call : Call) : Packet where
  bytes := call.bytes c
  fits := bytes_length c call ▸ call.size_le

/-- What the dispatcher does for a call. A name has been cut to what its field holds. -/
def handle (c : Caller) (chan : Channel) (running : Nat → Bool) (chance : Chance) : Call → Option Effect
  | .connect created =>
    chan.answer ⟨ofBytes c.correlationId.val, c.pid.toNat, .hello created.toNat⟩ chance
  | .subscribe topicName =>
    chan.answer ⟨ofBytes c.correlationId.val, c.pid.toNat, .subscribe (setTopicName topicName)⟩ chance
  | .invokeUnsubscribe topicName sloth =>
    chan.answer ⟨ofBytes c.correlationId.val, c.pid.toNat,
      .unsubscribe (setTopicName topicName) sloth.toNat⟩ chance
  | .createTopic topicName messageCount bufferSize =>
    (chan.onCreateTopic (setTopicName topicName) messageCount.toNat bufferSize.toNat running).map fun r =>
      ⟨r.2, some (c.promise.toNat, .topic r.1)⟩
  | .removeTopic topicName =>
    let r := chan.removeSubscription (setTopicName topicName)
    some ⟨r.2, some (c.promise.toNat, .removed r.1)⟩
  | .destroy => some ⟨chan, none⟩

end Call

section Header

variable (c : Caller) (rest : List UInt8) {type : Nat}

theorem header_append : c.header type ++ rest =
    toBytes 8 type ++ (c.correlationId.val ++ (toBytes 4 c.pid.toNat ++ rest)) := by
  rw [Caller.header, List.append_assoc, List.append_assoc]

theorem header_length : (c.header type).length = 28 := by
  simp only [Caller.header, List.length_append, toBytes_length, c.correlationId.property]

theorem messageType_header (h : Fits 8 type) : messageType (c.header type ++ rest) = type := by
  rw [header_append, messageType, field_toBytes h]

theorem requestEnvelope_header (request : Command) : requestEnvelope (c.header type ++ rest) request =
    ⟨ofBytes c.correlationId.val, c.pid.toNat, request⟩ := by
  have hid : field (c.header type ++ rest) (8 + 0) 16 = ofBytes c.correlationId.val := by
    rw [header_append, field_skip (toBytes_length 8 type), field_bytes]
  have hpid : field (c.header type ++ rest) (8 + (16 + 0)) 4 = c.pid.toNat := by
    rw [header_append, field_skip (toBytes_length 8 type), field_skip c.correlationId.property,
      field_toBytes (fits_word c.pid.toNat_lt)]
  rw [requestEnvelope, hid, hpid]

/-- A field of the request. -/
theorem field_header (offset n : Nat) : field (c.header type ++ rest) (28 + offset) n = field rest offset n :=
  field_skip (header_length c) offset n

theorem text_header (offset : Nat) : text (c.header type ++ rest) (28 + offset) = text rest offset :=
  text_skip (header_length c) offset

end Header

section Dispatch

variable (c : Caller) (chan : Channel) (rest : List UInt8) (running : Nat → Bool) (chance : Chance)

/-- The switch takes the branch of the call, with the arguments of the call. -/
theorem dispatch_call (call : Call) :
    chan.dispatch (call.bytes c ++ rest) running chance = call.handle c chan running chance := by
  cases call with
  | connect created =>
    have hcreated : field (c.header 3 ++ (toBytes 8 created.toNat ++ rest)) (28 + 0) 8 = created.toNat := by
      rw [field_header, field_toBytes (fits_long created.toNat_lt)]
    rw [Call.bytes, List.append_assoc, dispatch_hello (messageType_header c _ (fits_long (by decide))),
      requestEnvelope_header, hcreated]
    rfl
  | subscribe topicName =>
    have hname : text (c.header 1 ++ (((Bytes.zero 256).setTopicName topicName).val ++ rest)) (28 + 0) =
        setTopicName topicName := by
      rw [text_header, text_setTopicName]
    rw [Call.bytes, List.append_assoc, dispatch_subscribe (messageType_header c _ (fits_long (by decide))),
      requestEnvelope_header, hname]
    rfl
  | invokeUnsubscribe topicName sloth =>
    have hsloth : field (c.header 6 ++ (sloth :: (c.stack.setTopicName topicName).val ++ rest)) (28 + 0) 1 =
        sloth.toNat := by
      rw [field_header, List.cons_append, field_byte]
    have hname : text (c.header 6 ++ (sloth :: (c.stack.setTopicName topicName).val ++ rest)) (28 + (1 + 0)) =
        setTopicName topicName := by
      have hone : [sloth].length = 1 := rfl
      rw [text_header, ← List.singleton_append, List.append_assoc, text_skip hone, text_setTopicName]
    rw [Call.bytes, List.append_assoc, dispatch_unsubscribe (messageType_header c _ (fits_long (by decide))),
      requestEnvelope_header, hname, hsloth]
    rfl
  | createTopic topicName messageCount bufferSize =>
    let name := (Bytes.zero 256).setTopicName topicName
    let promise := toBytes 8 c.promise.toNat ++ rest
    let sizes := toBytes 4 messageCount.toNat ++ (toBytes 4 bufferSize.toNat ++ promise)
    have hname : text (c.header 2 ++ (name.val ++ sizes)) (28 + 0) = setTopicName topicName := by
      rw [text_header, text_setTopicName]
    have hcount : field (c.header 2 ++ (name.val ++ sizes)) (28 + (256 + 0)) 4 = messageCount.toNat := by
      rw [field_header, field_skip name.property, field_toBytes (fits_word messageCount.toNat_lt)]
    have hsize : field (c.header 2 ++ (name.val ++ sizes)) (28 + (256 + (4 + 0))) 4 = bufferSize.toNat := by
      rw [field_header, field_skip name.property, field_skip (toBytes_length 4 _),
        field_toBytes (fits_word bufferSize.toNat_lt)]
    have hpromise : field (c.header 2 ++ (name.val ++ sizes)) (28 + (256 + (4 + (4 + 0)))) 8 = c.promise.toNat := by
      rw [field_header, field_skip name.property, field_skip (toBytes_length 4 _), field_skip (toBytes_length 4 _),
        field_toBytes (fits_long c.promise.toNat_lt)]
    have hbytes : (Call.createTopic topicName messageCount bufferSize).bytes c ++ rest =
        c.header 2 ++ (name.val ++ sizes) := by
      simp only [Call.bytes, List.append_assoc, name, sizes, promise]
    rw [hbytes, dispatch_create (messageType_header c _ (fits_long (by decide))), hname, hcount, hsize, hpromise]
    rfl
  | removeTopic topicName =>
    let name := (Bytes.zero 256).setTopicName topicName
    let promise := toBytes 8 c.promise.toNat ++ rest
    have hname : text (c.header 8 ++ (name.val ++ promise)) (28 + 0) = setTopicName topicName := by
      rw [text_header, text_setTopicName]
    have hpromise : field (c.header 8 ++ (name.val ++ promise)) (28 + (256 + 0)) 8 = c.promise.toNat := by
      rw [field_header, field_skip name.property, field_toBytes (fits_long c.promise.toNat_lt)]
    have hbytes : (Call.removeTopic topicName).bytes c ++ rest = c.header 8 ++ (name.val ++ promise) := by
      simp only [Call.bytes, List.append_assoc, name, promise]
    rw [hbytes, dispatch_remove (messageType_header c _ (fits_long (by decide))), hname, hpromise]
    rfl
  | destroy =>
    have htype : messageType (toBytes 8 0 ++ rest) = 0 := field_toBytes (fits_long (by decide)) rest
    exact dispatch_other (by rw [Call.bytes, htype]; rfl)

theorem messageType_call (call : Call) : messageType (call.bytes c ++ rest) = 0 ↔ call = .destroy := by
  cases call with
  | destroy => exact iff_of_true (field_toBytes (fits_long (by decide)) rest) rfl
  | _ =>
    rw [Call.bytes, List.append_assoc, messageType_header c _ (fits_long (by decide))]
    exact iff_of_false (by decide) (by rintro ⟨⟩)

end Dispatch

/-- A call that was sent, and what else decides the iteration that receives it. -/
structure Sent where
  caller : Caller
  call : Call
  behind : List UInt8
  running : Nat → Bool
  chance : Chance

def Sent.receipt (s : Sent) : Receipt := ⟨s.call.packet s.caller, s.behind, s.running, s.chance⟩

/-- The dispatcher without its buffer: the loop takes one call after the other until
the server is destroyed. -/
def serveCalls : Machine (Channel × Bool × List (Nat × Result)) Sent
  | d, s =>
    if d.2.1 then none
    else (s.call.handle s.caller d.1 s.running s.chance).map fun e =>
      (e.channel, decide (s.call = .destroy), d.2.2 ++ e.promise.toList)

/-- One iteration over bytes is one turn over calls. -/
theorem dispatchMessages_call (d : Dispatcher) (s : Sent) :
    (dispatchMessages d s.receipt).map Dispatcher.seen = serveCalls d.seen s := by
  have hiteration : d.channel.iteration d.buffer (s.call.packet s.caller) s.behind s.running s.chance =
      s.call.handle s.caller d.channel s.running s.chance := by
    rw [iteration_eq]
    exact dispatch_call s.caller d.channel _ s.running s.chance s.call
  have htype : (messageType (d.buffer.receive (s.call.packet s.caller)).bytes == 0) = decide (s.call = .destroy) := by
    apply Bool.eq_iff_iff.mpr
    rw [beq_iff_eq, decide_eq_true_iff]
    exact messageType_call s.caller _ s.call
  by_cases hend : d.canceled = true
  · have hseen : d.seen.2.1 = true := hend
    rw [dispatchMessages, serveCalls, if_pos hend, if_pos hseen, Option.map_none]
  · have hseen : ¬ d.seen.2.1 = true := hend
    rw [dispatchMessages, serveCalls, if_neg hend, if_neg hseen, Option.map_map]
    simp only [Sent.receipt, hiteration, htype]
    rfl

/-- Whatever calls are made in whatever order, and whatever the buffer, the stacks and the
memory behind them held: the loop over the received bytes handles exactly these calls. -/
theorem dispatchMessages_calls (d : Dispatcher) (sent : List Sent) :
    (run dispatchMessages d (sent.map Sent.receipt)).map Dispatcher.seen = run serveCalls d.seen sent := by
  induction sent generalizing d with
  | nil => rfl
  | cons s sent ih =>
    rw [List.map_cons, run_cons, run_cons, ← dispatchMessages_call]
    cases dispatchMessages d s.receipt with
    | none => rfl
    | some d' => exact ih d'

end Envelopes
