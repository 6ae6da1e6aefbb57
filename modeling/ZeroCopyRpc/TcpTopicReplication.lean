import ZeroCopyRpc.Framing
import ZeroCopyRpc.TcpReplicator

/-!
# One topic over TCP, with any number of reconnections

What is on a connection's wire is a run of consecutive source entries, framed,
that begins where the target stands. The target publishes an entry when its
whole body was read, so a cut costs at most the entry under way, and the next
subscription begins behind every entry that the previous ones have written.
-/
namespace TcpTopicReplication

open Cells Framing TcpReplicator Transitions

def wire : Format UInt8 Message where
  headerLength := 16
  IsHeader m header := ∃ padding, header = (messageHeader m).toBytes padding
  body m := m.bytes
  header_length := by
    rintro m header ⟨padding, rfl⟩
    exact TcpReplicationMessage.toBytes_length _ _

/-- The entries with indexes from `k` up to `x`. -/
def block (entries : List Message) (k x : Nat) : List Message := (entries.drop k).take (x - k)

/-- Bytes on the wire from entry `k` on, when the writer is at entry `x` and `q` entries were notified. -/
structure Stream (entries : List Message) (q k x : Nat) (opened : Option Message) (bytes : List UInt8) : Prop where
  written : Written wire (block entries k x) opened bytes
  behind : k ≤ x
  notified : x ≤ q
  header : opened = none ∨ opened = entries[x]?

variable {entries : List Message} {q k x : Nat} {opened : Option Message} {header bytes : List UInt8} {m : Message}

theorem block_self (entries : List Message) (k : Nat) : block entries k k = [] := by
  simp [block]

theorem block_head (hk : k < x) : (block entries k x).head? = entries[k]? := by
  rw [block, List.head?_take, if_neg (by omega), List.head?_drop]

theorem block_succ (hk : k ≤ x) (hm : entries[x]? = some m) :
    block entries k (x + 1) = block entries k x ++ [m] := by
  have hx : x + 1 - k = (x - k) + 1 := by omega
  have hget : (entries.drop k)[x - k]? = some m := by
    rw [List.getElem?_drop, show k + (x - k) = x by omega, hm]
  rw [block, hx, List.take_add_one, hget]
  rfl

theorem block_tail (entries : List Message) (k x : Nat) : (block entries k x).tail = block entries (k + 1) x := by
  rw [block, ← List.drop_one, List.drop_take, List.drop_drop, block, show x - k - 1 = x - (k + 1) by omega]

theorem block_append (l : List Message) (hx : x ≤ entries.length) :
    block (entries ++ l) k x = block entries k x := by
  by_cases hk : k ≤ entries.length
  · rw [block, List.drop_append_of_le_length hk, List.take_append_of_le_length, block]
    rw [List.length_drop]
    omega
  · rw [block, block, show x - k = 0 by omega, List.take_zero, List.take_zero]

theorem stream_start (entries : List Message) (q : Nat) : Stream entries q q q none [] :=
  ⟨block_self entries q ▸ written_nil wire, Nat.le_refl q, Nat.le_refl q, Or.inl rfl⟩

theorem stream_grow {l : List Message} {q' : Nat} (h : Stream entries q k x opened bytes) (hq : q ≤ entries.length)
    (hopen : opened ≠ none → x < q) (hle : q ≤ q') : Stream (entries ++ l) q' k x opened bytes := by
  refine ⟨?_, h.behind, h.notified.trans hle, ?_⟩
  · rw [block_append l (h.notified.trans hq)]
    exact h.written
  · by_cases hn : opened = none
    · exact Or.inl hn
    · have hx := hopen hn
      rw [List.getElem?_append_left (by omega)]
      exact Or.inr (h.header.resolve_left hn)

theorem stream_header (h : Stream entries q k x none bytes) (hm : entries[x]? = some m) (hh : wire.IsHeader m header) :
    Stream entries q k x (some m) (bytes ++ header) :=
  ⟨written_header h.written hh, h.behind, h.notified, Or.inr hm.symm⟩

theorem stream_body (h : Stream entries q k x (some m) bytes) (hm : entries[x]? = some m) (hx : x < q) :
    Stream entries q k (x + 1) none (bytes ++ m.bytes) :=
  ⟨block_succ h.behind hm ▸ written_body h.written, by have := h.behind; omega, hx, Or.inl rfl⟩

/-- The next message on the wire is the entry the reader is at. -/
theorem stream_next (h : Stream entries q k x opened bytes)
    (hm : (block entries k x ++ opened.toList).head? = some m) : entries[k]? = some m := by
  by_cases hk : k < x
  · have hhead : (block entries k x).head? = entries[k]? := block_head hk
    cases hb : block entries k x with
    | nil =>
      rw [hb] at hhead hm
      rcases h.header with rfl | ho
      · cases hm
      · have hlen := congrArg List.length hb
        rw [block, List.length_take, List.length_drop, List.length_nil] at hlen
        have hx : entries.length ≤ k := by omega
        rw [ho, List.getElem?_eq_none (by omega)] at hm
        cases hm
    | cons e rest =>
      rw [hb] at hhead hm
      rw [← hhead]
      exact hm
  · obtain rfl : k = x := by have := h.behind; omega
    rw [block_self] at hm
    rcases h.header with rfl | rfl
    · cases hm
    · cases he : entries[k]? with
      | none =>
        rw [he] at hm
        cases hm
      | some e =>
        rw [he] at hm
        exact hm

theorem stream_read_header (h : Stream entries q k x opened bytes) (hlen : 16 ≤ bytes.length) :
    ∃ m, entries[k]? = some m ∧ wire.IsHeader m (bytes.take 16) := by
  obtain ⟨m, hm, hh⟩ := read_header h.written (by decide) hlen
  exact ⟨m, stream_next h hm, hh⟩

theorem stream_read_body (h : Stream entries q k x opened (header ++ bytes)) (hk : entries[k]? = some m)
    (hh : wire.IsHeader m header) (hbody : m.bytes ≠ []) (hlen : m.bytes.length ≤ bytes.length) :
    bytes.take m.bytes.length = m.bytes ∧ k < x ∧
      Stream entries q (k + 1) x opened (bytes.drop m.bytes.length) := by
  have hheader : 16 ≤ (header ++ bytes).length := by
    rw [List.length_append, wire.header_length m header hh]
    exact Nat.le_add_right 16 _
  obtain ⟨m', hm', -⟩ := read_header h.written (by decide) hheader
  have hsame : m' = m := Option.some.inj ((stream_next h hm').symm.trans hk)
  subst hsame
  obtain ⟨rest, hrest, htake, hwritten⟩ := read_body h.written hh hm' hbody hlen
  have hkx : k < x := by
    by_contra hne
    obtain rfl : k = x := by have := h.behind; omega
    rw [block_self] at hrest
    cases hrest
  have htail : rest = block entries (k + 1) x := by
    rw [← block_tail, hrest]
    rfl
  exact ⟨htake, hkx, htail ▸ hwritten, hkx, h.notified, h.header⟩

/-- The consecutive entries that one connection brought. -/
structure Block where
  connection : Nat
  start : Nat
  count : Nat

def Block.receipts (topic : Topic) (entries : List Message) (b : Block) : List Receipt :=
  (block entries b.start (b.start + b.count)).map (fun m => ⟨b.connection, topic, m⟩)

def receipts (topic : Topic) (entries : List Message) (blocks : List Block) : List Receipt :=
  blocks.flatMap (Block.receipts topic entries)

/-- One block for a connection, and each behind the blocks of earlier connections. -/
def Ordered (blocks : List Block) : Prop :=
  blocks.Pairwise (fun a b => a.connection < b.connection ∧ a.start + a.count ≤ b.start)

/-- What one source thread may be at. -/
def SourceAt (topic : Topic) (q : Nat) (c : Connection) : Prop :=
  match c.replicator with
  | .accepting => (c.up = [] ∨ c.up = handshake topic.1) ∧ c.down = []
  | .waiting t x => t = topic ∧ x ≤ q
  | .holding t x => t = topic ∧ x < q
  | .writing t x => t = topic ∧ x < q
  | .ended => True

/-- The bytes in front of the reader, which stands at entry `k`. -/
def OnWire (entries : List Message) (q k : Nat) (c : Connection) (bytes : List UInt8) : Prop :=
  match c.replicator with
  | .accepting => bytes = []
  | .waiting _ x => Stream entries q k x none bytes
  | .holding _ x => Stream entries q k x none bytes
  | .writing _ x => Stream entries q k x entries[x]? bytes
  | .ended => bytes = [] ∨ ∃ x opened, (opened ≠ none → x < q) ∧ Stream entries q k x opened bytes

/-- The target's thread is at entry `k`: its header, when that was read, is `header`, and an
open scope has room for the whole body. -/
def ReaderAt (entries : List Message) (memory : CyclicMemoryPool) (k : Nat)
    (header : List UInt8) : TargetPhase → Prop
  | .header => header = [] ∧ memory.inUse = false
  | .body size scope => ∃ m, entries[k]? = some m ∧ wire.IsHeader m header ∧ size = m.bytes.length ∧
      scope.type = m.type ∧ scope.span.committed = 0 ∧ scope.span.Live memory size
  | .ended => True

/-- The thread for the topic runs: what it has received so far, and where it stands. -/
structure Running (topic : Topic) (s : State) (phase : TargetPhase) (earlier : List Block) (a count : Nat)
    (header : List UInt8) : Prop where
  requested : s.requested = []
  thread : s.replicators = [⟨topic, phase⟩]
  ordered : Ordered (earlier ++ [⟨s.socket, a, count⟩])
  received : s.received = receipts topic (s.published topic) (earlier ++ [⟨s.socket, a, count⟩])
  notified : a + count ≤ s.passes topic
  onWire : OnWire (s.published topic) (s.passes topic) (a + count) (s.connections s.socket)
    (header ++ (s.connections s.socket).down)
  fresh : (s.connections s.socket).replicator = .accepting → count = 0
  reader : ReaderAt (s.published topic) (s.target topic).buffer.memory (a + count) header phase

/-- The topic has not been asked for yet. -/
structure Idle (topic : Topic) (s : State) : Prop where
  requested : s.requested = [topic]
  threads : s.replicators = []
  received : s.received = []
  socket : s.socket = 0
  up : (s.connections 0).up = []
  down : (s.connections 0).down = []
  source : (s.connections 0).replicator = .accepting ∨ (s.connections 0).replicator = .ended
  free : (s.target topic).buffer.memory.inUse = false

structure Inv (topic : Topic) (target₀ : Topic → TopicService) (s : State) : Prop where
  notified : s.passes topic ≤ (s.published topic).length
  sized : ∀ m ∈ s.published topic, 0 < m.bytes.length ∧ m.bytes.length < 0x100000000
  sources : ∀ c, SourceAt topic (s.passes topic) (s.connections c)
  others : ∀ t, t ≠ topic → (s.target t).buffer = (target₀ t).buffer
  bounded : (s.target topic).buffer.memory.Bounded
  log : (s.target topic).buffer.log = (target₀ topic).buffer.log ++ s.received.map Receipt.message
  state : Idle topic s ∨ ∃ phase earlier a count header, Running topic s phase earlier a count header

theorem ofBytes_header {m : Message} {header : List UInt8} (h : wire.IsHeader m header) :
    TcpReplicationMessage.ofBytes header = messageHeader m := by
  obtain ⟨padding, rfl⟩ := h
  exact TcpReplicationMessage.ofBytes_toBytes _ _

variable {s : State} {topic : Topic} {c d : Connection} {e : ConnectionEvent}

/-- The source side of a connection that is accepted begins at the entry notified next. -/
theorem accept_cases (hc : stepConnection s c .accept = some d) (hs : SourceAt topic (s.passes topic) c) :
    c.replicator = .accepting ∧ c.down = [] ∧ d.down = [] ∧
      (d.replicator = .ended ∨ d.replicator = .waiting topic (s.passes topic)) := by
  cases hr : c.replicator with
  | accepting =>
    simp only [SourceAt, hr] at hs
    obtain ⟨hup, hdown⟩ := hs
    simp only [stepConnection, hr] at hc
    split at hc
    · cases hc
    · rename_i name count hread
      have hname : name = topic.1 := by
        rcases hup with hup | hup
        · rw [hup, List.take_nil] at hread
          cases hread
        · rw [hup] at hread
          exact readHandshake_take hread
      subst hname
      split at hc
      · cases hc
        exact ⟨rfl, hdown, hdown, Or.inl rfl⟩
      · rename_i t st hsub
        cases hc
        obtain ⟨rfl, hst⟩ := subscribe_some hsub
        exact ⟨rfl, hdown, hdown, Or.inr (by simp [State.passes, hst])⟩
  | waiting t x => simp [stepConnection, hr] at hc
  | holding t x => simp [stepConnection, hr] at hc
  | writing t x => simp [stepConnection, hr] at hc
  | ended => simp [stepConnection, hr] at hc

/-- What the source's thread does next: it takes an entry that was notified, or writes
the header or the body of the entry it is at. -/
inductive Sends (s : State) (c d : Connection) : Prop
  | take (t : Topic) (x : Nat) (hc : c.replicator = .waiting t x) (hx : x < s.passes t)
      (hd : d.replicator = .holding t x) (hdown : d.down = c.down)
  | header (t : Topic) (x : Nat) (m : Message) (padding : UInt32) (hc : c.replicator = .holding t x)
      (hm : (s.published t)[x]? = some m) (hd : d.replicator = .writing t x)
      (hdown : d.down = c.down ++ (messageHeader m).toBytes padding)
  | body (t : Topic) (x : Nat) (m : Message) (hc : c.replicator = .writing t x)
      (hm : (s.published t)[x]? = some m) (hd : d.replicator = .waiting t (x + 1))
      (hdown : d.down = c.down ++ m.bytes.take (messageHeader m).size.toNat)

/-- All that an event can do to a connection. -/
theorem stepConnection_cases (h : stepConnection s c e = some d) :
    (d.replicator = c.replicator ∧ d.down = c.down ∧ d.up = c.up) ∨
      (d.replicator = .ended ∧ d.down = c.down ∧ d.up = c.up) ∨
      stepConnection s c .accept = some d ∨ Sends s c d := by
  cases e with
  | deliverUp count =>
    simp only [stepConnection] at h
    split at h
    · cases h
      exact Or.inl ⟨rfl, rfl, rfl⟩
    · cases h
  | deliver count =>
    simp only [stepConnection] at h
    split at h
    · cases h
      exact Or.inl ⟨rfl, rfl, rfl⟩
    · cases h
  | cut =>
    cases h
    exact Or.inl ⟨rfl, rfl, rfl⟩
  | accept => exact Or.inr (Or.inr (Or.inl h))
  | take =>
    cases hr : c.replicator with
    | waiting t x =>
      simp only [stepConnection, hr] at h
      split at h
      · rename_i hx
        cases h
        exact Or.inr (Or.inr (Or.inr (.take t x hr hx rfl rfl)))
      · cases h
    | _ => simp [stepConnection, hr] at h
  | writeHeader padding =>
    cases hr : c.replicator with
    | holding t x =>
      simp only [stepConnection, hr] at h
      split at h
      · cases h
      · rename_i m hm
        cases h
        exact Or.inr (Or.inr (Or.inr (.header t x m padding hr hm rfl rfl)))
    | _ => simp [stepConnection, hr] at h
  | writeBody =>
    cases hr : c.replicator with
    | writing t x =>
      simp only [stepConnection, hr] at h
      split at h
      · cases h
      · rename_i m hm
        cases h
        exact Or.inr (Or.inr (Or.inr (.body t x m hr hm rfl rfl)))
    | _ => simp [stepConnection, hr] at h
  | stop =>
    cases h
    exact Or.inr (Or.inl ⟨rfl, rfl, rfl⟩)

theorem source_step (h : stepConnection s c e = some d) (hs : SourceAt topic (s.passes topic) c) :
    SourceAt topic (s.passes topic) d := by
  rcases stepConnection_cases h with ⟨hr, hdown, hup⟩ | ⟨hr, -, -⟩ | haccept | hsends
  · unfold SourceAt
    rw [hr, hdown, hup]
    exact hs
  · simp only [SourceAt, hr]
  · obtain ⟨-, -, -, hr | hr⟩ := accept_cases haccept hs
    · simp only [SourceAt, hr]
    · simp only [SourceAt, hr]
      exact ⟨trivial, Nat.le_refl _⟩
  · cases hsends with
    | take t x hc hx hd hdown =>
      simp only [SourceAt, hc, hd] at hs ⊢
      exact ⟨hs.1, hs.1 ▸ hx⟩
    | header t x m padding hc hm hd hdown =>
      simp only [SourceAt, hc, hd] at hs ⊢
      exact hs
    | body t x m hc hm hd hdown =>
      simp only [SourceAt, hc, hd] at hs ⊢
      exact ⟨hs.1, hs.2⟩

theorem onWire_ended {p : SourcePhase} {bytes : List UInt8} (hp : c.replicator = p) (hd : d.replicator = .ended)
    (hs : SourceAt topic q c) (h : OnWire entries q k c bytes) : OnWire entries q k d bytes := by
  simp only [OnWire, hd]
  cases p with
  | accepting =>
    simp only [OnWire, hp] at h
    exact Or.inl h
  | waiting t x =>
    simp only [OnWire, hp] at h
    exact Or.inr ⟨x, none, fun hn => absurd rfl hn, h⟩
  | holding t x =>
    simp only [OnWire, hp] at h
    exact Or.inr ⟨x, none, fun hn => absurd rfl hn, h⟩
  | writing t x =>
    simp only [OnWire, SourceAt, hp] at h hs
    exact Or.inr ⟨x, entries[x]?, fun _ => hs.2, h⟩
  | ended =>
    simp only [OnWire, hp] at h
    exact h

/-- A step on the connection that is read keeps the wire in line with the reader, or it
accepts the connection, and then the wire begins behind all that was notified. -/
theorem wire_step {header : List UInt8} (hstep : stepConnection s c e = some d)
    (hs : SourceAt topic (s.passes topic) c)
    (hsized : ∀ m ∈ s.published topic, 0 < m.bytes.length ∧ m.bytes.length < 0x100000000)
    (h : OnWire (s.published topic) (s.passes topic) k c (header ++ c.down)) :
    (OnWire (s.published topic) (s.passes topic) k d (header ++ d.down) ∧
      (d.replicator = .accepting → c.replicator = .accepting)) ∨
    (c.replicator = .accepting ∧ d.replicator ≠ .accepting ∧ header = [] ∧
      OnWire (s.published topic) (s.passes topic) (s.passes topic) d d.down) := by
  rcases stepConnection_cases hstep with ⟨hr, hdown, -⟩ | ⟨hr, hdown, -⟩ | haccept | hsends
  · refine Or.inl ⟨?_, fun ha => hr ▸ ha⟩
    unfold OnWire at h ⊢
    rw [hr, hdown]
    exact h
  · refine Or.inl ⟨?_, fun ha => by rw [hr] at ha; cases ha⟩
    rw [hdown]
    exact onWire_ended rfl hr hs h
  · obtain ⟨hc, hempty, hdown, hr⟩ := accept_cases haccept hs
    simp only [OnWire, hc] at h
    refine Or.inr ⟨hc, ?_, (List.append_eq_nil_iff.mp h).1, ?_⟩
    · rcases hr with hr | hr <;> rw [hr] <;> exact SourcePhase.noConfusion
    · rw [hdown]
      rcases hr with hr | hr
      · simp only [OnWire, hr]
        exact Or.inl trivial
      · simp only [OnWire, hr]
        exact stream_start _ _
  · cases hsends with
    | take t x hc hx hd hdown =>
      refine Or.inl ⟨?_, fun ha => by rw [hd] at ha; cases ha⟩
      simp only [OnWire, hc, hd, hdown] at h ⊢
      exact h
    | header t x m padding hc hm hd hdown =>
      refine Or.inl ⟨?_, fun ha => by rw [hd] at ha; cases ha⟩
      simp only [OnWire, SourceAt, hc, hd, hdown] at h hs ⊢
      rw [hs.1] at hm
      rw [← List.append_assoc, hm]
      exact stream_header h hm ⟨padding, rfl⟩
    | body t x m hc hm hd hdown =>
      refine Or.inl ⟨?_, fun ha => by rw [hd] at ha; cases ha⟩
      simp only [OnWire, SourceAt, hc, hd, hdown] at h hs ⊢
      rw [hs.1] at hm
      rw [hm] at h
      have hsize := header_size (hsized m (List.mem_of_getElem? hm)).2
      rw [← List.append_assoc, hsize, List.take_length]
      exact stream_body h hm hs.2

/-- Nothing that was received lies behind the reader. -/
theorem ordered_le {earlier : List Block} {last b : Block} (h : Ordered (earlier ++ [last]))
    (hb : b ∈ earlier ++ [last]) :
    b.start + b.count ≤ last.start + last.count ∧ b.connection ≤ last.connection := by
  rw [Ordered, List.pairwise_append] at h
  rcases List.mem_append.mp hb with hb | hb
  · have := h.2.2 b hb last (List.mem_singleton_self last)
    omega
  · rw [List.mem_singleton.mp hb]
    exact ⟨Nat.le_refl _, Nat.le_refl _⟩

/-- The last block may be replaced by one that begins no earlier on the same or a later connection. -/
theorem ordered_last {earlier : List Block} {last next : Block} (h : Ordered (earlier ++ [last]))
    (hc : last.connection ≤ next.connection) (hs : last.start ≤ next.start) : Ordered (earlier ++ [next]) := by
  rw [Ordered, List.pairwise_append] at h ⊢
  refine ⟨h.1, List.pairwise_singleton _ _, ?_⟩
  intro b hb n hn
  rw [List.mem_singleton.mp hn]
  have := h.2.2 b hb last (List.mem_singleton_self last)
  omega

theorem ordered_next {blocks : List Block} {last next : Block} (h : Ordered (blocks ++ [last]))
    (hc : last.connection < next.connection) (hs : last.start + last.count ≤ next.start) :
    Ordered ((blocks ++ [last]) ++ [next]) := by
  rw [Ordered, List.pairwise_append]
  refine ⟨h, List.pairwise_singleton _ _, ?_⟩
  intro b hb n hn
  rw [List.mem_singleton.mp hn]
  have := ordered_le h hb
  omega

theorem receipts_append (topic : Topic) (entries : List Message) (blocks : List Block) (b : Block) :
    receipts topic entries (blocks ++ [b]) = receipts topic entries blocks ++ b.receipts topic entries := by
  rw [receipts, List.flatMap_append, List.flatMap_singleton]
  rfl

theorem receipts_empty (topic : Topic) (entries : List Message) (b : Block) (h : b.count = 0) :
    b.receipts topic entries = [] := by
  rw [Block.receipts, h, Nat.add_zero, block_self]
  rfl

theorem receipts_succ (topic : Topic) (blocks : List Block) {c a count : Nat} (hm : entries[a + count]? = some m) :
    receipts topic entries (blocks ++ [⟨c, a, count + 1⟩]) =
      receipts topic entries (blocks ++ [⟨c, a, count⟩]) ++ [⟨c, topic, m⟩] := by
  rw [receipts_append, receipts_append, List.append_assoc]
  congr 1
  have hb := block_succ (Nat.le_add_right a count) hm
  rw [Nat.add_assoc] at hb
  rw [Block.receipts, Block.receipts, hb, List.map_append]
  rfl

theorem receipts_grow (topic : Topic) {blocks : List Block} (l : List Message)
    (h : ∀ b ∈ blocks, b.start + b.count ≤ entries.length) :
    receipts topic (entries ++ l) blocks = receipts topic entries blocks := by
  rw [receipts, receipts, List.flatMap_congr]
  intro b hb
  rw [Block.receipts, Block.receipts, block_append l (h b hb)]

theorem onWire_grow {l : List Message} {q' : Nat} (hs : SourceAt topic q c)
    (hq : q ≤ entries.length) (hle : q ≤ q')
    (h : OnWire entries q k c bytes) : OnWire (entries ++ l) q' k c bytes := by
  cases hr : c.replicator with
  | accepting =>
    simp only [OnWire, hr] at h ⊢
    exact h
  | waiting t x =>
    simp only [OnWire, hr] at h ⊢
    exact stream_grow h hq (fun hn => absurd rfl hn) hle
  | holding t x =>
    simp only [OnWire, hr] at h ⊢
    exact stream_grow h hq (fun hn => absurd rfl hn) hle
  | writing t x =>
    simp only [OnWire, SourceAt, hr] at h hs ⊢
    rw [List.getElem?_append_left (Nat.lt_of_lt_of_le hs.2 hq)]
    exact stream_grow h hq (fun _ => hs.2) hle
  | ended =>
    simp only [OnWire, hr] at h ⊢
    rcases h with h | ⟨x, opened, hx, h⟩
    · exact Or.inl h
    · exact Or.inr ⟨x, opened, fun hn => Nat.lt_of_lt_of_le (hx hn) hle, stream_grow h hq hx hle⟩

theorem source_grow {q' : Nat} (hle : q ≤ q') (h : SourceAt topic q c) : SourceAt topic q' c := by
  unfold SourceAt at h ⊢
  split
  all_goals
    rename_i hr
    simp only [hr] at h
  · exact h
  · exact ⟨h.1, h.2.trans hle⟩
  · exact ⟨h.1, Nat.lt_of_lt_of_le h.2 hle⟩
  · exact ⟨h.1, Nat.lt_of_lt_of_le h.2 hle⟩
  · trivial

theorem reader_grow {memory : CyclicMemoryPool} {phase : TargetPhase} (l : List Message)
    (h : ReaderAt entries memory k header phase) : ReaderAt (entries ++ l) memory k header phase := by
  cases phase with
  | header => exact h
  | body size scope =>
    obtain ⟨m, hm, hrest⟩ := h
    refine ⟨m, ?_, hrest⟩
    rw [List.getElem?_append_left (List.getElem?_eq_some_iff.mp hm).1]
    exact hm
  | ended => trivial

variable {target₀ : Topic → TopicService} {t : State}

/-- More entries and more notifications on the source change nothing for the reader. -/
theorem inv_source {source : Topic → Option SourceTopic} {l : List Message} (h : Inv topic target₀ s)
    (hpublished : ({ s with source := source } : State).published topic = s.published topic ++ l)
    (hle : s.passes topic ≤ ({ s with source := source } : State).passes topic)
    (hnotified : ({ s with source := source } : State).passes topic ≤ (s.published topic ++ l).length)
    (hsized : ∀ m ∈ l, 0 < m.bytes.length ∧ m.bytes.length < 0x100000000) :
    Inv topic target₀ { s with source := source } where
  notified := hpublished ▸ hnotified
  sized := by
    rw [hpublished]
    intro m hm
    exact (List.mem_append.mp hm).elim (h.sized m) (hsized m)
  sources := fun c => source_grow hle (h.sources c)
  others := h.others
  bounded := h.bounded
  log := h.log
  state := by
    rcases h.state with hidle | ⟨phase, earlier, a, count, header, hr⟩
    · exact Or.inl ⟨hidle.requested, hidle.threads, hidle.received, hidle.socket, hidle.up,
        hidle.down, hidle.source, hidle.free⟩
    · refine Or.inr ⟨phase, earlier, a, count, header, hr.requested, hr.thread, hr.ordered, ?_,
        hr.notified.trans hle, ?_, hr.fresh, ?_⟩
      · rw [hpublished, receipts_grow]
        · exact hr.received
        · intro b hb
          exact (ordered_le hr.ordered hb).1.trans (hr.notified.trans h.notified)
      · rw [hpublished]
        exact onWire_grow (h.sources s.socket) h.notified hle hr.onWire
      · rw [hpublished]
        exact reader_grow l hr.reader

theorem inv_start (h : (target₀ topic).buffer.memory.Bounded)
    (hfree : (target₀ topic).buffer.memory.inUse = false) :
    Inv topic target₀ (start [topic] target₀) where
  notified := Nat.le_refl _
  sized := by
    intro m hm
    cases hm
  sources := fun c => ⟨Or.inl rfl, rfl⟩
  others := fun _ _ => rfl
  bounded := h
  log := (List.append_nil _).symm
  state := Or.inl ⟨rfl, rfl, rfl, rfl, rfl, rfl, Or.inl rfl, hfree⟩

/-- Before the topic is asked for nothing happens on the connection, but it may end. -/
theorem idle_connection {i : Nat} (h : Idle topic s) (hstep : stepConnection s (s.connections i) e = some d) :
    Idle topic (s.setConnection i d) := by
  by_cases hi : i = 0
  · subst hi
    have hself := s.setConnection_same 0 d
    have hquiet : d.up = [] ∧ d.down = [] ∧ (d.replicator = .accepting ∨ d.replicator = .ended) := by
      rcases stepConnection_cases hstep with ⟨hr, hdown, hup⟩ | ⟨hr, hdown, hup⟩ | haccept | hsends
      · rw [hr, hdown, hup]
        exact ⟨h.up, h.down, h.source⟩
      · rw [hdown, hup]
        exact ⟨h.up, h.down, Or.inr hr⟩
      · rcases h.source with hc | hc
        · simp [stepConnection, hc, h.up, readHandshake] at haccept
        · simp [stepConnection, hc] at haccept
      · cases hsends <;> rename_i hc _ _ _ <;> rcases h.source with hs | hs <;> rw [hs] at hc <;> cases hc
    refine ⟨h.requested, h.threads, h.received, h.socket, ?_, ?_, ?_, h.free⟩
    all_goals rw [hself]
    · exact hquiet.1
    · exact hquiet.2.1
    · exact hquiet.2.2
  · have hother := s.setConnection_other d (Ne.symm hi)
    refine ⟨h.requested, h.threads, h.received, h.socket, ?_, ?_, ?_, h.free⟩
    all_goals rw [hother]
    · exact h.up
    · exact h.down
    · exact h.source

theorem inv_connection {i : Nat} (h : Inv topic target₀ s) (hstep : stepConnection s (s.connections i) e = some d) :
    Inv topic target₀ (s.setConnection i d) := by
  have hsources : ∀ j, SourceAt topic (s.passes topic) (Function.update s.connections i d j) := by
    intro j
    by_cases hj : j = i
    · subst hj
      rw [Function.update_self]
      exact source_step hstep (h.sources j)
    · rw [Function.update_of_ne hj]
      exact h.sources j
  refine ⟨h.notified, h.sized, hsources, h.others, h.bounded, h.log, ?_⟩
  rcases h.state with hidle | ⟨phase, earlier, a, count, header, hr⟩
  · exact Or.inl (idle_connection hidle hstep)
  · right
    by_cases hi : i = s.socket
    · subst hi
      have hself := s.setConnection_same s.socket d
      rcases wire_step hstep (h.sources s.socket) h.sized hr.onWire with ⟨hwire, haccepting⟩ |
        ⟨hc, hd, hheader, hwire⟩
      · refine ⟨phase, earlier, a, count, header, hr.requested, hr.thread, hr.ordered,
          hr.received, hr.notified, ?_, ?_, hr.reader⟩
        · change OnWire _ _ _ ((s.setConnection s.socket d).connections s.socket)
            (header ++ ((s.setConnection s.socket d).connections s.socket).down)
          rw [hself]
          exact hwire
        · change ((s.setConnection s.socket d).connections s.socket).replicator = .accepting → count = 0
          rw [hself]
          exact fun ha => hr.fresh (haccepting ha)
      · -- the connection is accepted: nothing came over it, and its block begins where the wire does
        have hcount : count = 0 := hr.fresh hc
        subst hcount
        have hle : a ≤ s.passes topic := hr.notified
        refine ⟨phase, earlier, s.passes topic, 0, header, hr.requested, hr.thread,
          ordered_last hr.ordered (Nat.le_refl _) hle, ?_, Nat.le_refl _, ?_, fun _ => rfl, ?_⟩
        · refine hr.received.trans ?_
          rw [receipts_append, receipts_append, receipts_empty _ _ _ rfl, receipts_empty _ _ _ rfl]
          rfl
        · change OnWire _ _ _ ((s.setConnection s.socket d).connections s.socket)
            (header ++ ((s.setConnection s.socket d).connections s.socket).down)
          rw [hself, hheader]
          exact hwire
        · have hreader := hr.reader
          subst hheader
          cases phase with
          | header => exact hreader
          | body size scope =>
            obtain ⟨m, -, hm, -⟩ := hreader
            have hlength := wire.header_length m [] hm
            cases hlength
          | ended => trivial
    · have hother := s.setConnection_other d (Ne.symm hi)
      refine ⟨phase, earlier, a, count, header, hr.requested, hr.thread, hr.ordered,
        hr.received, hr.notified, ?_, ?_, hr.reader⟩
      · change OnWire _ _ _ ((s.setConnection i d).connections s.socket)
          (header ++ ((s.setConnection i d).connections s.socket).down)
        rw [hother]
        exact hr.onWire
      · change ((s.setConnection i d).connections s.socket).replicator = .accepting → count = 0
        rw [hother]
        exact hr.fresh

theorem inv_replicate {rest : List Topic} {next : Topic} (h : Inv topic target₀ s)
    (hreq : s.requested = next :: rest) :
    Inv topic target₀ { s.setConnection s.socket { s.connections s.socket with
        up := (s.connections s.socket).up ++ handshake next.1 } with
      requested := rest
      replicators := s.replicators ++ [⟨next, .header⟩] } := by
  rcases h.state with hidle | ⟨phase, earlier, a, count, header, hr⟩
  · have hnext : next = topic ∧ rest = [] := by
      have he := hidle.requested.symm.trans hreq
      rw [List.cons.injEq] at he
      exact ⟨he.1.symm, he.2.symm⟩
    obtain ⟨rfl, rfl⟩ := hnext
    have hzero := hidle.socket
    have hself : Function.update s.connections s.socket { s.connections s.socket with
        up := (s.connections s.socket).up ++ handshake next.1 } s.socket =
        { s.connections s.socket with up := handshake next.1 } := by
      rw [Function.update_self, hzero, hidle.up, List.nil_append]
    have hdown : (s.connections s.socket).down = [] := hzero ▸ hidle.down
    refine ⟨h.notified, h.sized, ?_, h.others, h.bounded, h.log, Or.inr ⟨.header, [], 0, 0, [], ?_⟩⟩
    · intro j
      by_cases hj : j = s.socket
      · subst hj
        change SourceAt next _ (Function.update s.connections s.socket _ s.socket)
        rw [hself]
        unfold SourceAt
        rcases hzero ▸ hidle.source with hs | hs <;> simp only [hs]
        exact ⟨Or.inr trivial, hdown⟩
      · change SourceAt next _ (Function.update s.connections s.socket _ j)
        rw [Function.update_of_ne hj]
        exact h.sources j
    · refine ⟨rfl, ?_, List.pairwise_singleton _ _, ?_, Nat.zero_le _, ?_, fun _ => rfl, ⟨rfl, hidle.free⟩⟩
      · change s.replicators ++ [_] = [_]
        rw [hidle.threads, List.nil_append]
      · exact hidle.received
      · change OnWire _ _ _ (Function.update s.connections s.socket _ s.socket)
          ([] ++ (Function.update s.connections s.socket _ s.socket).down)
        rw [hself]
        unfold OnWire
        rcases hzero ▸ hidle.source with hs | hs <;> simp only [hs]
        · exact hdown
        · exact Or.inl hdown
  · rw [hr.requested] at hreq
    cases hreq

theorem onWire_congr (hd : d.replicator = c.replicator) (h : OnWire entries q k c bytes) :
    OnWire entries q k d bytes := by
  unfold OnWire at h ⊢
  rw [hd]
  exact h

/-- Where there are bytes, they are a stream. -/
theorem onWire_stream (h : OnWire entries q k c bytes) (hb : bytes ≠ []) :
    c.replicator ≠ .accepting ∧ ∃ x opened, Stream entries q k x opened bytes ∧
      ∀ k' bytes', Stream entries q k' x opened bytes' → OnWire entries q k' c bytes' := by
  unfold OnWire at h ⊢
  cases hr : c.replicator with
  | accepting =>
    simp only [hr] at h
    exact absurd h hb
  | waiting t x =>
    simp only [hr] at h
    exact ⟨SourcePhase.noConfusion, x, none, h, fun k' bytes' h' => h'⟩
  | holding t x =>
    simp only [hr] at h
    exact ⟨SourcePhase.noConfusion, x, none, h, fun k' bytes' h' => h'⟩
  | writing t x =>
    simp only [hr] at h
    exact ⟨SourcePhase.noConfusion, x, entries[x]?, h, fun k' bytes' h' => h'⟩
  | ended =>
    simp only [hr] at h
    obtain ⟨x, opened, hx, h⟩ := h.resolve_left hb
    exact ⟨SourcePhase.noConfusion, x, opened, h, fun k' bytes' h' => Or.inr ⟨x, opened, hx, h'⟩⟩

/-- The one thread has read from the socket or ended, and its topic has changed. -/
def moved (s : State) (topic : Topic) (c : Connection) (service : TopicService) (phase : TargetPhase)
    (received : List Receipt) : State :=
  { s with
    connections := Function.update s.connections s.socket c
    target := Function.update s.target topic service
    replicators := [⟨topic, phase⟩]
    received := received }

theorem inv_moved {service : TopicService} {phase : TargetPhase} {received : List Receipt} {earlier : List Block}
    {a count : Nat} (h : Inv topic target₀ s) (hs : SourceAt topic (s.passes topic) c)
    (hbounded : service.buffer.memory.Bounded)
    (hlog : service.buffer.log = (target₀ topic).buffer.log ++ received.map Receipt.message)
    (hrequested : s.requested = []) (hordered : Ordered (earlier ++ [⟨s.socket, a, count⟩]))
    (hreceived : received = receipts topic (s.published topic) (earlier ++ [⟨s.socket, a, count⟩]))
    (hnotified : a + count ≤ s.passes topic)
    (hwire : OnWire (s.published topic) (s.passes topic) (a + count) c (header ++ c.down))
    (hfresh : c.replicator = .accepting → count = 0)
    (hreader : ReaderAt (s.published topic) service.buffer.memory (a + count) header phase) :
    Inv topic target₀ (moved s topic c service phase received) := by
  have hself : (moved s topic c service phase received).connections s.socket = c := s.setConnection_same s.socket c
  have htarget : (moved s topic c service phase received).target topic = service := by simp [moved]
  refine ⟨h.notified, h.sized, ?_, ?_, by rw [htarget]; exact hbounded, by rw [htarget]; exact hlog,
    Or.inr ⟨phase, earlier, a, count, header, hrequested, rfl, hordered, hreceived, hnotified, ?_, ?_,
      by rw [htarget]; exact hreader⟩⟩
  · intro j
    by_cases hj : j = s.socket
    · subst hj
      rw [hself]
      exact hs
    · have hother : (moved s topic c service phase received).connections j = s.connections j :=
        s.setConnection_other c hj
      rw [hother]
      exact h.sources j
  · intro t ht
    have hother : (moved s topic c service phase received).target t = s.target t := by simp [moved, ht]
    rw [hother]
    exact h.others t ht
  · change OnWire _ _ _ ((moved s topic c service phase received).connections s.socket)
      (header ++ ((moved s topic c service phase received).connections s.socket).down)
    rw [hself]
    exact hwire
  · change ((moved s topic c service phase received).connections s.socket).replicator = .accepting → count = 0
    rw [hself]
    exact hfresh

theorem source_dropped {n arrived : Nat} (h : SourceAt topic q c) :
    SourceAt topic q { c with down := c.down.drop n, arrived := arrived } := by
  unfold SourceAt at h ⊢
  cases hr : c.replicator with
  | accepting =>
    simp only [hr] at h ⊢
    exact ⟨h.1, by rw [h.2, List.drop_nil]⟩
  | waiting t x => simpa only [hr] using h
  | holding t x => simpa only [hr] using h
  | writing t x => simpa only [hr] using h
  | ended => trivial

theorem inv_readHeader {scope : WriterScope} {service : TopicService} {earlier : List Block} {a count : Nat}
    (h : Inv topic target₀ s) (hr : Running topic s .header earlier a count header)
    (hlen : 16 ≤ (s.connections s.socket).down.length)
    (hprepare : (s.target topic).prepare
      (TcpReplicationMessage.ofBytes ((s.connections s.socket).down.take 16)).size.toNat
      (TcpReplicationMessage.ofBytes ((s.connections s.socket).down.take 16)).type = .ok (scope, service)) :
    Inv topic target₀ (moved s topic { s.connections s.socket with
        down := (s.connections s.socket).down.drop 16
        arrived := (s.connections s.socket).arrived - 16 } service
      (.body (TcpReplicationMessage.ofBytes ((s.connections s.socket).down.take 16)).size.toNat scope)
        s.received) := by
  obtain ⟨rfl, -⟩ := hr.reader
  have hwire := hr.onWire
  rw [List.nil_append] at hwire
  have hne : (s.connections s.socket).down ≠ [] := List.ne_nil_of_length_pos (by omega)
  obtain ⟨haccepting, x, opened, hstream, -⟩ := onWire_stream hwire hne
  obtain ⟨m, hm, hheader⟩ := stream_read_header hstream hlen
  have hsize := header_size (h.sized m (List.mem_of_getElem? hm)).2
  rw [ofBytes_header hheader, hsize] at hprepare
  rw [ofBytes_header hheader, hsize]
  obtain ⟨memory, hspan, htype, rfl⟩ := TopicService.prepare_ok hprepare
  obtain ⟨hbounded, hlive⟩ := Span.live_of_getWriteSpan h.bounded hspan
  have hcommitted : scope.span.committed = 0 := by
    obtain ⟨-, -, ⟨-, he, -⟩ | ⟨-, he, -⟩⟩ := CyclicMemoryPool.getWriteSpan_ok hspan <;> rw [he]
  refine inv_moved h (source_dropped (h.sources s.socket)) hbounded h.log hr.requested hr.ordered
    hr.received hr.notified
    ?_ (fun ha => absurd ha haccepting) ⟨m, hm, hheader, rfl, htype, hcommitted, hlive⟩
  rw [List.take_append_drop]
  exact onWire_congr rfl hwire

theorem inv_readBody {scope scope' : WriterScope} {buffer : CyclicBuffer} {service : TopicService} {size : Nat}
    {earlier : List Block} {a count : Nat} (h : Inv topic target₀ s)
    (hr : Running topic s (.body size scope) earlier a count header)
    (hlen : size ≤ (s.connections s.socket).down.length)
    (hcommit : scope.commit ((s.target topic).buffer.copy scope.span.start
      ((s.connections s.socket).down.take size)) size = .ok (scope', buffer))
    (hpublish : ({ s.target topic with buffer := buffer } : TopicService).publish scope' = .ok service) :
    Inv topic target₀ (moved s topic { s.connections s.socket with
        down := (s.connections s.socket).down.drop size
        arrived := (s.connections s.socket).arrived - size } service .header
      (if 0 < scope'.span.committed then s.received ++ [⟨s.socket, topic, scope'.content buffer⟩]
        else s.received)) := by
  obtain ⟨m, hm, hheader, rfl, htype, hcommitted, hlive⟩ := hr.reader
  have hpos := (h.sized m (List.mem_of_getElem? hm)).1
  have hne : header ++ (s.connections s.socket).down ≠ [] := List.append_ne_nil_of_right_ne_nil _
    (List.ne_nil_of_length_pos (by omega))
  obtain ⟨haccepting, x, opened, hstream, hback⟩ := onWire_stream hr.onWire hne
  obtain ⟨htake, hx, hrest⟩ := stream_read_body hstream hm hheader (List.ne_nil_of_length_pos hpos) hlen
  rw [htake] at hcommit
  -- the commit takes exactly what was announced
  have hcopy : scope.span.Live ((s.target topic).buffer.copy scope.span.start m.bytes).memory m.bytes.length :=
    ⟨hlive.locked, hlive.bound, hlive.long, hlive.committed_le, hlive.offset_eq⟩
  have hbounded : ((s.target topic).buffer.copy scope.span.start m.bytes).memory.Bounded :=
    ⟨h.bounded.offset_le, h.bounded.size_lt⟩
  have hscope : scope' = { scope with span := { scope.span with committed := m.bytes.length } } ∧
      buffer.memory.buffer = store (s.target topic).buffer.memory.buffer scope.span.start m.bytes ∧
      buffer.log = (s.target topic).buffer.log ∧ buffer.memory.Bounded := by
    unfold WriterScope.commit at hcommit
    split at hcommit
    · cases hcommit
    · rename_i span memory hspan
      cases hcommit
      obtain ⟨hb, -, hspan', hmemory⟩ := Span.commit_live hbounded hcopy hspan
      rw [hcommitted, Nat.zero_add] at hspan'
      exact ⟨by rw [hspan'], by rw [hmemory]; rfl, rfl, hb⟩
  obtain ⟨rfl, hbytes, hlog, hbuffer⟩ := hscope
  have hcontent : ({ scope with span := { scope.span with committed := m.bytes.length } } :
      WriterScope).content buffer = m := by
    rw [WriterScope.content, hbytes, slice_store_same, htype]
  obtain ⟨service', hpublish', hservice⟩ := TopicService.publish_buffer
    ({ s.target topic with buffer := buffer } : TopicService)
    { scope with span := { scope.span with committed := m.bytes.length } }
  rw [hpublish] at hpublish'
  cases hpublish'
  rw [if_pos hpos, hcontent]
  have hordered : Ordered (earlier ++ [⟨s.socket, a, count + 1⟩]) :=
    ordered_last hr.ordered (Nat.le_refl _) (Nat.le_refl _)
  refine inv_moved h (source_dropped (h.sources s.socket)) ?_ ?_ hr.requested hordered ?_
    (Nat.le_trans hx hrest.notified) ?_ (fun ha => absurd ha haccepting) ⟨rfl, ?_⟩
  · rw [hservice, WriterScope.destroy_memory]
    exact ⟨hbuffer.offset_le, hbuffer.size_lt⟩
  · rw [hservice, WriterScope.destroy_log, if_pos hpos, hcontent, hlog, h.log, List.map_append, List.append_assoc]
    rfl
  · rw [receipts_succ topic earlier hm, ← hr.received]
  · exact onWire_congr rfl (hback _ _ hrest)
  · rw [hservice, WriterScope.destroy_memory]
    rfl

/-- The thread is back at the header on a new connection, where the topic was asked for again. -/
def again (s : State) (topic : Topic) (service : TopicService) : State :=
  { s.connectAgain topic with
    target := Function.update s.target topic service
    replicators := [⟨topic, .header⟩] }

theorem inv_again {phase : TargetPhase} {service : TopicService} {earlier : List Block} {a count : Nat}
    (h : Inv topic target₀ s) (hr : Running topic s phase earlier a count header)
    (hbounded : service.buffer.memory.Bounded) (hfree : service.buffer.memory.inUse = false)
    (hlog : service.buffer.log = (s.target topic).buffer.log) : Inv topic target₀ (again s topic service) := by
  have hnew : (again s topic service).connections (s.socket + 1) = .new (handshake topic.1) := by
    simp [again, State.connectAgain]
  have htarget : (again s topic service).target topic = service := by simp [again]
  refine ⟨h.notified, h.sized, ?_, ?_, by rw [htarget]; exact hbounded, by rw [htarget, hlog]; exact h.log,
    Or.inr ⟨.header, earlier ++ [⟨s.socket, a, count⟩], a + count, 0, [], hr.requested, rfl,
      ?_, ?_, hr.notified, ?_,
      fun _ => rfl, ⟨rfl, by rw [htarget]; exact hfree⟩⟩⟩
  · intro j
    by_cases hj : j = s.socket + 1
    · subst hj
      rw [hnew]
      exact ⟨Or.inr rfl, rfl⟩
    · have hother : (again s topic service).connections j = s.connections j := by
        simp [again, State.connectAgain, hj]
      rw [hother]
      exact h.sources j
  · intro t ht
    have hother : (again s topic service).target t = s.target t := by simp [again, ht]
    rw [hother]
    exact h.others t ht
  · exact ordered_next hr.ordered (Nat.lt_succ_self _) (Nat.le_refl _)
  · refine hr.received.trans ?_
    rw [receipts_append topic _ (earlier ++ [_]), receipts_empty topic _ _ rfl, List.append_nil]
    rfl
  · change OnWire _ _ _ ((again s topic service).connections (s.socket + 1))
      ([] ++ ((again s topic service).connections (s.socket + 1)).down)
    rw [hnew]
    exact List.nil_append _

/-- A scope that ends before its commit publishes nothing and frees the buffer. -/
theorem publish_uncommitted {t t' : TopicService} {scope : WriterScope} (hc : scope.span.committed = 0)
    (h : t.publish scope = .ok t') : t'.buffer = { t.buffer with memory := t.buffer.memory.release } := by
  obtain ⟨u, hu, hb⟩ := TopicService.publish_buffer t scope
  rw [h] at hu
  cases hu
  rw [hb, WriterScope.destroy_uncommitted scope t.buffer hc]

theorem inv_reconnect {phase : TargetPhase} {n : Nat} {earlier : List Block} {a count : Nat}
    (h : Inv topic target₀ s) (hr : Running topic s phase earlier a count header)
    (hstep : stepThread s 0 ⟨topic, phase⟩ (.reconnect n) = some t) : Inv topic target₀ t := by
  simp only [stepThread] at hstep
  split at hstep
  · cases phase with
    | header =>
      cases hstep
      have hagain := inv_again h hr h.bounded hr.reader.2 rfl
      rw [again, Function.update_eq_self, ← hr.thread] at hagain
      exact hagain
    | body size scope =>
      simp only at hstep
      split at hstep
      · cases hstep
      · rename_i service hpublish
        obtain ⟨m, -, -, -, -, hcommitted, -⟩ := hr.reader
        have hservice := publish_uncommitted hcommitted hpublish
        have hbounded : service.buffer.memory.Bounded := hservice ▸ ⟨h.bounded.offset_le, h.bounded.size_lt⟩
        have hagain := inv_again h hr hbounded (hservice ▸ rfl) (hservice ▸ rfl)
        cases hstep
        rw [State.setPhase, State.setTarget, State.connectAgain, hr.thread]
        exact hagain
    | ended => cases hstep
  · cases hstep

theorem inv_stop {phase : TargetPhase} {earlier : List Block} {a count : Nat}
    (h : Inv topic target₀ s) (hr : Running topic s phase earlier a count header)
    (hstep : stepThread s 0 ⟨topic, phase⟩ .stop = some t) : Inv topic target₀ t := by
  have hmoved : ∀ service : TopicService, service.buffer.memory.Bounded →
      service.buffer.log = (s.target topic).buffer.log →
      Inv topic target₀ ((s.setTarget topic service).setPhase 0 ⟨topic, phase⟩ .ended) := by
    intro service hbounded hlog
    have hreader : ReaderAt (s.published topic) service.buffer.memory (a + count) header .ended := trivial
    have hnext := inv_moved h (h.sources s.socket) hbounded
      (hlog ▸ h.log) hr.requested hr.ordered hr.received hr.notified
      hr.onWire hr.fresh hreader
    rw [moved, Function.update_eq_self] at hnext
    rw [State.setPhase, State.setTarget, hr.thread]
    exact hnext
  have hsame : s.setTarget topic (s.target topic) = s := by rw [State.setTarget, Function.update_eq_self]
  simp only [stepThread] at hstep
  cases phase with
  | body size scope =>
    simp only at hstep
    split at hstep
    · cases hstep
    · rename_i service hpublish
      obtain ⟨m, -, -, -, -, hcommitted, -⟩ := hr.reader
      have hservice := publish_uncommitted hcommitted hpublish
      cases hstep
      exact hmoved service (hservice ▸ ⟨h.bounded.offset_le, h.bounded.size_lt⟩) (hservice ▸ rfl)
  | header =>
    cases hstep
    have hnext := hmoved (s.target topic) h.bounded rfl
    rwa [hsame] at hnext
  | ended =>
    cases hstep
    have hnext := hmoved (s.target topic) h.bounded rfl
    rwa [hsame] at hnext

/-- The buffers decide; what else readers change in the target topics does not matter. -/
theorem inv_attend {target : Topic → TopicService} (h : Inv topic target₀ s)
    (ht : ∀ t, (target t).buffer = (s.target t).buffer) : Inv topic target₀ { s with target := target } where
  notified := h.notified
  sized := h.sized
  sources := h.sources
  others := fun t hne => (ht t).trans (h.others t hne)
  bounded := (ht topic) ▸ h.bounded
  log := (congrArg CyclicBuffer.log (ht topic)).trans h.log
  state := by
    rcases h.state with hidle | ⟨phase, earlier, a, count, header, hr⟩
    · exact Or.inl ⟨hidle.requested, hidle.threads, hidle.received, hidle.socket, hidle.up,
        hidle.down, hidle.source, (congrArg (fun b => b.memory.inUse) (ht topic)).trans hidle.free⟩
    · refine Or.inr ⟨phase, earlier, a, count, header, hr.requested, hr.thread, hr.ordered,
        hr.received, hr.notified, hr.onWire, hr.fresh, ?_⟩
      change ReaderAt _ (target topic).buffer.memory _ _ _
      rw [ht topic]
      exact hr.reader

theorem published_update (s : State) (topic t : Topic) (st : SourceTopic) :
    ({ s with source := Function.update s.source t (some st) } : State).published topic =
      if topic = t then st.published else s.published topic := by
  by_cases h : topic = t
  · subst h
    simp [State.published]
  · simp [State.published, h]

theorem passes_update (s : State) (topic t : Topic) (st : SourceTopic) :
    ({ s with source := Function.update s.source t (some st) } : State).passes topic =
      if topic = t then st.passes else s.passes topic := by
  by_cases h : topic = t
  · subst h
    simp [State.passes]
  · simp [State.passes, h]

theorem inv_update {t : Topic} {st : SourceTopic} {l : List Message} (h : Inv topic target₀ s)
    (hpublished : st.published = s.published t ++ l) (hle : s.passes t ≤ st.passes)
    (hnotified : t = topic → st.passes ≤ st.published.length)
    (hsized : ∀ m ∈ l, 0 < m.bytes.length ∧ m.bytes.length < 0x100000000) :
    Inv topic target₀ { s with source := Function.update s.source t (some st) } := by
  by_cases ht : topic = t
  · subst ht
    refine inv_source h ?_ ?_ ?_ hsized
    · rw [published_update, if_pos rfl, hpublished]
    · rw [passes_update, if_pos rfl]
      exact hle
    · rw [passes_update, if_pos rfl, ← hpublished]
      exact hnotified rfl
  · have hnone : ∀ m ∈ ([] : List Message), 0 < m.bytes.length ∧ m.bytes.length < 0x100000000 := by
      intro m hm
      cases hm
    refine inv_source h ?_ ?_ ?_ hnone
    · rw [published_update, if_neg ht, List.append_nil]
    · rw [passes_update, if_neg ht]
    · rw [passes_update, if_neg ht, List.append_nil]
      exact h.notified

theorem source_eq {t : Topic} {st : SourceTopic} (h : s.source t = some st) :
    s.published t = st.published ∧ s.passes t = st.passes := by
  simp [State.published, State.passes, h]

theorem inv_create {t' : Topic} {bufferSize : UInt32} (h : Inv topic target₀ s)
    (hstep : step s (.create t' bufferSize) = some t) : Inv topic target₀ t := by
  simp only [step] at hstep
  split at hstep
  · cases hstep
    exact h
  · rename_i hnone
    cases hstep
    have hold : s.published t' = [] ∧ s.passes t' = 0 := by simp [State.published, State.passes, hnone]
    refine inv_update (l := []) h ?_ (Nat.le_of_eq hold.2) (fun _ => Nat.zero_le _) (by simp)
    rw [hold.1]
    rfl

theorem inv_publish {t' : Topic} {m : Message} (h : Inv topic target₀ s) (hstep : step s (.publish t' m) = some t) :
    Inv topic target₀ t := by
  simp only [step] at hstep
  split at hstep
  · cases hstep
  · rename_i st hst
    split at hstep
    · rename_i hm
      cases hstep
      obtain ⟨hpublished, hpasses⟩ := source_eq hst
      have hlt : m.bytes.length < 0x100000000 := Nat.lt_of_le_of_lt hm.2 st.bufferSize.toNat_lt
      refine inv_update (l := [m]) h (by rw [hpublished]) (Nat.le_of_eq hpasses) ?_ (by simpa using ⟨hm.1, hlt⟩)
      rintro rfl
      have hle := h.notified
      rw [hpublished, hpasses] at hle
      simp only [List.length_append]
      exact Nat.le_add_right_of_le hle
    · cases hstep

theorem inv_notify {t' : Topic} (h : Inv topic target₀ s) (hstep : step s (.notify t') = some t) :
    Inv topic target₀ t := by
  simp only [step] at hstep
  split at hstep
  · cases hstep
  · rename_i st hst
    split at hstep
    · rename_i hlt
      cases hstep
      obtain ⟨hpublished, hpasses⟩ := source_eq hst
      refine inv_update (l := []) h (by rw [hpublished, List.append_nil]) ?_ (fun _ => hlt) (by simp)
      rw [hpasses]
      exact Nat.le_succ _
    · cases hstep

/-- The turns of the target's thread. -/
theorem inv_thread {phase : TargetPhase} {e : ThreadEvent} {earlier : List Block} {a count : Nat}
    (h : Inv topic target₀ s) (hr : Running topic s phase earlier a count header)
    (hstep : stepThread s 0 ⟨topic, phase⟩ e = some t) : Inv topic target₀ t := by
  cases e with
  | readHeader =>
    cases phase with
    | header =>
      simp only [stepThread] at hstep
      split at hstep
      · rename_i hlen
        rw [Connection.readable, List.length_take] at hlen
        split at hstep
        · cases hstep
        · rename_i scope service hprepare
          cases hstep
          have hnext := inv_readHeader h hr (by omega) hprepare
          rw [State.setPhase, State.setTarget, State.setConnection, hr.thread]
          exact hnext
      · cases hstep
    | body size scope => cases hstep
    | ended => cases hstep
  | readBody =>
    cases phase with
    | body size scope =>
      simp only [stepThread] at hstep
      split at hstep
      · rename_i hlen
        rw [Connection.readable, List.length_take] at hlen
        split at hstep
        · cases hstep
        · rename_i scope' buffer hcommit
          split at hstep
          · cases hstep
          · rename_i service hpublish
            cases hstep
            have hnext := inv_readBody h hr (by omega) hcommit hpublish
            rw [State.setPhase, State.setTarget, State.setConnection, hr.thread]
            exact hnext
      · cases hstep
    | header => cases hstep
    | ended => cases hstep
  | reconnect n => exact inv_reconnect h hr hstep
  | stop => exact inv_stop h hr hstep

theorem inv_step (s : State) (e : Event) (t : State) (h : Inv topic target₀ s) (hstep : step s e = some t) :
    Inv topic target₀ t := by
  cases e with
  | create t' bufferSize => exact inv_create h hstep
  | publish t' m => exact inv_publish h hstep
  | notify t' => exact inv_notify h hstep
  | replicateTopic =>
    simp only [step] at hstep
    split at hstep
    · cases hstep
    · rename_i next rest hreq
      cases hstep
      exact inv_replicate h hreq
  | connection i e =>
    simp only [step] at hstep
    split at hstep
    · rw [Option.map_eq_some_iff] at hstep
      obtain ⟨d, hd, rfl⟩ := hstep
      exact inv_connection h hd
    · cases hstep
  | thread i e =>
    simp only [step, Option.bind_eq_some_iff] at hstep
    obtain ⟨r, hr, hstep⟩ := hstep
    rcases h.state with hidle | ⟨phase, earlier, a, count, header, hrun⟩
    · rw [hidle.threads, List.getElem?_nil] at hr
      cases hr
    · rw [hrun.thread, List.getElem?_singleton] at hr
      split at hr
      · rename_i hi
        subst hi
        cases hr
        exact inv_thread h hrun hstep
      · cases hr
  | attend t' service =>
    cases hstep
    refine inv_attend h ?_
    intro u
    by_cases hu : u = t'
    · subst hu
      rw [Function.update_self]
    · rw [Function.update_of_ne hu]

theorem inv_run {es : List Event} (hbounded : (target₀ topic).buffer.memory.Bounded)
    (hfree : (target₀ topic).buffer.memory.inUse = false) (h : run step (start [topic] target₀) es = some s) :
    Inv topic target₀ s :=
  run_invariant inv_step (inv_start hbounded hfree) h

theorem receipts_messages (topic : Topic) (entries : List Message) (blocks : List Block) :
    (receipts topic entries blocks).map Receipt.message =
      blocks.flatMap (fun b => block entries b.start (b.start + b.count)) := by
  rw [receipts, List.map_flatMap]
  congr 1
  funext b
  rw [Block.receipts, List.map_map]
  exact List.map_id _

/-- Blocks that follow each other take entries in order and none twice. -/
theorem blocks_sublist (entries : List Message) (blocks : List Block) (h : Ordered blocks) (n : Nat)
    (hn : ∀ b ∈ blocks, n ≤ b.start) :
    (blocks.flatMap (fun b => block entries b.start (b.start + b.count))).Sublist (entries.drop n) := by
  induction blocks generalizing n with
  | nil => exact List.nil_sublist _
  | cons b blocks ih =>
    obtain ⟨hb, hordered⟩ := List.pairwise_cons.mp h
    have hrest := ih hordered (b.start + b.count) (fun c hc => (hb c hc).2)
    have hsplit : entries.drop b.start =
        block entries b.start (b.start + b.count) ++ entries.drop (b.start + b.count) := by
      rw [block, Nat.add_sub_cancel_left, ← List.drop_drop, List.take_append_drop]
    have hstart : entries.drop b.start = (entries.drop n).drop (b.start - n) := by
      have := hn b List.mem_cons_self
      rw [List.drop_drop, Nat.add_sub_cancel' this]
    rw [List.flatMap_cons]
    calc (block entries b.start (b.start + b.count) ++
          blocks.flatMap (fun b => block entries b.start (b.start + b.count))).Sublist (entries.drop b.start) := by
            rw [hsplit]
            exact (List.Sublist.refl _).append hrest
      List.Sublist _ (entries.drop n) := by
            rw [hstart]
            exact List.drop_sublist _ _

theorem blocks_of_inv (h : Inv topic target₀ s) :
    ∃ blocks : List Block, Ordered blocks ∧
      (∀ b ∈ blocks, b.start + b.count ≤ (s.published topic).length) ∧
      s.received = receipts topic (s.published topic) blocks := by
  rcases h.state with hidle | ⟨phase, earlier, a, count, header, hr⟩
  · exact ⟨[], List.Pairwise.nil, fun b hb => absurd hb List.not_mem_nil, hidle.received⟩
  · refine ⟨_, hr.ordered, ?_, hr.received⟩
    intro b hb
    exact (ordered_le hr.ordered hb).1.trans (hr.notified.trans h.notified)

theorem sublist_of_inv (h : Inv topic target₀ s) :
    (s.received.map Receipt.message).Sublist (s.published topic) := by
  obtain ⟨blocks, hordered, -, hreceived⟩ := blocks_of_inv h
  rw [hreceived, receipts_messages]
  exact blocks_sublist (s.published topic) blocks hordered 0 (fun b _ => Nat.zero_le _)

/-- Whatever cuts there are, the target's log grows by source entries in source order, none
twice and each as it was published; what came over one connection is one block of them. -/
theorem replicates_in_order (topic : Topic) (target : Topic → TopicService)
    (hbounded : (target topic).buffer.memory.Bounded) (hfree : (target topic).buffer.memory.inUse = false)
    (es : List Event) (s : State) (h : run step (start [topic] target) es = some s) :
    (s.target topic).buffer.log = (target topic).buffer.log ++ s.received.map Receipt.message ∧
    (s.received.map Receipt.message).Sublist (s.published topic) ∧
    ∃ blocks : List Block, Ordered blocks ∧
      (∀ b ∈ blocks, b.start + b.count ≤ (s.published topic).length) ∧
      s.received = receipts topic (s.published topic) blocks := by
  have hinv := inv_run hbounded hfree h
  exact ⟨hinv.log, sublist_of_inv hinv, blocks_of_inv hinv⟩

def smallTarget : Topic → TopicService := fun _ => .new (.new 4 64 (fun _ => ⟨0, 0, 0⟩) (fun _ => 0))

/-- One entry arrives; a second one is lost with the connection; a third one comes over the next. -/
def cutRun : List Event :=
  let t : Topic := ⟨[116], by decide⟩
  [.create t 64, .replicateTopic, .connection 0 (.deliverUp 5), .connection 0 .accept,
    .publish t ⟨1, [10, 11]⟩, .notify t, .connection 0 .take, .connection 0 (.writeHeader 0),
    .connection 0 .writeBody, .connection 0 (.deliver 18), .thread 0 .readHeader, .thread 0 .readBody,
    .publish t ⟨2, [20, 21]⟩, .notify t, .connection 0 .take, .connection 0 (.writeHeader 9),
    .connection 0 .writeBody, .connection 0 (.deliver 17), .thread 0 .readHeader, .connection 0 .cut,
    .thread 0 (.reconnect 1), .connection 1 (.deliverUp 5), .connection 1 .accept,
    .publish t ⟨3, [30]⟩, .notify t, .connection 1 .take, .connection 1 (.writeHeader 0), .connection 1 .writeBody,
    .connection 1 (.deliver 17), .thread 0 .readHeader, .thread 0 .readBody]

theorem replicates_in_order_cut : ∃ s, run step (start [⟨[116], by decide⟩] smallTarget) cutRun = some s ∧
    (s.received.map Receipt.message).Sublist (s.published ⟨[116], by decide⟩) ∧
    s.received.map Receipt.message = [⟨1, [10, 11]⟩, ⟨3, [30]⟩] := by
  have h : (run step (start [⟨[116], by decide⟩] smallTarget) cutRun).map
      (fun s => s.received.map Receipt.message) =
      some [⟨1, [10, 11]⟩, ⟨3, [30]⟩] := by decide +kernel
  obtain ⟨s, hs, hreceived⟩ := Option.map_eq_some_iff.mp h
  have hbounded : (smallTarget ⟨[116], by decide⟩).buffer.memory.Bounded := ⟨Nat.zero_le _, by decide⟩
  exact ⟨s, hs, (replicates_in_order _ _ hbounded rfl cutRun s hs).2.1, hreceived⟩

end TcpTopicReplication
