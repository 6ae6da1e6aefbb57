import ZeroCopyRpc.UdpReassembly

/-!
# Loss and reordering

Datagrams of the messages arrive in any order; some are lost, some repeated. An
open frame holds the lock of the pool, and nothing ends it but its last
fragment, so a message that begins while the newest one of several fragments is
incomplete is refused.
-/
namespace UdpLoss

open Reassembly Splits
open UdpReassembly (Arrived content mem_datagrams from_of_mem complete_iff)

variable {p mtu : Nat} {ms : List UdpMessage} {ds pre : List Datagram} {m : UdpMessage} {d : Datagram} {k : Nat}
  {s : UdpFrameDefragmentator}

/-- The call does not throw. -/
def Quiet (s : UdpFrameDefragmentator) (pre : List Datagram) (d : Datagram) : Prop :=
  ∃ b, ((after s pre).processFragment d).1 = .ok b

/-- No message of several fragments is incomplete when a datagram of a newer
message, or of a message of one datagram, arrives. -/
def Unblocked (mtu : Nat) (ms : List UdpMessage) (pre : List Datagram) (d : Datagram) : Prop :=
  ∀ m ∈ ms, d ∈ m.datagrams mtu → ¬ Blocked (mtu - 16) ms 0 pre m

/-- A fragment of the message arrives before any of a newer message. -/
def Opened (p : Nat) (ms : List UdpMessage) (ds : List Datagram) (m : UdpMessage) : Prop :=
  ∃ pre d post, ds = pre ++ d :: post ∧ d.header.created = m.created ∧
    ∀ m' ∈ ms, Multi p m' → Seen pre m' → m'.created ≤ m.created

/-- A message that is published once all its datagrams are there. -/
structure Publishable (mtu : Nat) (ms : List UdpMessage) (ds : List Datagram) (m : UdpMessage) : Prop where
  size : 0 < m.bytes.length ∧ m.bytes.length < 0x100000000
  multi : 1 < (m.datagrams mtu).length →
    (m.datagrams mtu).length ≤ 0x10000 ∧ 0 < m.created ∧ Opened (mtu - 16) ms ds m

theorem opened_snoc : Opened p ms (pre ++ [d]) m ↔ Opened p ms pre m ∨
    (d.header.created = m.created ∧ ∀ m' ∈ ms, Multi p m' → Seen pre m' → m'.created ≤ m.created) := by
  constructor
  · rintro ⟨a, e, b, he, hcreated, hall⟩
    rcases List.eq_nil_or_concat b with rfl | ⟨b, f, rfl⟩
    · obtain ⟨rfl, hlast⟩ := List.append_inj' he rfl
      cases hlast
      exact Or.inr ⟨hcreated, hall⟩
    · rw [List.concat_eq_append, ← List.cons_append, ← List.append_assoc] at he
      exact Or.inl ⟨a, e, b, (List.append_inj' he rfl).1, hcreated, hall⟩
  · rintro (⟨a, e, b, rfl, h⟩ | h)
    · exact ⟨a, e, b ++ [d], by rw [List.append_assoc, List.cons_append], h⟩
    · exact ⟨pre, d, [], rfl, h⟩

theorem seen_of_opened (h : Opened p ms pre m) : Seen pre m := by
  obtain ⟨a, e, b, rfl, hcreated, -⟩ := h
  exact ⟨e, by simp, hcreated⟩

/-- The newest message of several fragments was opened. -/
theorem opened_of_newest (h : Newest p ms 0 pre m) : Opened p ms pre m := by
  obtain ⟨e, he, hcreated⟩ := h.seen
  obtain ⟨a, b, rfl⟩ := List.append_of_mem he
  refine ⟨a, e, b, rfl, hcreated, ?_⟩
  rintro m' hm' hmulti ⟨f, hf, hfc⟩
  exact h.le m' hm' hmulti ⟨f, List.mem_append_left _ hf, hfc⟩

/-- When the datagrams of `pre` have arrived and no call has thrown. -/
structure Contained (p : Nat) (ms : List UdpMessage) (s : UdpFrameDefragmentator) (pre : List Datagram) : Prop where
  described : Described p ms 0 pre (after s pre)
  settled : ∀ m m', m ∈ ms → Multi p m → 0 < m.created → Opened p ms pre m → Newest p ms 0 pre m' →
    m.created < m'.created → Complete p pre m
  sound : ∀ c M, (c, M) ∈ published s pre → ∃ m ∈ ms, c = m.created ∧ M = ⟨m.type.toUInt64, m.sent⟩
  exact : ∀ m ∈ ms, (m.created, ⟨m.type.toUInt64, m.sent⟩) ∈ published s pre ↔
    (¬ Multi p m ∧ Seen pre m) ∨ (Multi p m ∧ 0 < m.created ∧ Opened p ms pre m ∧ Complete p pre m)

/-- Some message is the newest one as soon as one of several fragments was seen. -/
theorem exists_newest (hs : Stamped ms) (h : Described p ms 0 pre s) (hm : m ∈ ms) (hmulti : Multi p m)
    (hpos : 0 < m.created) (hseen : Seen pre m) : ∃ m', Newest p ms 0 pre m' ∧ m.created ≤ m'.created := by
  have hle := h.newest_le m hm hmulti hseen
  rcases h.newest with hzero | ⟨m', hm', hmulti', -, he⟩
  · omega
  · exact ⟨m', (newest_iff hs h).mpr ⟨hm', hmulti', by omega, he⟩, by omega⟩

/-- A message of several fragments is not complete with its first datagram. -/
theorem seen_of_complete (hp : 0 < p) (hmulti : Multi p m) (h : Complete p (pre ++ [d]) m) : Seen pre m := by
  have htwo : 1 < m.fragments p := (Chunks.one_lt_count hp).mpr hmulti
  rcases got_snoc.mp (h 0 (by omega)) with ⟨e, he, hcreated, -⟩ | ⟨-, hzero⟩
  · exact ⟨e, he, hcreated⟩
  · rcases got_snoc.mp (h 1 htwo) with ⟨e, he, hcreated, -⟩ | ⟨-, hone⟩
    · exact ⟨e, he, hcreated⟩
    · omega

theorem settled_snoc (hs : Stamped ms) (hd : From p ms m k d) (h : Contained p ms s pre)
    (hfree : ¬ Blocked p ms 0 pre m)
    (a b : UdpMessage) (ha : a ∈ ms) (hmulti : Multi p a) (hpos : 0 < a.created)
    (hopened : Opened p ms (pre ++ [d]) a)
    (hb : Newest p ms 0 (pre ++ [d]) b) (hlt : a.created < b.created) : Complete p (pre ++ [d]) a := by
  apply complete_mono
  rcases seen_snoc.mp hb.seen with hseen | hnow
  · have hb' : Newest p ms 0 pre b :=
      ⟨hb.mem, hb.multi, hb.pos, hseen, fun m' hm' hmulti' hs' =>
        hb.le m' hm' hmulti' (seen_snoc.mpr (Or.inl hs'))⟩
    rcases opened_snoc.mp hopened with hopened | ⟨-, hall⟩
    · exact h.settled a b ha hmulti hpos hopened hb' hlt
    · have := hall b hb.mem hb.multi hseen
      omega
  · -- `b` begins now, so the newest message before it was complete
    obtain rfl := stamped_eq hs hd.mem hb.mem (hd.created.symm.trans hnow)
    have hopened' : Opened p ms pre a := by
      refine (opened_snoc.mp hopened).resolve_right ?_
      rintro ⟨hcreated, -⟩
      rw [hd.created] at hcreated
      omega
    obtain ⟨c, hc, hac⟩ := exists_newest hs h.described ha hmulti hpos (seen_of_opened hopened')
    have hcm := hb.le c hc.mem hc.multi (seen_snoc.mpr (Or.inl hc.seen))
    rcases Nat.lt_or_ge a.created c.created with hlt' | hge
    · exact h.settled a c ha hmulti hpos hopened' hc hlt'
    · obtain rfl := stamped_eq hs ha hc.mem (Nat.le_antisymm hac hge)
      by_contra hopen
      exact hfree ⟨a, hc, hopen, Or.inr hlt⟩

theorem sound_snoc (hd : From p ms m k d) (h : Contained p ms s pre) {b : Bool} {t : UdpFrameDefragmentator}
    (ht : Returns p ms 0 pre (after s pre) m d b t) (c : Nat) (M : Message)
    (hc : (c, M) ∈ published s (pre ++ [d])) :
    ∃ m ∈ ms, c = m.created ∧ M = ⟨m.type.toUInt64, m.sent⟩ := by
  rw [published_snoc, ht.gained hd, List.mem_append] at hc
  rcases hc with hold | hnow
  · exact h.sound c M hold
  · cases b with
    | false => exact absurd hnow List.not_mem_nil
    | true =>
      obtain ⟨rfl, rfl⟩ := Prod.mk.inj (List.mem_singleton.mp hnow)
      exact ⟨m, hd.mem, rfl, rfl⟩

/-- A message that the datagram is not of. -/
theorem exact_other (hd : From p ms m k d) (h : Contained p ms s pre) {b : Bool}
    {t : UdpFrameDefragmentator} (ht : Returns p ms 0 pre (after s pre) m d b t) {a : UdpMessage} (ha : a ∈ ms)
    (hne : a.created ≠ m.created) : (a.created, ⟨a.type.toUInt64, a.sent⟩) ∈ published s (pre ++ [d]) ↔
      (¬ Multi p a ∧ Seen (pre ++ [d]) a) ∨
      (Multi p a ∧ 0 < a.created ∧ Opened p ms (pre ++ [d]) a ∧ Complete p (pre ++ [d]) a) := by
  have hstamp : ¬ d.header.created = a.created := by
    rw [hd.created]
    exact fun he => hne he.symm
  have hseen : Seen (pre ++ [d]) a ↔ Seen pre a := by
    rw [seen_snoc, or_iff_left hstamp]
  have hopened : Opened p ms (pre ++ [d]) a ↔ Opened p ms pre a := by
    rw [opened_snoc, or_iff_left (fun hnow => hstamp hnow.1)]
  have hcomplete : Complete p (pre ++ [d]) a ↔ Complete p pre a := by
    constructor
    · intro hall j hj
      exact (got_snoc.mp (hall j hj)).resolve_right (fun hnow => hstamp hnow.1)
    · exact fun hall => complete_mono hall d
  rw [hseen, hopened, hcomplete, ← h.exact a ha, published_snoc, ht.gained hd, List.mem_append, or_iff_left_iff_imp]
  intro hnow
  cases b with
  | false => exact absurd hnow List.not_mem_nil
  | true => exact absurd (congrArg Prod.fst (List.mem_singleton.mp hnow)) hne

/-- The message that the datagram is of. -/
theorem exact_own (hs : Stamped ms) (hp : 0 < p) (hd : From p ms m k d) (h : Contained p ms s pre) {b : Bool}
    {t : UdpFrameDefragmentator} (ht : Returns p ms 0 pre (after s pre) m d b t)
    (hb : b = true ↔ Finishes p ms 0 pre d m) :
    (m.created, ⟨m.type.toUInt64, m.sent⟩) ∈ published s (pre ++ [d]) ↔
      (¬ Multi p m ∧ Seen (pre ++ [d]) m) ∨
      (Multi p m ∧ 0 < m.created ∧ Opened p ms (pre ++ [d]) m ∧ Complete p (pre ++ [d]) m) := by
  rw [published_snoc, ht.gained hd, List.mem_append, h.exact m hd.mem]
  by_cases hm : Multi p m
  · simp only [hm, not_true_eq_false, false_and, true_and, false_or]
    cases hbool : b with
    | true =>
      obtain ⟨hnewest, -, hall⟩ := (hb.mp hbool).resolve_left (not_not.mpr hm)
      simp only [hnewest.pos, opened_snoc, opened_of_newest hnewest, hall, true_or, and_true]
      exact ⟨fun _ => trivial, fun _ => Or.inr (List.mem_singleton_self _)⟩
    | false =>
      have hnot : ¬ Finishes p ms 0 pre d m := by
        rw [← hb, hbool]
        exact Bool.false_ne_true
      simp only [Bool.false_eq_true, ↓reduceIte, List.not_mem_nil, or_false]
      constructor
      · rintro ⟨hpos, hopened, hall⟩
        exact ⟨hpos, opened_snoc.mpr (Or.inl hopened), complete_mono hall d⟩
      · rintro ⟨hpos, hopened, hall⟩
        have hseen := seen_of_complete hp hm hall
        by_cases hnewest : Newest p ms 0 pre m
        · refine ⟨hpos, opened_of_newest hnewest, ?_⟩
          by_contra hopen
          exact hnot (Or.inr ⟨hnewest, hopen, hall⟩)
        · -- a newer message has begun, so this one was complete before
          obtain ⟨m', hm', hle⟩ := exists_newest hs h.described hd.mem hm hpos hseen
          have hlt : m.created < m'.created := by
            rcases Nat.lt_or_eq_of_le hle with hlt | he
            · exact hlt
            · exact absurd (stamped_eq hs hd.mem hm'.mem he ▸ hm') hnewest
          have hopened' : Opened p ms pre m := by
            refine (opened_snoc.mp hopened).resolve_right ?_
            rintro ⟨-, hall'⟩
            have := hall' m' hm'.mem hm'.multi hm'.seen
            omega
          exact ⟨hpos, hopened', h.settled m m' hd.mem hm hpos hopened' hm' hlt⟩
  · have htrue : b = true := hb.mpr (Or.inl hm)
    simp only [hm, not_false_eq_true, true_and, false_and, or_false, htrue, ↓reduceIte, List.mem_singleton, or_true,
      true_iff]
    exact seen_snoc.mpr (Or.inr hd.created)

/-- One more datagram, when nothing incomplete stands in its way. -/
theorem contained_snoc (hs : Stamped ms) (hp : 0 < p) (hd : From p ms m k d) (h : Contained p ms s pre)
    (hfree : ¬ Blocked p ms 0 pre m) : Contained p ms s (pre ++ [d]) ∧ Quiet s pre d := by
  obtain ⟨b, t, ht, hb⟩ := step_returns hs hp hd h.described hfree
  refine ⟨⟨?_, settled_snoc hs hd h hfree, sound_snoc hd h ht, ?_⟩, b, by rw [ht.result]⟩
  · rw [ht.after]
    exact ht.described
  · intro a ha
    by_cases he : a.created = m.created
    · obtain rfl := stamped_eq hs ha hd.mem he
      exact exact_own hs hp hd h ht hb
    · exact exact_other hd h ht ha he

theorem contained_new {buffer : CyclicBuffer} (hb : buffer.memory.Bounded) (hfree : buffer.memory.inUse = false)
    (hfits : ∀ m ∈ ms, m.sent.length ≤ buffer.memory.size) : Contained (mtu - 16) ms (.new buffer mtu) [] := by
  refine ⟨described_idle (idle_new mtu hb hfree) hfits, ?_, ?_, ?_⟩
  · intro m m' _ _ _ hopened
    obtain ⟨e, he, -⟩ := seen_of_opened hopened
    exact absurd he List.not_mem_nil
  · intro c M hc
    exact absurd hc List.not_mem_nil
  · intro m _
    refine ⟨fun hc => absurd hc List.not_mem_nil, ?_⟩
    rintro (⟨-, e, he, -⟩ | ⟨-, -, hopened, -⟩)
    · exact absurd he List.not_mem_nil
    · obtain ⟨e, he, -⟩ := seen_of_opened hopened
      exact absurd he List.not_mem_nil

section Run

variable {buffer : CyclicBuffer}

theorem contained_of_unblocked (hmtu : 16 < mtu) (hb : buffer.memory.Bounded) (hfree : buffer.memory.inUse = false)
    (hs : Stamped ms) (hfits : ∀ m ∈ ms, m.sent.length ≤ buffer.memory.size)
    (hds : ∀ d ∈ ds, ∃ m ∈ ms, d ∈ m.datagrams mtu) (h : Each (Unblocked mtu ms) ds) :
    Contained (mtu - 16) ms (.new buffer mtu) ds ∧ Each (Quiet (.new buffer mtu)) ds := by
  induction ds using List.reverseRecOn with
  | nil => exact ⟨contained_new hb hfree hfits, each_nil _⟩
  | append_singleton ds d ih =>
    obtain ⟨hbefore, hd⟩ := each_snoc.mp h
    obtain ⟨hrun, hquiet⟩ := ih (fun e he => hds e (List.mem_append_left _ he)) hbefore
    obtain ⟨m, hm, hmem⟩ := hds d (by simp)
    obtain ⟨k, hfrom⟩ := from_of_mem hmtu hm hmem
    obtain ⟨hrun', hcall⟩ := contained_snoc hs (by omega) hfrom hrun (hd m hm hmem)
    exact ⟨hrun', each_snoc.mpr ⟨hquiet, hcall⟩⟩

theorem unblocked_of_quiet (hmtu : 16 < mtu) (hb : buffer.memory.Bounded) (hfree : buffer.memory.inUse = false)
    (hs : Stamped ms) (hfits : ∀ m ∈ ms, m.sent.length ≤ buffer.memory.size)
    (hds : ∀ d ∈ ds, ∃ m ∈ ms, d ∈ m.datagrams mtu) (h : Each (Quiet (.new buffer mtu)) ds) :
    Each (Unblocked mtu ms) ds := by
  induction ds using List.reverseRecOn with
  | nil => exact each_nil _
  | append_singleton ds d ih =>
    obtain ⟨hbefore, hd⟩ := each_snoc.mp h
    have hds' : ∀ e ∈ ds, ∃ m ∈ ms, e ∈ m.datagrams mtu := fun e he => hds e (List.mem_append_left _ he)
    have hunblocked := ih hds' hbefore
    obtain ⟨hrun, -⟩ := contained_of_unblocked hmtu hb hfree hs hfits hds' hunblocked
    refine each_snoc.mpr ⟨hunblocked, ?_⟩
    intro m hm hmem hblocked
    obtain ⟨k, hfrom⟩ := from_of_mem hmtu hm hmem
    obtain ⟨e, he⟩ := step_throws hs (by omega) hfrom hrun.described hblocked
    obtain ⟨b, hb'⟩ := hd
    rw [he] at hb'
    cases hb'

theorem seen_of_arrived (hmtu : 16 < mtu) (hpos : 0 < m.sent.length) (h : Arrived mtu m ds) : Seen ds m := by
  have hfirst : m.fragment (mtu - 16) 0 ∈ m.datagrams mtu := by
    refine (mem_datagrams hmtu).mpr ⟨0, (Chunks.lt_count (by omega)).mpr ?_, rfl⟩
    omega
  exact ⟨_, h _ hfirst, rfl⟩

theorem sent_pos_of_seen (hmtu : 16 < mtu) (hs : Stamped ms) (hds : ∀ d ∈ ds, ∃ m ∈ ms, d ∈ m.datagrams mtu)
    (hm : m ∈ ms) (h : Seen ds m) : 0 < m.sent.length := by
  obtain ⟨e, he, hcreated⟩ := h
  obtain ⟨m', hm', hmem⟩ := hds e he
  obtain ⟨k, hfrom⟩ := from_of_mem hmtu hm' hmem
  obtain rfl := stamped_eq hs hm hm' (hcreated.symm.trans hfrom.created)
  have := (Chunks.lt_count (by omega)).mp hfrom.lt
  omega

/-- With no call thrown, a message all of whose datagrams arrived is published
exactly when it could be. -/
theorem published_iff (hmtu : 16 < mtu) (hs : Stamped ms) (hds : ∀ d ∈ ds, ∃ m ∈ ms, d ∈ m.datagrams mtu)
    (h : Contained (mtu - 16) ms s ds) (hm : m ∈ ms) (harrived : Arrived mtu m ds) :
    (m.created, content m) ∈ published s ds ↔ Publishable mtu ms ds m := by
  constructor
  · intro hpub
    obtain ⟨m', hm', hcreated, hcontent⟩ := h.sound _ _ hpub
    obtain rfl := stamped_eq hs hm hm' hcreated
    have hbytes : m.bytes = m.sent := congrArg Message.bytes hcontent
    have hlength := UdpMessage.sent_length m
    rw [← hbytes] at hlength
    have hlt := Nat.mod_lt m.bytes.length (show 0 < 0x100000000 by decide)
    rw [hcontent, h.exact m hm] at hpub
    have hseen : Seen ds m := hpub.elim (fun hw => hw.2) (fun hf => seen_of_opened hf.2.2.1)
    have hpos := sent_pos_of_seen hmtu hs hds hm hseen
    rw [← hbytes] at hpos
    refine ⟨⟨hpos, by omega⟩, ?_⟩
    intro hlong
    obtain ⟨-, hstamp, hopened, hall⟩ :=
      hpub.resolve_left (fun hw => hw.1 ((UdpReassembly.multi_iff hmtu).mpr hlong))
    refine ⟨?_, hstamp, hopened⟩
    rw [UdpReassembly.datagrams_length hmtu]
    exact fragments_le_of_complete h.described.sequences hall
  · intro hp
    have hsent := UdpMessage.sent_eq hp.size.2
    have hexact := h.exact m hm
    rw [hsent] at hexact
    apply hexact.mpr
    by_cases hmulti : Multi (mtu - 16) m
    · obtain ⟨hfew, hpos, hopened⟩ := hp.multi ((UdpReassembly.multi_iff hmtu).mp hmulti)
      exact Or.inr ⟨hmulti, hpos, hopened, (complete_iff hmtu hs hds hm hfew).mpr harrived⟩
    · refine Or.inl ⟨hmulti, seen_of_arrived hmtu ?_ harrived⟩
      rw [hsent]
      exact hp.size.1

end Run

/-- Over any arrivals, no call throws and every message all of whose datagrams
arrive is published, exactly when nothing begins while the newest message of
several fragments is incomplete, and the messages that arrive are publishable. -/
theorem contained_iff {buffer : CyclicBuffer} (hmtu : 16 < mtu) (hb : buffer.memory.Bounded)
    (hfree : buffer.memory.inUse = false) (hs : Stamped ms)
    (hfits : ∀ m ∈ ms, m.bytes.length ≤ buffer.memory.size)
    (hds : ∀ d ∈ ds, ∃ m ∈ ms, d ∈ m.datagrams mtu) :
    (Each (Quiet (.new buffer mtu)) ds ∧
      ∀ m ∈ ms, Arrived mtu m ds → (m.created, content m) ∈ published (.new buffer mtu) ds) ↔
    Each (Unblocked mtu ms) ds ∧ ∀ m ∈ ms, Arrived mtu m ds → Publishable mtu ms ds m := by
  have hfits' : ∀ m ∈ ms, m.sent.length ≤ buffer.memory.size := by
    intro m hm
    rw [UdpMessage.sent_length]
    exact Nat.le_trans (Nat.mod_le _ _) (hfits m hm)
  constructor
  · rintro ⟨hquiet, hall⟩
    have hunblocked := unblocked_of_quiet hmtu hb hfree hs hfits' hds hquiet
    obtain ⟨hrun, -⟩ := contained_of_unblocked hmtu hb hfree hs hfits' hds hunblocked
    exact ⟨hunblocked, fun m hm harrived => (published_iff hmtu hs hds hrun hm harrived).mp (hall m hm harrived)⟩
  · rintro ⟨hunblocked, hall⟩
    obtain ⟨hrun, hquiet⟩ := contained_of_unblocked hmtu hb hfree hs hfits' hds hunblocked
    exact ⟨hquiet, fun m hm harrived => (published_iff hmtu hs hds hrun hm harrived).mpr (hall m hm harrived)⟩

/-- No fragment of a message arrives after one of the message two places later. -/
def NearOrder (mtu : Nat) (ms : List UdpMessage) (ds : List Datagram) : Prop :=
  ds.Pairwise fun d e => ∀ i j, (hi : i < ms.length) → (hj : j < ms.length) → d ∈ ms[i].datagrams mtu →
    e ∈ ms[j].datagrams mtu → i ≤ j + 1

def first : UdpMessage := ⟨1, 5, [1, 2, 3]⟩
def second : UdpMessage := ⟨2, 5, [4, 5, 6]⟩

theorem arrivals_from {l : List Datagram} (hl : ∀ d ∈ l, d ∈ first.datagrams 18 ∨ d ∈ second.datagrams 18) :
    ∀ d ∈ l, ∃ m ∈ [first, second], d ∈ m.datagrams 18 :=
  fun d hd => (hl d hd).elim (fun h => ⟨first, by simp, h⟩) (fun h => ⟨second, by simp, h⟩)

def swapped : List Datagram := [first.fragment 2 1, first.fragment 2 0, second.fragment 2 0, second.fragment 2 1]
def lossy : List Datagram := [first.fragment 2 0, second.fragment 2 0, second.fragment 2 1]

/-- Two messages of two fragments, the first one's in reverse order. -/
theorem contained_iff_two :
    (Each (Quiet (.new (UdpReassembly.freshBuffer 8) 18)) swapped ∧
      ∀ m ∈ [first, second], Arrived 18 m swapped →
      (m.created, content m) ∈ published (.new (UdpReassembly.freshBuffer 8) 18) swapped) ↔
    Each (Unblocked 18 [first, second]) swapped ∧ ∀ m ∈ [first, second], Arrived 18 m swapped →
      Publishable 18 [first, second] swapped m :=
  contained_iff (by decide) (CyclicMemoryPool.new_bounded (by decide) _) rfl
    (by simp [Stamped, first, second]) (by decide)
    (arrivals_from (by decide))

/-- The second fragment of the first message is lost: both calls for the second
message throw, and nothing is published. -/
theorem lost_fragment_blocks :
    (Stamped [first, second] ∧ (∀ m ∈ [first, second], m.bytes.length ≤ 8) ∧
      (∀ d ∈ lossy, ∃ m ∈ [first, second], d ∈ m.datagrams 18) ∧ NearOrder 18 [first, second] lossy) ∧
    ((after (.new (UdpReassembly.freshBuffer 8) 18) [first.fragment 2 0]).processFragment (second.fragment 2 0)).1 =
      .error (.pool .alreadyInUse) ∧
    ((after (.new (UdpReassembly.freshBuffer 8) 18) [first.fragment 2 0, second.fragment 2 0]).processFragment
      (second.fragment 2 1)).1 = .error (.pool .alreadyInUse) ∧
    Arrived 18 second lossy ∧ published (.new (UdpReassembly.freshBuffer 8) 18) lossy = [] := by
  have harrived : ∀ d ∈ second.datagrams 18, d ∈ lossy := by decide
  refine ⟨⟨by simp [Stamped, first, second], by decide, arrivals_from (by decide), ?_⟩, by decide +kernel,
    by decide +kernel, harrived, by decide +kernel⟩
  apply List.pairwise_of_forall
  intro d e i j hi hj _ _
  have hi : i < 2 := hi
  omega

end UdpLoss
