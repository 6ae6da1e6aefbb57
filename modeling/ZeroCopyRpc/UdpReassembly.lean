import ZeroCopyRpc.Reassembly
import ZeroCopyRpc.Splits

/-!
# Defragmentation undoes fragmentation

The messages are fed one after the other. The datagrams of a message of several
fragments come in any order and any number of times, also while later messages
are fed; the datagram of a smaller message comes once.
-/
namespace UdpReassembly

open Reassembly Splits

variable {mtu : Nat} {ms all : List UdpMessage} {ds pre l : List Datagram} {m : UdpMessage} {d : Datagram}

/-- What arrives while a message is fed. -/
structure Burst (mtu : Nat) (ms : List UdpMessage) (m : UdpMessage) (l : List Datagram) : Prop where
  arrived : ∀ d ∈ m.datagrams mtu, d ∈ l
  known : ∀ d ∈ l, d ∈ m.datagrams mtu ∨ ∃ m' ∈ ms, 1 < (m'.datagrams mtu).length ∧
    d ∈ m'.datagrams mtu
  once : (m.datagrams mtu).length = 1 → ∀ d ∈ m.datagrams mtu, l.count d = 1

inductive Fed (mtu : Nat) : List UdpMessage → List Datagram → Prop where
  | nil : Fed mtu [] []
  | snoc {ms : List UdpMessage} {ds l : List Datagram} {m : UdpMessage} :
    Fed mtu ms ds → Burst mtu ms m l → Fed mtu (ms ++ [m]) (ds ++ l)

/-- All datagrams of the message are there. -/
def Arrived (mtu : Nat) (m : UdpMessage) (ds : List Datagram) : Prop := ∀ d ∈ m.datagrams mtu, d ∈ ds

/-- The datagram is the last one that some message needs. -/
def BringsLast (mtu : Nat) (ms : List UdpMessage) (pre : List Datagram) (d : Datagram) : Prop :=
  ∃ m ∈ ms, ¬ Arrived mtu m pre ∧ Arrived mtu m (pre ++ [d])

def content (m : UdpMessage) : Message := ⟨m.type.toUInt64, m.bytes⟩

/-- What the messages must be for their headers, the bit sets and the pool. -/
structure Fit (mtu size : Nat) (ms : List UdpMessage) : Prop where
  stamped : Stamped ms
  pos : ∀ m ∈ ms, 0 < m.created
  size : ∀ m ∈ ms, 0 < m.bytes.length ∧ m.bytes.length ≤ size ∧ m.bytes.length < 0x100000000
  few : ∀ m ∈ ms, (m.datagrams mtu).length ≤ 0x10000

theorem datagrams_length (hmtu : 16 < mtu) (m : UdpMessage) : (m.datagrams mtu).length = m.fragments (mtu - 16) := by
  rw [UdpMessage.datagrams_eq hmtu, List.length_map, List.length_range]

theorem mem_datagrams (hmtu : 16 < mtu) :
    d ∈ m.datagrams mtu ↔ ∃ k, k < m.fragments (mtu - 16) ∧ m.fragment (mtu - 16) k = d := by
  rw [UdpMessage.datagrams_eq hmtu, List.mem_map]
  simp only [List.mem_range]

theorem from_of_mem (hmtu : 16 < mtu) (hm : m ∈ all) (hd : d ∈ m.datagrams mtu) :
    ∃ k, From (mtu - 16) all m k d := by
  obtain ⟨k, hk, he⟩ := (mem_datagrams hmtu).mp hd
  exact ⟨k, hm, hk, he.symm⟩

theorem multi_iff (hmtu : 16 < mtu) : Multi (mtu - 16) m ↔ 1 < (m.datagrams mtu).length := by
  rw [datagrams_length hmtu]
  exact (Chunks.one_lt_count (by omega)).symm

theorem datagrams_pos (hmtu : 16 < mtu) {size : Nat} (h : Fit mtu size ms) (hm : m ∈ ms) :
    0 < (m.datagrams mtu).length := by
  obtain ⟨hpos, -, hlt⟩ := h.size m hm
  rw [datagrams_length hmtu]
  apply (Chunks.lt_count (by omega)).mpr
  rw [UdpMessage.sent_eq hlt]
  omega

/-- A datagram belongs to one message only. -/
theorem owner_unique (hmtu : 16 < mtu) (hs : Stamped all) {m' : UdpMessage} (hm : m ∈ all) (hm' : m' ∈ all)
    (hd : d ∈ m.datagrams mtu) (hd' : d ∈ m'.datagrams mtu) : m = m' := by
  obtain ⟨k, hfrom⟩ := from_of_mem hmtu hm hd
  obtain ⟨k', hfrom'⟩ := from_of_mem hmtu hm' hd'
  exact stamped_eq hs hm hm' (hfrom.created.symm.trans hfrom'.created)

/-- With few enough fragments the sequence numbers tell the datagrams apart. -/
theorem complete_iff (hmtu : 16 < mtu) (hs : Stamped all)
    (hknown : ∀ e ∈ pre, ∃ m' ∈ all, e ∈ m'.datagrams mtu)
    (hm : m ∈ all) (hfew : (m.datagrams mtu).length ≤ 0x10000) :
    Complete (mtu - 16) pre m ↔ Arrived mtu m pre := by
  rw [datagrams_length hmtu] at hfew
  constructor
  · intro hall e he
    obtain ⟨k, hk, rfl⟩ := (mem_datagrams hmtu).mp he
    obtain ⟨f, hf, hcreated, hsequence⟩ := hall k hk
    obtain ⟨m', hm', hmem⟩ := hknown f hf
    obtain ⟨j, hfrom⟩ := from_of_mem hmtu hm' hmem
    obtain rfl := stamped_eq hs hm hm' (hcreated.symm.trans hfrom.created)
    rw [hfrom.sequence, Nat.mod_eq_of_lt (Nat.lt_of_lt_of_le hfrom.lt hfew)] at hsequence
    rw [← hsequence, ← hfrom.eq]
    exact hf
  · intro hall k hk
    refine ⟨m.fragment (mtu - 16) k, hall _ ((mem_datagrams hmtu).mpr ⟨k, hk, rfl⟩), rfl, ?_⟩
    exact Nat.mod_eq_of_lt (Nat.lt_of_lt_of_le hk hfew)

theorem arrived_mono {ds' : List Datagram} (h : Arrived mtu m ds) : Arrived mtu m (ds ++ ds') :=
  fun d hd => List.mem_append_left _ (h d hd)

/-- A datagram that makes a message arrive is one of its datagrams. -/
theorem mem_of_turn (hbefore : ¬ Arrived mtu m pre) (hafter : Arrived mtu m (pre ++ [d])) :
    d ∈ m.datagrams mtu := by
  by_contra hnot
  apply hbefore
  intro e he
  rcases List.mem_append.mp (hafter e he) with hpre | hlast
  · exact hpre
  · rw [List.mem_singleton.mp hlast] at he
    exact absurd he hnot

/-- A call that does not throw and returns true exactly for the last missing datagram. -/
def Call (mtu : Nat) (all : List UdpMessage) (s : UdpFrameDefragmentator) (pre : List Datagram)
    (d : Datagram) : Prop :=
  ∃ b, ((after s pre).processFragment d).1 = .ok b ∧ (b = true ↔ BringsLast mtu all pre d)

/-- The messages fed so far, `m` the one whose datagrams are arriving. -/
structure Underway (mtu : Nat) (all ms : List UdpMessage) (m : UdpMessage) (s : UdpFrameDefragmentator)
    (pre : List Datagram) : Prop where
  mem : m ∈ all
  earlier : ∀ m' ∈ ms, m' ∈ all ∧ m'.created < m.created
  described : Described (mtu - 16) all 0 pre (after s pre)
  known : ∀ d ∈ pre, d ∈ m.datagrams mtu ∨ ∃ m' ∈ ms, d ∈ m'.datagrams mtu
  arrived : ∀ m' ∈ ms, Arrived mtu m' pre
  log_before : ¬ Arrived mtu m pre → (after s pre).buffer.log = s.buffer.log ++ ms.map content
  log_after : Arrived mtu m pre → (after s pre).buffer.log = s.buffer.log ++ (ms ++ [m]).map content
  calls : Each (Call mtu all s) pre

section Step

variable {size : Nat} {s : UdpFrameDefragmentator}

theorem known_all (h : Underway mtu all ms m s pre) : ∀ e ∈ pre, ∃ m' ∈ all, e ∈ m'.datagrams mtu := by
  intro e he
  rcases h.known e he with hown | ⟨m', hm', hmem⟩
  · exact ⟨m, h.mem, hown⟩
  · exact ⟨m', (h.earlier m' hm').1, hmem⟩

/-- A message seen is one of those fed. -/
theorem seen_cases (hmtu : 16 < mtu) (hfit : Fit mtu size all) (h : Underway mtu all ms m s pre) {m' : UdpMessage}
    (hm' : m' ∈ all) (hseen : Seen pre m') : m' = m ∨ m' ∈ ms := by
  obtain ⟨e, he, hcreated⟩ := hseen
  rcases h.known e he with hown | ⟨m'', hm'', hmem⟩
  · obtain ⟨k, hfrom⟩ := from_of_mem hmtu h.mem hown
    exact Or.inl (stamped_eq hfit.stamped hm' h.mem (hcreated.symm.trans hfrom.created))
  · obtain ⟨k, hfrom⟩ := from_of_mem hmtu (h.earlier m'' hm'').1 hmem
    obtain rfl := stamped_eq hfit.stamped hm' (h.earlier m'' hm'').1 (hcreated.symm.trans hfrom.created)
    exact Or.inr hm''

theorem brings_iff (hmtu : 16 < mtu) (hfit : Fit mtu size all) (h : Underway mtu all ms m s pre)
    (hd : d ∈ m.datagrams mtu ∨ ∃ m' ∈ ms, d ∈ m'.datagrams mtu) :
    BringsLast mtu all pre d ↔ ¬ Arrived mtu m pre ∧ Arrived mtu m (pre ++ [d]) := by
  constructor
  · rintro ⟨m', hm', hbefore, hafter⟩
    have hmem := mem_of_turn hbefore hafter
    rcases hd with hown | ⟨m'', hm'', hlate⟩
    · obtain rfl := owner_unique hmtu hfit.stamped hm' h.mem hmem hown
      exact ⟨hbefore, hafter⟩
    · obtain rfl := owner_unique hmtu hfit.stamped hm' (h.earlier m'' hm'').1 hmem hlate
      exact absurd (h.arrived m' hm'') hbefore
  · rintro ⟨hbefore, hafter⟩
    exact ⟨m, h.mem, hbefore, hafter⟩

/-- No message is incomplete when another one begins. -/
theorem not_blocked (hmtu : 16 < mtu) (hfit : Fit mtu size all) (h : Underway mtu all ms m s pre) {owner : UdpMessage}
    (howner : owner = m ∨ (owner ∈ ms ∧ Multi (mtu - 16) owner)) : ¬ Blocked (mtu - 16) all 0 pre owner := by
  rintro ⟨m', hnewest, hopen, hm⟩
  rcases seen_cases hmtu hfit h hnewest.mem hnewest.seen with rfl | hm'
  · rcases howner with rfl | ⟨hmem, hmulti⟩
    · rcases hm with hwhole | hlt
      · exact hwhole hnewest.multi
      · exact Nat.lt_irrefl _ hlt
    · rcases hm with hwhole | hlt
      · exact hwhole hmulti
      · have := (h.earlier owner hmem).2
        omega
  · exact hopen ((complete_iff hmtu hfit.stamped (known_all h) hnewest.mem (hfit.few m' hnewest.mem)).mpr
      (h.arrived m' hm'))

theorem two_datagrams (hmtu : 16 < mtu) (hmulti : Multi (mtu - 16) m) (d : Datagram) :
    ∃ e ∈ m.datagrams mtu, e ≠ d := by
  have htwo : 1 < m.fragments (mtu - 16) := by
    rw [← datagrams_length hmtu]
    exact (multi_iff hmtu).mp hmulti
  by_cases hfirst : m.fragment (mtu - 16) 0 = d
  · refine ⟨m.fragment (mtu - 16) 1, (mem_datagrams hmtu).mpr ⟨1, htwo, rfl⟩, ?_⟩
    intro hsecond
    have hsequence := congrArg (fun e => e.header.sequence) (hfirst.trans hsecond.symm)
    exact absurd hsequence (show (0 : Nat) % 0x10000 ≠ 1 % 0x10000 by decide)
  · exact ⟨m.fragment (mtu - 16) 0, (mem_datagrams hmtu).mpr ⟨0, by omega, rfl⟩, hfirst⟩

/-- The defragmentator and the list of datagrams agree on which datagram is the last. -/
theorem finishes_iff (hmtu : 16 < mtu) (hfit : Fit mtu size all) (h : Underway mtu all ms m s pre) {owner : UdpMessage}
    (howner : owner = m ∨ (owner ∈ ms ∧ Multi (mtu - 16) owner)) (hd : d ∈ owner.datagrams mtu)
    (hnew : ¬ Multi (mtu - 16) m → d ∈ m.datagrams mtu → d ∉ pre) :
    Finishes (mtu - 16) all 0 pre d owner ↔ ¬ Arrived mtu m pre ∧ Arrived mtu m (pre ++ [d]) := by
  have hall : owner ∈ all := howner.elim (fun he => he ▸ h.mem) (fun hm => (h.earlier owner hm.1).1)
  have hknown := known_all h
  have hknown' : ∀ e ∈ pre ++ [d], ∃ m' ∈ all, e ∈ m'.datagrams mtu := by
    intro e he
    rcases List.mem_append.mp he with he | he
    · exact hknown e he
    · rw [List.mem_singleton.mp he]
      exact ⟨owner, hall, hd⟩
  have hbefore := complete_iff hmtu hfit.stamped hknown hall (hfit.few owner hall)
  have hafter := complete_iff hmtu hfit.stamped hknown' hall (hfit.few owner hall)
  rw [Finishes, hbefore, hafter]
  constructor
  · rintro (hwhole | ⟨-, hnot, hall'⟩)
    · obtain rfl : owner = m := howner.resolve_right (fun hm => hwhole hm.2)
      have hone : (owner.datagrams mtu).length = 1 := by
        have := datagrams_pos hmtu hfit hall
        rw [multi_iff hmtu] at hwhole
        omega
      refine ⟨fun harrived => hnew hwhole hd (harrived d hd), ?_⟩
      intro e he
      obtain ⟨f, hf⟩ := List.length_eq_one_iff.mp hone
      rw [hf, List.mem_singleton] at he hd
      rw [he, ← hd]
      exact List.mem_append_right _ (List.mem_singleton_self d)
    · rcases howner with rfl | ⟨hm, -⟩
      · exact ⟨hnot, hall'⟩
      · exact absurd (h.arrived owner hm) hnot
  · rintro ⟨hnot, hall'⟩
    obtain rfl := owner_unique hmtu hfit.stamped hall h.mem hd (mem_of_turn hnot hall')
    by_cases hmulti : Multi (mtu - 16) owner
    · refine Or.inr ⟨⟨hall, hmulti, hfit.pos owner hall, ?_, ?_⟩, hnot, hall'⟩
      · obtain ⟨e, he, hne⟩ := two_datagrams hmtu hmulti d
        obtain ⟨j, hfrom⟩ := from_of_mem hmtu hall he
        rcases List.mem_append.mp (hall' e he) with hpre | hlast
        · exact ⟨e, hpre, hfrom.created⟩
        · exact absurd (List.mem_singleton.mp hlast) hne
      · intro m' hm' _ hseen
        rcases seen_cases hmtu hfit h hm' hseen with rfl | hm'
        · exact Nat.le_refl _
        · exact Nat.le_of_lt (h.earlier m' hm').2
    · exact Or.inl hmulti

/-- One more datagram. -/
theorem underway_snoc (hmtu : 16 < mtu) (hfit : Fit mtu size all) (h : Underway mtu all ms m s pre)
    (hd : d ∈ m.datagrams mtu ∨ ∃ m' ∈ ms, 1 < (m'.datagrams mtu).length ∧ d ∈ m'.datagrams mtu)
    (hnew : ¬ Multi (mtu - 16) m → d ∈ m.datagrams mtu → d ∉ pre) : Underway mtu all ms m s (pre ++ [d]) := by
  have hd' : d ∈ m.datagrams mtu ∨ ∃ m' ∈ ms, d ∈ m'.datagrams mtu :=
    hd.imp id fun ⟨m', hm', _, hmem⟩ => ⟨m', hm', hmem⟩
  obtain ⟨owner, howner, hmem⟩ : ∃ owner, (owner = m ∨ (owner ∈ ms ∧ Multi (mtu - 16) owner)) ∧
      d ∈ owner.datagrams mtu := by
    rcases hd with hown | ⟨m', hm', hlong, hlate⟩
    · exact ⟨m, Or.inl rfl, hown⟩
    · exact ⟨m', Or.inr ⟨hm', (multi_iff hmtu).mpr hlong⟩, hlate⟩
  have hall : owner ∈ all := howner.elim (fun he => he ▸ h.mem) (fun hm => (h.earlier owner hm.1).1)
  obtain ⟨k, hfrom⟩ := from_of_mem hmtu hall hmem
  obtain ⟨b, t, ht, hb⟩ := step_returns hfit.stamped (by omega) hfrom h.described (not_blocked hmtu hfit h howner)
  rw [finishes_iff hmtu hfit h howner hmem hnew] at hb
  refine ⟨h.mem, h.earlier, ?_, ?_, fun m' hm' => arrived_mono (h.arrived m' hm'), ?_, ?_, ?_⟩
  · rw [ht.after]
    exact ht.described
  · intro e he
    rcases List.mem_append.mp he with he | he
    · exact h.known e he
    · rw [List.mem_singleton.mp he]
      exact hd'
  · intro hnot
    have hbefore : ¬ Arrived mtu m pre := fun harrived => hnot (arrived_mono harrived)
    have hfalse : b = false := by
      rw [← Bool.not_eq_true, hb]
      exact fun hturn => hnot hturn.2
    rw [ht.after, ht.log, hfalse, h.log_before hbefore]
    exact List.append_nil _
  · intro harrived
    rw [ht.after, ht.log]
    by_cases hbefore : Arrived mtu m pre
    · have hfalse : b = false := by
        rw [← Bool.not_eq_true, hb]
        exact fun hturn => hturn.1 hbefore
      rw [hfalse, h.log_after hbefore]
      exact List.append_nil _
    · obtain rfl := owner_unique hmtu hfit.stamped hall h.mem hmem (mem_of_turn hbefore harrived)
      rw [hb.mpr ⟨hbefore, harrived⟩, h.log_before hbefore, List.map_append, List.append_assoc,
        UdpMessage.sent_eq (hfit.size owner hall).2.2]
      rfl
  · refine each_snoc.mpr ⟨h.calls, b, ?_, ?_⟩
    · rw [ht.result]
    · rw [hb, brings_iff hmtu hfit h hd']

theorem not_arrived_nil (hmtu : 16 < mtu) (hfit : Fit mtu size all) (hm : m ∈ all) : ¬ Arrived mtu m [] := by
  intro harrived
  have hpos := datagrams_pos hmtu hfit hm
  exact absurd (harrived _ (List.getElem_mem hpos)) List.not_mem_nil

end Step

/-- The messages fed so far have all been published, in order. -/
structure Progress (mtu : Nat) (all ms : List UdpMessage) (s : UdpFrameDefragmentator)
    (ds : List Datagram) : Prop where
  sub : ∀ m ∈ ms, m ∈ all
  described : Described (mtu - 16) all 0 ds (after s ds)
  known : ∀ d ∈ ds, ∃ m ∈ ms, d ∈ m.datagrams mtu
  arrived : ∀ m ∈ ms, Arrived mtu m ds
  log : (after s ds).buffer.log = s.buffer.log ++ ms.map content
  calls : Each (Call mtu all s) ds

section Run

variable {size : Nat} {s : UdpFrameDefragmentator}

theorem underway_start (hmtu : 16 < mtu) (hfit : Fit mtu size all) (h : Progress mtu all ms s ds) (hm : m ∈ all)
    (hearlier : ∀ m' ∈ ms, m'.created < m.created) : Underway mtu all ms m s ds := by
  refine ⟨hm, fun m' hm' => ⟨h.sub m' hm', hearlier m' hm'⟩, h.described, fun d hd =>
    Or.inr (h.known d hd), h.arrived, fun _ => h.log, ?_, h.calls⟩
  intro harrived
  have hpos := datagrams_pos hmtu hfit hm
  have hmem := List.getElem_mem hpos
  obtain ⟨m', hm', hmem'⟩ := h.known _ (harrived _ hmem)
  obtain rfl := owner_unique hmtu hfit.stamped hm (h.sub m' hm') hmem hmem'
  exact absurd (hearlier m hm') (Nat.lt_irrefl _)

theorem underway_burst (hmtu : 16 < mtu) (hfit : Fit mtu size all) (h : Underway mtu all ms m s ds)
    (hburst : Burst mtu ms m l) (hfresh : ∀ d ∈ m.datagrams mtu, d ∉ ds) (k : List Datagram) (hk : k <+: l) :
    Underway mtu all ms m s (ds ++ k) := by
  induction k using List.reverseRecOn with
  | nil =>
    rw [List.append_nil]
    exact h
  | append_singleton k d ih =>
    obtain ⟨rest, hrest⟩ := hk
    have hmem : d ∈ l := by
      rw [← hrest]
      simp
    rw [← List.append_assoc]
    apply underway_snoc hmtu hfit (ih ⟨d :: rest, by rw [← hrest, List.append_assoc]; rfl⟩) (hburst.known d hmem)
    intro hwhole hd hold
    rcases List.mem_append.mp hold with hold | hold
    · exact hfresh d hd hold
    · have hone : (m.datagrams mtu).length = 1 := by
        have := datagrams_pos hmtu hfit h.mem
        rw [multi_iff hmtu] at hwhole
        omega
      have hcount := hburst.once hone d hd
      have htwice : 0 < k.count d := List.count_pos_iff.mpr hold
      rw [← hrest, List.count_append, List.count_append, List.count_singleton_self] at hcount
      omega

theorem progress_snoc (hmtu : 16 < mtu) (hfit : Fit mtu size all) (h : Progress mtu all ms s ds) (hm : m ∈ all)
    (hearlier : ∀ m' ∈ ms, m'.created < m.created) (hburst : Burst mtu ms m l) :
    Progress mtu all (ms ++ [m]) s (ds ++ l) := by
  have hfresh : ∀ d ∈ m.datagrams mtu, d ∉ ds := by
    intro d hd hold
    obtain ⟨m', hm', hmem⟩ := h.known d hold
    obtain rfl := owner_unique hmtu hfit.stamped hm (h.sub m' hm') hd hmem
    exact Nat.lt_irrefl _ (hearlier m hm')
  have hrun := underway_burst hmtu hfit (underway_start hmtu hfit h hm hearlier) hburst hfresh l (List.prefix_refl l)
  have harrived : Arrived mtu m (ds ++ l) := fun d hd => List.mem_append_right _ (hburst.arrived d hd)
  refine ⟨?_, hrun.described, ?_, ?_, hrun.log_after harrived, hrun.calls⟩
  · intro m' hm'
    rcases List.mem_append.mp hm' with hm' | hm'
    · exact h.sub m' hm'
    · rw [List.mem_singleton.mp hm']
      exact hm
  · intro d hd
    rcases hrun.known d hd with hown | ⟨m', hm', hmem⟩
    · exact ⟨m, by simp, hown⟩
    · exact ⟨m', by simp [hm'], hmem⟩
  · intro m' hm'
    rcases List.mem_append.mp hm' with hm' | hm'
    · exact hrun.arrived m' hm'
    · rw [List.mem_singleton.mp hm']
      exact harrived

theorem progress_of_fed (hmtu : 16 < mtu) {buffer : CyclicBuffer} (hb : buffer.memory.Bounded)
    (hfree : buffer.memory.inUse = false) (hfit : Fit mtu buffer.memory.size all) (hfed : Fed mtu ms ds)
    (later : List UdpMessage) (hall : all = ms ++ later) : Progress mtu all ms (.new buffer mtu) ds := by
  induction hfed generalizing later with
  | nil =>
    refine ⟨fun m hm => absurd hm List.not_mem_nil, ?_, fun d hd => absurd hd List.not_mem_nil,
      fun m hm => absurd hm List.not_mem_nil, (List.append_nil _).symm, each_nil _⟩
    apply described_idle (idle_new mtu hb hfree)
    intro m hm
    obtain ⟨-, hle, hlt⟩ := hfit.size m hm
    rw [UdpMessage.sent_eq hlt]
    exact hle
  | @snoc ms ds l m _ hburst ih =>
    have hall' : all = ms ++ m :: later := by
      rw [hall, List.append_assoc]
      rfl
    have hstamped := hfit.stamped
    rw [hall', Stamped, List.pairwise_append] at hstamped
    apply progress_snoc hmtu hfit (ih (m :: later) hall')
    · rw [hall']
      simp
    · intro m' hm'
      exact hstamped.2.2 m' hm' m List.mem_cons_self
    · exact hburst

theorem one_call (hmtu : 16 < mtu) (hfit : Fit mtu size all) (h : Progress mtu all all s ds) (hm : m ∈ all) :
    ∃! pre, ∃ d post, ds = pre ++ d :: post ∧ d ∈ m.datagrams mtu ∧
      ((after s pre).processFragment d).1 = .ok true := by
  obtain ⟨pre, ⟨d, post, he, hbefore, hafter⟩, hunique⟩ := exists_unique_turn (P := fun ds => Arrived mtu m ds)
    (fun _ _ harrived => arrived_mono harrived) (not_arrived_nil hmtu hfit hm) (h.arrived m hm)
  refine ⟨pre, ⟨d, post, he, mem_of_turn hbefore hafter, ?_⟩, ?_⟩
  · obtain ⟨b, hcall, hb⟩ := h.calls pre d post he
    rw [hcall, hb.mpr ⟨m, hm, hbefore, hafter⟩]
  · rintro pre' ⟨d', post', he', hmem, htrue⟩
    apply hunique
    obtain ⟨b, hcall, hb⟩ := h.calls pre' d' post' he'
    rw [hcall, Except.ok.injEq] at htrue
    obtain ⟨m', hm', hbefore', hafter'⟩ := hb.mp htrue
    obtain rfl := owner_unique hmtu hfit.stamped hm hm' hmem (mem_of_turn hbefore' hafter')
    exact ⟨d', post', he', hbefore', hafter'⟩

end Run

/-- Feeding the datagrams of the messages, one message after the other, gives
the messages back: no call throws, the call that brings the last missing
datagram of a message returns true and no other does, and the log grows by the
messages in order. -/
theorem defragments {buffer : CyclicBuffer} (hmtu : 16 < mtu) (hb : buffer.memory.Bounded)
    (hfree : buffer.memory.inUse = false) (hfit : Fit mtu buffer.memory.size ms) (hfed : Fed mtu ms ds) :
    Each (Call mtu ms (.new buffer mtu)) ds ∧
    (∀ m ∈ ms, ∃! pre, ∃ d post, ds = pre ++ d :: post ∧ d ∈ m.datagrams mtu ∧
      ((after (.new buffer mtu) pre).processFragment d).1 = .ok true) ∧
    (after (.new buffer mtu) ds).buffer.log = buffer.log ++ ms.map content := by
  have h := progress_of_fed hmtu hb hfree hfit hfed [] (List.append_nil _).symm
  exact ⟨h.calls, fun m hm => one_call hmtu hfit h hm, h.log⟩

def small : UdpMessage := ⟨2, 7, [9]⟩
def long : UdpMessage := ⟨1, 5, [1, 2, 3]⟩
def arrivals : List Datagram :=
  [long.fragment 2 1, long.fragment 2 1, long.fragment 2 0, long.fragment 2 1, small.fragment 2 0, long.fragment 2 0]
def freshBuffer (size : Nat) : CyclicBuffer := .new 4 size (fun _ => ⟨0, 0, 0⟩) (fun _ => 0)

/-- Two fragments swapped and repeated, then a message of one datagram. -/
theorem defragments_two :
    Each (Call 18 [long, small] (.new (freshBuffer 8) 18)) arrivals ∧
    (∀ m ∈ [long, small], ∃! pre, ∃ d post, arrivals = pre ++ d :: post ∧ d ∈ m.datagrams 18 ∧
      ((after (.new (freshBuffer 8) 18) pre).processFragment d).1 = .ok true) ∧
    (after (.new (freshBuffer 8) 18) arrivals).buffer.log = [⟨5, [1, 2, 3]⟩, ⟨7, [9]⟩] := by
  have hlong : Burst 18 [] long (arrivals.take 4) := ⟨by decide, by decide, by decide⟩
  have hsmall : Burst 18 [long] small (arrivals.drop 4) := ⟨by decide, by decide, by decide⟩
  have hfit : Fit 18 8 [long, small] := ⟨by simp [Stamped, long, small], by decide, by decide, by decide⟩
  exact defragments (by decide) (CyclicMemoryPool.new_bounded (by decide) _) rfl hfit (.snoc (.snoc .nil hlong) hsmall)

/-- A message of 2^32 bytes: its header's size field is zero. -/
def wide : UdpMessage := ⟨1, 0, List.replicate 0x100000000 0⟩

/-- It would need 65536 fragments, but none is sent, and nothing is published. -/
theorem wide_message_is_lost :
    ((freshBuffer 0x100000000).memory.Bounded ∧ (freshBuffer 0x100000000).memory.inUse = false ∧
      0 < wide.created ∧
      0 < wide.bytes.length ∧ wide.bytes.length ≤ (freshBuffer 0x100000000).memory.size ∧
      Chunks.count (65552 - 16) wide.bytes.length ≤ 0x10000) ∧
    wide.datagrams 65552 = [] ∧ Fed 65552 [wide] [] ∧
    (after (.new (freshBuffer 0x100000000) 65552) []).buffer.log ≠
      (freshBuffer 0x100000000).log ++ [wide].map content := by
  have hlength : wide.bytes.length = 0x100000000 := List.length_replicate
  have hnone : wide.datagrams 65552 = [] := by
    rw [UdpMessage.datagrams, hlength]
    rfl
  refine ⟨⟨CyclicMemoryPool.new_bounded (by decide) _, rfl, by decide, ?_, ?_, ?_⟩, hnone, ?_, ?_⟩
  · rw [hlength]
    decide
  · exact Nat.le_of_eq hlength
  · rw [hlength]
    decide
  · have hburst : Burst 65552 [] wide [] := by
      refine ⟨?_, fun d hd => absurd hd List.not_mem_nil, ?_⟩
      · rw [hnone]
        exact fun d hd => hd
      · rw [hnone]
        exact fun hone => absurd hone (by decide)
    exact .snoc .nil hburst
  · exact fun h => absurd h.symm (List.cons_ne_nil _ _)

end UdpReassembly
