import ZeroCopyRpc.FrameSteps
import ZeroCopyRpc.Reassembly

/-!
# Messages of several fragments are published in order

The datagrams are arbitrary. A frame holds the lock for as long as it exists, so
there is at most one, and its stamp is above every stamp published so far.
-/
namespace UdpFrameOrder

open Reassembly UdpFrameDefragmentator

variable {s : UdpFrameDefragmentator} {d : Datagram} {stamps : List Nat}

/-- The stamps of what a call for a fragment publishes. -/
def fragmentStamps (s : UdpFrameDefragmentator) (d : Datagram) : List Nat :=
  if d.header.size = d.data.length then [] else (gained s d).map Prod.fst

def publishedStamps (s : UdpFrameDefragmentator) : List Datagram → List Nat
  | [] => []
  | d :: ds => fragmentStamps s d ++ publishedStamps (s.processFragment d).2 ds

/-- An open frame holds the lock, has committed nothing, and is newer than what was published. -/
def Held (stamps : List Nat) (created : Nat) (frame : Option FrameState) (b : CyclicBuffer) : Prop :=
  ∀ f, frame = some f → b.memory.inUse = true ∧ f.scope.span.committed = 0 ∧ ∀ c ∈ stamps, c < created

structure Inv (stamps : List Nat) (s : UdpFrameDefragmentator) : Prop where
  single : s.currentFrame = none ∨ s.previousFrame = none
  current : Held stamps s.currentFrameCreated s.currentFrame s.buffer
  previous : Held stamps s.previousFrameCreated s.previousFrame s.buffer
  previous_le : s.previousFrame ≠ none → s.previousFrameCreated ≤ s.currentFrameCreated
  below : ∀ c ∈ stamps, c ≤ s.currentFrameCreated
  sorted : stamps.Pairwise (· < ·)

theorem held_none (stamps : List Nat) (created : Nat) (b : CyclicBuffer) : Held stamps created none b := by
  intro f hf
  cases hf

theorem held_some {f : FrameState} {created : Nat} {b : CyclicBuffer} (hlocked : b.memory.inUse = true)
    (hzero : f.scope.span.committed = 0) (hbelow : ∀ c ∈ stamps, c < created) :
    Held stamps created (some f) b := by
  rintro g ⟨⟩
  exact ⟨hlocked, hzero, hbelow⟩

/-- While the lock is free no frame is open. -/
theorem no_frames (h : Inv stamps s) (hfree : s.buffer.memory.inUse = false) :
    s.currentFrame = none ∧ s.previousFrame = none := by
  constructor
  · cases hcurrent : s.currentFrame with
    | none => rfl
    | some f =>
      have := (h.current f hcurrent).1
      rw [hfree] at this
      cases this
  · cases hprevious : s.previousFrame with
    | none => rfl
    | some f =>
      have := (h.previous f hprevious).1
      rw [hfree] at this
      cases this

/-- Without frames the buffer does not matter. -/
theorem inv_buffer (h : Inv stamps s) (hfree : s.buffer.memory.inUse = false) (b : CyclicBuffer) :
    Inv stamps { s with buffer := b } := by
  obtain ⟨hcurrent, hprevious⟩ := no_frames h hfree
  refine ⟨h.single, ?_, ?_, h.previous_le, h.below, h.sorted⟩
  · change Held stamps _ s.currentFrame b
    rw [hcurrent]
    exact held_none _ _ _
  · change Held stamps _ s.previousFrame b
    rw [hprevious]
    exact held_none _ _ _

theorem inv_counter (h : Inv stamps s) (n : Nat) : Inv stamps { s with nextFrameMessages := n } :=
  ⟨h.single, h.current, h.previous, h.previous_le, h.below, h.sorted⟩

/-- The frame that is completed adds its stamp. -/
theorem sorted_gain {created : Nat} {l : List Message} (h : stamps.Pairwise (· < ·))
    (hbelow : ∀ c ∈ stamps, c < created)
    (hl : l.length ≤ 1) : (stamps ++ l.map fun _ => created).Pairwise (· < ·) := by
  rw [List.pairwise_append]
  refine ⟨h, ?_, ?_⟩
  · match l, hl with
    | [], _ => exact List.Pairwise.nil
    | [_], _ => exact List.pairwise_singleton _ _
  · intro c hc e he
    obtain ⟨_, -, rfl⟩ := List.mem_map.mp he
    exact hbelow c hc

theorem below_gain {created bound : Nat} {l : List Message} (h : ∀ c ∈ stamps, c ≤ bound)
    (hle : created ≤ bound) :
    ∀ c ∈ stamps ++ l.map fun _ => created, c ≤ bound := by
  intro c hc
  rcases List.mem_append.mp hc with hold | hnew
  · exact h c hold
  · obtain ⟨_, -, rfl⟩ := List.mem_map.mp hnew
    exact hle

/-- The state after a call, with what its log gained. -/
def Stepped (stamps : List Nat) (s : UdpFrameDefragmentator) (created : Nat) (t : UdpFrameDefragmentator) : Prop :=
  ∃ l : List Message, t.buffer.log = s.buffer.log ++ l ∧ Inv (stamps ++ l.map fun _ => created) t

theorem stepped_quiet {created : Nat} {t : UdpFrameDefragmentator} (hlog : t.buffer.log = s.buffer.log)
    (h : Inv stamps t) : Stepped stamps s created t :=
  ⟨[], by rw [hlog, List.append_nil], by rw [List.map_nil, List.append_nil]; exact h⟩

theorem stepped_current {f : FrameState} {header : UdpReplicationMessageHeader} {data : List UInt8} (h : Inv stamps s)
    (hf : s.currentFrame = some f) (hcreated : header.created = s.currentFrameCreated) :
    Stepped stamps s header.created (processFrameFragment (fun frame s => { s with currentFrame := some frame }) s f
      header data).2 := by
  obtain ⟨hlocked, hzero, hbelow⟩ := h.current f hf
  have hprevious : s.previousFrame = none := h.single.resolve_left (by rw [hf]; exact Option.some_ne_none f)
  obtain ⟨result, t, hcall, hcases⟩ :=
    processFrameFragment_cases (fun frame s => { s with currentFrame := some frame }) s f
    header data
  rw [hcall]
  rcases hcases with ⟨-, rfl | ⟨f', b, rfl, hscope, hlog, hlock⟩⟩ | ⟨-, f', b, rfl, hlog⟩
  · exact stepped_quiet rfl h
  · refine stepped_quiet hlog ⟨Or.inr hprevious, held_some (hlock.trans hlocked) (hscope ▸ hzero) hbelow, ?_,
      h.previous_le, h.below, h.sorted⟩
    change Held stamps _ s.previousFrame b
    rw [hprevious]
    exact held_none _ _ _
  · obtain ⟨l, hl, hgain⟩ := f'.scope.destroy_gain b
    refine ⟨l, hgain.trans (by rw [hlog]), Or.inl rfl, held_none _ _ _, ?_, h.previous_le, ?_, ?_⟩
    · change Held _ _ s.previousFrame _
      rw [hprevious]
      exact held_none _ _ _
    · exact below_gain h.below (Nat.le_of_eq hcreated)
    · exact sorted_gain h.sorted (hcreated ▸ hbelow) hl

theorem stepped_previous {f : FrameState} (h : Inv stamps s) (hf : s.previousFrame = some f)
    (hcreated : d.header.created = s.previousFrameCreated) (hfragment : ¬ d.header.size = d.data.length) :
    Stepped stamps s d.header.created (s.processFragment d).2 := by
  obtain ⟨hlocked, hzero, hbelow⟩ := h.previous f hf
  have hle := h.previous_le (by rw [hf]; exact Option.some_ne_none f)
  have hcurrent : s.currentFrame = none := h.single.resolve_right (by rw [hf]; exact Option.some_ne_none f)
  obtain ⟨result, t, hcall, hcases⟩ :=
    processFrameFragment_cases (fun frame s => { s with previousFrame := some frame }) s f
    d.header d.data
  rw [processFragment, if_neg hfragment, hf]
  simp only
  rw [if_pos hcreated, hcall]
  rcases hcases with ⟨hresult, ht⟩ | ⟨rfl, f', b, rfl, hlog⟩
  · have hstep : Stepped stamps s d.header.created t := by
      rcases ht with rfl | ⟨f', b, rfl, hscope, hlog, hlock⟩
      · exact stepped_quiet rfl h
      · refine stepped_quiet hlog ⟨Or.inl hcurrent, ?_, held_some (hlock.trans hlocked) (hscope ▸ hzero) hbelow,
          fun _ => hle, h.below, h.sorted⟩
        change Held stamps _ s.currentFrame b
        rw [hcurrent]
        exact held_none _ _ _
    cases result with
    | error e => exact hstep
    | ok b =>
      cases b with
      | true => exact absurd rfl hresult
      | false => exact hstep
  · have hreset : resetCurrent { s with buffer := b, previousFrame := some f' } =
        { s with buffer := b, previousFrame := some f' } := by
      rw [resetCurrent]
      simp only [hcurrent]
    simp only [hreset]
    obtain ⟨l, hl, hgain⟩ := f'.scope.destroy_gain b
    refine ⟨l, hgain.trans (by rw [hlog]), Or.inr rfl, ?_, held_none _ _ _, fun hne => absurd rfl hne, ?_, ?_⟩
    · change Held _ _ s.currentFrame _
      rw [hcurrent]
      exact held_none _ _ _
    · exact below_gain h.below (hcreated ▸ hle)
    · exact sorted_gain h.sorted (hcreated ▸ hbelow) hl

/-- A frame in the way keeps the lock, so the new one is refused. -/
theorem stepped_new {header : UdpReplicationMessageHeader} {data : List UInt8} (h : Inv stamps s)
    (hnew : s.currentFrameCreated < header.created) : Stepped stamps s header.created (s.newFrame header data).2 := by
  rw [newFrame]
  cases hcurrent : s.currentFrame with
  | some f =>
    obtain ⟨hlocked, hzero, hbelow⟩ := h.current f hcurrent
    have hprevious : s.previousFrame = none := h.single.resolve_left (by rw [hcurrent]; exact Option.some_ne_none f)
    have hreset : s.resetPrevious = s := by
      rw [resetPrevious]
      simp only [hprevious]
    simp only [hreset]
    obtain ⟨result, t, hcall, rfl | ⟨hfree, -⟩⟩ := initializeNewFrame_cases (s := { s with
        previousFrame := some f
        currentFrame := none
        previousFrameCreated := s.currentFrameCreated
        nextFrameMessages := 1 }) rfl header data
    · rw [hcall]
      cases result <;> exact stepped_quiet rfl ⟨Or.inl rfl, held_none _ _ _, held_some hlocked hzero hbelow,
        fun _ => Nat.le_refl _, h.below, h.sorted⟩
    · have hfree : s.buffer.memory.inUse = false := hfree
      rw [hlocked] at hfree
      cases hfree
  | none =>
    simp only
    obtain ⟨result, t, hcall, rfl | ⟨hfree, b, hlog, rfl | ⟨f, hlocked, hzero, rfl⟩⟩⟩ :=
      initializeNewFrame_cases
      hcurrent header data
    · rw [hcall]
      cases result <;> exact stepped_quiet rfl h
    · rw [hcall]
      cases result <;> exact stepped_quiet hlog (inv_buffer h hfree b)
    · obtain ⟨-, hprevious⟩ := no_frames h hfree
      have hinv : Inv stamps
          { s with buffer := b, currentFrame := some f, currentFrameCreated := header.created } := by
        refine ⟨Or.inr hprevious, held_some hlocked hzero ?_, ?_, fun hne => absurd hprevious hne, ?_, h.sorted⟩
        · intro c hc
          exact Nat.lt_of_le_of_lt (h.below c hc) hnew
        · change Held stamps _ s.previousFrame b
          rw [hprevious]
          exact held_none _ _ _
        · intro c hc
          exact Nat.le_of_lt (Nat.lt_of_le_of_lt (h.below c hc) hnew)
      rw [hcall]
      cases result <;> exact stepped_quiet hlog hinv

theorem stepped_stale (h : Inv stamps s) (header : UdpReplicationMessageHeader) :
    Stepped stamps s header.created (s.countStale header) := by
  by_cases hcurrent : s.currentFrame.isSome ∧ s.previousFrameCreated < header.created
  · have hprevious : s.previousFrame = none := h.single.resolve_left (Option.isSome_iff_ne_none.mp hcurrent.1)
    obtain ⟨n, hn⟩ := countStale_eq hprevious header
    rw [hn]
    exact stepped_quiet rfl (inv_counter h n)
  · rw [countStale, if_neg hcurrent]
    exact stepped_quiet rfl h

theorem stepped_fragment (h : Inv stamps s) (header : UdpReplicationMessageHeader) (data : List UInt8) :
    Stepped stamps s header.created (s.currentFragment header data).2 := by
  rw [currentFragment]
  cases hcurrent : s.currentFrame with
  | some f =>
    simp only
    by_cases hcreated : header.created = s.currentFrameCreated
    · rw [if_pos hcreated]
      exact stepped_current h hcurrent hcreated
    · rw [if_neg hcreated]
      by_cases hnew : s.currentFrameCreated < header.created
      · rw [if_pos hnew]
        exact stepped_new h hnew
      · rw [if_neg hnew]
        exact stepped_stale h header
  | none =>
    simp only
    by_cases hnew : s.currentFrameCreated < header.created
    · rw [if_pos hnew]
      exact stepped_new h hnew
    · rw [if_neg hnew]
      exact stepped_stale h header

theorem inv_of_stepped (hfragment : ¬ d.header.size = d.data.length)
    (h : Stepped stamps s d.header.created (s.processFragment d).2) :
    Inv (stamps ++ fragmentStamps s d) (s.processFragment d).2 := by
  obtain ⟨l, hlog, hinv⟩ := h
  rw [fragmentStamps, if_neg hfragment, gained_eq hlog, List.map_map]
  exact hinv

/-- One call, whatever the datagram. -/
theorem inv_step (h : Inv stamps s) (d : Datagram) : Inv (stamps ++ fragmentStamps s d) (s.processFragment d).2 := by
  by_cases hwhole : d.header.size = d.data.length
  · rw [fragmentStamps, if_pos hwhole, List.append_nil, processFragment, if_pos hwhole]
    obtain ⟨result, t, hcall, rfl | ⟨hfree, b, rfl⟩⟩ := wholeMessage_cases s d.header d.data
    · rw [hcall]
      exact h
    · rw [hcall]
      exact inv_buffer h hfree b
  · apply inv_of_stepped hwhole
    cases hprevious : s.previousFrame with
    | none =>
      rw [processFragment, if_neg hwhole, hprevious]
      exact stepped_fragment h d.header d.data
    | some f =>
      by_cases hcreated : d.header.created = s.previousFrameCreated
      · exact stepped_previous h hprevious hcreated hwhole
      · rw [processFragment, if_neg hwhole, hprevious]
        simp only
        rw [if_neg hcreated]
        exact stepped_fragment h d.header d.data

theorem inv_run (h : Inv stamps s) (ds : List Datagram) : (stamps ++ publishedStamps s ds).Pairwise (· < ·) := by
  induction ds generalizing stamps s with
  | nil =>
    rw [publishedStamps, List.append_nil]
    exact h.sorted
  | cons d ds ih =>
    rw [publishedStamps, ← List.append_assoc]
    exact ih (inv_step h d)

/-- Whatever datagrams arrive, the messages of several fragments are published
in the order of their stamps, none twice. -/
theorem stamps_increase (buffer : CyclicBuffer) (mtu : Nat) (ds : List Datagram) :
    (publishedStamps (.new buffer mtu) ds).Pairwise (· < ·) := by
  have hinv : Inv [] (.new buffer mtu) :=
    ⟨Or.inl rfl, held_none _ _ _, held_none _ _ _, fun hne => absurd rfl hne, fun c hc => absurd hc List.not_mem_nil,
      List.Pairwise.nil⟩
  exact inv_run hinv ds

end UdpFrameOrder
