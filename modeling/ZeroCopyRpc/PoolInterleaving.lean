import ZeroCopyRpc.CyclicMemoryPool
import ZeroCopyRpc.Transitions

/-!
# Many threads on one memory pool

Every read and write of the pool's offset and every operation on its lock is
one step here, and the steps of any number of threads interleave freely.

`GetWriteSpan` reads the offset to compute the free space before its
compare-exchange, and reads it again for the start address after it. Another
thread that commits in between makes the two disagree, and the span then
reaches past the buffer. In the runs where no granted call works with a free
space that is no longer there, spans are exclusive and stay inside the buffer.
-/
namespace PoolInterleaving

open Words Transitions

/-- Where a thread stands inside a call. -/
inductive Pc where
  | idle
  | reading (minSize : Nat)
  | locking (minSize freeSpace : Nat)
  | placing (minSize freeSpace : Nat)
  | ending (minSize freeSpace : Nat)
  | adding (size : Nat)
  | storing (value : Nat)
  deriving DecidableEq, Repr

/-- A span handed out and not yet destroyed. -/
structure LiveSpan (τ : Type) where
  owner : τ
  requested : Nat
  span : Span

structure State (τ : Type) where
  pool : CyclicMemoryPool
  pc : τ → Pc
  live : List (LiveSpan τ)

inductive Event (τ : Type) where
  | getWriteSpan (thread : τ) (minSize : Nat)
  | commit (thread : τ) (index size : Nat)
  | destroy (thread : τ) (index : Nat)
  | advance (thread : τ)

variable {τ : Type} [DecidableEq τ]

def State.goto (s : State τ) (t : τ) (pc : Pc) : State τ := { s with pc := Function.update s.pc t pc }

/-- The next atomic step of a call in progress. -/
def advance (s : State τ) (t : τ) : Option (State τ) :=
  match s.pc t with
  | .idle => none
  | .reading minSize => some (s.goto t (.locking minSize s.pool.remaining))
  | .locking minSize freeSpace =>
    -- the compare-exchange; the call throws when the lock is held
    if s.pool.inUse then some (s.goto t .idle)
    else some ({ s with pool := { s.pool with inUse := true } }.goto t (.placing minSize freeSpace))
  | .placing minSize freeSpace =>
    if freeSpace < minSize then
      some ({ s with pool := { s.pool with offset := 0 } }.goto t (.ending minSize s.pool.size))
    else some (s.goto t (.ending minSize freeSpace))
  | .ending minSize freeSpace =>
    some ({ s with live := ⟨t, minSize, ⟨s.pool.offset, freeSpace, 0⟩⟩ :: s.live }.goto t .idle)
  | .adding size => some (s.goto t (.storing (addWord s.pool.offset size)))
  | .storing value => some ({ s with pool := { s.pool with offset := value } }.goto t .idle)

def step : Machine (State τ) (Event τ)
  | s, .getWriteSpan t minSize =>
    if s.pc t ≠ .idle then none
    else if s.pool.size < minSize then some s
    else some (s.goto t (.reading minSize))
  | s, .commit t index size =>
    if s.pc t ≠ .idle then none
    else match s.live[index]? with
      | none => none
      | some sp =>
        if sp.owner ≠ t then none
        else if subWord sp.span.size sp.span.committed < size then some s
        else
          let span := { sp.span with committed := addWord sp.span.committed size }
          some ({ s with live := s.live.set index { sp with span := span } }.goto t (.adding size))
  | s, .destroy t index =>
    if s.pc t ≠ .idle then none
    else match s.live[index]? with
      | none => none
      | some sp =>
        if sp.owner ≠ t then none
        else some { s with live := s.live.eraseIdx index, pool := s.pool.release }
  | s, .advance t => advance s t

def start (size : Nat) (bytes : Nat → UInt8) : State τ := ⟨.new size bytes, fun _ => .idle, []⟩

/-- A compare-exchange that succeeds is fresh when the free space computed before
it is too short, so that the call starts over at zero, or still there. -/
def Fresh (s : State τ) : Event τ → Prop
  | .advance t => match s.pc t with
    | .locking minSize freeSpace => s.pool.inUse = true ∨ freeSpace < minSize ∨
        s.pool.offset + freeSpace ≤ s.pool.size
    | _ => True
  | _ => True

/-- The steps a call takes up to the point where it throws. -/
def Unsuccessful (s : State τ) : Event τ → Prop
  | .getWriteSpan _ _ => True
  | .commit _ index size => match s.live[index]? with
    | some sp => subWord sp.span.size sp.span.committed < size
    | none => True
  | .destroy _ _ => False
  | .advance t => match s.pc t with
    | .reading _ => True
    | .locking _ _ => s.pool.inUse = true
    | _ => False

/-- A thread outside the part of a call that owns the lock. -/
def Quiet (size : Nat) : Pc → Prop
  | .idle => True
  | .reading minSize => minSize ≤ size
  | .locking minSize _ => minSize ≤ size
  | _ => False

/-- A thread between its compare-exchange and its new span. -/
def Granting (p : CyclicMemoryPool) : Pc → Prop
  | .placing minSize freeSpace => minSize ≤ p.size ∧ (freeSpace < minSize ∨ p.offset + freeSpace ≤ p.size)
  | .ending minSize freeSpace => minSize ≤ freeSpace ∧ p.offset + freeSpace ≤ p.size
  | _ => False

/-- The owner of the live span: outside of Commit the offset is the span's end. -/
def Using (p : CyclicMemoryPool) (s : Span) : Pc → Prop
  | .adding size => p.offset + size = s.start + s.committed
  | .storing value => value = s.start + s.committed
  | pc => Quiet p.size pc ∧ p.offset = s.start + s.committed

structure Fits (p : CyclicMemoryPool) (sp : LiveSpan τ) : Prop where
  bound : sp.span.start + sp.span.size ≤ p.size
  long : sp.requested ≤ sp.span.size
  committed_le : sp.span.committed ≤ sp.span.size

/-- The lock is free, or held for one call that is being granted, or for one live span. -/
inductive Held (s : State τ) : Prop where
  | free (lock : s.pool.inUse = false) (live : s.live = []) (quiet : ∀ u, Quiet s.pool.size (s.pc u))
  | granting (t : τ) (lock : s.pool.inUse = true) (live : s.live = []) (pc : Granting s.pool (s.pc t))
      (quiet : ∀ u, u ≠ t → Quiet s.pool.size (s.pc u))
  | used (sp : LiveSpan τ) (lock : s.pool.inUse = true) (live : s.live = [sp])
      (pc : Using s.pool sp.span (s.pc sp.owner)) (fits : Fits s.pool sp)
      (quiet : ∀ u, u ≠ sp.owner → Quiet s.pool.size (s.pc u))

structure Inv (size : Nat) (s : State τ) : Prop where
  size_eq : s.pool.size = size
  bounded : s.pool.Bounded
  held : Held s

variable {size : Nat} {s s' : State τ} {t : τ}

@[simp] theorem goto_pool (s : State τ) (t : τ) (pc : Pc) : (s.goto t pc).pool = s.pool := rfl
@[simp] theorem goto_live (s : State τ) (t : τ) (pc : Pc) : (s.goto t pc).live = s.live := rfl
@[simp] theorem goto_pc_same (s : State τ) (t : τ) (pc : Pc) : (s.goto t pc).pc t = pc := by
  simp [State.goto]
@[simp] theorem goto_pc_other (s : State τ) (t u : τ) (pc : Pc) (h : u ≠ t) :
    (s.goto t pc).pc u = s.pc u := by
  simp [State.goto, h]

theorem quiet_goto {pc : Pc} (h : ∀ u, u ≠ t → Quiet size (s.pc u)) (hq : Quiet size pc) :
    ∀ u, Quiet size ((s.goto t pc).pc u) := by
  intro u
  by_cases hu : u = t
  · subst hu
    simpa using hq
  · simpa [hu] using h u hu

theorem quiet_goto_other {pc : Pc} (h : ∀ u, u ≠ t → Quiet size (s.pc u)) :
    ∀ u, u ≠ t → Quiet size ((s.goto t pc).pc u) := by
  intro u hu
  simpa [hu] using h u hu

theorem using_quiet {p : CyclicMemoryPool} {sp : Span} {pc : Pc} (h : Using p sp pc)
    (hq : Quiet p.size pc) : p.offset = sp.start + sp.committed := by
  cases pc with
  | adding n => exact hq.elim
  | storing v => exact hq.elim
  | _ => exact h.2

theorem using_of_quiet {p : CyclicMemoryPool} {sp : Span} {pc : Pc} (hq : Quiet p.size pc)
    (h : p.offset = sp.start + sp.committed) : Using p sp pc := by
  cases pc with
  | adding n => exact hq.elim
  | storing v => exact hq.elim
  | _ => exact ⟨hq, h⟩

/-- A thread that moves between quiet places disturbs nobody. -/
theorem held_quiet_move {pc : Pc} (h : Held s) (hp : Quiet s.pool.size (s.pc t))
    (hq : Quiet s.pool.size pc) : Held (s.goto t pc) := by
  cases h with
  | free lock live quiet => exact .free lock live (quiet_goto (fun u _ => quiet u) hq)
  | granting u lock live hg quiet =>
    have hne : u ≠ t := by
      intro he
      subst he
      cases hpc : s.pc u <;> simp [hpc, Granting, Quiet] at hg hp
    refine .granting u lock live (by simpa [hne] using hg) ?_
    intro v hv
    by_cases hvt : v = t
    · subst hvt
      simpa using hq
    · simpa [hvt] using quiet v hv
  | used sp lock live hu fits quiet =>
    refine .used sp lock live ?_ fits ?_
    · by_cases ho : sp.owner = t
      · subst ho
        rw [goto_pc_same]
        exact using_of_quiet hq (using_quiet hu hp)
      · simpa [ho] using hu
    · intro v hv
      by_cases hvt : v = t
      · subst hvt
        simpa using hq
      · simpa [hvt] using quiet v hv

/-- A thread waiting for the lock is quiet. -/
theorem quiet_of_waiting (h : Held s) (hpc : ∀ p sp, Using p sp (s.pc t) → Quiet p.size (s.pc t))
    (hg : ¬ Granting s.pool (s.pc t)) : Quiet s.pool.size (s.pc t) := by
  cases h with
  | free _ _ quiet => exact quiet t
  | granting u _ _ hu quiet =>
    apply quiet
    rintro rfl
    exact hg hu
  | used sp _ _ hu _ quiet =>
    by_cases ho : t = sp.owner
    · rw [← ho] at hu
      exact hpc _ _ hu
    · exact quiet t ho

/-- A thread between its compare-exchange and its new span is the one that holds the lock. -/
theorem granting_of_held (h : Held s) (hq : ¬ Quiet s.pool.size (s.pc t))
    (hu : ∀ p sp, ¬ Using p sp (s.pc t)) : s.pool.inUse = true ∧ s.live = [] ∧
    Granting s.pool (s.pc t) ∧ ∀ u, u ≠ t → Quiet s.pool.size (s.pc u) := by
  cases h with
  | free _ _ quiet => exact absurd (quiet t) hq
  | used sp _ _ hsp _ quiet =>
    by_cases ho : t = sp.owner
    · rw [← ho] at hsp
      exact absurd hsp (hu _ _)
    · exact absurd (quiet t ho) hq
  | granting u lock live hg quiet =>
    by_cases ho : t = u
    · subst ho
      exact ⟨lock, live, hg, quiet⟩
    · exact absurd (quiet t ho) hq

/-- A thread inside Commit is the owner of the one live span. -/
theorem used_of_held (h : Held s) (hq : ¬ Quiet s.pool.size (s.pc t))
    (hg : ¬ Granting s.pool (s.pc t)) : ∃ sp, t = sp.owner ∧ s.pool.inUse = true ∧ s.live = [sp] ∧
    Using s.pool sp.span (s.pc t) ∧ Fits s.pool sp ∧ ∀ u, u ≠ t → Quiet s.pool.size (s.pc u) := by
  cases h with
  | free _ _ quiet => exact absurd (quiet t) hq
  | granting u _ _ hu quiet =>
    by_cases ho : t = u
    · subst ho
      exact absurd hu hg
    · exact absurd (quiet t ho) hq
  | used sp lock live hu fits quiet =>
    by_cases ho : t = sp.owner
    · subst ho
      exact ⟨sp, rfl, lock, live, hu, fits, quiet⟩
    · exact absurd (quiet t ho) hq

omit [DecidableEq τ] in
theorem inv_start (hs : size < 0x10000000000000000) (bytes : Nat → UInt8) :
    Inv size (start size bytes : State τ) :=
  ⟨rfl, CyclicMemoryPool.new_bounded hs bytes, .free rfl rfl (fun _ => trivial)⟩

theorem inv_advance (h : Inv size s) (hf : Fresh s (.advance t)) (hs : advance s t = some s') :
    Inv size s' := by
  have hsize := h.size_eq
  have hoffset := h.bounded.offset_le
  have hword := h.bounded.size_lt
  cases hpc : s.pc t with
  | idle => simp [advance, hpc] at hs
  | reading minSize =>
    have hq := quiet_of_waiting (t := t) h.held (by rw [hpc]; exact fun _ _ hu => hu.1) (by simp [hpc, Granting])
    simp only [advance, hpc, Option.some.injEq] at hs
    subst hs
    refine ⟨hsize, h.bounded, held_quiet_move h.held hq ?_⟩
    rw [hpc] at hq
    exact hq
  | locking minSize freeSpace =>
    have hq := quiet_of_waiting (t := t) h.held (by rw [hpc]; exact fun _ _ hu => hu.1) (by simp [hpc, Granting])
    by_cases hl : s.pool.inUse = true
    · simp only [advance, hpc, hl, ↓reduceIte, Option.some.injEq] at hs
      subst hs
      exact ⟨hsize, h.bounded, held_quiet_move h.held hq trivial⟩
    · simp only [advance, hpc, hl, Bool.false_eq_true, ↓reduceIte, Option.some.injEq] at hs
      subst hs
      cases h.held with
      | free _ live quiet =>
        refine ⟨hsize, ⟨hoffset, hword⟩, .granting t rfl live ?_ (quiet_goto_other (fun u _ => quiet u))⟩
        simp only [Fresh, hpc, hl, false_or, Bool.false_eq_true] at hf
        simp only [hpc, Quiet] at hq
        rw [goto_pc_same]
        exact ⟨hq, hf⟩
      | granting _ lock _ _ _ => exact absurd lock hl
      | used _ lock _ _ _ _ => exact absurd lock hl
  | placing minSize freeSpace =>
    obtain ⟨lock, live, hg, quiet⟩ := granting_of_held (t := t) h.held (by simp [hpc, Quiet])
      (by simp [hpc, Using, Quiet])
    rw [hpc] at hg
    obtain ⟨hm, hg⟩ := hg
    by_cases hshort : freeSpace < minSize
    · simp only [advance, hpc, hshort, ↓reduceIte, Option.some.injEq] at hs
      subst hs
      refine ⟨hsize, ⟨Nat.zero_le _, hword⟩, .granting t lock live ?_ (quiet_goto_other quiet)⟩
      rw [goto_pc_same]
      exact ⟨hm, by simp⟩
    · simp only [advance, hpc, hshort, ↓reduceIte, Option.some.injEq] at hs
      subst hs
      refine ⟨hsize, h.bounded, .granting t lock live ?_ (quiet_goto_other quiet)⟩
      rw [goto_pc_same]
      exact ⟨by omega, by simp only [goto_pool]; omega⟩
  | ending minSize freeSpace =>
    obtain ⟨lock, live, hg, quiet⟩ := granting_of_held (t := t) h.held (by simp [hpc, Quiet])
      (by simp [hpc, Using, Quiet])
    rw [hpc] at hg
    simp only [advance, hpc, Option.some.injEq] at hs
    subst hs
    refine ⟨hsize, h.bounded, .used ⟨t, minSize, ⟨s.pool.offset, freeSpace, 0⟩⟩ lock (by simp [live]) ?_
      ⟨hg.2, hg.1, Nat.zero_le _⟩ (quiet_goto_other quiet)⟩
    rw [goto_pc_same]
    exact ⟨trivial, rfl⟩
  | adding n =>
    obtain ⟨sp, rfl, lock, live, hu, fits, quiet⟩ := used_of_held (t := t) h.held (by simp [hpc, Quiet])
      (by simp [hpc, Granting])
    have hb := fits.bound
    have hc := fits.committed_le
    rw [hpc] at hu
    simp only [Using] at hu
    simp only [advance, hpc, Option.some.injEq] at hs
    subst hs
    refine ⟨hsize, h.bounded, .used sp lock live ?_ fits (quiet_goto_other quiet)⟩
    rw [goto_pc_same]
    exact (addWord_exact (by omega)).trans hu
  | storing value =>
    obtain ⟨sp, rfl, lock, live, hu, fits, quiet⟩ := used_of_held (t := t) h.held (by simp [hpc, Quiet])
      (by simp [hpc, Granting])
    have hb := fits.bound
    have hc := fits.committed_le
    rw [hpc] at hu
    simp only [Using] at hu
    simp only [advance, hpc, Option.some.injEq] at hs
    subst hs
    refine ⟨hsize, ⟨by simp only [goto_pool]; omega, hword⟩,
      .used sp lock live ?_ ⟨fits.bound, fits.long, fits.committed_le⟩ (quiet_goto_other quiet)⟩
    rw [goto_pc_same]
    exact ⟨trivial, hu⟩

omit [DecidableEq τ] in
/-- An idle thread that finds a live span of its own is the owner of the one live span. -/
theorem owned_of_held (h : Held s) (hpc : s.pc t = .idle) {index : Nat} {sp : LiveSpan τ}
    (hsp : s.live[index]? = some sp) (ho : sp.owner = t) : index = 0 ∧ s.live = [sp] ∧
    s.pool.inUse = true ∧ s.pool.offset = sp.span.start + sp.span.committed ∧ Fits s.pool sp ∧
    ∀ u, u ≠ t → Quiet s.pool.size (s.pc u) := by
  cases h with
  | free _ live _ => simp [live] at hsp
  | granting _ _ live _ _ => simp [live] at hsp
  | used sp' lock live hu fits quiet =>
    rw [live] at hsp
    have hi : index = 0 := by
      by_contra hne
      rw [List.getElem?_eq_none (by simp; omega)] at hsp
      cases hsp
    subst hi
    simp only [List.getElem?_cons_zero, Option.some.injEq] at hsp
    subst hsp ho
    rw [hpc] at hu
    exact ⟨rfl, live, lock, hu.2, fits, quiet⟩

/-- Every step of a fresh run keeps the invariant. -/
theorem inv_step {e : Event τ} (h : Inv size s) (hf : Fresh s e) (hs : step s e = some s') : Inv size s' := by
  cases e with
  | advance t => exact inv_advance h hf hs
  | getWriteSpan t minSize =>
    simp only [step, ne_eq, ite_not] at hs
    split at hs
    · rename_i hpc
      split at hs
      · cases hs
        exact h
      · rename_i hfit
        cases hs
        refine ⟨h.size_eq, h.bounded, held_quiet_move h.held (by rw [hpc]; trivial) ?_⟩
        simp only [Quiet]
        omega
    · cases hs
  | commit t index n =>
    simp only [step, ne_eq, ite_not] at hs
    split at hs
    · rename_i hpc
      split at hs
      · cases hs
      · rename_i sp hsp
        split at hs
        · rename_i ho
          obtain ⟨rfl, live, lock, hoff, fits, quiet⟩ := owned_of_held h.held hpc hsp ho
          have hb := fits.bound
          have hc := fits.committed_le
          have hword := h.bounded.size_lt
          rw [subWord_exact hc (by omega)] at hs
          split at hs
          · cases hs
            exact h
          · rw [addWord_exact (by omega)] at hs
            cases hs
            refine ⟨h.size_eq, h.bounded,
              .used { sp with span := { sp.span with committed := sp.span.committed + n } } lock
                (by simp [live]) ?_ ⟨hb, fits.long, by simp only; omega⟩ ?_⟩
            · simp only [ho, goto_pc_same, Using, goto_pool]
              omega
            · rw [ho]
              exact quiet_goto_other quiet
        · cases hs
    · cases hs
  | destroy t index =>
    simp only [step, ne_eq, ite_not] at hs
    split at hs
    · rename_i hpc
      split at hs
      · cases hs
      · rename_i sp hsp
        split at hs
        · rename_i ho
          obtain ⟨rfl, live, _, _, _, quiet⟩ := owned_of_held h.held hpc hsp ho
          cases hs
          refine ⟨h.size_eq, ⟨h.bounded.offset_le, h.bounded.size_lt⟩, .free rfl (by simp [live]) ?_⟩
          intro u
          by_cases hu : u = t
          · subst hu
            simp only [hpc]
            trivial
          · exact quiet u hu
        · cases hs
    · cases hs

omit [DecidableEq τ] in
/-- The invariant gives exclusive spans inside the buffer and an offset inside it. -/
theorem exclusive_of_inv (h : Inv size s) :
    s.live.length ≤ 1 ∧
    (∀ sp ∈ s.live, sp.span.start + sp.span.size ≤ size ∧ sp.requested ≤ sp.span.size) ∧
    s.pool.offset ≤ size := by
  have hsize := h.size_eq
  have hoffset := h.bounded.offset_le
  refine ⟨?_, ?_, by omega⟩
  · cases h.held <;> simp [*]
  · intro sp hsp
    cases h.held with
    | free _ live _ => simp [live] at hsp
    | granting _ _ live _ _ => simp [live] at hsp
    | used sp' _ live _ fits _ =>
      rw [live, List.mem_singleton] at hsp
      subst hsp
      have hb := fits.bound
      exact ⟨by omega, fits.long⟩

/-- Up to the point where a call throws it changes neither the pool nor a span. -/
theorem unsuccessful_step {e : Event τ} (hu : Unsuccessful s e) (hs : step s e = some s') :
    s'.pool = s.pool ∧ s'.live = s.live := by
  cases e with
  | getWriteSpan t minSize =>
    simp only [step] at hs
    split at hs
    · cases hs
    · split at hs <;> cases hs <;> exact ⟨rfl, rfl⟩
  | commit t index n =>
    simp only [step] at hs
    split at hs
    · cases hs
    · split at hs
      · cases hs
      · rename_i sp hsp
        simp only [Unsuccessful, hsp] at hu
        split at hs
        · cases hs
        · cases hs
          exact ⟨rfl, rfl⟩
  | destroy t index => exact hu.elim
  | advance t =>
    simp only [step] at hs
    cases hpc : s.pc t <;> simp only [Unsuccessful, hpc] at hu
    · simp only [advance, hpc, Option.some.injEq] at hs
      subst hs
      exact ⟨rfl, rfl⟩
    · simp only [advance, hpc, hu, ↓reduceIte, Option.some.injEq] at hs
      subst hs
      exact ⟨rfl, rfl⟩

/-- In a run in which every compare-exchange that succeeds is fresh, at most
one span is live in every state reached, it lies inside the buffer and is no
shorter than requested, the offset never passes the end, and a call that
throws has changed nothing. -/
theorem exclusive_spans {size : Nat} (hsize : size < 0x10000000000000000) (bytes : Nat → UInt8)
    (events : List (Event τ)) (hfresh : Guarded step Fresh (start size bytes) events) (s : State τ)
    (hs : Visits step (start size bytes) events s) :
    s.live.length ≤ 1 ∧
    (∀ sp ∈ s.live, sp.span.start + sp.span.size ≤ size ∧ sp.requested ≤ sp.span.size) ∧
    s.pool.size = size ∧ s.pool.offset ≤ size ∧
    (∀ e t, Unsuccessful s e → step s e = some t → t.pool = s.pool ∧ t.live = s.live) := by
  have h : Inv size s := guarded_visits (fun _ _ _ hi hg he => inv_step hi hg he)
    (inv_start hsize bytes) hfresh hs
  obtain ⟨h₁, h₂, h₃⟩ := exclusive_of_inv h
  exact ⟨h₁, h₂, h.size_eq, h₃, fun _ _ hu he => unsuccessful_step hu he⟩

instance (s : State τ) : ∀ e : Event τ, Decidable (Fresh s e)
  | .advance t => match hpc : s.pc t with
    | .locking minSize freeSpace => decidable_of_iff (s.pool.inUse = true ∨ freeSpace < minSize ∨
        s.pool.offset + freeSpace ≤ s.pool.size) (by simp [Fresh, hpc])
    | .idle | .reading _ | .placing _ _ | .ending _ _ | .adding _ | .storing _ => isTrue (by simp [Fresh, hpc])
  | .getWriteSpan _ _ | .commit _ _ _ | .destroy _ _ => isTrue trivial

/-- Both threads ask for a span. The second locks the pool, the first throws and
asks again while the second commits 5 of the 8 bytes; the 3 that are left are
too short for it, and it starts over at zero. -/
def overlapping : List (Event Bool) :=
  [.getWriteSpan true 4, .getWriteSpan false 4, .advance true, .advance false, .advance false, .advance true,
    .getWriteSpan true 6, .advance false, .advance false, .commit false 0 5, .advance false, .advance false,
    .advance true, .destroy false 0, .advance true, .advance true, .advance true]

theorem exclusive_spans_overlapping : ∃ s, run step (start 8 (fun _ => 0)) overlapping = some s ∧
    s.live.map (fun sp => (sp.owner, sp.span.start, sp.span.size)) = [(true, 0, 8)] ∧
    (∀ sp ∈ s.live, sp.span.start + sp.span.size ≤ 8 ∧ sp.requested ≤ sp.span.size) ∧
    s.pool.offset ≤ 8 := by
  have hrun : (run step (start 8 (fun _ => 0)) overlapping).map
      (fun s => s.live.map (fun sp => (sp.owner, sp.span.start, sp.span.size))) = some [(true, 0, 8)] := by
    decide +kernel
  obtain ⟨s, hs, hlive⟩ := Option.map_eq_some_iff.mp hrun
  obtain ⟨_, hinside, _, hoffset, _⟩ := exclusive_spans (by decide) (fun _ => 0) overlapping
    (guarded_of_check (by decide +kernel)) s (visits_end hs)
  exact ⟨s, hs, hlive, hinside, hoffset⟩

/-- A compare-exchange that is not fresh ends in a span that reaches past the
buffer: its free space was computed before another thread moved the offset. -/
theorem stale_span (h : Inv size s) {minSize freeSpace : Nat} (hpc : s.pc t = .locking minSize freeSpace)
    (hf : ¬ Fresh s (.advance t)) : ∃ s', run step s [.advance t, .advance t, .advance t] = some s' ∧
    ∃ sp ∈ s'.live, size < sp.span.start + sp.span.size := by
  simp only [Fresh, hpc, not_or, Bool.not_eq_true, Nat.not_lt, Nat.not_le] at hf
  obtain ⟨hl, hlong, hstale⟩ := hf
  have hshort : ¬ freeSpace < minSize := by omega
  let pool : CyclicMemoryPool := { s.pool with inUse := true }
  let sp : LiveSpan τ := ⟨t, minSize, ⟨s.pool.offset, freeSpace, 0⟩⟩
  refine ⟨(⟨pool, (((s.goto t (.placing minSize freeSpace)).goto t (.ending minSize freeSpace)).goto t .idle).pc,
    sp :: s.live⟩ : State τ), ?_, sp, List.mem_cons_self, ?_⟩
  · simp [run, step, advance, hpc, hl, hshort, State.goto, pool, sp]
  · have hsize := h.size_eq
    simp only [sp]
    omega

/-- Two threads: one reads the offset, the other writes 50 of the 100 bytes, and
the first then takes a span of 100 bytes at 50. -/
theorem stale_span_of_two_threads :
    (run step (start 100 (fun _ => 0) : State Bool) [.getWriteSpan true 10, .advance true,
      .getWriteSpan false 50, .advance false, .advance false, .advance false, .advance false,
      .commit false 0 50, .advance false, .advance false, .destroy false 0,
      .advance true, .advance true, .advance true]).map
      (fun s => (s.pool.size, s.live.map (fun sp => (sp.span.start, sp.span.size)))) =
    some (100, [(50, 100)]) := by
  decide +kernel

end PoolInterleaving
