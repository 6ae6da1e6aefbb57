import ZeroCopyRpc.SubscriptionTurns

/-!
# Delivery

Every step keeps the accounts balanced, so in every run short of the wrap of
the 64-bit index a reader that holds a token finds an entry, reads without a
gap, and starts no later than with the first entry after its push.
-/
namespace SubscriptionDelivery

open SubscriptionAccounts SubscriptionMachine SubscriptionTurns Transitions Words

variable {s s' : State} {used free ids rest : List Nat}

theorem inv_step {e : Event} (h : Inv s) (hbound : s.topic.buffer.nextIndex + e.entries < 0xffffffffffffffff)
    (hs : step s e = some s') :
    Inv s' ∧ s'.topic.buffer.nextIndex = s.topic.buffer.nextIndex + e.entries := by
  obtain ⟨used, free, ids, rest, hl, ha⟩ := h
  obtain ⟨hturn, hnext⟩ := turn_step hl ha hbound hs
  exact ⟨hturn.inv, hnext⟩

/-- In every state of every run of fewer than 2^64 - 1 publications, a reader
has read consecutive indexes from its start on; whenever it holds a token its
next TryRead succeeds and yields the next index; and once it has taken a token
its start is not later than the first entry published after its push. -/
theorem delivery (capacity size : Nat) (items : Nat → Entry) (bytes : Nat → UInt8) (events : List Event)
    (hcount : publications events < 0xffffffffffffffff) (s : State)
    (hs : Visits step (start (.new capacity size items bytes)) events s) (i : Nat) (r : Reader)
    (hr : s.readers i = some r) :
    ∃ p, s.pushed i = some p ∧
      let first := (s.topic.subscribers i).nextIndex
      r.reads = List.range' first r.reads.length ∧
      (r.reads ≠ [] ∨ r.holding = true → first ≤ p.entries ∧
        first + r.reads.length ≤ s.topic.buffer.nextIndex) ∧
      (r.holding = true → ∀ c, r.cursor = some c ∨ r.cursor = none ∧ c = CyclicBuffer.openCursorAt first →
        c.tryRead s.topic.buffer = (true, ⟨first + r.reads.length⟩)) := by
  have hzero : (start (.new capacity size items bytes)).topic.buffer.nextIndex = 0 := rfl
  obtain ⟨⟨used, free, ids, rest, hl, ha⟩, hbound⟩ := visits_budget (G := fun _ _ => True)
    (fun s => s.topic.buffer.nextIndex) Event.entries (inv_start _) (fun _ _ _ _ _ _ => trivial) hs
    (by rwa [hzero, Nat.zero_add]) fun _ _ _ h _ hbound hs => inv_step h hbound hs
  obtain ⟨p, hp, hreads, hcovered, hread⟩ :=
    next_read hl (follows_of_accounts ha) (covered_of_accounts ha) hbound hr
  refine ⟨p, hp, hreads, fun htoken => ?_, hread⟩
  obtain ⟨hpos, hlength⟩ := taken_of_token htoken
  obtain ⟨hle, hentered⟩ := hcovered hpos
  exact ⟨hentered, by omega⟩

/-- A scope that committed one byte at the start of the pool. -/
def oneByte : WriterScope := ⟨⟨0, 1, 1⟩, 0⟩

/-- A subscriber of process 7 on slot 0 and one entry, with its whole pass. -/
def oneDelivery : List Event :=
  [.reset 7, .push 0, .openSemaphore 0, .publish oneByte] ++ List.replicate 7 (.notify false)

/-- The first read of the first entry. -/
theorem delivery_one_entry : ∃ s p r, run step (start (.new 4 64 (fun _ => ⟨0, 0, 0⟩) (fun _ => 0)))
    (oneDelivery ++ [.acquire 0, .load 0]) = some s ∧ s.readers 0 = some r ∧ s.pushed 0 = some p ∧
    r.reads = List.range' (s.topic.subscribers 0).nextIndex 0 ∧ (s.topic.subscribers 0).nextIndex ≤ p.entries ∧
    (⟨0xffffffffffffffff⟩ : Cursor).tryRead s.topic.buffer =
      (true, ⟨(s.topic.subscribers 0).nextIndex + 0⟩) := by
  have hrun : (run step (start (.new 4 64 (fun _ => ⟨0, 0, 0⟩) (fun _ => 0)))
      (oneDelivery ++ [.acquire 0, .load 0])).map (fun s => s.readers 0) =
      some (some ⟨0, some ⟨0xffffffffffffffff⟩, true, []⟩) := by
    decide +kernel
  obtain ⟨s, hs, hr⟩ := Option.map_eq_some_iff.mp hrun
  obtain ⟨p, hp, hreads, hstart, hread⟩ := delivery 4 64 _ _ _ (by decide) s (visits_end hs) 0 _ hr
  exact ⟨s, p, _, hs, hr, hp, hreads, (hstart (Or.inr rfl)).1, hread rfl _ (Or.inl rfl)⟩

/-- One entry published while nobody is in the bag. -/
def emptyPass : List Event := .publish oneByte :: List.replicate 3 (.notify false)

/-- What a run of empty passes leaves alone. -/
structure Lonely (s s' : State) (entries : Nat) : Prop where
  publisher : s'.publisher = .idle
  bag : s'.topic.subscriptions.itemsHead = none
  readers : s'.readers = s.readers
  count : s'.topic.semaphores.count = s.topic.semaphores.count
  subscribers : s'.topic.subscribers = s.topic.subscribers
  nextIndex : s'.topic.buffer.nextIndex = s.topic.buffer.nextIndex + entries

theorem run_emptyPass (hp : s.publisher = .idle) (hbag : s.topic.subscriptions.itemsHead = none)
    (hbound : s.topic.buffer.nextIndex + 1 < 0x10000000000000000) :
    ∃ s', run step s emptyPass = some s' ∧ Lonely s s' 1 := by
  refine ⟨{ s with topic := { s.topic with buffer := oneByte.destroy s.topic.buffer }, publisher := .idle }, ?_,
    ?_⟩
  · simp only [emptyPass, List.replicate, run, step, hp, ↓reduceIte]
    rw [if_pos (by decide)]
    simp [notify, hbag]
  · refine ⟨rfl, hbag, rfl, rfl, rfl, ?_⟩
    simp only [WriterScope.destroy_nextIndex]
    rw [if_pos (by decide), addWord_exact hbound]

theorem run_emptyPasses (entries : Nat) (hp : s.publisher = .idle)
    (hbag : s.topic.subscriptions.itemsHead = none)
    (hbound : s.topic.buffer.nextIndex + entries < 0x10000000000000000) :
    ∃ s', run step s (List.replicate entries emptyPass).flatten = some s' ∧ Lonely s s' entries := by
  induction entries generalizing s with
  | zero => exact ⟨s, rfl, hp, hbag, rfl, rfl, rfl, rfl⟩
  | succ entries ih =>
    obtain ⟨t, ht, h₁⟩ := run_emptyPass hp hbag (by omega)
    have hnext := h₁.nextIndex
    obtain ⟨s', hs', h₂⟩ := ih h₁.publisher h₁.bag (by omega)
    refine ⟨s', ?_, h₂.publisher, h₂.bag, h₂.readers.trans h₁.readers, h₂.count.trans h₁.count,
      h₂.subscribers.trans h₁.subscribers, ?_⟩
    · rw [List.replicate_succ, List.flatten_cons]
      exact run_join ht hs'
    · rw [h₂.nextIndex, hnext]
      omega

/-- A subscriber leaves with one token unread; when the log is 2^64 - 1 entries
long it takes the token, and TryRead tells it that there is nothing to read. -/
theorem token_after_wrap : ∃ events s r c,
    run step (start (.new 4 64 (fun _ => ⟨0, 0, 0⟩) (fun _ => 0))) events = some s ∧
    s.readers 0 = some r ∧ r.holding = true ∧ r.cursor = some c ∧ (c.tryRead s.topic.buffer).1 = false := by
  let leave : List Event :=
    oneDelivery ++ ([.unsubscribe 7 0 false, .publish oneByte] ++ List.replicate 5 (.notify false))
  have hrun : (run step (start (.new 4 64 (fun _ => ⟨0, 0, 0⟩) (fun _ => 0))) leave).map
      (fun s => (s.publisher, s.topic.subscriptions.itemsHead, s.readers 0, s.topic.semaphores.count 0,
        (s.topic.subscribers 0).nextIndex, s.topic.buffer.nextIndex)) =
      some (.idle, none, some ⟨0, none, false, []⟩, 1, 0, 2) := by
    decide +kernel
  obtain ⟨s, hs, hfields⟩ := Option.map_eq_some_iff.mp hrun
  simp only [Prod.mk.injEq] at hfields
  obtain ⟨hp, hbag, hreader, hcount, hstart, hnext⟩ := hfields
  obtain ⟨t, ht, hl⟩ := run_emptyPasses 0xfffffffffffffffd hp hbag (by rw [hnext]; decide)
  have hr : t.readers 0 = some ⟨0, none, false, []⟩ := by rw [hl.readers, hreader]
  have hc : t.topic.semaphores.count 0 = 1 := by rw [hl.count, hcount]
  let u : State := (State.setReader { t with topic := { t.topic with
    semaphores := { t.topic.semaphores with count := Function.update t.topic.semaphores.count 0 0 } } } 0
      ⟨0, none, true, []⟩)
  have hacquire : step t (.acquire 0) = some u := by
    simp [step, hr, Semaphores.tryAcquire, hc, u]
  let r : Reader := ⟨0, some ⟨0xffffffffffffffff⟩, true, []⟩
  have hload : step u (.load 0) = some (u.setReader 0 r) := by
    have hu : u.readers 0 = some ⟨0, none, true, []⟩ := by simp [u, State.setReader]
    have hopen : CyclicBuffer.openCursorAt (u.topic.subscribers 0).nextIndex = ⟨0xffffffffffffffff⟩ := by
      have : (u.topic.subscribers 0).nextIndex = 0 := (congrFun hl.subscribers 0 ▸ hstart)
      rw [this]
      rfl
    simp [step, hu, hopen, r]
  refine ⟨_, u.setReader 0 r, r, ⟨0xffffffffffffffff⟩,
    run_join hs (run_join ht (run_join (run_step hacquire) (run_step hload))),
    by simp [State.setReader], rfl, rfl, ?_⟩
  have hlong : (u.setReader 0 r).topic.buffer.nextIndex = 0xffffffffffffffff := by
    have := hl.nextIndex
    rw [hnext] at this
    exact this
  simp only [Cursor.tryRead, hlong]
  decide

end SubscriptionDelivery
