import ZeroCopyRpc.PublisherThreads
import ZeroCopyRpc.SubscriptionDelivery

/-!
# Delivery with several publishing threads

A pass that stores the start takes it from the index of that moment. When a
second thread has raised the index in between, the start is the second thread's
entry, and the passes of both release a token for it.
-/
namespace ThreadedDelivery

open PublisherThreads Transitions
open SubscriptionAccounts (stageAt taken)
open SubscriptionDelivery (oneByte)
open SubscriptionTurns (next_read taken_of_token)

variable {τ : Type} [Fintype τ] [DecidableEq τ] {w w' : World τ}

instance (w : World τ) (i : Nat) : Decidable (Unstarted w i) :=
  inferInstanceAs (Decidable (_ ∨ _))

instance (w : World τ) : ∀ e : Event τ, Decidable (Guard w e)
  | .publish _ scope =>
      inferInstanceAs (Decidable (0 < scope.span.committed → ∀ sub ∈ w.topic.subscriptions.items,
      Unstarted w sub.index.toNat → ∀ t, stageAt (w.view (some t)) sub.index.toNat = .passed))
  | .push _ =>
    inferInstanceAs (Decidable (∀ t u, w.publishers t = .published → w.publishers u = .published → t = u))
  | .notify _ | .reset _ | .openSemaphore _ | .acquire _ | .load _ | .tryRead _ => isTrue trivial

/-- In every run whose publications and pushes meet the guard, a reader that
holds a token finds the next entry, has read without a gap, and started no
later than with the first entry after its push. -/
theorem delivery_from_threads (capacity size : Nat) (items : Nat → Entry) (bytes : Nat → UInt8)
    (events : List (Event τ))
    (hcount : publications events < 0xffffffffffffffff)
    (hg : Guarded step Guard (start (.new capacity size items bytes)) events) (w : World τ)
    (hw : Visits step (start (.new capacity size items bytes)) events w) (i : Nat)
    (r : SubscriptionMachine.Reader) (hr : w.readers i = some r) :
    ∃ p, w.pushed i = some p ∧
      let first := (w.topic.subscribers i).nextIndex
      r.reads = List.range' first r.reads.length ∧
      (r.reads ≠ [] ∨ r.holding = true → first ≤ p.entries ∧
        first + r.reads.length ≤ w.topic.buffer.nextIndex) ∧
      (r.holding = true → ∀ c, r.cursor = some c ∨ r.cursor = none ∧ c = CyclicBuffer.openCursorAt first →
        c.tryRead w.topic.buffer = (true, ⟨first + r.reads.length⟩)) := by
  have hzero : (start (.new capacity size items bytes) : World τ).topic.buffer.nextIndex = 0 := rfl
  obtain ⟨⟨used, free, ids, rest, h⟩, hbound⟩ := visits_budget (fun w : World τ => w.topic.buffer.nextIndex)
    (fun e : Event τ => e.action.entries) (inv_start _) hg hw (by rwa [hzero, Nat.zero_add])
    fun _ _ _ h hg hbound hs => inv_step h hg hbound hs
  obtain ⟨p, hp, hreads, hcovered, hread⟩ :=
    next_read (h.layout none) h.follows (covered_of_books h none) hbound hr
  refine ⟨p, hp, hreads, fun htoken => ?_, hread⟩
  obtain ⟨hpos, hlength⟩ := taken_of_token htoken
  obtain ⟨hle, hentered⟩ := hcovered hpos
  have hle : (w.topic.subscribers i).nextIndex + taken r ≤ w.topic.buffer.nextIndex := hle
  exact ⟨hentered, by omega⟩

/-- Two threads publish an entry each, for a subscriber of process 7 on slot 0.
The second raises the index when the first has stored the start. -/
def startedFirst : List (Event Bool) :=
  [.reset 7, .push 0, .openSemaphore 0, .publish false oneByte] ++ List.replicate 4 (.notify false) ++
    .publish true oneByte :: (List.replicate 3 (.notify true) ++ [.notify false, .notify true, .acquire 0, .load 0])

theorem delivery_started_first :
    ∃ w r p, run step (start (.new 4 64 (fun _ => ⟨0, 0, 0⟩) (fun _ => 0))) startedFirst = some w ∧
    w.readers 0 = some r ∧ w.pushed 0 = some p ∧ (w.topic.subscribers 0).nextIndex ≤ p.entries ∧
    (⟨0xffffffffffffffff⟩ : Cursor).tryRead w.topic.buffer =
      (true, ⟨(w.topic.subscribers 0).nextIndex + 0⟩) := by
  have hrun : (run step (start (.new 4 64 (fun _ => ⟨0, 0, 0⟩) (fun _ => 0))) startedFirst).map
      (fun w => w.readers 0) =
      some (some ⟨0, some ⟨0xffffffffffffffff⟩, true, []⟩) := by
    decide +kernel
  obtain ⟨w, hw, hr⟩ := Option.map_eq_some_iff.mp hrun
  obtain ⟨p, hp, -, hstart, hread⟩ := delivery_from_threads 4 64 _ _ startedFirst (by decide)
    (guarded_of_check (by decide +kernel)) w (visits_end hw) 0 _ hr
  exact ⟨w, _, p, hw, hr, hp, (hstart (Or.inr rfl)).1, hread rfl _ (Or.inl rfl)⟩

/-- Both threads raise the index before the first pass. -/
def raisedTwice : List (Event Bool) :=
  [.reset 7, .push 0, .openSemaphore 0, .publish false oneByte, .publish true oneByte] ++
    List.replicate 7 (.notify false) ++ List.replicate 6 (.notify true) ++
      [.acquire 0, .load 0, .tryRead 0, .acquire 0]

/-- The subscriber was pushed before the first entry, starts with the second, and
holds a second token that TryRead has nothing for. -/
theorem token_without_entry :
    ∃ w r c p, run step (start (.new 4 64 (fun _ => ⟨0, 0, 0⟩) (fun _ => 0))) raisedTwice = some w ∧
    w.readers 0 = some r ∧ w.pushed 0 = some p ∧ p.entries < (w.topic.subscribers 0).nextIndex ∧
    r.reads = [1] ∧ r.holding = true ∧ r.cursor = some c ∧ (c.tryRead w.topic.buffer).1 = false := by
  have hrun : (run step (start (.new 4 64 (fun _ => ⟨0, 0, 0⟩) (fun _ => 0))) raisedTwice).map
      (fun w => ((w.readers 0, w.pushed 0), (w.topic.subscribers 0).nextIndex,
        ((⟨1⟩ : Cursor).tryRead w.topic.buffer).1)) =
      some ((some ⟨0, some ⟨1⟩, true, [1]⟩, some ⟨7, 0, 0⟩), 1, false) := by
    decide +kernel
  obtain ⟨w, hw, hfields⟩ := Option.map_eq_some_iff.mp hrun
  simp only [Prod.mk.injEq] at hfields
  obtain ⟨⟨hr, hp⟩, hstart, hread⟩ := hfields
  exact ⟨w, _, _, _, hw, hr, hp, by rw [hstart]; exact Nat.zero_lt_one, rfl, rfl, rfl, hread⟩

end ThreadedDelivery
