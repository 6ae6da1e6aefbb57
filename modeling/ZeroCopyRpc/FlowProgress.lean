import ZeroCopyRpc.FlowControl

/-!
# Every request returns

Threads that send, the dispatcher and the clients' dispatchers bring each request
further, and none of these steps can be taken for ever. Where no process has more
threads than its queue has places, nobody waits for anybody else at the end.
-/
namespace FlowControl

open Transitions

variable {threads : Nat → Nat} {w w' : World}

/-- The steps that are taken without any new request. -/
def Internal : Event → Prop
  | .send _ => True
  | .dispatch _ => True
  | .deliver _ => True
  | _ => False

/-- The replies in the first `n` queues. -/
def total (contents : Nat → List ResponseEnvelope) : Nat → Nat
  | 0 => 0
  | n + 1 => total contents n + (contents n).length

theorem total_update (contents : Nat → List ResponseEnvelope) {m n : Nat} (hm : m < n)
    (replies : List ResponseEnvelope) :
    total (Function.update contents m replies) n + (contents m).length = total contents n + replies.length := by
  have hbelow : ∀ k, k ≤ m → total (Function.update contents m replies) k = total contents k := by
    intro k hk
    induction k with
    | zero => rfl
    | succ k ih => rw [total, total, ih (by omega), Function.update_of_ne (by omega)]
  induction n with
  | zero => omega
  | succ n ih =>
    rw [total, total]
    by_cases heq : m = n
    · subst heq
      rw [hbelow m (Nat.le_refl m), Function.update_self]
      omega
    · rw [Function.update_of_ne (Ne.symm heq)]
      have := ih (by omega)
      omega

/-- How many steps there can be until nothing is under way. -/
def World.work (w : World) : Nat :=
  3 * w.calling.length + 2 * w.srvQueue.length + total w.queues.contents w.queues.created + if w.stopped then 0 else 1

/-- The invariant of processes that never fill a queue. -/
structure Settled (threads : Nat → Nat) (w : World) : Prop where
  inv : Inv threads w
  dropped : ∀ pid, w.dropped pid = 0

theorem settled_step {e : Event} (hthreads : ∀ pid, threads pid ≤ 256) (h : Settled threads w)
    (hstep : step threads w e = some w') : Settled threads w' := by
  refine ⟨inv_step h.inv hstep, ?_⟩
  have hdropped : w'.dropped = w.dropped := by
    cases e with
    | dispatch chance =>
      simp only [step] at hstep
      cases hqueue : w.srvQueue with
      | nil =>
        rw [hqueue] at hstep
        cases hstep
      | cons env rest =>
        simp only [hqueue] at hstep
        by_cases hstopped : w.stopped = true
        · rw [if_pos hstopped] at hstep
          cases hstep
        · rw [if_neg hstopped] at hstep
          cases hd : w.server.dispatchMessage w.queues env chance with
          | none =>
            simp only [hd] at hstep
            split at hstep
            · cases hstep
              rfl
            · cases hstep
          | some d =>
            simp only [hd] at hstep
            cases hstep
            have hsome : d.reply.isNone = false := by
              cases hr : d.reply with
              | some m => rfl
              | none =>
                have hdrops : Drops w := ⟨env, rest, chance, d, hqueue, by simpa using hstopped, hd, hr⟩
                exact absurd hdrops (not_drops h.inv hthreads)
            simp only [World.afterDispatch, hsome, Bool.false_eq_true, if_false]
    | openClient pid =>
      obtain ⟨r, -, rfl⟩ := Option.map_eq_some_iff.mp hstep
      rfl
    | call env =>
      simp only [step] at hstep
      split at hstep <;> cases hstep
      rfl
    | send i =>
      simp only [step] at hstep
      split at hstep
      · cases hstep
      · split at hstep <;> cases hstep
        rfl
    | deliver pid =>
      simp only [step] at hstep
      split at hstep
      · cases hstep
      · obtain ⟨r, -, rfl⟩ := Option.map_eq_some_iff.mp hstep
        rfl
    | changeTopics topics =>
      cases hstep
      rfl
  rw [hdropped]
  exact h.dropped

theorem settled_run (hthreads : ∀ pid, threads pid ≤ 256) {es : List Event}
    (h : run (step threads) start es = some w) : Settled threads w :=
  run_invariant (fun _ _ _ h hstep => settled_step hthreads h hstep) ⟨inv_start threads, fun _ => rfl⟩ h

/-- Each of these steps brings a request further. -/
theorem work_step {e : Event} (h : Settled threads w) (he : Internal e) (hstep : step threads w e = some w') :
    w'.work < w.work := by
  cases e with
  | send i =>
    simp only [step] at hstep
    cases hi : w.calling[i]? with
    | none =>
      rw [hi] at hstep
      cases hstep
    | some env =>
      simp only [hi] at hstep
      split at hstep
      · cases hstep
        obtain ⟨hlt, -⟩ := List.getElem?_eq_some_iff.mp hi
        simp only [World.work, List.length_eraseIdx_of_lt hlt, List.length_append, List.length_singleton]
        omega
      · cases hstep
  | dispatch chance =>
    simp only [step] at hstep
    cases hqueue : w.srvQueue with
    | nil =>
      rw [hqueue] at hstep
      cases hstep
    | cons env rest =>
      simp only [hqueue] at hstep
      by_cases hstopped : w.stopped = true
      · rw [if_pos hstopped] at hstep
        cases hstep
      · rw [if_neg hstopped] at hstep
        cases hd : w.server.dispatchMessage w.queues env chance with
        | none =>
          simp only [hd] at hstep
          split at hstep
          · cases hstep
            simp only [World.work, if_neg hstopped, if_true, hqueue]
            omega
          · cases hstep
        | some d =>
          simp only [hd] at hstep
          cases hstep
          obtain ⟨m, hattached, -, hreply⟩ := SharedMemoryServer.dispatchMessage_some hd
          have hold := h.inv.old env.pid m (names_attached h.inv hattached)
          have htotal : total d.queues.contents d.queues.created ≤ total w.queues.contents w.queues.created + 1 := by
            rcases hreply with ⟨response, -, hsend⟩ | ⟨-, hsame, -⟩
            · obtain ⟨-, hcreated, hcontents⟩ := MessageQueues.trySend_some hsend
              have hupdate := total_update w.queues.contents hold
                (w.queues.contents m ++ [⟨env.correlationId, response⟩])
              rw [List.length_append, List.length_singleton] at hupdate
              rw [hcontents, hcreated]
              omega
            · rw [hsame]
              omega
          have hrunning : w.stopped = false := by
            rw [← Bool.not_eq_true]
            exact hstopped
          simp only [World.work, World.afterDispatch, hqueue, List.length_cons, hrunning]
          omega
  | deliver pid =>
    simp only [step] at hstep
    cases hname : w.queues.names pid with
    | none =>
      rw [hname] at hstep
      cases hstep
    | some m =>
      simp only [hname] at hstep
      obtain ⟨⟨reply, queues⟩, hr, rfl⟩ := Option.map_eq_some_iff.mp hstep
      obtain ⟨rest, hheld, -, hcreated, hcontents⟩ := MessageQueues.receive_some hr
      have hupdate := total_update w.queues.contents (h.inv.old pid m hname) rest
      rw [hheld, List.length_cons] at hupdate
      simp only [World.work, hcontents, hcreated]
      omega
  | _ => cases he

/-- Where none of these steps can be taken, every thread has its reply, or an exception has
ended the dispatcher. -/
theorem quiet (hthreads : ∀ pid, threads pid ≤ 256) (h : Settled threads w)
    (hquiet : ∀ e, Internal e → step threads w e = none) : w.stopped = true ∨ ∀ pid, w.busy pid = 0 := by
  by_cases hstopped : w.stopped = true
  · exact Or.inl hstopped
  · have hqueue : w.srvQueue = [] := by
      cases hqueue : w.srvQueue with
      | nil => rfl
      | cons env rest =>
        have hnone := hquiet (.dispatch ⟨false, true⟩) trivial
        simp only [step, hqueue, if_neg hstopped] at hnone
        cases hd : w.server.dispatchMessage w.queues env ⟨false, true⟩ with
        | some d =>
          rw [hd] at hnone
          cases hnone
        | none =>
          simp only [hd] at hnone
          have hblocks : Blocks w := by
            refine ⟨env, rest, ⟨false, true⟩, hqueue, by simpa using hstopped, hd, ?_⟩
            by_contra hthrows
            rw [Bool.not_eq_false] at hthrows
            rw [if_pos hthrows] at hnone
            cases hnone
          exact absurd hblocks (not_blocks h.inv hthreads)
    have hcalling : w.calling = [] := by
      cases hcalling : w.calling with
      | nil => rfl
      | cons env rest =>
        have hnone := hquiet (.send 0) trivial
        simp only [step, hcalling, List.getElem?_cons_zero, hqueue, List.length_nil,
          Nat.zero_lt_succ, if_true] at hnone
        cases hnone
    refine Or.inr fun pid => ?_
    have hheld : w.held pid = [] := by
      cases hname : w.queues.names pid with
      | none => simp only [World.held, hname]
      | some m =>
        have hnone := hquiet (.deliver pid) trivial
        simp only [step, hname, Option.map_eq_none_iff, MessageQueues.receive] at hnone
        rw [held_eq hname]
        split at hnone
        · assumption
        · cases hnone
    rw [h.inv.account pid, hqueue, hcalling, hheld, h.dropped pid]
    rfl

/-- When no process has more than 256 threads, then in every state that can be reached the
requests under way return: no more than `work` steps can be taken without a new request, and
however they are taken, once none is left no thread waits, unless an exception has ended the dispatcher. -/
theorem requests_return (hthreads : ∀ pid, threads pid ≤ 256) {es : List Event}
    (h : run (step threads) start es = some w) :
    (∃ fs w', (∀ e ∈ fs, Internal e) ∧ run (step threads) w fs = some w' ∧
      ∀ e, Internal e → step threads w' e = none) ∧
    ∀ fs w', (∀ e ∈ fs, Internal e) → run (step threads) w fs = some w' → fs.length ≤ w.work ∧
      ((∀ e, Internal e → step threads w' e = none) → w'.stopped = true ∨ ∀ pid, w'.busy pid = 0) := by
  have hsettled := settled_run hthreads h
  have hkeep : ∀ w e w', Settled threads w → step threads w e = some w' → Settled threads w' :=
    fun w e w' h hstep => settled_step hthreads h hstep
  have hwork : ∀ w e w', Settled threads w → Internal e → step threads w e = some w' → w'.work < w.work :=
    fun w e w' h he hstep => work_step h he hstep
  constructor
  · exact run_exhaust World.work hkeep hwork hsettled
  · intro fs w' hfs hrun
    have hmeasure := run_measure World.work hkeep hwork hsettled hfs hrun
    have hsettled' : Settled threads w' := run_invariant hkeep hsettled hrun
    exact ⟨by omega, quiet hthreads hsettled'⟩

/-- One process of one thread has sent a request. -/
theorem requests_return_hello : ∃ w, run (step fun _ => 1) start
      [.openClient 7, .call ⟨3, 7, .hello 5⟩, .send 0] = some w ∧
    (∃ fs w', (∀ e ∈ fs, Internal e) ∧ run (step fun _ => 1) w fs = some w' ∧
      ∀ e, Internal e → step (fun _ => 1) w' e = none) ∧
    ∀ fs w', (∀ e ∈ fs, Internal e) → run (step fun _ => 1) w fs = some w' → fs.length ≤ w.work ∧
      ((∀ e, Internal e → step (fun _ => 1) w' e = none) → w'.stopped = true ∨ ∀ pid, w'.busy pid = 0) := by
  have hrun : (run (step fun _ => 1) start [.openClient 7, .call ⟨3, 7, .hello 5⟩, .send 0]).isSome = true := by
    decide +kernel
  obtain ⟨w, hw⟩ := Option.isSome_iff_exists.mp hrun
  exact ⟨w, hw, requests_return (fun _ => by decide) hw⟩

end FlowControl
