import ZeroCopyRpc.TopicRestart

/-!
# The semaphores after a restart

The rebuild loop opens the semaphore of each slot that it enters and unlinks
the name of each other active slot. A client that is still running holds the
object its name leads to, so what is entered is the subscription it knows.
-/
namespace TopicReopening

open Semaphores SubscriptionSlots TopicRestart

/-- The names that the first `k` turns open or unlink. -/
def names (table : Nat → SubscriptionSharedData) (k : Nat) : List SemaphoreName :=
  ((List.range k).filter (fun i => (table i).active)).map (fun i => ⟨(table i).pid, i⟩)

def keep (running : Nat → Bool) (table : Nat → SubscriptionSharedData) (name : SemaphoreName) : Bool :=
  Entered running (table name.index)

/-- What the first `k` turns leave of the semaphores, and that the subscriptions
entered have theirs open. -/
structure Reopened (running : Nat → Bool) (old t : TopicService) (k : Nat) : Prop where
  passed : Passed running old t k
  nextIndex : t.buffer.nextIndex = old.buffer.nextIndex
  tended : Tended (keep running old.subscribers) old.semaphores t.semaphores (names old.subscribers k)
  opened : ∀ sub ∈ t.subscriptions.items, ∃ sem, sub.sem = some sem ∧ sub.name = some sem.name ∧
    t.semaphores.names sem.name = some sem.handle

variable {running : Nat → Bool} {old t t' : TopicService} {k : Nat}

theorem mem_names {table : Nat → SubscriptionSharedData} {name : SemaphoreName} :
    name ∈ names table k ↔ name.index < k ∧ (table name.index).active = true ∧
      (table name.index).pid = name.pid := by
  simp only [names, List.mem_map, List.mem_filter, List.mem_range]
  constructor
  · rintro ⟨i, ⟨hi, ha⟩, rfl⟩
    exact ⟨hi, ha, rfl⟩
  · rintro ⟨hi, ha, hpid⟩
    exact ⟨name.index, ⟨hi, ha⟩, by rw [hpid]⟩

theorem names_succ (table : Nat → SubscriptionSharedData) (k : Nat) :
    names table (k + 1) = names table k ++ if (table k).active then [⟨(table k).pid, k⟩] else [] := by
  rw [names, List.range_succ, List.filter_append, List.map_append]
  cases hk : (table k).active <;> simp [hk, names]

/-- The name and the slot of a subscription in the bag. -/
theorem Passed.item (h : Passed running old t k) {sub : Subscription} (hsub : sub ∈ t.subscriptions.items) :
    ∃ i < k, Entered running (old.subscribers i) = true ∧ sub.index = i ∧
      sub.name = some ⟨(old.subscribers i).pid, i⟩ := by
  have hmem : identity sub ∈ rebuilt t := List.mem_map_of_mem hsub
  rw [h.bag, mem_entries] at hmem
  obtain ⟨i, hi, he, hid⟩ := hmem
  rw [identity, entry, Prod.mk.injEq] at hid
  exact ⟨i, hi, he, hid⟩

/-- The turn for a slot that is not active. -/
theorem reopened_skip (h : Reopened running old t k) (hpassed : Passed running old t (k + 1))
    (hactive : ¬ (old.subscribers k).active = true) : Reopened running old t (k + 1) := by
  have hnames : names old.subscribers (k + 1) = names old.subscribers k := by
    rw [names_succ, if_neg hactive, List.append_nil]
  exact ⟨hpassed, h.nextIndex, hnames ▸ h.tended, h.opened⟩

/-- The turn for an active slot tends to its name. -/
theorem reopened_tend (h : Reopened running old t k) (hpassed : Passed running old t' (k + 1))
    (hactive : (old.subscribers k).active = true) (hbuffer : t'.buffer = t.buffer)
    (hsemaphores : t'.semaphores = t.semaphores.tend (keep running old.subscribers) ⟨(old.subscribers k).pid, k⟩)
    (hitems : ∀ sub ∈ t'.subscriptions.items, sub ∈ t.subscriptions.items ∨ ∃ sem, sub.sem = some sem ∧
      sub.name = some sem.name ∧ t'.semaphores.names sem.name = some sem.handle) :
        Reopened running old t' (k + 1) := by
  refine ⟨hpassed, by rw [hbuffer, h.nextIndex], ?_, fun sub hsub => ?_⟩
  · rw [names_succ, if_pos hactive, hsemaphores]
    refine tended_append h.tended fun hin => ?_
    exact absurd (mem_names.mp hin).1 (Nat.lt_irrefl k)
  · rcases hitems sub hsub with hold | hnew
    · obtain ⟨sem, hsem, hname, hopen⟩ := h.opened sub hold
      obtain ⟨i, hi, -, -, hname'⟩ := Passed.item h.passed hold
      refine ⟨sem, hsem, hname, ?_⟩
      rw [hname, Option.some.injEq] at hname'
      have hother : sem.name ≠ ⟨(old.subscribers k).pid, k⟩ := by
        rw [hname']
        intro he
        have : i = k := congrArg SemaphoreName.index he
        omega
      rw [hsemaphores, tend_other _ _ hother]
      exact hopen
    · exact hnew

theorem reopened_turn (h : Reopened running old t k) (hk : k < 256) :
    ∃ t', t.rebuildEntry running k = .ok t' ∧ Reopened running old t' (k + 1) := by
  obtain ⟨t', ht', hpassed⟩ := entry_turn h.passed hk
  refine ⟨t', ht', ?_⟩
  obtain ⟨free, subs, hinv, hlater⟩ := h.passed.rebuilding.state
  have hslot : t.subscribers k = old.subscribers k := by
    rw [h.passed.table k, if_neg (Nat.lt_irrefl k)]
  have hdangling : (old.subscribers k).active = true → Entered running (old.subscribers k) = false →
      t' = t.removeDanglingSubscriptionEntry k → Reopened running old t' (k + 1) := by
    rintro hactive hentered rfl
    refine reopened_tend h hpassed hactive rfl ?_ fun sub hsub => Or.inl hsub
    rw [tend, keep, hentered]
    simp only [TopicService.removeDanglingSubscriptionEntry, hslot]
    rfl
  unfold TopicService.rebuildEntry at ht'
  dsimp only at ht'
  rw [hslot] at ht'
  by_cases hactive : (old.subscribers k).active = true
  · rw [if_pos hactive] at ht'
    by_cases hpending : (old.subscribers k).pendingRemove = true
    · rw [if_pos hpending] at ht'
      cases ht'
      exact hdangling hactive (by simp [Entered, hpending]) rfl
    · rw [if_neg hpending] at ht'
      rw [Bool.not_eq_true] at hpending
      cases hrunning : running (old.subscribers k).pid with
      | false =>
        rw [hrunning, Bool.not_false, if_pos rfl] at ht'
        cases ht'
        exact hdangling hactive (by simp [Entered, hrunning]) rfl
      | true =>
        have hfree := hlater k (Nat.le_refl k) hk
        obtain ⟨pool', htry, -, -⟩ := IDPool.tryRent_eq hinv.pool hfree
        simp only [hrunning, Bool.not_true, Bool.false_eq_true, if_false, htry] at ht'
        cases ht'
        have hkept : keep running old.subscribers ⟨(old.subscribers k).pid, k⟩ = true :=
          entered_iff.mpr ⟨hactive, hpending, hrunning⟩
        refine reopened_tend h hpassed hactive rfl ?_ fun sub hsub => ?_
        · rw [tend, if_pos hkept]
          rfl
        · rw [(push_room hinv hfree _).2.items_eq, List.mem_cons] at hsub
          rcases hsub with rfl | hsub
          · exact Or.inr ⟨_, rfl, rfl, openOrCreate_self _ _ _⟩
          · rw [hinv.bag.items_eq]
            exact Or.inl hsub
  · rw [if_neg hactive] at ht'
    cases ht'
    exact reopened_skip h hpassed hactive

theorem reopened_turns {n : Nat} (h : Reopened running old t k) (hk : k + n = 256) :
    ∃ t', t.rebuildEntries running (List.range' k n) = .ok t' ∧ Reopened running old t' 256 := by
  induction n generalizing t k with
  | zero =>
    obtain rfl : k = 256 := by omega
    exact ⟨t, rfl, h⟩
  | succ n ih =>
    obtain ⟨t₁, ht₁, h₁⟩ := reopened_turn h (by omega)
    obtain ⟨t', ht', h'⟩ := ih h₁ (by omega)
    refine ⟨t', ?_, h'⟩
    rw [List.range'_succ]
    simp only [TopicService.rebuildEntries, ht₁, ht']

/-- A restart over a segment whose semaphores are in order. -/
theorem rebuild_reopened (t : TopicService) (hd : t.semaphores.Distinct) (running : Nat → Bool) :
    ∃ t', t.rebuild running = .ok t' ∧ Reopened running t t' 256 := by
  have hstart : Reopened running t { t with
      subscriptions := .new 256 .new
      idPool := .new 256
      buffer := { t.buffer with memory := t.buffer.memory.unlock.2 } } 0 := by
    refine ⟨passed_start t running, rfl, tended_nil _ hd, fun sub hsub => ?_⟩
    rw [(ConcurrentBag.new_holds 256 Subscription.new).items_eq] at hsub
    cases hsub
  obtain ⟨t', ht', h'⟩ := reopened_turns hstart (n := 256) rfl
  refine ⟨t', ?_, h'⟩
  rw [TopicService.rebuild, List.range_eq_range']
  exact ht'

end TopicReopening
