import ZeroCopyRpc.SubscriptionSlots

/-!
# What a restart rebuilds

The constructor over an existing segment goes through the 256 slots of the
table. It enters the active ones whose process runs and that are not marked
for removal, and of each other active slot it takes the mark away but leaves
it active, unlike `NotifyAll`, which does both.
-/
namespace TopicRestart

open SubscriptionSlots

/-- The slots that a restart enters into the bag. -/
def Entered (running : Nat → Bool) (d : SubscriptionSharedData) : Bool :=
  d.active && !d.pendingRemove && running d.pid

/-- The slot after the loop has passed it. -/
def passed (d : SubscriptionSharedData) : SubscriptionSharedData :=
  if d.active then { d with pendingRemove := false } else d

/-- The index of a subscription and the name of its semaphore. -/
def identity (s : Subscription) : Int × Option SemaphoreName := (s.index, s.name)

def rebuilt (t : TopicService) : List (Int × Option SemaphoreName) := t.subscriptions.items.map identity

def entry (table : Nat → SubscriptionSharedData) (i : Nat) : Int × Option SemaphoreName :=
  (i, some ⟨(table i).pid, i⟩)

/-- What is in the bag, newest first, when the loop has passed the first `k` slots. -/
def entries (running : Nat → Bool) (table : Nat → SubscriptionSharedData) (k : Nat) :
    List (Int × Option SemaphoreName) :=
  (((List.range k).filter (fun i => Entered running (table i))).map (entry table)).reverse

/-- The table and the bag when the loop has passed the first `k` slots. -/
structure Passed (running : Nat → Bool) (old t : TopicService) (k : Nat) : Prop where
  rebuilding : Rebuilding old t k
  table : ∀ i, t.subscribers i = if i < k then passed (old.subscribers i) else old.subscribers i
  bag : rebuilt t = entries running old.subscribers k

variable {running : Nat → Bool} {old t t' : TopicService} {k : Nat}

theorem entries_succ (running : Nat → Bool) (table : Nat → SubscriptionSharedData) (k : Nat) :
    entries running table (k + 1) = (if Entered running (table k) then [entry table k] else []) ++
      entries running table k := by
  rw [entries, List.range_succ, List.filter_append, List.map_append, List.reverse_append]
  cases hk : Entered running (table k) <;> simp [hk, entries]

theorem passed_turn {d : SubscriptionSharedData} (htable : ∀ i, t.subscribers i =
    if i < k then passed (old.subscribers i) else old.subscribers i) (hk : d = passed (old.subscribers k))
    (htable' : t'.subscribers = Function.update t.subscribers k d) (i : Nat) :
    t'.subscribers i = if i < k + 1 then passed (old.subscribers i) else old.subscribers i := by
  rw [htable']
  by_cases hi : i = k
  · rw [hi, Function.update_self, if_pos (Nat.lt_succ_self k), hk]
  · rw [Function.update_of_ne hi, htable]
    by_cases hlt : i < k
    · rw [if_pos hlt, if_pos (Nat.lt_succ_of_lt hlt)]
    · rw [if_neg hlt, if_neg (by omega)]

theorem entry_turn (h : Passed running old t k) (hk : k < 256) :
    ∃ t', t.rebuildEntry running k = .ok t' ∧ Passed running old t' (k + 1) := by
  obtain ⟨t', ht', hrebuilding⟩ := rebuildEntry_ok h.rebuilding hk running
  suffices hrest : (∀ i, t'.subscribers i = if i < k + 1 then passed (old.subscribers i) else old.subscribers i) ∧
      rebuilt t' = entries running old.subscribers (k + 1) from ⟨t', ht', hrebuilding, hrest.1, hrest.2⟩
  obtain ⟨free, subs, hinv, hlater⟩ := h.rebuilding.state
  have hslot : t.subscribers k = old.subscribers k := by
    rw [h.table k, if_neg (Nat.lt_irrefl k)]
  have hout : Entered running (old.subscribers k) = false → rebuilt t' = rebuilt t →
      rebuilt t' = entries running old.subscribers (k + 1) := by
    intro hentered hsame
    rw [hsame, h.bag, entries_succ, hentered]
    rfl
  have hdangling : (old.subscribers k).active = true → Entered running (old.subscribers k) = false →
      t' = t.removeDanglingSubscriptionEntry k → (∀ i, t'.subscribers i =
        if i < k + 1 then passed (old.subscribers i) else old.subscribers i) ∧
      rebuilt t' = entries running old.subscribers (k + 1) := by
    rintro hactive hentered rfl
    refine ⟨passed_turn h.table ?_ rfl, hout hentered rfl⟩
    rw [hslot, passed, if_pos hactive]
  unfold TopicService.rebuildEntry at ht'
  dsimp only at ht'
  rw [hslot] at ht'
  by_cases hactive : (old.subscribers k).active = true
  · rw [if_pos hactive] at ht'
    by_cases hpending : (old.subscribers k).pendingRemove = true
    · rw [if_pos hpending] at ht'
      cases ht'
      exact hdangling hactive (by simp [Entered, hpending]) rfl
    · rw [if_neg hpending] at ht'
      rw [Bool.not_eq_true] at hpending
      cases hrunning : running (old.subscribers k).pid with
      | false =>
        rw [hrunning, Bool.not_false, if_pos rfl] at ht'
        cases ht'
        exact hdangling hactive (by simp [Entered, hrunning]) rfl
      | true =>
        have hfree := hlater k (Nat.le_refl k) hk
        obtain ⟨pool', htry, -, -⟩ := IDPool.tryRent_eq hinv.pool hfree
        simp only [hrunning, Bool.not_true, Bool.false_eq_true, if_false, htry] at ht'
        cases ht'
        have hentered : Entered running (old.subscribers k) = true := by simp [Entered, hactive, hpending, hrunning]
        refine ⟨passed_turn h.table ?_ (Function.update_eq_self k _).symm, ?_⟩
        · rw [hslot, passed, if_pos hactive, ← hpending]
        · have hbag := h.bag
          rw [rebuilt, hinv.bag.items_eq] at hbag
          rw [rebuilt, (push_room hinv hfree _).2.items_eq, List.map_cons, hbag, entries_succ, if_pos hentered]
          rfl
  · rw [if_neg hactive] at ht'
    cases ht'
    have hentered : Entered running (old.subscribers k) = false := by simp [Entered, hactive]
    refine ⟨passed_turn h.table ?_ (Function.update_eq_self k _).symm, hout hentered rfl⟩
    rw [hslot, passed, if_neg hactive]

theorem entries_turn {n : Nat} (h : Passed running old t k) (hk : k + n = 256) :
    ∃ t', t.rebuildEntries running (List.range' k n) = .ok t' ∧ Passed running old t' 256 := by
  induction n generalizing t k with
  | zero =>
    obtain rfl : k = 256 := by omega
    exact ⟨t, rfl, h⟩
  | succ n ih =>
    obtain ⟨t₁, ht₁, h₁⟩ := entry_turn h (by omega)
    obtain ⟨t', ht', h'⟩ := ih h₁ (by omega)
    refine ⟨t', ?_, h'⟩
    rw [List.range'_succ]
    simp only [TopicService.rebuildEntries, ht₁, ht']

theorem passed_start (t : TopicService) (running : Nat → Bool) : Passed running t { t with
    subscriptions := .new 256 .new
    idPool := .new 256
    buffer := { t.buffer with memory := t.buffer.memory.unlock.2 } } 0 := by
  refine ⟨rebuilding_start t, fun i => (if_neg (Nat.not_lt_zero i)).symm, ?_⟩
  rw [rebuilt, (ConcurrentBag.new_holds 256 Subscription.new).items_eq]
  rfl

theorem rebuild_passed (t : TopicService) (running : Nat → Bool) :
    ∃ t', t.rebuild running = .ok t' ∧ Passed running t t' 256 := by
  obtain ⟨t', ht', h'⟩ := entries_turn (passed_start t running) (n := 256) rfl
  refine ⟨t', ?_, h'⟩
  rw [TopicService.rebuild, List.range_eq_range']
  exact ht'

theorem mem_entries {table : Nat → SubscriptionSharedData} {id : Int × Option SemaphoreName} :
    id ∈ entries running table k ↔ ∃ i < k, Entered running (table i) = true ∧ id = entry table i := by
  simp only [entries, List.mem_reverse, List.mem_map, List.mem_filter, List.mem_range]
  constructor
  · rintro ⟨i, ⟨hi, he⟩, rfl⟩
    exact ⟨i, hi, he, rfl⟩
  · rintro ⟨i, hi, he, rfl⟩
    exact ⟨i, ⟨hi, he⟩, rfl⟩

theorem entries_congr {table table' : Nat → SubscriptionSharedData} (h : ∀ i < k, table' i = table i) :
    entries running table' k = entries running table k := by
  induction k with
  | zero => rfl
  | succ k ih =>
    rw [entries_succ, entries_succ, ih (fun i hi => h i (Nat.lt_succ_of_lt hi)), entry, entry,
      h k (Nat.lt_succ_self k)]

theorem entered_iff {d : SubscriptionSharedData} :
    Entered running d = true ↔ d.active = true ∧ d.pendingRemove = false ∧ running d.pid = true := by
  rw [Entered, Bool.and_eq_true, Bool.and_eq_true, Bool.not_eq_true', and_assoc]

/-- The slot that a subscription in the bag is for is one that was entered. -/
theorem slot_entered_iff {table : Nat → SubscriptionSharedData} {i : Nat} (hi : i < k) :
    (∃ name, ((i : Int), name) ∈ entries running table k) ↔ Entered running (table i) = true := by
  simp only [mem_entries, entry, Prod.mk.injEq]
  constructor
  · rintro ⟨name, j, -, he, hij, -⟩
    rwa [Int.ofNat_inj.mp hij]
  · exact fun he => ⟨_, i, hi, he, rfl, rfl⟩

/-- A restart enters the active slots that are not marked for removal and whose
process runs, leaves the others inactive, and a second one enters the same. -/
structure Idempotent (running : Nat → Bool) (t once : TopicService) : Prop where
  exactly : ∀ id, id ∈ rebuilt once ↔ ∃ i < 256, ((t.subscribers i).active = true ∧
    (t.subscribers i).pendingRemove = false ∧ running (t.subscribers i).pid = true) ∧ id = entry t.subscribers i
  inactive : ∀ i : Nat, i < 256 → (∀ name, ((i : Int), name) ∉ rebuilt once) →
    (once.subscribers i).active = false
  again : ∃ twice, once.rebuild running = .ok twice ∧ ∀ id, id ∈ rebuilt twice ↔ id ∈ rebuilt once

theorem active_passed (d : SubscriptionSharedData) : (passed d).active = d.active := by
  unfold passed
  split <;> rfl

/-- What a restart enters is always the right slots. -/
theorem rebuilt_exactly (h : Passed running old t 256) (id : Int × Option SemaphoreName) :
    id ∈ rebuilt t ↔
      ∃ i < 256, ((old.subscribers i).active = true ∧ (old.subscribers i).pendingRemove = false ∧
      running (old.subscribers i).pid = true) ∧ id = entry old.subscribers i := by
  simp only [h.bag, mem_entries, entered_iff]

theorem inactive_iff (h : Passed running old t 256) {i : Nat} (hi : i < 256) :
    ((∀ name, ((i : Int), name) ∉ rebuilt t) → (t.subscribers i).active = false) ↔
      ((old.subscribers i).active = true → Entered running (old.subscribers i) = true) := by
  rw [← not_exists, h.bag, slot_entered_iff hi, h.table i, if_pos hi, active_passed]
  cases (old.subscribers i).active <;> simp

/-- Restarting over a table and then over the table left behind rebuilds the
right slots, leaves the others inactive and comes to the same set again, if and
only if every active slot is unmarked and its process runs. -/
theorem rebuild_idempotent_iff (t : TopicService) (running : Nat → Bool) :
    (∃ once, t.rebuild running = .ok once ∧ Idempotent running t once) ↔
    ∀ i < 256, (t.subscribers i).active = true →
      (t.subscribers i).pendingRemove = false ∧ running (t.subscribers i).pid = true := by
  obtain ⟨once, honce, hpassed⟩ := rebuild_passed t running
  obtain ⟨twice, htwice, hagain⟩ := rebuild_passed once running
  constructor
  · rintro ⟨once', honce', h⟩ i hi hactive
    rw [honce, Except.ok.injEq] at honce'
    subst honce'
    have hentered := (inactive_iff hpassed hi).mp (h.inactive i hi) hactive
    exact (entered_iff.mp hentered).2
  · intro h
    have hsame : ∀ i < 256, once.subscribers i = t.subscribers i := by
      intro i hi
      rw [hpassed.table i, if_pos hi, passed]
      by_cases hactive : (t.subscribers i).active = true
      · rw [if_pos hactive, ← (h i hi hactive).1]
      · rw [if_neg hactive]
    refine ⟨once, honce, rebuilt_exactly hpassed, ?_, twice, htwice, ?_⟩
    · intro i hi
      rw [inactive_iff hpassed hi]
      exact fun hactive => entered_iff.mpr ⟨hactive, h i hi hactive⟩
    · intro id
      rw [hagain.bag, hpassed.bag, entries_congr hsame]

/-- A process has unsubscribed and no `NotifyAll` has come since: the first
restart leaves its subscription out and the second one brings it back. -/
theorem unsubscribed_comes_back : ∃ t, Transitions.run call (.new (.new 4 64 (fun _ => ⟨0, 0, 0⟩) (fun _ => 0)))
      [.subscribe 7 true, .unsubscribe 7 0 false] = some t ∧
    ∃ once twice, t.rebuild (fun pid => pid == 7) = .ok once ∧ rebuilt once = [] ∧
      once.rebuild (fun pid => pid == 7) = .ok twice ∧ rebuilt twice = [(0, some ⟨7, 0⟩)] ∧
      ¬ Idempotent (fun pid => pid == 7) t once := by
  have hrun : (Transitions.run call (.new (.new 4 64 (fun _ => ⟨0, 0, 0⟩) (fun _ => 0)))
      [.subscribe 7 true, .unsubscribe 7 0 false]).map (fun t => (entries (fun pid => pid == 7) t.subscribers 256,
        entries (fun pid => pid == 7) (fun i => passed (t.subscribers i)) 256, (t.subscribers 0).active)) =
      some ([], [(0, some ⟨7, 0⟩)], true) := by
    decide +kernel
  obtain ⟨t, ht, he⟩ := Option.map_eq_some_iff.mp hrun
  simp only [Prod.mk.injEq] at he
  obtain ⟨hfirst, hsecond, hactive⟩ := he
  obtain ⟨once, honce, hpassed⟩ := rebuild_passed t (fun pid => pid == 7)
  obtain ⟨twice, htwice, hagain⟩ := rebuild_passed once (fun pid => pid == 7)
  have hempty : rebuilt once = [] := hpassed.bag.trans hfirst
  have hback : ∀ i < 256, once.subscribers i = passed (t.subscribers i) := by
    intro i hi
    rw [hpassed.table i, if_pos hi]
  refine ⟨t, ht, once, twice, honce, hempty, htwice, ?_, ?_⟩
  · rw [hagain.bag, entries_congr hback]
    exact hsecond
  · intro h
    have hinactive := h.inactive 0 (by decide) (by simp [hempty])
    rw [hback 0 (by decide), active_passed, hactive] at hinactive
    cases hinactive

end TopicRestart
