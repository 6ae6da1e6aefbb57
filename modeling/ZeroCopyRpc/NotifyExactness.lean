import ZeroCopyRpc.SubscriptionSlots

/-!
# What one NotifyAll does

The service may be in any state whose bag holds subscriptions with slots and
semaphores of their own. The first loop raises the subscriptions that stay and
fills the array of those that go, the second one empties the array from its end.
The array is the list `visit` builds, its newest entry first.
-/
namespace NotifyExactness

open SubscriptionSlots TopicService Words

/-- The bag holds these subscriptions, and each has its own slot and its own semaphore. -/
structure Apart (t : TopicService) (subs : List Subscription) : Prop where
  bag : t.subscriptions.Holds subs
  slot : ∀ s ∈ subs, ∃ i : Nat, i < 256 ∧ s.index = i
  slots : (subs.map Subscription.index).Nodup
  semaphore : ∀ s ∈ subs, s.sem ≠ none
  semaphores : (subs.map fun s => s.sem.map NamedSemaphore.handle).Nodup

def slotOf (s : Subscription) : Nat := s.index.toNat

/-- One more entry to read; the first one sets where the reader starts. -/
def raised (buffer : CyclicBuffer) (d : SubscriptionSharedData) : SubscriptionSharedData :=
  { d with
    notified := addWord d.notified 1
    nextIndex := if d.notified = 0 then subWord buffer.nextIndex 1 else d.nextIndex }

def cleared (d : SubscriptionSharedData) : SubscriptionSharedData := { d with pendingRemove := false, active := false }

variable {t t' : TopicService} {subs : List Subscription} {s : Subscription} {w : TopicService × List Subscription}

theorem slots_nodup (h : Apart t subs) : (subs.map slotOf).Nodup := by
  have hd := h.slots
  rw [List.nodup_iff_pairwise_ne, List.pairwise_map] at hd ⊢
  refine hd.imp_of_mem fun {x y} hx hy hne he => hne ?_
  obtain ⟨i, -, hi⟩ := h.slot x hx
  obtain ⟨j, -, hj⟩ := h.slot y hy
  simp only [slotOf] at he
  omega

/-- There are no more subscriptions than slots. -/
theorem length_le (h : Apart t subs) : subs.length ≤ 256 := by
  have hbound : ∀ i ∈ subs.map slotOf, i < 256 := by
    intro i hi
    obtain ⟨x, hx, rfl⟩ := List.mem_map.mp hi
    obtain ⟨j, hj, hxj⟩ := h.slot x hx
    simp only [slotOf]
    omega
  have hle := IDPool.length_le_of_nodup (slots_nodup h) hbound
  rwa [List.length_map] at hle

theorem visit_pending (h : Pending w.1 s = true) : visit w s = (w.1, s :: w.2) := by
  rw [visit]
  exact if_pos h

theorem visit_kept (h : Pending w.1 s = false) : visit w s = ({ w.1 with
    subscribers := Function.update w.1.subscribers (slotOf s) (raised w.1.buffer (w.1.subscribers (slotOf s)))
    semaphores := s.sem.elim w.1.semaphores (fun sem => w.1.semaphores.release sem.handle) }, w.2) := by
  have hno : ¬ (w.1.subscribers s.index.toNat).pendingRemove = true := by
    rw [Pending] at h
    simp [h]
  rw [visit]
  exact if_neg hno

/-- Whether a subscription goes is not changed by the visit of any. -/
theorem pending_visit (w : TopicService × List Subscription) (s x : Subscription) :
    Pending (visit w s).1 x = Pending w.1 x := ((visit_same w s).2.2 _).1

theorem visit_slot_other {i : Nat} (hi : slotOf s ≠ i) : (visit w s).1.subscribers i = w.1.subscribers i := by
  cases hp : Pending w.1 s with
  | true => rw [visit_pending hp]
  | false =>
    rw [visit_kept hp]
    exact Function.update_of_ne (Ne.symm hi) ..

theorem visits_slot_other {i : Nat} (hi : ∀ s ∈ subs, slotOf s ≠ i) :
    (subs.foldl visit w).1.subscribers i = w.1.subscribers i := by
  induction subs generalizing w with
  | nil => rfl
  | cons s subs ih =>
    rw [List.foldl_cons, ih fun x hx => hi x (List.mem_cons_of_mem s hx)]
    exact visit_slot_other (hi s List.mem_cons_self)

/-- The slot of a visited subscription is raised, or kept for the second loop. -/
theorem visits_slot (hd : (subs.map slotOf).Nodup) (hs : s ∈ subs) :
    (subs.foldl visit w).1.subscribers (slotOf s) =
      if Pending w.1 s then w.1.subscribers (slotOf s) else raised w.1.buffer (w.1.subscribers (slotOf s)) := by
  induction subs generalizing w with
  | nil => cases hs
  | cons x subs ih =>
    rw [List.map_cons, List.nodup_cons] at hd
    rw [List.foldl_cons]
    rcases List.mem_cons.mp hs with rfl | hs
    · rw [visits_slot_other fun y hy he => hd.1 (List.mem_map.mpr ⟨y, hy, he⟩)]
      cases hp : Pending w.1 s with
      | true =>
        rw [visit_pending hp]
        rfl
      | false =>
        rw [visit_kept hp]
        exact Function.update_self ..
    · have hne : slotOf x ≠ slotOf s := fun he => hd.1 (List.mem_map.mpr ⟨s, hs, he.symm⟩)
      rw [ih hd.2 hs, pending_visit, visit_slot_other hne, visit_buffer]

theorem visit_count_other {o : Nat} (ho : Pending w.1 s = false → s.sem.map NamedSemaphore.handle ≠ some o) :
    (visit w s).1.semaphores.count o = w.1.semaphores.count o := by
  cases hp : Pending w.1 s with
  | true => rw [visit_pending hp]
  | false =>
    have hne := ho hp
    rw [visit_kept hp]
    cases hsem : s.sem with
    | none => rfl
    | some sem =>
      rw [hsem] at hne
      refine Function.update_of_ne (fun he => hne ?_) ..
      rw [he]
      rfl

theorem visits_count_other {o : Nat}
    (ho : ∀ s ∈ subs, Pending w.1 s = false → s.sem.map NamedSemaphore.handle ≠ some o) :
    (subs.foldl visit w).1.semaphores.count o = w.1.semaphores.count o := by
  induction subs generalizing w with
  | nil => rfl
  | cons s subs ih =>
    rw [List.foldl_cons, ih fun x hx => by rw [pending_visit]; exact ho x (List.mem_cons_of_mem s hx)]
    exact visit_count_other (ho s List.mem_cons_self)

/-- The semaphore of a subscription that stays is released once. -/
theorem visits_count {sem : NamedSemaphore} (hd : (subs.map fun s => s.sem.map NamedSemaphore.handle).Nodup)
    (hs : s ∈ subs) (hp : Pending w.1 s = false) (hsem : s.sem = some sem) :
    (subs.foldl visit w).1.semaphores.count sem.handle = w.1.semaphores.count sem.handle + 1 := by
  have hhandle : s.sem.map NamedSemaphore.handle = some sem.handle := by
    rw [hsem]
    rfl
  induction subs generalizing w with
  | nil => cases hs
  | cons x subs ih =>
    rw [List.map_cons, List.nodup_cons] at hd
    rw [List.foldl_cons]
    rcases List.mem_cons.mp hs with rfl | hs
    · rw [visits_count_other, visit_kept hp, hsem]
      · exact Function.update_self ..
      · intro y hy _ he
        exact hd.1 (List.mem_map.mpr ⟨y, hy, he.trans hhandle.symm⟩)
    · rw [ih hd.2 hs ((pending_visit w x s).trans hp), visit_count_other]
      intro _ he
      exact hd.1 (List.mem_map.mpr ⟨s, hs, hhandle.trans he.symm⟩)

/-- Taking a subscription out of the bag clears its slot and touches no other, and no semaphore. -/
theorem discard_found (hbag : t.subscriptions.Holds subs)
    (hd : (subs.map Subscription.index).Nodup) (hs : s ∈ subs) :
    t.discard s = .ok (t.without s) ∧
    (t.without s).subscriptions.Holds (subs.filter fun x => decide (x.index ≠ s.index)) ∧
    (t.without s).subscribers = Function.update t.subscribers (slotOf s) (cleared (t.subscribers (slotOf s))) ∧
    (t.without s).semaphores.count = t.semaphores.count := by
  obtain ⟨hany, hholds, -⟩ := ConcurrentBag.remove_eq hbag s
  have hfound : subs.any (· == s) = true := List.any_eq_true.mpr ⟨s, hs, Subscription.beq_self s⟩
  refine ⟨?_, ?_, rfl, (s.close_semaphores t.semaphores).2.1⟩
  · rw [discard_eq, hany, hfound, if_pos rfl]
  · rw [← eraseP_eq_filter hd hs]
    exact hholds

theorem discards {l : List Subscription} (hbag : t.subscriptions.Holds subs) (hd : (subs.map Subscription.index).Nodup)
    (hl : ∀ s ∈ l, s ∈ subs) (hdl : (l.map slotOf).Nodup) :
    ∃ t', t.discardAll l = .ok t' ∧
      t'.subscriptions.Holds (subs.filter fun x => decide (x.index ∉ l.map Subscription.index)) ∧
      (∀ s ∈ l, t'.subscribers (slotOf s) = cleared (t.subscribers (slotOf s))) ∧
      (∀ i, (∀ s ∈ l, slotOf s ≠ i) → t'.subscribers i = t.subscribers i) ∧
      t'.semaphores.count = t.semaphores.count := by
  induction l generalizing t subs with
  | nil => exact ⟨t, rfl, by simpa using hbag, by simp, fun i _ => rfl, rfl⟩
  | cons s l ih =>
    rw [List.map_cons, List.nodup_cons] at hdl
    obtain ⟨hdiscard, hholds, htable, hcount⟩ := discard_found hbag hd (hl s List.mem_cons_self)
    have hslot : ∀ x ∈ l, slotOf s ≠ slotOf x := fun x hx he => hdl.1 (List.mem_map.mpr ⟨x, hx, he.symm⟩)
    have hmem : ∀ x ∈ l, x ∈ subs.filter fun x => decide (x.index ≠ s.index) := by
      intro x hx
      rw [List.mem_filter, decide_eq_true_iff]
      exact ⟨hl x (List.mem_cons_of_mem s hx), fun he => hslot x hx (by rw [slotOf, slotOf, he])⟩
    obtain ⟨t', ht', hbag', hin, hout, hcount'⟩ :=
      ih hholds (hd.sublist (List.filter_sublist.map _)) hmem hdl.2
    refine ⟨t', ?_, ?_, ?_, ?_, hcount'.trans hcount⟩
    · simp only [discardAll, hdiscard, ht']
    · have heq : (fun x : Subscription => decide (x.index ∉ (s :: l).map Subscription.index)) =
          fun x => decide (x.index ∉ l.map Subscription.index) && decide (x.index ≠ s.index) := by
        funext x
        rw [← Bool.decide_and, decide_eq_decide, List.map_cons, List.mem_cons]
        tauto
      rw [heq, ← List.filter_filter]
      exact hbag'
    · intro x hx
      rcases List.mem_cons.mp hx with rfl | hx
      · rw [hout _ fun y hy => (hslot y hy).symm, htable]
        exact Function.update_self ..
      · rw [hin x hx, htable, Function.update_of_ne (hslot x hx).symm]
    · intro i hi
      rw [hout i fun x hx => hi x (List.mem_cons_of_mem s hx), htable]
      exact Function.update_of_ne (hi s List.mem_cons_self).symm ..

/-- The subscriptions that stay are those that the array does not hold. -/
theorem kept_eq (hd : (subs.map Subscription.index).Nodup) :
    (subs.filter fun x => decide (x.index ∉ (subs.filter (Pending t)).reverse.map Subscription.index)) =
      subs.filter fun x => !Pending t x := by
  refine List.filter_congr fun x hx => ?_
  have hmem : x.index ∈ (subs.filter (Pending t)).reverse.map Subscription.index ↔ Pending t x = true := by
    rw [List.map_reverse, List.mem_reverse]
    constructor
    · intro hm
      obtain ⟨y, hy, hyx⟩ := List.mem_map.mp hm
      rw [List.mem_filter] at hy
      rw [← eq_of_index hd hy.1 hx hyx]
      exact hy.2
    · exact fun hp => List.mem_map.mpr ⟨x, List.mem_filter.mpr ⟨hx, hp⟩, rfl⟩
  simp only [hmem, Bool.not_eq_true, Bool.decide_eq_false]

/-- The array before the visit of subscription `k` has a free entry. -/
theorem array_bound (h : Apart t subs) {k : Nat} (hk : k < subs.length) :
    ((subs.take k).foldl visit (t, [])).2.length < 256 := by
  have hle := length_le h
  have hlen : ((subs.take k).filter (Pending t)).length ≤ (subs.take k).length := List.length_filter_le _ _
  have harray : ((subs.take k).foldl visit (t, [])).2.length = ((subs.take k).filter (Pending t)).length := by
    rw [(visit_all (subs.take k) (t, [])).2, List.append_nil, List.length_reverse]
  rw [List.length_take] at hlen
  omega

/-- NotifyAll succeeds. The bag keeps the subscriptions whose slot was not marked
for removal, in their order. Each of them has one more entry to read and one
more permit at its semaphore, and a reader that had none starts at the newest
entry. The slots of the others are cleared, and no other slot and no other
semaphore changes. Whenever the array is written to it has a free entry. -/
theorem notify_exact (t : TopicService) (subs : List Subscription) (h : Apart t subs) :
    ∃ t', t.notifyAll = .ok t' ∧
      t'.subscriptions.Holds (subs.filter fun s => !(t.subscribers s.index.toNat).pendingRemove) ∧
      (∀ s ∈ subs, (t.subscribers s.index.toNat).pendingRemove = false →
        t'.subscribers s.index.toNat = { t.subscribers s.index.toNat with
          notified := addWord (t.subscribers s.index.toNat).notified 1
          nextIndex := if (t.subscribers s.index.toNat).notified = 0 then subWord t.buffer.nextIndex 1
            else (t.subscribers s.index.toNat).nextIndex } ∧
        ∃ sem, s.sem = some sem ∧ t'.semaphores.count sem.handle = t.semaphores.count sem.handle + 1) ∧
      (∀ s ∈ subs, (t.subscribers s.index.toNat).pendingRemove = true →
        t'.subscribers s.index.toNat =
          { t.subscribers s.index.toNat with pendingRemove := false, active := false }) ∧
      (∀ i, (∀ s ∈ subs, s.index.toNat ≠ i) → t'.subscribers i = t.subscribers i) ∧
      (∀ o, (∀ s ∈ subs, (t.subscribers s.index.toNat).pendingRemove = false →
        s.sem.map NamedSemaphore.handle ≠ some o) → t'.semaphores.count o = t.semaphores.count o) ∧
      ∀ k, k < subs.length → ((subs.take k).foldl visit (t, [])).2.length < 256 := by
  have hd := slots_nodup h
  obtain ⟨hsame, harray⟩ := visit_all subs (t, [])
  rw [List.append_nil] at harray
  have hbag : (subs.foldl visit (t, [])).1.subscriptions.Holds subs := by
    rw [hsame.2.1]
    exact h.bag
  have hmem : ∀ s ∈ (subs.filter (Pending t)).reverse, s ∈ subs := fun s hs =>
    (List.mem_filter.mp (List.mem_reverse.mp hs)).1
  have hdistinct : ((subs.filter (Pending t)).reverse.map slotOf).Nodup := by
    rw [List.map_reverse, List.nodup_reverse]
    exact hd.sublist (List.filter_sublist.map _)
  obtain ⟨t', ht', hholds, hin, hout, hcount⟩ := discards hbag h.slots hmem hdistinct
  have hkept : ∀ s ∈ subs, Pending t s = false → ∀ x ∈ (subs.filter (Pending t)).reverse,
      slotOf x ≠ slotOf s := by
    intro s hs hp x hx he
    have hxs : x = s := List.inj_on_of_nodup_map hd (hmem x hx) hs he
    rw [List.mem_reverse, List.mem_filter, hxs, hp] at hx
    cases hx.2
  refine ⟨t', ?_, ?_, ?_, ?_, ?_, ?_, fun k hk => array_bound h hk⟩
  · rw [notifyAll, h.bag.items_eq]
    simp only [harray]
    exact ht'
  · rw [kept_eq h.slots] at hholds
    exact hholds
  · intro s hs hp
    have hp : Pending t s = false := hp
    refine ⟨?_, ?_⟩
    · have hslot : t'.subscribers (slotOf s) = raised t.buffer (t.subscribers (slotOf s)) := by
        rw [hout _ (hkept s hs hp), visits_slot hd hs, if_neg (by simp [hp])]
      exact hslot
    · obtain ⟨sem, hsem⟩ := Option.ne_none_iff_exists'.mp (h.semaphore s hs)
      refine ⟨sem, hsem, ?_⟩
      rw [hcount]
      exact visits_count h.semaphores hs hp hsem
  · intro s hs hp
    have hp : Pending t s = true := hp
    have hslot : t'.subscribers (slotOf s) = cleared (t.subscribers (slotOf s)) := by
      rw [hin s (List.mem_reverse.mpr (List.mem_filter.mpr ⟨hs, hp⟩)), visits_slot hd hs, if_pos hp]
    exact hslot
  · intro i hi
    rw [hout i fun s hs => hi s (hmem s hs)]
    exact visits_slot_other hi
  · intro o ho
    rw [hcount]
    exact visits_count_other ho

/-- Two subscribers, the first of which has left. -/
theorem notify_exact_one_leaves :
    ∃ t t', Transitions.run call (.new (.new 4 64 (fun _ => ⟨0, 0, 0⟩) (fun _ => 0)))
      [.subscribe 7 true, .subscribe 8 true, .unsubscribe 7 0 false] = some t ∧ t.notifyAll = .ok t' ∧
    (t'.subscribers 0).active = false ∧ t'.semaphores.count 1 = t.semaphores.count 1 + 1 := by
  let first : Subscription := ⟨some ⟨0, 0, ⟨7, 0⟩⟩, 0, some ⟨7, 0⟩⟩
  let second : Subscription := ⟨some ⟨1, 1, ⟨8, 1⟩⟩, 1, some ⟨8, 1⟩⟩
  have hrun : (Transitions.run call (.new (.new 4 64 (fun _ => ⟨0, 0, 0⟩) (fun _ => 0)))
      [.subscribe 7 true, .subscribe 8 true, .unsubscribe 7 0 false]).map (fun t => (t.subscriptions.items,
        (t.subscribers 0).pendingRemove, (t.subscribers 1).pendingRemove)) = some ([second, first], true, false) := by
    decide +kernel
  obtain ⟨t, ht, hfields⟩ := Option.map_eq_some_iff.mp hrun
  rw [Prod.mk.injEq, Prod.mk.injEq] at hfields
  obtain ⟨hitems, hpending, hstays⟩ := hfields
  obtain ⟨free, subs, hinv⟩ := inv_calls ht
  have hsubs : subs = [second, first] := hinv.bag.items_eq.symm.trans hitems
  have hslot : ∀ s ∈ [second, first], ∃ i : Nat, i < 256 ∧ s.index = i := by
    rw [← hsubs]
    intro s hs
    obtain ⟨i, hi, hsi, -⟩ := hinv.slot s hs
    exact ⟨i, hi, hsi⟩
  obtain ⟨t', ht', -, hkept, hgone, -⟩ := notify_exact t [second, first]
    ⟨hsubs ▸ hinv.bag, hslot, by decide, by decide, by decide⟩
  obtain ⟨-, sem, hsem, hcount⟩ := hkept second List.mem_cons_self hstays
  cases hsem
  have hslot := hgone first (List.mem_cons_of_mem second List.mem_cons_self) hpending
  exact ⟨t, t', ht, ht', congrArg SubscriptionSharedData.active hslot, hcount⟩

end NotifyExactness
