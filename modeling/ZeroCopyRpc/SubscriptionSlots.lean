import ZeroCopyRpc.TopicService
import ZeroCopyRpc.Transitions

/-!
# Who holds which slot

The calls of a topic's server, one after the other, and restarts of the server
over the same segment. The invariant ties the id pool, the bag and the table
together: the subscriptions in the bag have distinct slots, each slot is rented
and marked active.

An id that is rented is never given back: `Close` sets the index of the
subscription to -1 before the removal loop asks whether the index is one to
return. And a `Subscribe` that gets no semaphore has rented an id for nothing. So
the rented ids are the slots in the bag exactly as long as no `NotifyAll` takes a
subscription out and every subscriber gets its semaphore.
-/
namespace SubscriptionSlots

open Transitions

/-- `refused` are the semaphores that a pass cannot raise. -/
inductive Call where
  | subscribe (pid : Nat) (opens : Bool)
  | unsubscribe (pid id : Nat) (weakFailure : Bool)
  | notifyAll (refused : List Nat)
  | publish (scope : WriterScope)
  deriving DecidableEq, Repr

/-- The service after a call, also after one that throws. A publication whose pass throws
out of its destructor ends the process, and no call follows. -/
def call : Machine TopicService Call
  | t, .subscribe pid opens => match t.subscribe pid opens with
    | .error (_, t) => some t
    | .ok (_, t) => some t
  | t, .unsubscribe pid id weakFailure => some (t.unsubscribe pid id weakFailure).2
  | t, .notifyAll refused => match t.refusedPass refused t.subscriptions.items with
    | some t => some t
    | none => t.notifyAll.toOption
  | t, .publish scope => (t.publish scope).toOption

/-- The service, and for each slot the process that subscribed it last. -/
structure World where
  topic : TopicService
  subscriber : Nat → Option Nat

inductive Event where
  | call (c : Call)
  | restart (running : Nat → Bool)

/-- The slot a call rents, and for whom. -/
def rented (t : TopicService) : Call → Option (Nat × Nat)
  | .subscribe pid _ => t.idPool.rent.map fun r => (r.1, pid)
  | _ => none

def step : Machine World Event
  | w, .call c => (call w.topic c).map fun t => ⟨t, match rented w.topic c with
    | none => w.subscriber
    | some (index, pid) => Function.update w.subscriber index (some pid)⟩
  | w, .restart running => (w.topic.rebuild running).toOption.map fun t => ⟨t, w.subscriber⟩

/-- The free ids and the subscriptions in the bag, and what ties them together. -/
structure Inv (t : TopicService) (free : List Nat) (subs : List Subscription) : Prop where
  pool : t.idPool.Free free
  pool_size : t.idPool.size = 256
  bag : t.subscriptions.Holds subs
  bag_size : t.subscriptions.capacity = 256
  distinct : (subs.map Subscription.index).Nodup
  slot : ∀ s ∈ subs, ∃ i : Nat, i < 256 ∧ s.index = i ∧ i ∉ free ∧ (t.subscribers i).active = true

/-- The slots of two services agree on everything but the reader's start. -/
def SameSlots (t t' : TopicService) : Prop :=
  t'.idPool = t.idPool ∧ t'.subscriptions = t.subscriptions ∧
  ∀ i, (t'.subscribers i).pendingRemove = (t.subscribers i).pendingRemove ∧
    (t'.subscribers i).active = (t.subscribers i).active ∧ (t'.subscribers i).pid = (t.subscribers i).pid

def Pending (t : TopicService) (s : Subscription) : Bool := (t.subscribers s.index.toNat).pendingRemove

variable {t t' : TopicService} {free : List Nat} {subs : List Subscription} {s : Subscription}

theorem inv_new (buffer : CyclicBuffer) : Inv (.new buffer) (List.range 256) [] where
  pool := (IDPool.new_free 256).1
  pool_size := (IDPool.new_free 256).2
  bag := ConcurrentBag.new_holds 256 Subscription.new
  bag_size := rfl
  distinct := List.nodup_nil
  slot := by simp

/-- Slots in the bag and free ids are distinct ids below 256. -/
theorem room (h : Inv t free subs) : subs.length + free.length ≤ 256 := by
  have hall : (subs.map (fun s => s.index.toNat) ++ free).Nodup := by
    rw [List.nodup_append]
    refine ⟨?_, h.pool.nodup, ?_⟩
    · have hinj : ∀ x ∈ subs, ∀ y ∈ subs, x.index.toNat = y.index.toNat → x.index = y.index := by
        intro x hx y hy hxy
        obtain ⟨i, _, hi, _⟩ := h.slot x hx
        obtain ⟨j, _, hj, _⟩ := h.slot y hy
        omega
      have hd := h.distinct
      rw [List.nodup_iff_pairwise_ne, List.pairwise_map] at hd ⊢
      exact hd.imp_of_mem fun hx hy hne he => hne (hinj _ hx _ hy he)
    · intro i hi j hj
      rw [List.mem_map] at hi
      obtain ⟨x, hx, rfl⟩ := hi
      obtain ⟨k, _, hk, hout, _⟩ := h.slot x hx
      rintro rfl
      rw [hk] at hj
      exact hout hj
  have hbound : ∀ i ∈ subs.map (fun s => s.index.toNat) ++ free, i < 256 := by
    intro i hi
    rw [List.mem_append, List.mem_map] at hi
    rcases hi with ⟨x, hx, rfl⟩ | hi
    · obtain ⟨k, hk, hxk, _⟩ := h.slot x hx
      omega
    · have := h.pool.bound i hi
      rw [h.pool_size] at this
      exact this
  simpa using IDPool.length_le_of_nodup hall hbound

/-- As long as an id is free the bag has room. -/
theorem push_room {i : Nat} (h : Inv t free subs) (hi : i ∈ free) (item : Subscription) :
    (t.subscriptions.push item).1 = true ∧ (t.subscriptions.push item).2.Holds (item :: subs) := by
  have hroom := room h
  have hpos := List.length_pos_of_mem hi
  exact ConcurrentBag.push_eq h.bag (by rw [h.bag_size]; omega) item

/-- A rented id whose subscription enters the bag with an active slot. -/
theorem inv_enter {i : Nat} (h : Inv t free subs) (hi : i ∈ free) {rest : List Nat}
    (hpool : t'.idPool.Free rest) (hsize : t'.idPool.size = t.idPool.size) (hout : i ∉ rest)
    (hrest : ∀ j ∈ rest, j ∈ free) (hs : s.index = i)
    (hbag : t'.subscriptions = (t.subscriptions.push s).2) (hactive : (t'.subscribers i).active = true)
    (hkeep : ∀ j, (t.subscribers j).active = true → (t'.subscribers j).active = true) :
    Inv t' rest (s :: subs) where
  pool := hpool
  pool_size := hsize.trans h.pool_size
  bag := by
    rw [hbag]
    exact (push_room h hi s).2
  bag_size := by
    rw [hbag, ConcurrentBag.push_capacity]
    exact h.bag_size
  distinct := by
    rw [List.map_cons, List.nodup_cons]
    refine ⟨fun hm => ?_, h.distinct⟩
    obtain ⟨x, hx, hxs⟩ := List.mem_map.mp hm
    obtain ⟨j, _, hj, hfree, _⟩ := h.slot x hx
    have hji : j = i := by omega
    exact hfree (hji ▸ hi)
  slot := by
    intro x hx
    rcases List.mem_cons.mp hx with rfl | hx
    · have hlt := h.pool.bound i hi
      rw [h.pool_size] at hlt
      exact ⟨i, hlt, hs, hout, hactive⟩
    · obtain ⟨j, hj, hxj, hfree, ha⟩ := h.slot x hx
      exact ⟨j, hj, hxj, fun hm => hfree (hrest j hm), hkeep j ha⟩

theorem subscribe_full (h : Inv t [] subs) (pid : Nat) (opens : Bool) :
    t.subscribe pid opens = .error (.cannotFindFreeId, t) := by
  have hrent := IDPool.rent_eq h.pool
  simp only [TopicService.subscribe, hrent]

theorem rented_cons {i : Nat} {rest : List Nat} (h : Inv t (i :: rest) subs) (pid : Nat) (opens : Bool) :
    rented t (.subscribe pid opens) = some (i, pid) := by
  obtain ⟨pool, hrent, -⟩ := IDPool.rent_eq h.pool
  rw [rented, hrent]
  rfl

/-- Subscribe takes the first free id and marks its slot for the process. -/
theorem subscribe_ok {i : Nat} {rest : List Nat} (h : Inv t (i :: rest) subs) (pid : Nat) :
    ∃ t' s, t.subscribe pid true = .ok (i, t') ∧ Inv t' rest (s :: subs) ∧ s.index = i ∧
      t'.subscribers = Function.update t.subscribers i ((t.subscribers i).reset pid) := by
  obtain ⟨pool', hrent, hfree, hsize⟩ := IDPool.rent_eq h.pool
  have hout : i ∉ rest := (List.nodup_cons.mp h.pool.nodup).1
  let opened := Subscription.new.openOrCreate t.semaphores t.heap ⟨pid, i⟩ i
  let t' : TopicService := { t with
    idPool := pool'
    subscribers := Function.update t.subscribers i ((t.subscribers i).reset pid)
    semaphores := opened.2
    heap := t.heap + 1
    subscriptions := (t.subscriptions.push opened.1).2 }
  refine ⟨t', opened.1, ?_, ?_, rfl, rfl⟩
  · simp only [TopicService.subscribe, hrent, ↓reduceIte]
    rfl
  · refine inv_enter h List.mem_cons_self hfree hsize hout
      (fun j hj => List.mem_cons_of_mem i hj) rfl rfl ?_ ?_
    · simp [t', SubscriptionSharedData.reset]
    · intro j hj
      by_cases hji : j = i
      · subst hji
        simp [t', SubscriptionSharedData.reset]
      · simpa [t', hji] using hj

/-- Without a semaphore the id stays rented and its slot active, and the bag is what it was. -/
theorem subscribe_refused {i : Nat} {rest : List Nat} (h : Inv t (i :: rest) subs) (pid : Nat) :
    ∃ t', t.subscribe pid false = .error (.cannotOpenSemaphore, t') ∧ Inv t' rest subs ∧
      t'.subscribers = Function.update t.subscribers i ((t.subscribers i).reset pid) := by
  obtain ⟨pool', hrent, hfree, hsize⟩ := IDPool.rent_eq h.pool
  let t' : TopicService := { t with
    idPool := pool'
    subscribers := Function.update t.subscribers i ((t.subscribers i).reset pid) }
  refine ⟨t', ?_, ⟨hfree, hsize.trans h.pool_size, h.bag, h.bag_size, h.distinct, fun s hs => ?_⟩, rfl⟩
  · simp only [TopicService.subscribe, hrent, Bool.false_eq_true, ↓reduceIte]
    rfl
  · obtain ⟨j, hj, hsj, hout, ha⟩ := h.slot s hs
    have hji : j ≠ i := fun he => hout (he ▸ List.mem_cons_self)
    refine ⟨j, hj, hsj, fun hm => hout (List.mem_cons_of_mem i hm), ?_⟩
    simpa [t', hji] using ha

theorem unsubscribe_same (t : TopicService) (pid id : Nat) (weakFailure : Bool) :
    (t.unsubscribe pid id weakFailure).2.idPool = t.idPool ∧
    (t.unsubscribe pid id weakFailure).2.subscriptions = t.subscriptions ∧
    ∀ i, ((t.unsubscribe pid id weakFailure).2.subscribers i).active = (t.subscribers i).active ∧
      ((t.unsubscribe pid id weakFailure).2.subscribers i).pid = (t.subscribers i).pid := by
  unfold TopicService.unsubscribe
  dsimp only
  split
  · split
    · refine ⟨rfl, rfl, fun i => ?_⟩
      by_cases hi : i = id
      · subst hi
        simp
      · simp [hi]
    · exact ⟨rfl, rfl, fun i => ⟨rfl, rfl⟩⟩
  · exact ⟨rfl, rfl, fun i => ⟨rfl, rfl⟩⟩

/-- The invariant speaks of the pool, the bag and the active marks only. -/
theorem inv_congr (h : Inv t free subs) (hpool : t'.idPool = t.idPool)
    (hbag : t'.subscriptions = t.subscriptions)
    (hactive : ∀ i, (t'.subscribers i).active = (t.subscribers i).active) : Inv t' free subs where
  pool := hpool ▸ h.pool
  pool_size := hpool ▸ h.pool_size
  bag := hbag ▸ h.bag
  bag_size := hbag ▸ h.bag_size
  distinct := h.distinct
  slot := by
    intro x hx
    obtain ⟨i, hi, hxi, hfree, ha⟩ := h.slot x hx
    exact ⟨i, hi, hxi, hfree, (hactive i).trans ha⟩

/-- Visiting a subscription changes nothing but its start and its count. -/
theorem visit_same (w : TopicService × List Subscription) (s : Subscription) :
    SameSlots w.1 (TopicService.visit w s).1 := by
  unfold TopicService.visit
  dsimp only
  split
  · exact ⟨rfl, rfl, fun i => ⟨rfl, rfl, rfl⟩⟩
  · refine ⟨rfl, rfl, fun i => ?_⟩
    by_cases hi : i = s.index.toNat
    · subst hi
      simp
    · simp [hi]

theorem SameSlots.trans {t'' : TopicService} (h : SameSlots t t') (h' : SameSlots t' t'') : SameSlots t t'' := by
  refine ⟨h'.1.trans h.1, h'.2.1.trans h.2.1, fun i => ⟨?_, ?_, ?_⟩⟩
  · exact (h'.2.2 i).1.trans (h.2.2 i).1
  · exact (h'.2.2 i).2.1.trans (h.2.2 i).2.1
  · exact (h'.2.2 i).2.2.trans (h.2.2 i).2.2

/-- The first loop collects the pending subscriptions, the last one first. -/
theorem visit_all (subs : List Subscription) (w : TopicService × List Subscription) :
    SameSlots w.1 (subs.foldl TopicService.visit w).1 ∧
    (subs.foldl TopicService.visit w).2 = (subs.filter (Pending w.1)).reverse ++ w.2 := by
  induction subs generalizing w with
  | nil => exact ⟨⟨rfl, rfl, fun i => ⟨rfl, rfl, rfl⟩⟩, rfl⟩
  | cons s subs ih =>
    have hs := visit_same w s
    obtain ⟨hsame, hlist⟩ := ih (TopicService.visit w s)
    have hp : Pending (TopicService.visit w s).1 = Pending w.1 := by
      funext x
      exact (hs.2.2 _).1
    refine ⟨hs.trans hsame, ?_⟩
    rw [List.foldl_cons, hlist, hp]
    by_cases h : Pending w.1 s = true
    · have hv : (TopicService.visit w s).2 = s :: w.2 := by
        simp only [Pending] at h
        simp [TopicService.visit, h]
      rw [hv, List.filter_cons_of_pos h]
      simp
    · have hv : (TopicService.visit w s).2 = w.2 := by
        simp only [Pending] at h
        simp [TopicService.visit, h]
      rw [hv, List.filter_cons_of_neg h]

/-- Two subscriptions with one index are one subscription. -/
theorem eq_of_index (hd : (subs.map Subscription.index).Nodup) {x y : Subscription} (hx : x ∈ subs) (hy : y ∈ subs)
    (he : x.index = y.index) : x = y := List.inj_on_of_nodup_map hd hx hy he

theorem eraseP_eq_filter (hd : (subs.map Subscription.index).Nodup) (hs : s ∈ subs) :
    subs.eraseP (· == s) = subs.filter (fun x => decide (x.index ≠ s.index)) := by
  induction subs with
  | nil => rfl
  | cons a subs ih =>
    rw [List.map_cons, List.nodup_cons] at hd
    by_cases ha : a = s
    · subst ha
      rw [List.eraseP_cons, Subscription.beq_self, cond_true, List.filter_cons_of_neg (by simp),
        List.filter_eq_self.mpr]
      intro x hx
      rw [decide_eq_true_iff]
      exact fun he => hd.1 (List.mem_map.mpr ⟨x, hx, he⟩)
    · have hs : s ∈ subs := by
        rcases List.mem_cons.mp hs with rfl | hs
        · exact absurd rfl ha
        · exact hs
      have hne : a.index ≠ s.index := fun he => hd.1 (List.mem_map.mpr ⟨s, hs, he.symm⟩)
      have hbeq : (a == s) = false := by
        rw [← Bool.not_eq_true]
        exact fun he => hne (Subscription.index_of_beq he)
      rw [List.eraseP_cons, hbeq, cond_false, List.filter_cons_of_pos (by simpa using hne), ih hd.2 hs]

/-- A subscription taken out keeps its id rented: its copy's index is -1 by then. -/
theorem discard_ok (h : Inv t free subs) (hs : s ∈ subs) :
    ∃ t', t.discard s = .ok t' ∧ Inv t' free (subs.filter (fun x => decide (x.index ≠ s.index))) ∧
      t'.subscribers = Function.update t.subscribers s.index.toNat
        { t.subscribers s.index.toNat with pendingRemove := false, active := false } := by
  obtain ⟨hany, hholds, hcapacity⟩ := ConcurrentBag.remove_eq h.bag s
  have hfound : subs.any (· == s) = true := List.any_eq_true.mpr ⟨s, hs, Subscription.beq_self s⟩
  have hdiscard : t.discard s = .ok (t.without s) := by
    rw [TopicService.discard_eq, hany, hfound, if_pos rfl]
  refine ⟨t.without s, hdiscard, ⟨h.pool, h.pool_size, ?_, ?_, ?_, ?_⟩, rfl⟩
  · rw [← eraseP_eq_filter h.distinct hs]
    exact hholds
  · exact hcapacity.trans h.bag_size
  · exact h.distinct.sublist (List.filter_sublist.map _)
  · intro x hx
    rw [List.mem_filter, decide_eq_true_iff] at hx
    obtain ⟨i, hi, hxi, hfree, ha⟩ := h.slot x hx.1
    obtain ⟨j, _, hsj, _⟩ := h.slot s hs
    refine ⟨i, hi, hxi, hfree, ?_⟩
    have hne : i ≠ s.index.toNat := by omega
    simpa [TopicService.without, hne] using ha

/-- The second loop takes out every subscription it is given. -/
theorem discardAll_ok {l : List Subscription} (h : Inv t free subs) (hl : ∀ s ∈ l, s ∈ subs)
    (hd : (l.map Subscription.index).Nodup) :
    ∃ t', t.discardAll l = .ok t' ∧
      Inv t' free (subs.filter (fun x => decide (x.index ∉ l.map Subscription.index))) ∧
      ∀ i, (t'.subscribers i).pid = (t.subscribers i).pid ∧
        ((t'.subscribers i).active = true → (t.subscribers i).active = true) := by
  induction l generalizing t subs with
  | nil => exact ⟨t, rfl, by simpa using h, fun i => ⟨rfl, id⟩⟩
  | cons s l ih =>
    rw [List.map_cons, List.nodup_cons] at hd
    obtain ⟨t₁, ht₁, hi, htable⟩ := discard_ok h (hl s List.mem_cons_self)
    have hmem : ∀ x ∈ l, x ∈ subs.filter (fun x => decide (x.index ≠ s.index)) := by
      intro x hx
      rw [List.mem_filter, decide_eq_true_iff]
      exact ⟨hl x (List.mem_cons_of_mem s hx), fun he => hd.1 (List.mem_map.mpr ⟨x, hx, he⟩)⟩
    obtain ⟨t', ht', hinv, hfields⟩ := ih hi hmem hd.2
    refine ⟨t', ?_, ?_, fun i => ?_⟩
    · simp only [TopicService.discardAll, ht₁, ht']
    · rw [List.filter_filter] at hinv
      have heq : subs.filter (fun x => decide (x.index ∉ (s :: l).map Subscription.index)) =
          subs.filter (fun x => decide (x.index ∉ l.map Subscription.index) && decide (x.index ≠ s.index)) := by
        refine List.filter_congr fun x _ => ?_
        rw [← Bool.decide_and, decide_eq_decide, List.map_cons, List.mem_cons]
        tauto
      rw [heq]
      exact hinv
    · have hf := hfields i
      rw [htable] at hf
      by_cases hi : i = s.index.toNat
      · subst hi
        simp only [Function.update_self] at hf
        exact ⟨hf.1, fun ha => absurd (hf.2 ha) (by simp)⟩
      · rwa [Function.update_of_ne hi] at hf

/-- NotifyAll never fails, takes out exactly the pending subscriptions, and
gives none of their ids back. -/
theorem notifyAll_ok (h : Inv t free subs) :
    ∃ t', t.notifyAll = .ok t' ∧ Inv t' free (subs.filter (fun x => !Pending t x)) ∧
      ∀ i, (t'.subscribers i).pid = (t.subscribers i).pid ∧
        ((t'.subscribers i).active = true → (t.subscribers i).active = true) := by
  obtain ⟨⟨hpool, hbag, htable⟩, hlist⟩ := visit_all subs (t, [])
  let v := subs.foldl TopicService.visit (t, [])
  have hv : Inv v.1 free subs := inv_congr h hpool hbag (fun i => (htable i).2.1)
  have hremove : v.2 = (subs.filter (Pending t)).reverse := by simpa using hlist
  have hmem : ∀ x ∈ v.2, x ∈ subs := by
    intro x hx
    rw [hremove, List.mem_reverse] at hx
    exact List.mem_of_mem_filter hx
  have hdistinct : (v.2.map Subscription.index).Nodup := by
    rw [hremove, List.map_reverse, List.nodup_reverse]
    exact h.distinct.sublist (List.filter_sublist.map _)
  obtain ⟨t', ht', hinv, hfields⟩ := discardAll_ok hv hmem hdistinct
  refine ⟨t', ?_, ?_, fun i => ?_⟩
  · rw [TopicService.notifyAll, h.bag.items_eq]
    exact ht'
  · have heq : subs.filter (fun x => !Pending t x) =
        subs.filter (fun x => decide (x.index ∉ v.2.map Subscription.index)) := by
      refine List.filter_congr fun x hx => ?_
      have hiff : x.index ∈ v.2.map Subscription.index ↔ Pending t x = true := by
        rw [hremove, List.map_reverse, List.mem_reverse, List.mem_map]
        constructor
        · rintro ⟨y, hy, hyx⟩
          rw [List.mem_filter] at hy
          exact eq_of_index h.distinct hy.1 hx hyx ▸ hy.2
        · exact fun hp => ⟨x, List.mem_filter.mpr ⟨hx, hp⟩, rfl⟩
      rw [Bool.eq_iff_iff, Bool.not_eq_true', decide_eq_true_iff, hiff, Bool.not_eq_true]
    rw [heq]
    exact hinv
  · obtain ⟨hp, ha⟩ := hfields i
    exact ⟨hp.trans (htable i).2.2, fun hact => (htable i).2.1 ▸ ha hact⟩

/-- A pass that a `Release` ends changes no slot but for starts and counts. -/
theorem refusedPass_same {refused : List Nat} (subs : List Subscription) (t : TopicService)
    (h : t.refusedPass refused subs = some t') : SameSlots t t' := by
  induction subs generalizing t with
  | nil => cases h
  | cons s subs ih =>
    rw [TopicService.refusedPass] at h
    split at h
    · cases h
      exact visit_same (t, []) s
    · exact (visit_same (t, []) s).trans (ih _ h)

/-- No `Release` of the pass throws. -/
theorem refusedPass_none {refused : List Nat} (subs : List Subscription) (t : TopicService) :
    t.refusedPass refused subs = none ↔ ∀ s ∈ subs, t.refuses refused s = false := by
  induction subs generalizing t with
  | nil => simp [TopicService.refusedPass]
  | cons s subs ih =>
    have hsame : ∀ x, (TopicService.visit (t, []) s).1.refuses refused x = t.refuses refused x := by
      intro x
      rw [TopicService.refuses, TopicService.refuses, ((visit_same (t, []) s).2.2 _).1]
    rw [TopicService.refusedPass, List.forall_mem_cons]
    by_cases hs : t.refuses refused s = true
    · simp [hs]
    · rw [if_neg hs, ih]
      simp [hs, hsame]

theorem publish_ok (h : Inv t free subs) (scope : WriterScope) :
    ∃ t', t.publish scope = .ok t' ∧
      Inv t' free (if 0 < scope.span.committed then subs.filter (fun x => !Pending t x) else subs) ∧
      ∀ i, (t'.subscribers i).pid = (t.subscribers i).pid ∧
        ((t'.subscribers i).active = true → (t.subscribers i).active = true) := by
  let published : TopicService := { t with buffer := scope.destroy t.buffer }
  have hp : Inv published free subs := inv_congr h rfl rfl (fun _ => rfl)
  by_cases hc : 0 < scope.span.committed
  · obtain ⟨t', ht', hinv, hfields⟩ := notifyAll_ok hp
    refine ⟨t', ?_, ?_, hfields⟩
    · simp only [TopicService.publish, hc, ↓reduceIte]
      exact ht'
    · rw [if_pos hc]
      exact hinv
  · refine ⟨published, ?_, ?_, fun i => ⟨rfl, id⟩⟩
    · simp only [TopicService.publish, hc, ↓reduceIte]
      rfl
    · rw [if_neg hc]
      exact hp

/-- What the rebuild loop knows before its turn for slot `k`: the later ids are
still free and the table says what it said. -/
structure Rebuilding (old t : TopicService) (k : Nat) : Prop where
  state : ∃ free subs, Inv t free subs ∧ ∀ i, k ≤ i → i < 256 → i ∈ free
  table : ∀ i, (t.subscribers i).active = (old.subscribers i).active ∧
    (t.subscribers i).pid = (old.subscribers i).pid

theorem rebuildEntry_ok {old : TopicService} {k : Nat} (h : Rebuilding old t k) (hk : k < 256)
    (running : Nat → Bool) : ∃ t', t.rebuildEntry running k = .ok t' ∧ Rebuilding old t' (k + 1) := by
  obtain ⟨free, subs, hinv, hlater⟩ := h.state
  have hkeep : Rebuilding old t (k + 1) :=
    ⟨⟨free, subs, hinv, fun i hi => hlater i (by omega)⟩, h.table⟩
  have hdangling : Rebuilding old (t.removeDanglingSubscriptionEntry k) (k + 1) := by
    have hfields : ∀ i, ((t.removeDanglingSubscriptionEntry k).subscribers i).active = (t.subscribers i).active ∧
        ((t.removeDanglingSubscriptionEntry k).subscribers i).pid = (t.subscribers i).pid := by
      intro i
      by_cases hi : i = k
      · subst hi
        simp [TopicService.removeDanglingSubscriptionEntry]
      · simp [TopicService.removeDanglingSubscriptionEntry, hi]
    refine ⟨⟨free, subs, inv_congr hinv rfl rfl (fun i => (hfields i).1), fun i hi => hlater i (by omega)⟩,
      fun i => ?_⟩
    exact ⟨(hfields i).1.trans (h.table i).1, (hfields i).2.trans (h.table i).2⟩
  unfold TopicService.rebuildEntry
  dsimp only
  by_cases ha : (t.subscribers k).active = true
  · rw [if_pos ha]
    by_cases hp : (t.subscribers k).pendingRemove = true
    · rw [if_pos hp]
      exact ⟨_, rfl, hdangling⟩
    · rw [if_neg hp]
      by_cases hr : running (t.subscribers k).pid = true
      · rw [hr]
        have hfree := hlater k (Nat.le_refl k) hk
        obtain ⟨pool', htry, hpool, hsize⟩ := IDPool.tryRent_eq hinv.pool hfree
        have hnodup := hinv.pool.nodup
        simp only [Bool.not_true, Bool.false_eq_true, ↓reduceIte, htry]
        refine ⟨_, rfl, ⟨free.erase k, _, inv_enter hinv hfree hpool hsize ?_ ?_ rfl rfl ha (fun _ h => h), ?_⟩,
          h.table⟩
        · exact fun hm => (hnodup.mem_erase_iff.mp hm).1 rfl
        · exact fun j hj => List.mem_of_mem_erase hj
        · intro i hi hi'
          exact hnodup.mem_erase_iff.mpr ⟨by omega, hlater i (by omega) hi'⟩
      · rw [Bool.not_eq_true] at hr
        simp only [hr, Bool.not_false, ↓reduceIte]
        exact ⟨_, rfl, hdangling⟩
  · rw [if_neg ha]
    exact ⟨t, rfl, hkeep⟩

theorem rebuildEntries_ok {old : TopicService} {k n : Nat} (h : Rebuilding old t k) (hk : k + n = 256)
    (running : Nat → Bool) :
    ∃ t', t.rebuildEntries running (List.range' k n) = .ok t' ∧ Rebuilding old t' 256 := by
  induction n generalizing t k with
  | zero =>
    obtain rfl : k = 256 := by omega
    exact ⟨t, rfl, h⟩
  | succ n ih =>
    obtain ⟨t₁, ht₁, h₁⟩ := rebuildEntry_ok h (by omega) running
    obtain ⟨t', ht', h'⟩ := ih h₁ (by omega)
    refine ⟨t', ?_, h'⟩
    rw [List.range'_succ]
    simp only [TopicService.rebuildEntries, ht₁, ht']

/-- Before the loop the bag is empty and every id is free. -/
theorem rebuilding_start (t : TopicService) : Rebuilding t { t with
    subscriptions := .new 256 .new
    idPool := .new 256
    buffer := { t.buffer with memory := t.buffer.memory.unlock.2 } } 0 := by
  refine ⟨⟨List.range 256, [], ?_, fun i _ hi => List.mem_range.mpr hi⟩, fun i => ⟨rfl, rfl⟩⟩
  exact ⟨(IDPool.new_free 256).1, (IDPool.new_free 256).2,
    ConcurrentBag.new_holds 256 Subscription.new, rfl, List.nodup_nil, by simp⟩

/-- Rebuilding never fails, whatever the table says and whoever is running. -/
theorem rebuild_ok (t : TopicService) (running : Nat → Bool) :
    ∃ t', t.rebuild running = .ok t' ∧ Rebuilding t t' 256 := by
  obtain ⟨t', ht', h'⟩ := rebuildEntries_ok (rebuilding_start t) (n := 256) rfl running
  refine ⟨t', ?_, h'⟩
  rw [TopicService.rebuild, List.range_eq_range']
  exact ht'

/-- The rented ids are exactly the slots of the subscriptions in the bag. -/
def Exact (t : TopicService) : Prop :=
  ∀ i < 256, i ∉ t.idPool.freeList ↔ ∃ s ∈ t.subscriptions.items, s.index = i

/-- A subscriber for whom there is an id gets its semaphore, and a pass that is not ended by
a `Release` finds no slot marked for removal. -/
def Lossless (t : TopicService) : Call → Prop
  | .subscribe _ opens => t.idPool.head ≠ none → opens = true
  | .notifyAll refused => (∀ s ∈ t.subscriptions.items, t.refuses refused s = false) →
    ∀ s ∈ t.subscriptions.items, Pending t s = false
  | .publish scope => 0 < scope.span.committed → ∀ s ∈ t.subscriptions.items, Pending t s = false
  | .unsubscribe _ _ _ => True

theorem exact_iff (h : Inv t free subs) : Exact t ↔ ∀ i < 256, i ∉ free → ∃ s ∈ subs, s.index = i := by
  unfold Exact
  rw [h.pool.freeList_eq, h.bag.items_eq]
  refine forall_congr' fun i => forall_congr' fun hi => ⟨fun he => he.mp, fun he => ⟨he, ?_⟩⟩
  rintro ⟨s, hs, hsi⟩
  obtain ⟨j, _, hj, hout, _⟩ := h.slot s hs
  have hji : j = i := by omega
  exact hji ▸ hout

theorem head_iff (h : Inv t free subs) : t.idPool.head = none ↔ free = [] := by
  have hchain := h.pool.chain
  cases free with
  | nil => exact ⟨fun _ => rfl, fun _ => hchain⟩
  | cons i rest =>
    rw [hchain.1]
    exact ⟨fun hsome => absurd hsome (Option.some_ne_none i), fun hcons => absurd hcons (List.cons_ne_nil i rest)⟩

/-- An active slot of a table in which one slot has been taken for a process. -/
theorem active_reset {c : Call} {i pid : Nat} (hr : rented t c = some (i, pid))
    (htable : t'.subscribers = Function.update t.subscribers i ((t.subscribers i).reset pid)) (j : Nat)
    (ha : (t'.subscribers j).active = true) : rented t c = some (j, (t'.subscribers j).pid) ∨
      ((∀ p, rented t c ≠ some (j, p)) ∧ (t.subscribers j).active = true ∧
        (t'.subscribers j).pid = (t.subscribers j).pid) := by
  rw [hr]
  by_cases hij : j = i
  · subst hij
    left
    rw [htable, Function.update_self]
    rfl
  · rw [htable, Function.update_of_ne hij] at ha ⊢
    exact Or.inr ⟨fun p he => hij (by simpa using congrArg (Option.map Prod.fst) he.symm), ha, rfl⟩

/-- Every call happens and keeps the invariant. A slot active afterwards was
rented by this call, or was active before and its process is the same. -/
theorem call_ok (h : Inv t free subs) (c : Call) :
    ∃ t' free' subs', call t c = some t' ∧ Inv t' free' subs' ∧
      (Lossless t c → Exact t → Exact t') ∧
      ∀ i, (t'.subscribers i).active = true → rented t c = some (i, (t'.subscribers i).pid) ∨
        ((∀ p, rented t c ≠ some (i, p)) ∧ (t.subscribers i).active = true ∧
          (t'.subscribers i).pid = (t.subscribers i).pid) := by
  cases c with
  | subscribe pid opens =>
    cases free with
    | nil =>
      have hs := subscribe_full h pid opens
      have hrent := IDPool.rent_eq h.pool
      refine ⟨t, [], subs, by simp only [call, hs], h, fun _ he => he, fun i ha => Or.inr ⟨?_, ha, rfl⟩⟩
      simp [rented, hrent]
    | cons j rest =>
      have hrented := rented_cons h pid opens
      cases opens with
      | false =>
        obtain ⟨t', hs, hinv, htable⟩ := subscribe_refused h pid
        refine ⟨t', rest, subs, by simp only [call, hs], hinv, fun hl => ?_, active_reset hrented htable⟩
        have hhead : t.idPool.head ≠ none := by
          rw [Ne, head_iff h]
          exact List.cons_ne_nil j rest
        cases hl hhead
      | true =>
        obtain ⟨t', s, hs, hinv, hindex, htable⟩ := subscribe_ok h pid
        refine ⟨t', rest, s :: subs, by simp only [call, hs], hinv, fun _ he => ?_, active_reset hrented htable⟩
        rw [exact_iff h] at he
        rw [exact_iff hinv]
        intro i hi hout
        by_cases hij : i = j
        · exact ⟨s, List.mem_cons_self, by omega⟩
        · obtain ⟨x, hx, hxi⟩ := he i hi (by simp [hij, hout])
          exact ⟨x, List.mem_cons_of_mem s hx, hxi⟩
  | unsubscribe pid id weakFailure =>
    obtain ⟨hpool, hbag, htable⟩ := unsubscribe_same t pid id weakFailure
    have hinv := inv_congr h hpool hbag (fun i => (htable i).1)
    refine ⟨_, free, subs, rfl, hinv, fun _ he => ?_, fun i ha =>
      Or.inr ⟨fun p => by simp [rented], ?_, (htable i).2⟩⟩
    · rw [exact_iff h] at he
      rw [exact_iff hinv]
      exact he
    · exact (htable i).1 ▸ ha
  | notifyAll refused =>
    cases hpass : t.refusedPass refused t.subscriptions.items with
    | some t' =>
      obtain ⟨hpool, hbag, htable⟩ := refusedPass_same _ _ hpass
      have hinv := inv_congr h hpool hbag (fun i => (htable i).2.1)
      refine ⟨t', free, subs, by simp only [call, hpass], hinv, fun _ he => ?_,
        fun i ha => Or.inr ⟨fun p => by simp [rented], ?_, (htable i).2.2⟩⟩
      · rw [exact_iff h] at he
        rw [exact_iff hinv]
        exact he
      · exact (htable i).2.1 ▸ ha
    | none =>
      obtain ⟨t', ht', hinv, htable⟩ := notifyAll_ok h
      refine ⟨t', free, _, by simp only [call, hpass, ht', Except.toOption], hinv, fun hl he => ?_,
        fun i ha => Or.inr ⟨fun p => by simp [rented], (htable i).2 ha, (htable i).1⟩⟩
      have hp := hl ((refusedPass_none _ _).mp hpass)
      rw [h.bag.items_eq] at hp
      rw [exact_iff h] at he
      rw [exact_iff hinv, List.filter_eq_self.mpr (fun x hx => by simp [hp x hx])]
      exact he
  | publish scope =>
    obtain ⟨t', ht', hinv, htable⟩ := publish_ok h scope
    refine ⟨t', free, _, by simp only [call, ht', Except.toOption], hinv, fun hp he => ?_,
      fun i ha => Or.inr ⟨fun p => by simp [rented], (htable i).2 ha, (htable i).1⟩⟩
    simp only [Lossless, h.bag.items_eq] at hp
    rw [exact_iff h] at he
    rw [exact_iff hinv]
    by_cases hc : 0 < scope.span.committed
    · rw [if_pos hc, List.filter_eq_self.mpr (fun x hx => by simp [hp hc x hx])]
      exact he
    · rw [if_neg hc]
      exact he

/-- An id that is rented and whose subscription is not there. -/
theorem leak {i : Nat} (h : Inv t free subs) (hi : i < 256) (hout : i ∉ free)
    (hbag : ∀ s ∈ subs, s.index ≠ i) :
    ¬ Exact t := by
  intro he
  obtain ⟨s, hs, hsi⟩ := (exact_iff h).mp he i hi hout
  exact hbag s hs hsi

/-- A call that takes a subscription out of the bag, or rents an id without putting one in,
leaves an id rented for nothing. -/
theorem not_exact_of_lossy (h : Inv t free subs) {c : Call} (hl : ¬ Lossless t c) :
    ∃ t', call t c = some t' ∧ ¬ Exact t' := by
  have hremoved : ∀ {t' : TopicService}, Inv t' free (subs.filter (fun x => !Pending t x)) →
      (∃ s ∈ subs, Pending t s = true) → ¬ Exact t' := by
    rintro t' hinv ⟨s, hs, hpend⟩
    obtain ⟨i, hi, hsi, hout, -⟩ := h.slot s hs
    refine leak hinv hi hout fun x hx hxi => ?_
    rw [List.mem_filter] at hx
    have hxs : x = s := eq_of_index h.distinct hx.1 hs (hxi.trans hsi.symm)
    simp [hxs, hpend] at hx
  cases c with
  | subscribe pid opens =>
    simp only [Lossless, Classical.not_imp, Bool.not_eq_true] at hl
    obtain ⟨hhead, rfl⟩ := hl
    cases free with
    | nil => exact absurd ((head_iff h).mpr rfl) hhead
    | cons i rest =>
      obtain ⟨t', hs, hinv, -⟩ := subscribe_refused h pid
      have hlt := h.pool.bound i List.mem_cons_self
      rw [h.pool_size] at hlt
      refine ⟨t', by simp only [call, hs], leak hinv hlt (List.nodup_cons.mp h.pool.nodup).1 fun s hs hsi => ?_⟩
      obtain ⟨j, -, hj, hout, -⟩ := h.slot s hs
      have hji : j = i := by omega
      exact hout (hji ▸ List.mem_cons_self)
  | unsubscribe pid id weakFailure => exact absurd trivial hl
  | notifyAll refused =>
    obtain ⟨t', ht', hinv, -⟩ := notifyAll_ok h
    rw [Lossless, Classical.not_imp] at hl
    have hpass := (refusedPass_none _ _).mpr hl.1
    refine ⟨t', by simp only [call, hpass, ht', Except.toOption], hremoved hinv ?_⟩
    simpa [h.bag.items_eq] using hl.2
  | publish scope =>
    obtain ⟨t', ht', hinv, -⟩ := publish_ok h scope
    simp only [Lossless, h.bag.items_eq, Classical.not_imp] at hl
    rw [if_pos hl.1] at hinv
    refine ⟨t', by simp only [call, ht', Except.toOption], hremoved hinv ?_⟩
    simpa using hl.2

theorem inv_calls {buffer : CyclicBuffer} {calls : List Call} (ht : run call (.new buffer) calls = some t) :
    ∃ free subs, Inv t free subs := by
  refine run_invariant (I := fun t => ∃ free subs, Inv t free subs) ?_ ⟨_, _, inv_new buffer⟩ ht
  rintro t c t' ⟨free, subs, hinv⟩ hc
  obtain ⟨u, free', subs', hu, hinv', _⟩ := call_ok hinv c
  rw [hu, Option.some.injEq] at hc
  exact hc ▸ ⟨free', subs', hinv'⟩

/-- While the rented ids are the slots in the bag, Subscribe fails for want of an id only
when all 256 subscriptions are there. -/
theorem full_of_error (h : Inv t free subs) (he : Exact t) {pid : Nat} {e : TopicError × TopicService}
    (herr : t.subscribe pid true = .error e) : t.subscriptions.items.length = 256 := by
  rw [exact_iff h] at he
  cases free with
  | cons i rest =>
    obtain ⟨t', s, hok, _⟩ := subscribe_ok h pid
    rw [hok] at herr
    cases herr
  | nil =>
    have hle := room h
    have hsub : (List.range 256) ⊆ subs.map (fun s => s.index.toNat) := by
      intro i hi
      obtain ⟨s, hs, hsi⟩ := he i (List.mem_range.mp hi) List.not_mem_nil
      exact List.mem_map.mpr ⟨s, hs, by omega⟩
    have hge := (List.subperm_of_subset List.nodup_range hsub).length_le
    rw [h.bag.items_eq]
    simp only [List.length_range, List.length_map, List.length_nil] at hge hle
    omega

/-- A Subscribe that loses nothing fails as one whose semaphore is opened. -/
theorem error_of_lossless (h : Inv t free subs) {pid : Nat} {opens : Bool} {e : TopicError × TopicService}
    (hl : Lossless t (.subscribe pid opens)) (herr : t.subscribe pid opens = .error e) :
    t.subscribe pid true = .error e := by
  cases free with
  | nil => rwa [subscribe_full h] at herr ⊢
  | cons i rest =>
    have hhead : t.idPool.head ≠ none := by
      rw [Ne, head_iff h]
      exact List.cons_ne_nil i rest
    rwa [hl hhead] at herr

/-- In every state of a run from a new service the rented ids are the slots in the bag, a
Subscribe whose semaphore can be opened fails only when all 256 are there, and so does the
Subscribe that the run makes there, if and only if no call of the run loses an id. -/
theorem slots_exact_iff (buffer : CyclicBuffer) (calls : List Call) :
    (∀ pre suf t, calls = pre ++ suf → run call (.new buffer) pre = some t → Exact t ∧
      (∀ pid e, t.subscribe pid true = .error e → t.subscriptions.items.length = 256) ∧
      ∀ pid opens later e, suf = .subscribe pid opens :: later → t.subscribe pid opens = .error e →
        t.subscriptions.items.length = 256) ↔
    Guarded call Lossless (.new buffer) calls := by
  constructor
  · intro h pre c suf t hcalls ht
    obtain ⟨free, subs, hinv⟩ := inv_calls ht
    by_contra hl
    obtain ⟨t', hc, hleak⟩ := not_exact_of_lossy hinv hl
    exact hleak (h (pre ++ [c]) suf t' (by simp [hcalls]) (run_join ht (run_step hc))).1
  · intro hg pre suf t hcalls ht
    have hboth : (∃ free subs, Inv t free subs) ∧ Exact t := by
      refine guarded_visits (I := fun t => (∃ free subs, Inv t free subs) ∧ Exact t) ?_ ?_ hg
        ⟨pre, suf, hcalls, ht⟩
      · rintro t c t' ⟨⟨free, subs, hinv⟩, he⟩ hl hc
        obtain ⟨u, free', subs', hu, hinv', hexact, _⟩ := call_ok hinv c
        rw [hu, Option.some.injEq] at hc
        exact hc ▸ ⟨⟨free', subs', hinv'⟩, hexact hl he⟩
      · refine ⟨⟨_, _, inv_new buffer⟩, (exact_iff (inv_new buffer)).mpr fun i hi hout => ?_⟩
        exact absurd (List.mem_range.mpr hi) hout
    obtain ⟨⟨free, subs, hinv⟩, he⟩ := hboth
    refine ⟨he, fun pid e herr => full_of_error hinv he herr, ?_⟩
    rintro pid opens later e rfl herr
    exact full_of_error hinv he (error_of_lossless hinv (hg pre _ later t hcalls ht) herr)

/-- One subscriber comes and goes: its id stays rented and the bag is empty. -/
theorem leaked_slot : ∃ t, run call (.new (.new 4 64 (fun _ => ⟨0, 0, 0⟩) (fun _ => 0)))
    [.subscribe 7 true, .unsubscribe 7 0 false, .notifyAll []] = some t ∧
    0 ∉ t.idPool.freeList ∧ t.subscriptions.items = [] ∧ ¬ Exact t := by
  have hrun : (run call (.new (.new 4 64 (fun _ => ⟨0, 0, 0⟩) (fun _ => 0)))
      [.subscribe 7 true, .unsubscribe 7 0 false, .notifyAll []]).map
      (fun t => (decide (0 ∈ t.idPool.freeList), t.subscriptions.items)) = some (false, []) := by
    decide +kernel
  obtain ⟨t, ht, hfields⟩ := Option.map_eq_some_iff.mp hrun
  rw [Prod.mk.injEq, decide_eq_false_iff_not] at hfields
  refine ⟨t, ht, hfields.1, hfields.2, fun he => ?_⟩
  obtain ⟨s, hs, _⟩ := (he 0 (by decide)).mp hfields.1
  rw [hfields.2] at hs
  cases hs

/-- The invariant of the service, and that each active slot belongs to the process
that subscribed it last. -/
def WorldInv (w : World) : Prop :=
  (∃ free subs, Inv w.topic free subs) ∧
  ∀ i, (w.topic.subscribers i).active = true → w.subscriber i = some (w.topic.subscribers i).pid

theorem inv_step {w w' : World} {e : Event} (h : WorldInv w) (hs : step w e = some w') : WorldInv w' := by
  obtain ⟨⟨free, subs, hinv⟩, howner⟩ := h
  cases e with
  | call c =>
    obtain ⟨t', free', subs', hc, hinv', _, htable⟩ := call_ok hinv c
    simp only [step, hc, Option.map_some, Option.some.injEq] at hs
    subst hs
    refine ⟨⟨free', subs', hinv'⟩, fun i ha => ?_⟩
    rcases htable i ha with hr | ⟨hr, hold, hpid⟩
    · simp [hr]
    · rw [hpid, ← howner i hold]
      cases hc : rented w.topic c with
      | none => rfl
      | some r =>
        obtain ⟨j, p⟩ := r
        have hij : i ≠ j := fun he => hr p (he ▸ hc)
        simp [hij]
  | restart running =>
    obtain ⟨t', ht', hreb⟩ := rebuild_ok w.topic running
    simp only [step, ht', Except.toOption, Option.map_some, Option.some.injEq] at hs
    subst hs
    obtain ⟨free', subs', hinv', _⟩ := hreb.state
    refine ⟨⟨free', subs', hinv'⟩, fun i ha => ?_⟩
    obtain ⟨hactive, hpid⟩ := hreb.table i
    rw [hpid]
    exact howner i (hactive ▸ ha)

/-- In every state of every run, restarts included, the subscriptions in the bag
have distinct slots that are not free, active and marked with the process that
subscribed them; whenever Subscribe gets an id its push finds room; and
no call and no rebuild gets stuck. -/
theorem slots_not_shared (buffer : CyclicBuffer) (events : List Event) (w : World)
    (hw : Visits step ⟨.new buffer, fun _ => none⟩ events w) :
    (w.topic.subscriptions.items.map Subscription.index).Nodup ∧
    (∀ s ∈ w.topic.subscriptions.items, ∃ i : Nat, i < 256 ∧ s.index = i ∧ i ∉ w.topic.idPool.freeList ∧
      (w.topic.subscribers i).active = true ∧ w.subscriber i = some (w.topic.subscribers i).pid) ∧
    (∀ pid opens r, w.topic.subscribe pid opens = .ok r → ∀ s, (w.topic.subscriptions.push s).1 = true) ∧
    ∀ e, (step w e).isSome := by
  have hstart : WorldInv ⟨.new buffer, fun _ => none⟩ :=
    ⟨⟨_, _, inv_new buffer⟩, fun i ha => by simp [TopicService.new] at ha⟩
  have hinv : WorldInv w := by
    obtain ⟨pre, suf, _, hpre⟩ := hw
    exact run_invariant (fun _ _ _ hi hs => inv_step hi hs) hstart hpre
  obtain ⟨⟨free, subs, h⟩, howner⟩ := hinv
  rw [h.bag.items_eq, h.pool.freeList_eq]
  refine ⟨h.distinct, fun s hs => ?_, fun pid opens r hr s => ?_, fun e => ?_⟩
  · obtain ⟨i, hi, hsi, hout, ha⟩ := h.slot s hs
    exact ⟨i, hi, hsi, hout, ha, howner i ha⟩
  · cases free with
    | nil =>
      rw [subscribe_full h pid opens] at hr
      cases hr
    | cons i rest => exact (push_room h List.mem_cons_self s).1
  · cases e with
    | call c =>
      obtain ⟨t', _, _, hc, _⟩ := call_ok h c
      simp [step, hc]
    | restart running =>
      obtain ⟨t', ht', _⟩ := rebuild_ok w.topic running
      simp [step, ht', Except.toOption]

/-- Two subscribers and one that got no semaphore; the server starts over when the second
has ended. The third slot is active, so that it gets its subscription then. -/
def refusedThenRestarted : List Event :=
  [.call (.subscribe 7 true), .call (.subscribe 8 true), .call (.subscribe 9 false), .call (.notifyAll []),
    .restart (fun pid => pid != 8), .call (.subscribe 8 true)]

theorem slots_not_shared_after_restart :
    ∃ w, run step ⟨.new (.new 4 64 (fun _ => ⟨0, 0, 0⟩) (fun _ => 0)), fun _ => none⟩ refusedThenRestarted =
      some w ∧
    w.topic.subscriptions.items.map Subscription.index = [1, 2, 0] ∧
    (w.topic.subscriptions.items.map Subscription.index).Nodup ∧
    ∀ s ∈ w.topic.subscriptions.items, ∃ i : Nat, i < 256 ∧ s.index = i ∧ i ∉ w.topic.idPool.freeList ∧
      (w.topic.subscribers i).active = true ∧ w.subscriber i = some (w.topic.subscribers i).pid := by
  have hrun : (run step ⟨.new (.new 4 64 (fun _ => ⟨0, 0, 0⟩) (fun _ => 0)), fun _ => none⟩
      refusedThenRestarted).map (fun w => w.topic.subscriptions.items.map Subscription.index) = some [1, 2, 0] := by
    decide +kernel
  obtain ⟨w, hw, hitems⟩ := Option.map_eq_some_iff.mp hrun
  have hshared := slots_not_shared _ _ w (visits_end hw)
  exact ⟨w, hw, hitems, hshared.1, hshared.2.1⟩

end SubscriptionSlots
