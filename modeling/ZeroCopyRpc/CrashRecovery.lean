import ZeroCopyRpc.ServerCrash
import ZeroCopyRpc.SubscriptionDelivery

/-!
# What a crash does to the subscribers

A restart opens the accounts of the slots it enters again. A subscriber is level
with the log afterwards if it was level when the server died, that is, if the
pass under way had left it. One whose token was still to come, or was counted
and not released, stays behind for good, and nobody tells it.
-/
namespace CrashRecovery

open LinkedChain ServerCrash SubscriptionAccounts SubscriptionMachine SubscriptionTurns TokenLedger TopicReopening
open TopicRestart (entered_iff mem_entries passed rebuilt)
open Transitions Words

variable {s s' : State} {used free ids rest : List Nat} {running : Nat → Bool} {t : TopicService}

/-- Different names lead to different objects. -/
theorem names_distinct (hl : Layout s used free ids rest) (hn : Named s) : s.topic.semaphores.Distinct := by
  intro k o ho
  obtain ⟨p, hp, hobject⟩ := hl.names k o ho
  obtain ⟨hlt, hinj⟩ := hl.objects k.index p hp
  refine ⟨hobject ▸ hlt, fun k' ho' => ?_⟩
  obtain ⟨q, hq, hobject'⟩ := hl.names k' o ho'
  have hindex := hinj k'.index q hq (hobject.trans hobject'.symm)
  have hpid := (hn.names k o ho).2
  rw [hindex, (hn.names k' o ho').2] at hpid
  cases k
  cases k'
  simp only at hindex hpid
  rw [hindex, hpid]

theorem rejoins_iff {i : Nat} : Rejoins running s i = true ↔
    i < 256 ∧ TopicRestart.Entered running (s.topic.subscribers i) = true := by
  rw [Rejoins, Bool.and_eq_true, decide_eq_true_iff]

/-- What a slot that is entered again has: its data, and the semaphore that its
name led to, or a new one. -/
structure Rejoined (running : Nat → Bool) (s : State) (t : TopicService) (i : Nat) (p : Pushed) : Prop where
  rejoins : Rejoins running s i = true
  slot : t.subscribers i = s.topic.subscribers i
  name : t.semaphores.names ⟨(t.subscribers i).pid, i⟩ = some p.object
  entries : p.entries = t.buffer.nextIndex
  object : s.topic.semaphores.names ⟨(t.subscribers i).pid, i⟩ = some p.object ∨
    s.topic.semaphores.names ⟨(t.subscribers i).pid, i⟩ = none ∧ t.semaphores.count p.object = 0

theorem slot_same (hr : Reopened running s.topic t 256) {i : Nat} (hi : Rejoins running s i = true) :
    t.subscribers i = s.topic.subscribers i := by
  obtain ⟨hlt, he⟩ := rejoins_iff.mp hi
  obtain ⟨hactive, hpending, -⟩ := entered_iff.mp he
  rw [hr.passed.table i, if_pos hlt, passed, if_pos hactive, ← hpending]

theorem rejoined (hr : Reopened running s.topic t 256) {i : Nat} (hi : Rejoins running s i = true) :
    ∃ p, (restarted running s t).pushed i = some p ∧ Rejoined running s t i p := by
  have hslot := slot_same hr hi
  obtain ⟨hlt, he⟩ := rejoins_iff.mp hi
  have hmem : (⟨(t.subscribers i).pid, i⟩ : SemaphoreName) ∈ names s.topic.subscribers 256 :=
    mem_names.mpr ⟨hlt, (entered_iff.mp he).1, by rw [hslot]⟩
  obtain ⟨o, ho, hobject⟩ := hr.tended.kept _ hmem he
  refine ⟨⟨(t.subscribers i).pid, t.buffer.nextIndex, o⟩, ?_, hi, hslot, ho, rfl, hobject⟩
  simp only [restarted, hi, ↓reduceIte, ho, Option.map_some]

theorem rejoined_of_pushed (hr : Reopened running s.topic t 256) {i : Nat} {p : Pushed}
    (hp : (restarted running s t).pushed i = some p) : Rejoined running s t i p := by
  by_cases hi : Rejoins running s i = true
  · obtain ⟨q, hq, hrejoined⟩ := rejoined hr hi
    rwa [Option.some.inj (hp.symm.trans hq)]
  · simp [restarted, hi] at hp

/-- The semaphore of a subscription that was there is the one it gets again. -/
theorem object_kept (hn : Named s) {i : Nat} {p q : Pushed} (h : Rejoined running s t i q) (hp : s.pushed i = some p) :
    q.object = p.object := by
  have hactive := (entered_iff.mp (rejoins_iff.mp h.rejoins).2).1
  have hname := hn.linked i p hp hactive
  have hobject := h.object
  rw [h.slot, hname] at hobject
  rcases hobject with hsame | ⟨hnone, -⟩
  · exact (Option.some.inj hsame).symm
  · cases hnone

/-- A name that leads somewhere after the restart is that of a slot entered. -/
theorem name_rejoins (hl : Layout s used free ids rest) (hn : Named s) (hr : Reopened running s.topic t 256)
    {k : SemaphoreName} {o : Nat} (ho : t.semaphores.names k = some o) :
    Rejoins running s k.index = true ∧ (t.subscribers k.index).pid = k.pid := by
  have hmem : k ∈ names s.topic.subscribers 256 := by
    by_contra hout
    have hold := hr.tended.other k hout
    rw [ho] at hold
    obtain ⟨hactive, hpid⟩ := hn.names k o hold.symm
    obtain ⟨p, hp, -⟩ := hl.names k o hold.symm
    exact hout (mem_names.mpr ⟨hn.small.1 _ p hp, hactive, hpid⟩)
  obtain ⟨hlt, -, hpid⟩ := mem_names.mp hmem
  have hi : Rejoins running s k.index = true := by
    refine rejoins_iff.mpr ⟨hlt, ?_⟩
    by_contra hkeep
    have hnone := hr.tended.unlinked k hmem (Bool.not_eq_true _ ▸ hkeep)
    rw [ho] at hnone
    cases hnone
  exact ⟨hi, by rw [slot_same hr hi, hpid]⟩

/-- A subscription in the new bag. -/
theorem item_rejoined (hr : Reopened running s.topic t 256) {sub : Subscription}
    (hsub : sub ∈ t.subscriptions.items) :
    ∃ (i : Nat) (sem : NamedSemaphore) (p : Pushed), sub.index = i ∧ sub.sem = some sem ∧
      sub.name = some sem.name ∧
      sem.name = ⟨(t.subscribers i).pid, i⟩ ∧ sem.handle = p.object ∧
      (restarted running s t).pushed i = some p := by
  obtain ⟨i, hi, he, hindex, hname⟩ := Passed.item hr.passed hsub
  obtain ⟨sem, hsem, hname', hopen⟩ := hr.opened sub hsub
  obtain ⟨p, hp, hrejoined⟩ := rejoined hr (rejoins_iff.mpr ⟨hi, he⟩)
  have htitle : sem.name = ⟨(t.subscribers i).pid, i⟩ := by
    rw [hrejoined.slot]
    exact Option.some.inj (hname'.symm.trans hname)
  rw [htitle, hrejoined.name, Option.some.injEq] at hopen
  exact ⟨i, sem, p, hindex, hsem, hname', htitle, hopen.symm, hp⟩

/-- A slot that is entered is in the new bag. -/
theorem rejoins_item (hr : Reopened running s.topic t 256) {i : Nat} (hi : Rejoins running s i = true) :
    ∃ sub ∈ t.subscriptions.items, sub.index = (i : Int) := by
  obtain ⟨hlt, he⟩ := rejoins_iff.mp hi
  have hmem : TopicRestart.entry s.topic.subscribers i ∈ rebuilt t := by
    rw [hr.passed.bag]
    exact mem_entries.mpr ⟨i, hlt, he, rfl⟩
  obtain ⟨sub, hsub, hid⟩ := List.mem_map.mp hmem
  exact ⟨sub, hsub, congrArg Prod.fst hid⟩

theorem layout_restarted (hl : Layout s used free ids rest) (hn : Named s) (hr : Reopened running s.topic t 256) :
    ∃ used' free' ids', Layout (restarted running s t) used' free' ids' [] ∧ t.idPool.size = 256 := by
  obtain ⟨ids', subs, hinv, -⟩ := hr.passed.rebuilding.state
  obtain ⟨used', free', hnodes, hvalues⟩ := hinv.bag
  have hitem : ∀ n ∈ used', t.subscriptions.value n ∈ t.subscriptions.items :=
    fun n hn' => (mem_items hnodes).mpr ⟨n, hn', rfl⟩
  refine ⟨used', free', ids', ?_, hinv.pool_size⟩
  constructor
  · exact hnodes
  · exact hinv.pool
  · have hdistinct : (used'.map (fun n => (t.subscriptions.value n).index)).Nodup := by
      have := hinv.distinct
      rwa [← hvalues, List.map_map] at this
    refine (List.nodup_map_iff_inj_on (chain_nodup hnodes.items)).mpr fun m hm n hn' he => ?_
    obtain ⟨i, -, -, hi, -⟩ := item_rejoined hr (hitem m hm)
    obtain ⟨j, -, -, hj, -⟩ := item_rejoined hr (hitem n hn')
    refine List.inj_on_of_nodup_map hdistinct hm hn' ?_
    simp only [State.slot, restarted, hi, hj, Int.toNat_natCast] at he ⊢
    rw [he]
  · intro n hn'
    obtain ⟨i, sem, p, hindex, hsem, -, -, hobject, hp⟩ := item_rejoined hr (hitem n hn')
    refine ⟨p, sem, ?_, hsem, hobject⟩
    have hslot : (restarted running s t).slot n = i := by
      simp only [State.slot, restarted, hindex, Int.toNat_natCast]
    rw [hslot]
    exact hp
  · exact ⟨by simp, rfl⟩
  · intro i hi
    refine ⟨?_, by simp [restarted]⟩
    by_contra hne
    obtain ⟨p, hp⟩ := Option.ne_none_iff_exists'.mp hne
    obtain ⟨sub, hsub, hindex⟩ := rejoins_item hr (rejoined_of_pushed hr hp).rejoins
    rw [hinv.bag.items_eq] at hsub
    obtain ⟨j, -, hj, hout, -⟩ := hinv.slot sub hsub
    have hij : j = i := by omega
    exact hout (hij ▸ hi)
  · exact ⟨List.nodup_nil, by simp [restarted]⟩
  · intro i p hp
    have hname := (rejoined_of_pushed hr hp).name
    refine ⟨(hr.tended.distinct _ _ hname).1, fun j q hq heq => ?_⟩
    have hname' := (rejoined_of_pushed hr hq).name
    rw [← heq] at hname'
    exact congrArg SemaphoreName.index ((hr.tended.distinct _ _ hname).2 _ hname')
  · intro k o ho
    obtain ⟨hi, hpid⟩ := name_rejoins hl hn hr ho
    obtain ⟨p, hp, hrejoined⟩ := rejoined hr hi
    refine ⟨p, hp, ?_⟩
    have hname := hrejoined.name
    rw [hpid] at hname
    exact Option.some.inj (hname.symm.trans ho)
  · intro i r hreader
    by_cases hi : Rejoins running s i = true
    · obtain ⟨p, hp, hrejoined⟩ := rejoined hr hi
      simp only [restarted, hi, ↓reduceIte] at hreader
      obtain ⟨q, hq, hsem⟩ := hl.readers i r hreader
      exact ⟨p, hp, hsem.trans (object_kept hn hrejoined hq).symm⟩
    · simp [restarted, hi] at hreader

theorem named_restarted (hl : Layout s used free ids rest) (hn : Named s) (hr : Reopened running s.topic t 256)
    (hsize : t.idPool.size = 256) : Named (restarted running s t) := by
  constructor
  · exact fun i p hp _ => (rejoined_of_pushed hr hp).name
  · intro k o ho
    obtain ⟨hi, hpid⟩ := name_rejoins hl hn hr ho
    refine ⟨?_, hpid⟩
    change (t.subscribers k.index).active = true
    rw [slot_same hr hi]
    exact (entered_iff.mp (rejoins_iff.mp hi).2).1
  · intro i pid hi
    cases hi
  · exact ⟨fun i p hp => (rejoins_iff.mp (rejoined_of_pushed hr hp).rejoins).1, fun e he => by cases he⟩
  · exact hsize
  · rintro sub (hsub | hsub)
    · obtain ⟨i, sem, p, hindex, hsem, hname, htitle, -, hp⟩ := item_rejoined hr hsub
      refine ⟨sem, p, hsem, hname, ?_, ?_⟩
      · rw [hindex, Int.toNat_natCast]
        exact htitle
      · rw [hindex, Int.toNat_natCast]
        exact hp
    · cases hsub

/-- The account of a slot that is entered again, when the crash was harmless. -/
theorem account_restarted (h : Books s used free ids rest) (hr : Reopened running s.topic t 256)
    (hharmless : Harmless running s) {i : Nat} {p : Pushed} (hp : (restarted running s t).pushed i = some p)
    (present : Bool) :
    Account t.buffer.nextIndex p present (t.subscribers i) (t.semaphores.count p.object)
      ((restarted running s t).readers i) .passed ∧
    Level ⟨t.buffer.nextIndex, p.entries, present, (t.subscribers i).pendingRemove, (t.subscribers i).nextIndex,
      (t.subscribers i).notified, t.semaphores.count p.object, ((restarted running s t).readers i).elim 0 taken,
      .passed⟩ := by
  have hrejoined := rejoined_of_pushed hr hp
  have hreaders : (restarted running s t).readers i = s.readers i := by
    simp only [restarted, hrejoined.rejoins, ↓reduceIte]
  have hcount : ∀ q, s.pushed i = some q →
      t.semaphores.count p.object = s.topic.semaphores.count q.object ∧
      Account s.topic.buffer.nextIndex q (decide (i ∈ used.map s.slot)) (s.topic.subscribers i)
        (s.topic.semaphores.count q.object) (s.readers i) (stageOf s.publisher s.slot rest i) := by
    intro q hq
    rw [object_kept h.named hrejoined hq]
    exact ⟨hr.tended.count _ (h.layout.objects i q hq).1, h.accounts i q hq⟩
  rw [hreaders, hrejoined.slot, hrejoined.entries, hr.nextIndex]
  by_cases hz : (s.topic.subscribers i).notified = 0
  · -- Without a token counted there is none to be found.
    have huntaken : t.semaphores.count p.object = 0 ∧ (s.readers i).elim 0 taken = 0 ∧
        Reading (s.topic.subscribers i).nextIndex (s.readers i) := by
      cases hq : s.pushed i with
      | some q =>
        obtain ⟨hsame, hacc⟩ := hcount q hq
        have htokens := hacc.balanced.tokens
        simp only [hz] at htokens
        exact ⟨by omega, by omega, hacc.reading⟩
      | none =>
        have hreader : s.readers i = none := by
          by_contra hne
          obtain ⟨r, hreader⟩ := Option.ne_none_iff_exists'.mp hne
          obtain ⟨q, hq', -⟩ := h.layout.readers i r hreader
          rw [hq] at hq'
          cases hq'
        rw [hreader]
        refine ⟨?_, rfl, trivial⟩
        rcases hrejoined.object with hold | ⟨-, hnew⟩
        · obtain ⟨q, hq', -⟩ := h.layout.names _ _ hold
          rw [hq] at hq'
          cases hq'
        · exact hnew
    obtain ⟨hcount, htaken, hreading⟩ := huntaken
    refine ⟨⟨?_, hreading⟩, fun _ _ hpos => ?_⟩
    · rw [hcount, htaken, hz, hrejoined.entries, hr.nextIndex]
      exact balanced_new (Or.inl rfl)
    · simp only [hz] at hpos
      omega
  · -- The pass has left the slot, so its account is settled.
    obtain ⟨⟨sub, hsub, hindex⟩, hstage⟩ := hharmless i hrejoined.rejoins hz
    obtain ⟨n, hn, hvalue⟩ := (mem_items h.layout.nodes).mp hsub
    have hslot : s.slot n = i := by rw [State.slot, hvalue, hindex]
    obtain ⟨q, -, hq, -⟩ := h.layout.member n hn
    rw [hslot] at hq
    obtain ⟨hsame, hacc⟩ := hcount q hq
    rw [stageAt, toVisit_eq h.layout] at hstage
    have hpresent : i ∈ used.map s.slot := hslot ▸ List.mem_map_of_mem hn
    have hbalanced := balanced_again hacc.balanced hstage present
    have hlevel := h.level i q hq
    rw [hsame]
    rw [hstage] at hbalanced
    refine ⟨⟨?_, hacc.reading⟩, fun _ hmarked hpos _ => ?_⟩
    · rw [hrejoined.entries, hr.nextIndex]
      exact hbalanced
    · have := hlevel (decide_eq_true hpresent) hmarked hpos (by simp [ledger, hstage])
      simpa only [ledger, hstage] using this

/-- A harmless crash leaves the books in order. -/
theorem inv_restart (h : ServerCrash.Inv s) (hharmless : Harmless running s) (hs : restart running s = some s') :
    ServerCrash.Inv s' ∧ s'.topic.buffer.nextIndex = s.topic.buffer.nextIndex := by
  obtain ⟨used, free, ids, rest, h⟩ := h
  obtain ⟨t, ht, hr⟩ := rebuild_reopened s.topic (names_distinct h.layout h.named) running
  rw [restart, ht] at hs
  cases hs
  obtain ⟨used', free', ids', hl', hsize⟩ := layout_restarted h.layout h.named hr
  have hpassed : ∀ i, stageOf .idle (restarted running s t).slot [] i = .passed := fun i => by simp [stageOf]
  refine ⟨⟨used', free', ids', [], hl', fun i p hp => ?_, fun i p hp => ?_,
    named_restarted h.layout h.named hr hsize⟩, hr.nextIndex⟩
  · have hacc := (account_restarted h hr hharmless hp (decide (i ∈ used'.map (restarted running s t).slot))).1
    rw [← hpassed i] at hacc
    exact hacc
  · have hlevel := (account_restarted h hr hharmless hp (decide (i ∈ used'.map (restarted running s t).slot))).2
    rw [← hpassed i] at hlevel
    exact hlevel

theorem inv_step (h : ServerCrash.Inv s) {e : ServerCrash.Event} (hg : Guard s e)
    (hbound : s.topic.buffer.nextIndex + e.entries < 0xffffffffffffffff) (hs : ServerCrash.step s e = some s') :
    ServerCrash.Inv s' ∧ s'.topic.buffer.nextIndex = s.topic.buffer.nextIndex + e.entries := by
  cases e with
  | server e => exact inv_server h hbound hs
  | crash running => exact inv_restart h hg hs
  | crashWriting scope slotWritten running =>
    simp only [ServerCrash.step] at hs
    split at hs
    · rename_i hcond
      have hfilled := inv_restart (inv_fill h hcond.1 scope slotWritten) hg hs
      exact hfilled
    · cases hs

theorem inv_start (buffer : CyclicBuffer) : ServerCrash.Inv (start buffer) := by
  obtain ⟨used, free, ids, rest, hl, ha⟩ := SubscriptionAccounts.inv_start buffer
  refine ⟨used, free, ids, rest, hl, ha, fun i p hp => (by cases hp), ?_⟩
  constructor
  · intro i p hp
    cases hp
  · intro k o ho
    cases ho
  · intro i pid hi
    cases hi
  · exact ⟨fun i p hp => (by cases hp), fun e he => by cases he⟩
  · exact (IDPool.new_free 256).2
  · rintro sub (hsub | hsub)
    · have hitems : sub ∈ (ConcurrentBag.new 256 Subscription.new).items := hsub
      rw [(ConcurrentBag.new_holds 256 Subscription.new).items_eq] at hitems
      cases hitems
    · cases hsub

/-- While the publisher is idle, a subscription that is here to stay and was
notified has a token for each entry from its start on, in the semaphore its
reader waits on or taken by the reader; the reader has read the first of these
entries in order; and with the last token it finds the newest entry. -/
def InStep (s : State) : Prop :=
  s.publisher = .idle → ∀ sub ∈ s.topic.subscriptions.items,
    let slot := sub.index.toNat
    let data := s.topic.subscribers slot
    data.pendingRemove = false → data.notified ≠ 0 → ∃ sem, sub.sem = some sem ∧
      let count := s.topic.semaphores.count sem.handle
      data.nextIndex + (count + (s.readers slot).elim 0 taken) = s.topic.buffer.nextIndex ∧
      ∀ r, s.readers slot = some r → r.sem = sem.handle ∧ r.reads = List.range' data.nextIndex r.reads.length ∧
        (r.holding = true → count = 0 →
          ∀ c, r.cursor = some c ∨ r.cursor = none ∧ c = CyclicBuffer.openCursorAt data.nextIndex →
            c.tryRead s.topic.buffer = (true, ⟨s.topic.buffer.nextIndex - 1⟩))

theorem inStep_of_inv (h : ServerCrash.Inv s) (hbound : s.topic.buffer.nextIndex < 0xffffffffffffffff) : InStep s := by
  obtain ⟨used, free, ids, rest, hl, ha, hlevel, -⟩ := h
  intro hp sub hsub slot data hmarked hnotified
  obtain ⟨n, hn, rfl⟩ := (mem_items hl.nodes).mp hsub
  obtain ⟨p, sem, hpushed, hsem, hobject⟩ := hl.member n hn
  have hpushed : s.pushed slot = some p := hpushed
  have hstage : stageOf s.publisher s.slot rest slot = .passed := by
    have hnil := hl.pass.2
    rw [hp] at hnil
    simp [stageOf, hp, hnil]
  have htokens := (ha slot p hpushed).balanced.tokens
  have hequal := hlevel slot p hpushed (decide_eq_true (List.mem_map_of_mem hn)) hmarked (Nat.pos_of_ne_zero hnotified)
    (by simp [ledger, hstage])
  simp only [ledger, hstage, Stage.ahead, Stage.held, Nat.add_zero] at htokens hequal
  have hsum : data.nextIndex + (s.topic.semaphores.count sem.handle + (s.readers slot).elim 0 taken) =
      s.topic.buffer.nextIndex := by
    rw [hobject, ← htokens]
    exact hequal
  refine ⟨sem, hsem, hsum, fun r hr => ?_⟩
  obtain ⟨q, hq, hreader⟩ := hl.readers slot r hr
  obtain rfl := Option.some.inj (hpushed.symm.trans hq)
  obtain ⟨_, -, hreads, -, hread⟩ := next_read hl (follows_of_accounts ha) (covered_of_accounts ha) hbound hr
  refine ⟨hreader.trans hobject.symm, hreads, fun hholding hzero c hc => ?_⟩
  have htaken : taken r = r.reads.length + 1 := by simp [taken, hholding]
  rw [hr, Option.elim_some, htaken] at hsum
  rw [hread hholding c hc]
  have hindex : (s.topic.subscribers slot).nextIndex + r.reads.length = s.topic.buffer.nextIndex - 1 := by
    change data.nextIndex + r.reads.length = _
    omega
  rw [hindex]

/-- In every run in which each crash finds the subscriptions that it will enter
again, and that were notified, in the bag and behind the pass under way, every
such subscription is level with the log whenever the publisher is idle. -/
theorem in_step (capacity size : Nat) (items : Nat → Entry) (bytes : Nat → UInt8) (events : List ServerCrash.Event)
    (hcount : ServerCrash.publications events < 0xffffffffffffffff)
    (hg : Guarded ServerCrash.step Guard (start (.new capacity size items bytes)) events) (s : State)
    (hs : Visits ServerCrash.step (start (.new capacity size items bytes)) events s) : InStep s := by
  have hzero : (start (.new capacity size items bytes)).topic.buffer.nextIndex = 0 := rfl
  obtain ⟨hinv, hbound⟩ := visits_budget (fun s => s.topic.buffer.nextIndex) ServerCrash.Event.entries
    (inv_start _) hg hs (by rwa [hzero, Nat.zero_add]) fun _ _ _ h hg hbound hs => inv_step h hg hbound hs
  exact inStep_of_inv hinv hbound

/-- Where only one event of a run is a crash, only this one has to be harmless. -/
theorem guarded_crash {before after : List SubscriptionMachine.Event}
    (h : ∀ t, run ServerCrash.step s (before.map .server) = some t → Harmless running t) :
    Guarded ServerCrash.step Guard s (before.map .server ++ .crash running :: after.map .server) := by
  induction before generalizing s with
  | nil =>
    intro pre e suf t he ht
    cases pre with
    | nil =>
      cases he
      cases ht
      exact h s rfl
    | cons x pre =>
      have hmem : e ∈ after.map ServerCrash.Event.server := by
        rw [(List.cons.inj he).2]
        simp
      obtain ⟨e', -, rfl⟩ := List.mem_map.mp hmem
      trivial
  | cons x before ih =>
    intro pre e suf t he ht
    cases pre with
    | nil =>
      cases he
      trivial
    | cons y pre =>
      obtain ⟨rfl, htail⟩ := List.cons.inj he
      obtain ⟨u, hu, hrun⟩ := run_cons_some ht
      refine ih (fun v hv => h v ?_) pre e suf t htail hrun
      rw [List.map_cons, run_cons, hu]
      exact hv

/-- A subscriber of process 7 on slot 0, and a pass that has just left it. -/
def almostDelivered : List SubscriptionMachine.Event :=
  [.reset 7, .push 0, .openSemaphore 0, .publish SubscriptionDelivery.oneByte] ++ List.replicate 5 (.notify false)

/-- The server dies before its pass has ended; the subscriber's first token
hands it the first entry. -/
theorem in_step_after_crash : ∃ s, run ServerCrash.step (start (.new 4 64 (fun _ => ⟨0, 0, 0⟩) (fun _ => 0)))
    (almostDelivered.map .server ++ .crash (fun pid => pid == 7) ::
      [SubscriptionMachine.Event.acquire 0, .load 0].map .server) = some s ∧
    s.readers 0 = some ⟨0, some ⟨0xffffffffffffffff⟩, true, []⟩ ∧
    (⟨0xffffffffffffffff⟩ : Cursor).tryRead s.topic.buffer = (true, ⟨s.topic.buffer.nextIndex - 1⟩) := by
  have hbefore : (run ServerCrash.step (start (.new 4 64 (fun _ => ⟨0, 0, 0⟩) (fun _ => 0)))
      (almostDelivered.map .server)).map (fun s => (s.topic.subscriptions.items.map (fun sub => sub.index.toNat),
        stageAt s 0, (List.range 256).filter (Rejoins (fun pid => pid == 7) s))) = some ([0], .passed, [0]) := by
    decide +kernel
  obtain ⟨t, ht, hfields⟩ := Option.map_eq_some_iff.mp hbefore
  simp only [Prod.mk.injEq] at hfields
  obtain ⟨hitems, hstage, hrejoins⟩ := hfields
  have hharmless : ∀ u, run ServerCrash.step (start (.new 4 64 (fun _ => ⟨0, 0, 0⟩) (fun _ => 0)))
      (almostDelivered.map .server) = some u → Harmless (fun pid => pid == 7) u := by
    intro u hu i hi _
    obtain rfl := Option.some.inj (ht.symm.trans hu)
    have hmem : i ∈ (List.range 256).filter (Rejoins (fun pid => pid == 7) t) :=
      List.mem_filter.mpr ⟨List.mem_range.mpr (rejoins_iff.mp hi).1, hi⟩
    rw [hrejoins, List.mem_singleton] at hmem
    subst hmem
    refine ⟨?_, hstage⟩
    have hin : 0 ∈ t.topic.subscriptions.items.map (fun sub => sub.index.toNat) := by simp [hitems]
    exact List.mem_map.mp hin
  have hrun : (run ServerCrash.step (start (.new 4 64 (fun _ => ⟨0, 0, 0⟩) (fun _ => 0)))
      (almostDelivered.map .server ++ .crash (fun pid => pid == 7) ::
        [SubscriptionMachine.Event.acquire 0, .load 0].map .server)).map
      (fun s => (s.publisher, s.topic.subscriptions.items, s.readers 0)) =
      some (.idle, [⟨some ⟨1, 0, ⟨7, 0⟩⟩, 0, some ⟨7, 0⟩⟩],
        some ⟨0, some ⟨0xffffffffffffffff⟩, true, []⟩) := by
    decide +kernel
  have hdata : (run ServerCrash.step (start (.new 4 64 (fun _ => ⟨0, 0, 0⟩) (fun _ => 0)))
      (almostDelivered.map .server ++ .crash (fun pid => pid == 7) ::
        [SubscriptionMachine.Event.acquire 0, .load 0].map .server)).map
      (fun s => (s.topic.subscribers 0, s.topic.semaphores.count 0)) = some (⟨0, 1, false, true, 7⟩, 0) := by
    decide +kernel
  obtain ⟨s, hs, hstate⟩ := Option.map_eq_some_iff.mp hrun
  rw [hs, Option.map_some, Option.some.injEq] at hdata
  simp only [Prod.mk.injEq] at hstate hdata
  obtain ⟨hp, hbag, hreader⟩ := hstate
  obtain ⟨hslot, hcount⟩ := hdata
  have hstep := in_step 4 64 _ _ _ (by decide) (guarded_crash hharmless) s (visits_end hs) hp _
    (hbag ▸ List.mem_singleton.mpr rfl)
  simp only [Int.toNat_zero, hslot, Option.some.injEq, exists_eq_left', hcount, hreader] at hstep
  obtain ⟨-, hread⟩ := hstep trivial (by decide)
  exact ⟨s, hs, hreader, (hread _ rfl).2.2 rfl trivial _ (Or.inl rfl)⟩

/-- One entry delivered, and the index raised for the next. -/
def secondRaised : List SubscriptionMachine.Event :=
  SubscriptionDelivery.oneDelivery ++ [.publish SubscriptionDelivery.oneByte]

/-- One entry with its whole pass, and two reads. -/
def thirdDelivered : List SubscriptionMachine.Event :=
  .publish SubscriptionDelivery.oneByte :: List.replicate 6 (.notify false) ++
    [.acquire 0, .load 0, .tryRead 0, .acquire 0, .tryRead 0]

/-- The server dies when it has raised the index for the second entry. A third
one is published and its pass is complete; the subscriber takes every token it
was given and has not read the third entry. -/
theorem left_behind : ∃ s, run ServerCrash.step (start (.new 4 64 (fun _ => ⟨0, 0, 0⟩) (fun _ => 0)))
    (secondRaised.map .server ++ .crash (fun pid => pid == 7) :: thirdDelivered.map .server) = some s ∧
    s.readers 0 = some ⟨0, some ⟨1⟩, false, [0, 1]⟩ ∧ s.topic.semaphores.count 0 = 0 ∧
    s.topic.buffer.nextIndex = 3 ∧ ¬ InStep s := by
  have hrun : (run ServerCrash.step (start (.new 4 64 (fun _ => ⟨0, 0, 0⟩) (fun _ => 0)))
      (secondRaised.map .server ++ .crash (fun pid => pid == 7) :: thirdDelivered.map .server)).map
      (fun s => ((s.publisher, s.topic.subscriptions.items, s.readers 0),
        s.topic.subscribers 0, s.topic.semaphores.count 0, s.topic.buffer.nextIndex)) =
      some ((.idle, [⟨some ⟨1, 0, ⟨7, 0⟩⟩, 0, some ⟨7, 0⟩⟩],
        some ⟨0, some ⟨1⟩, false, [0, 1]⟩),
        ⟨0, 2, false, true, 7⟩, 0, 3) := by
    decide +kernel
  obtain ⟨s, hs, hfields⟩ := Option.map_eq_some_iff.mp hrun
  simp only [Prod.mk.injEq] at hfields
  obtain ⟨⟨hp, hbag, hreader⟩, hslot, hcount, hnext⟩ := hfields
  refine ⟨s, hs, hreader, hcount, hnext, fun h => ?_⟩
  have hstep := h hp _ (hbag ▸ List.mem_singleton.mpr rfl)
  simp only [Int.toNat_zero, hslot, Option.some.injEq, exists_eq_left', hcount, hreader, hnext] at hstep
  obtain ⟨hsum, -⟩ := hstep trivial (by decide)
  simp [taken] at hsum

end CrashRecovery
