import ZeroCopyRpc.SubscriptionTurns
import ZeroCopyRpc.TopicReopening

/-!
# A server that dies and starts over

The server of a topic can die between any two of its steps, and is then started
again over the surviving segment. Its bag, its id pool and its threads are gone;
the table, the log and the semaphores are left, and the clients that run keep
the semaphores they have open.
-/
namespace ServerCrash

open LinkedChain SubscriptionAccounts SubscriptionMachine SubscriptionTurns TokenLedger Transitions Words

/-- What the destructor of a `WriterScope` writes before it raises the index:
the size in use, and then the entry's slot. -/
def fill (w : WriterScope) (b : CyclicBuffer) (slotWritten : Bool) : CyclicBuffer :=
  let written := w.span.committed
  let nx := b.nextIndex
  let prvSize := if b.capacity ≤ nx then (b.items (subWord nx b.capacity % b.capacity)).size else 0
  { b with
    currentSize := subWord (addWord b.currentSize written) prvSize
    items := if slotWritten then
        Function.update b.items (nx % b.capacity) ⟨written, w.type, w.span.start⟩
      else b.items }

/-- Filling the slot and then raising the index is what `publish` does. -/
theorem publish_fill (w : WriterScope) (b : CyclicBuffer) (hw : 0 < w.span.committed) :
    w.publish b = { fill w b true with nextIndex := addWord b.nextIndex 1, log := b.log ++ [w.content b] } := by
  simp [WriterScope.publish, fill, hw]

inductive Event where
  | server (e : SubscriptionMachine.Event)
  | crash (running : Nat → Bool)
  | crashWriting (scope : WriterScope) (slotWritten : Bool) (running : Nat → Bool)

/-- The slot is entered into the new server's bag. -/
def Rejoins (running : Nat → Bool) (s : State) (i : Nat) : Bool :=
  decide (i < 256) && TopicRestart.Entered running (s.topic.subscribers i)

/-- A subscription that is entered counts as pushed now, with the semaphore its
name leads to; one that is not entered is over. -/
def restarted (running : Nat → Bool) (s : State) (topic : TopicService) : State where
  topic := topic
  publisher := .idle
  entering := []
  readers := fun i => if Rejoins running s i then s.readers i else none
  pushed := fun i => if Rejoins running s i then
    (topic.semaphores.names ⟨(topic.subscribers i).pid, i⟩).map
      fun object => ⟨(topic.subscribers i).pid, topic.buffer.nextIndex, object⟩
    else none

def restart (running : Nat → Bool) (s : State) : Option State :=
  (s.topic.rebuild running).toOption.map (restarted running s)

def step : Machine State Event
  | s, .server e => SubscriptionMachine.step s e
  | s, .crash running => restart running s
  | s, .crashWriting scope slotWritten running =>
    if s.publisher = .idle ∧ 0 < scope.span.committed then
      restart running { s with topic := { s.topic with buffer := fill scope s.topic.buffer slotWritten } }
    else none

def Event.entries : Event → Nat
  | .server e => e.entries
  | _ => 0

def publications (events : List Event) : Nat := (events.map Event.entries).sum

/-- Of the slots that the new server enters and that have had a notification,
each is in the bag of the old one and the pass has left it. -/
def Harmless (running : Nat → Bool) (s : State) : Prop :=
  ∀ i, Rejoins running s i = true → (s.topic.subscribers i).notified ≠ 0 →
    (∃ sub ∈ s.topic.subscriptions.items, sub.index.toNat = i) ∧ stageAt s i = .passed

def Guard (s : State) : Event → Prop
  | .server _ => True
  | .crash running | .crashWriting _ _ running => Harmless running s

/-- The entry of the bag is about its slot: the name says which one and whose. -/
def Titled (s : State) (sub : Subscription) : Prop :=
  ∃ sem p, sub.sem = some sem ∧ sub.name = some sem.name ∧
    sem.name = ⟨(s.topic.subscribers sub.index.toNat).pid, sub.index.toNat⟩ ∧ s.pushed sub.index.toNat = some p

/-- The names in the system are those of the active slots, and each leads to the
semaphore its slot was pushed with. -/
structure Named (s : State) : Prop where
  linked : ∀ i p, s.pushed i = some p → (s.topic.subscribers i).active = true →
    s.topic.semaphores.names ⟨(s.topic.subscribers i).pid, i⟩ = some p.object
  names : ∀ k o, s.topic.semaphores.names k = some o →
    (s.topic.subscribers k.index).active = true ∧ (s.topic.subscribers k.index).pid = k.pid
  entering : ∀ i pid, (i, pid) ∈ s.entering →
    (s.topic.subscribers i).active = true ∧ (s.topic.subscribers i).pid = pid
  small : (∀ i p, s.pushed i = some p → i < 256) ∧ ∀ e ∈ s.entering, e.1 < 256
  poolSize : s.topic.idPool.size = 256
  titled : ∀ sub, sub ∈ s.topic.subscriptions.items ∨ sub ∈ toRemove s.publisher → Titled s sub

structure Books (s : State) (used free ids rest : List Nat) : Prop where
  layout : Layout s used free ids rest
  accounts : Accounts s used rest
  level : ∀ i p, s.pushed i = some p → Level (ledger s used rest i p)
  named : Named s

def Inv (s : State) : Prop := ∃ used free ids rest, Books s used free ids rest

variable {s s' : State} {used free ids rest rest' : List Nat}

theorem titled_congr {sub : Subscription} (h : Titled s sub)
    (hpid : (s'.topic.subscribers sub.index.toNat).pid = (s.topic.subscribers sub.index.toNat).pid)
    (hpushed : ∀ p, s.pushed sub.index.toNat = some p → ∃ p', s'.pushed sub.index.toNat = some p') :
    Titled s' sub := by
  obtain ⟨sem, p, hsem, hname, htitle, hp⟩ := h
  obtain ⟨p', hp'⟩ := hpushed p hp
  exact ⟨sem, p', hsem, hname, by rw [hpid]; exact htitle, hp'⟩

/-- A subscription that the pass has met is in the bag. -/
theorem titled_met (hl : Layout s used free ids rest) (h : Named s) {sub : Subscription}
    (hsub : sub ∈ toRemove s.publisher ∨ ∃ n ∈ used, sub = s.topic.subscriptions.value n) : Titled s sub := by
  rcases hsub with hsub | ⟨n, hn, rfl⟩
  · exact h.titled sub (Or.inr hsub)
  · exact h.titled _ (Or.inl ((mem_items hl.nodes).mpr ⟨n, hn, rfl⟩))

theorem named_moved (hl : Layout s used free ids rest) (h : Named s) (hk : Kept s s')
    (hremove : ∀ sub ∈ toRemove s'.publisher, sub ∈ toRemove s.publisher ∨
      ∃ n ∈ used, sub = s.topic.subscriptions.value n) : Named s' := by
  have htitled : ∀ sub, Titled s sub → Titled s' sub := by
    intro sub hsub
    refine titled_congr hsub (hk.table _).2 fun p hp => ⟨p, ?_⟩
    rw [hk.pushed]
    exact hp
  constructor
  · intro i p hp ha
    rw [hk.pushed] at hp
    rw [(hk.table i).1] at ha
    rw [hk.names, (hk.table i).2]
    exact h.linked i p hp ha
  · intro k o ho
    rw [hk.names] at ho
    rw [(hk.table k.index).1, (hk.table k.index).2]
    exact h.names k o ho
  · intro i pid hi
    rw [hk.entering] at hi
    rw [(hk.table i).1, (hk.table i).2]
    exact h.entering i pid hi
  · rw [hk.pushed, hk.entering]
    exact h.small
  · rw [hk.idPool]
    exact h.poolSize
  · rintro sub (hsub | hsub)
    · rw [hk.bag] at hsub
      exact htitled sub (h.titled sub (Or.inl hsub))
    · exact htitled sub (titled_met hl h (hremove sub hsub))

/-- Closing a subscription unlinks the one name of its slot. -/
theorem close_names {sub : Subscription} (h : Titled s sub) (os : Semaphores SemaphoreName) :
    (sub.close os).2.names =
      Function.update os.names ⟨(s.topic.subscribers sub.index.toNat).pid, sub.index.toNat⟩ none := by
  obtain ⟨sem, p, hsem, hname, htitle, -⟩ := h
  simp only [Subscription.close, hsem, hname, Option.elim_some, Semaphores.remove, htitle, Function.update_idem]

theorem named_removed (hl : Layout s used free ids rest) (h : Named s) {sub : Subscription} {l : List Subscription}
    (hp : s.publisher = .removing (sub :: l)) :
    Named { s with topic := s.topic.without sub, publisher := .removing l } := by
  have hsub := h.titled sub (Or.inr (by simp [toRemove, hp]))
  have hnames : (s.topic.without sub).semaphores.names =
      Function.update s.topic.semaphores.names ⟨(s.topic.subscribers sub.index.toNat).pid, sub.index.toNat⟩ none :=
    close_names hsub s.topic.semaphores
  have hpid : ∀ i, ((s.topic.without sub).subscribers i).pid = (s.topic.subscribers i).pid := by
    intro i
    by_cases hi : i = sub.index.toNat
    · subst hi
      rw [without_self]
    · rw [without_other hi]
  have htitled : ∀ x, Titled s x → Titled { s with topic := s.topic.without sub, publisher := .removing l } x :=
    fun x hx => titled_congr hx (hpid _) fun p hp => ⟨p, hp⟩
  constructor
  · intro i p hi ha
    have hne : i ≠ sub.index.toNat := by
      rintro rfl
      simp [without_self] at ha
    simp only [without_other hne, hnames] at ha ⊢
    rw [Function.update_of_ne fun he => hne (congrArg SemaphoreName.index he)]
    exact h.linked i p hi ha
  · intro k o ho
    simp only [hnames] at ho
    have hk : k ≠ ⟨(s.topic.subscribers sub.index.toNat).pid, sub.index.toNat⟩ := by
      rintro rfl
      simp at ho
    rw [Function.update_of_ne hk] at ho
    obtain ⟨ha, hkpid⟩ := h.names k o ho
    have hne : k.index ≠ sub.index.toNat := by
      intro he
      refine hk ?_
      rw [← he, hkpid]
    simp only [without_other hne]
    exact ⟨ha, hkpid⟩
  · intro i pid hi
    have hne : i ≠ sub.index.toNat := by
      rintro rfl
      obtain ⟨_, p, -, -, -, hpushed⟩ := hsub
      have hnone := (hl.entering.2 _ (List.mem_map_of_mem (f := Prod.fst) hi)).1
      rw [hpushed] at hnone
      cases hnone
    simp only [without_other hne]
    exact h.entering i pid hi
  · exact h.small
  · exact h.poolSize
  · rintro x (hx | hx)
    · have hbag : s.topic.subscriptions.Holds (used.map s.topic.subscriptions.value) :=
        ⟨used, free, hl.nodes, rfl⟩
      have hmem : x ∈ (s.topic.subscriptions.remove sub).2.items := hx
      rw [(ConcurrentBag.remove_eq hbag sub).2.1.items_eq] at hmem
      obtain ⟨n, hn, hvalue⟩ := List.mem_map.mp (List.mem_of_mem_eraseP hmem)
      exact htitled x (titled_met hl h (Or.inr ⟨n, hn, hvalue.symm⟩))
    · exact htitled x (h.titled x (Or.inr (by simpa [toRemove, hp] using Or.inr hx)))

theorem named_reset (hl : Layout s used free ids rest) (h : Named s) {index : Nat} {idPool : IDPool}
    (hrent : s.topic.idPool.rent = some (index, idPool)) (pid : Nat) : Named (resetSlot s index pid idPool) := by
  obtain ⟨ids', rfl, hfree, hsize, hnone, hout⟩ := rented_slot hl hrent
  have hset : ∀ i, i ≠ index → (resetSlot s index pid idPool).topic.subscribers i = s.topic.subscribers i :=
    fun i hi => Function.update_of_ne hi _ _
  have hne : ∀ i p, s.pushed i = some p → i ≠ index := by
    rintro i p hp rfl
    rw [hnone] at hp
    cases hp
  constructor
  · intro i p hp ha
    rw [hset i (hne i p hp)] at ha ⊢
    exact h.linked i p hp ha
  · intro k o ho
    obtain ⟨p, hp, -⟩ := hl.names k o ho
    rw [hset k.index (hne _ p hp)]
    exact h.names k o ho
  · intro i pid' hi
    rcases List.mem_cons.mp hi with he | hold
    · rw [Prod.mk.injEq] at he
      obtain ⟨rfl, rfl⟩ := he
      simp only [resetSlot, State.setSlot, Function.update_self]
      exact ⟨rfl, rfl⟩
    · have hne' : i ≠ index := by
        rintro rfl
        exact hout (List.mem_map_of_mem (f := Prod.fst) hold)
      rw [hset i hne']
      exact h.entering i pid' hold
  · refine ⟨h.small.1, fun e he => ?_⟩
    rcases List.mem_cons.mp he with rfl | he
    · have hlt := hl.pool.bound index List.mem_cons_self
      rwa [h.poolSize] at hlt
    · exact h.small.2 e he
  · exact hsize.trans h.poolSize
  · intro sub hsub
    obtain ⟨sem, p, hsem, hname, htitle, hp⟩ := h.titled sub hsub
    refine titled_congr ⟨sem, p, hsem, hname, htitle, hp⟩ ?_ fun p hp => ⟨p, hp⟩
    rw [hset _ (hne _ p hp)]

theorem push_items {b : ConcurrentBag Subscription} (hn : b.Nodes used free) (item : Subscription) :
    ∀ sub ∈ (b.push item).2.items, sub = item ∨ sub ∈ b.items := by
  intro sub hsub
  obtain ⟨used', free', hnodes, hold, hnew⟩ := push_layout hn item
  obtain ⟨n, hn', hvalue⟩ := (mem_items hnodes).mp hsub
  have hkept : n ∈ used → sub ∈ b.items := fun h =>
    (mem_items hn).mpr ⟨n, h, by rw [← (hold n h).2.2, hvalue]⟩
  rcases hnew with rfl | ⟨m, _, rfl, hitem⟩
  · exact Or.inr (hkept hn')
  · rcases List.mem_cons.mp hn' with rfl | h
    · exact Or.inl (hvalue.symm.trans hitem)
    · exact Or.inr (hkept h)

theorem named_entered (hl : Layout s used free ids rest) (h : Named s) {position index pid : Nat}
    (he : s.entering[position]? = some (index, pid)) : Named (enter s position index pid) := by
  have hmem := List.mem_of_getElem? he
  obtain ⟨hactive, hpid⟩ := h.entering index pid hmem
  have hnone := (hl.entering.2 index (List.mem_map_of_mem (f := Prod.fst) hmem)).1
  rw [enter_eq hl he]
  constructor
  · intro i p hp ha
    simp only at hp ha ⊢
    by_cases hi : i = index
    · subst hi
      rw [Function.update_self, Option.some.injEq] at hp
      rw [hpid, Function.update_self, ← hp]
    · rw [Function.update_of_ne hi] at hp
      rw [Function.update_of_ne fun hk => hi (congrArg SemaphoreName.index hk)]
      exact h.linked i p hp ha
  · intro k o ho
    simp only at ho ⊢
    by_cases hk : k = ⟨pid, index⟩
    · subst hk
      exact ⟨hactive, hpid⟩
    · rw [Function.update_of_ne hk] at ho
      exact h.names k o ho
  · intro i pid' hi
    exact h.entering i pid' (List.mem_of_mem_eraseIdx hi)
  · refine ⟨fun i p hp => ?_, fun e he => h.small.2 e (List.mem_of_mem_eraseIdx he)⟩
    simp only at hp
    by_cases hi : i = index
    · subst hi
      exact h.small.2 _ hmem
    · rw [Function.update_of_ne hi] at hp
      exact h.small.1 i p hp
  · exact h.poolSize
  · intro sub hsub
    have hold : ∀ x, Titled s x → x.index.toNat ≠ index := by
      rintro x ⟨_, p, -, -, -, hp⟩ rfl
      rw [hnone] at hp
      cases hp
    have hkeep : ∀ x, Titled s x → Titled { s with
        topic := { s.topic with
          semaphores := {
            names := Function.update s.topic.semaphores.names ⟨pid, index⟩ (some s.topic.semaphores.created)
            count := Function.update s.topic.semaphores.count s.topic.semaphores.created 0
            created := s.topic.semaphores.created + 1 }
          heap := s.topic.heap + 1
          subscriptions := (s.topic.subscriptions.push (entry s index pid)).2 }
        entering := s.entering.eraseIdx position
        pushed := Function.update s.pushed index
          (some ⟨pid, s.topic.buffer.nextIndex, s.topic.semaphores.created⟩) } x := by
      intro x hx
      refine titled_congr hx rfl fun p hp => ⟨p, ?_⟩
      simp only [Function.update_of_ne (hold x hx)]
      exact hp
    rcases hsub with hsub | hsub
    · rcases push_items hl.nodes _ sub hsub with rfl | hsub
      · refine ⟨⟨s.topic.heap, s.topic.semaphores.created, ⟨pid, index⟩⟩, _, rfl, rfl, ?_,
          Function.update_self _ _ _⟩
        simp only [entry, Int.toNat_natCast, hpid]
      · exact hkeep sub (h.titled sub (Or.inl hsub))
    · exact hkeep sub (h.titled sub (Or.inr hsub))

theorem named_outcome (hl : Layout s used free ids rest) (h : Named s) (ho : Outcome s s' used rest) : Named s' := by
  cases ho with
  | moved hm _ hremove => exact named_moved hl h hm.kept hremove
  | removed hp _ hs => exact hs ▸ named_removed hl h hp
  | reset hrent pid hs => exact hs ▸ named_reset hl h hrent pid
  | entered he hs => exact hs ▸ named_entered hl h he

theorem inv_outcome (h : Books s used free ids rest) (ho : Outcome s s' used rest) : Inv s' := by
  obtain ⟨hl, ha, hlevel, hnamed⟩ := h
  obtain ⟨used', free', ids', rest', hl', ha', hmoves⟩ := turn_of_outcome hl ha ho
  refine ⟨used', free', ids', rest', hl', ha', fun i p hi => ?_, named_outcome hl hnamed ho⟩
  rcases hmoves i p hi with ⟨hold, hmove⟩ | hzero
  · exact level_move (ha i p hold).balanced (hlevel i p hold) hmove
  · intro _ _ hpos
    have hz : (ledger s' used' rest' i p).notified = 0 := hzero
    omega

/-- The server's own steps and the clients'. -/
theorem inv_server (h : Inv s) {e : SubscriptionMachine.Event}
    (hbound : s.topic.buffer.nextIndex + e.entries < 0xffffffffffffffff)
    (hs : SubscriptionMachine.step s e = some s') :
    Inv s' ∧ s'.topic.buffer.nextIndex = s.topic.buffer.nextIndex + e.entries := by
  obtain ⟨used, free, ids, rest, hbooks⟩ := h
  obtain ⟨houtcome, hnext⟩ := step_cases hbooks.layout hbooks.accounts hbound hs
  exact ⟨inv_outcome hbooks houtcome, hnext⟩

/-- The half-written entry of a server that dies is nobody's business. -/
theorem inv_fill (h : Inv s) (hp : s.publisher = .idle) (scope : WriterScope) (slotWritten : Bool) :
    Inv { s with topic := { s.topic with buffer := fill scope s.topic.buffer slotWritten } } := by
  obtain ⟨used, free, ids, rest, hbooks⟩ := h
  exact inv_outcome hbooks (outcome_quiet hbooks.accounts (moved_uncommitted hbooks.layout hp rfl) rfl rfl)

end ServerCrash
