import ZeroCopyRpc.SubscriptionAccounts

/-!
# Every step is a turn of the books

A step either moves the accounts one by one, or it also changes who has one: a
slot is rented, pushed into the bag, or taken out of it. Each turn leaves the
layout in order and every account balanced.
-/
namespace SubscriptionTurns

open LinkedChain SubscriptionAccounts SubscriptionMachine TokenLedger Transitions Words

variable {s s' : State} {used free ids rest rest' : List Nat}

/-- Each slot pushed so far makes a move, and one just pushed has no token. -/
def Moves (s s' : State) (used rest used' rest' : List Nat) : Prop :=
  ∀ i p, s'.pushed i = some p → s.pushed i = some p ∧
    Move (ledger s used rest i p) (ledger s' used' rest' i p) ∨
    (s'.topic.subscribers i).notified = 0

/-- A step after which the books are in order again. -/
def Turn (s s' : State) (used rest : List Nat) : Prop :=
  ∃ used' free' ids' rest', Layout s' used' free' ids' rest' ∧ Accounts s' used' rest' ∧
    Moves s s' used rest used' rest'

theorem Turn.inv (h : Turn s s' used rest) : Inv s' := by
  obtain ⟨used', free', ids', rest', hl, ha, -⟩ := h
  exact ⟨used', free', ids', rest', hl, ha⟩

theorem turn_moved (hl : Layout s used free ids rest) (ha : Accounts s used rest) (h : Moved s s' used rest rest')
    (hreading : ∀ i p, s.pushed i = some p → Reading (s'.topic.subscribers i).nextIndex (s'.readers i)) :
    Turn s s' used rest := by
  refine ⟨used, free, ids, rest', layout_moved hl h, accounts_moved ha h hreading, fun i p hi => ?_⟩
  rw [h.kept.pushed] at hi
  exact Or.inl ⟨hi, h.moves i p hi⟩

/-- The subscriptions a pass has collected to take out. -/
def toRemove : Publisher → List Subscription
  | .idle | .published => []
  | .visiting _ l | .checked _ l | .storing _ l | .releasing _ l | .removing l => l

/-- The first step of Subscribe, as the machine takes it. -/
def resetSlot (s : State) (index pid : Nat) (idPool : IDPool) : State :=
  State.setSlot { s with topic := { s.topic with idPool := idPool }, entering := (index, pid) :: s.entering }
    index ((s.topic.subscribers index).reset pid)

/-- What a step can do: move the accounts one by one, or take a subscription out,
rent a slot, or push. -/
inductive Outcome (s s' : State) (used rest : List Nat) : Prop where
  | moved {rest' : List Nat} (h : Moved s s' used rest rest')
      (hreading : ∀ i p, s.pushed i = some p → Reading (s'.topic.subscribers i).nextIndex (s'.readers i))
      (hremove : ∀ sub ∈ toRemove s'.publisher, sub ∈ toRemove s.publisher ∨
        ∃ n ∈ used, sub = s.topic.subscriptions.value n)
  | removed {sub : Subscription} {l : List Subscription} (hp : s.publisher = .removing (sub :: l))
      (hfound : (s.topic.subscriptions.remove sub).1 = true)
      (hs : s' = { s with topic := s.topic.without sub, publisher := .removing l })
  | reset {index : Nat} {idPool : IDPool} (hrent : s.topic.idPool.rent = some (index, idPool)) (pid : Nat)
      (hs : s' = resetSlot s index pid idPool)
  | entered {position index pid : Nat} (he : s.entering[position]? = some (index, pid))
      (hs : s' = enter s position index pid)

theorem outcome_still (hl : Layout s used free ids rest) (hf : Follows s) : Outcome s s used rest :=
  .moved (moved_stay hl) hf fun _ hsub => Or.inl hsub

theorem outcome_quiet (ha : Accounts s used rest) (h : Moved s s' used rest rest')
    (hreaders : s'.readers = s.readers) (hremove : toRemove s'.publisher = toRemove s.publisher) :
    Outcome s s' used rest :=
  .moved h (reading_moved ha h hreaders) fun sub hsub => Or.inl (by rwa [hremove] at hsub)

section Remove

variable {sub : Subscription} {l : List Subscription} {xs ys : List Nat} {m : Nat}

/-- The state when a subscription has been taken out. -/
def removed (s : State) (sub : Subscription) (l : List Subscription) : State :=
  { s with topic := s.topic.without sub, publisher := .removing l }

/-- The node that leaves the items with a subscription. -/
structure Removed (s : State) (sub : Subscription) (used free xs : List Nat) (m : Nat) (ys : List Nat) : Prop where
  used : used = xs ++ m :: ys
  slot : s.slot m = sub.index.toNat
  nodes : (s.topic.subscriptions.remove sub).2.Nodes (xs ++ ys) (m :: free)
  value : (s.topic.subscriptions.remove sub).2.value = s.topic.subscriptions.value
  gone : sub.index.toNat ∉ (xs ++ ys).map s.slot
  slots : ((xs ++ ys).map s.slot).Nodup

theorem exists_removed (hl : Layout s used free ids rest) (hfound : (s.topic.subscriptions.remove sub).1 = true) :
    ∃ xs m ys, Removed s sub used free xs m ys := by
  rcases ConcurrentBag.remove_nodes hl.nodes sub with ⟨_, hnone⟩ |
    ⟨xs, m, ys, rfl, _, hhit, _, hnodes, hvalue, _⟩
  · rw [hnone] at hfound
    cases hfound
  have hindex : s.slot m = sub.index.toNat := congrArg Int.toNat (Subscription.index_of_beq hhit)
  have hslots := hl.slots
  rw [List.map_append, List.map_cons, List.nodup_middle, List.nodup_cons, ← List.map_append, hindex] at hslots
  exact ⟨xs, m, ys, rfl, hindex, hnodes, hvalue, hslots.1, hslots.2⟩

theorem Removed.slot_same (h : Removed s sub used free xs m ys) : (removed s sub l).slot = s.slot := by
  funext k
  simp only [removed, State.slot, TopicService.without, h.value]

theorem without_other {i : Nat} (hi : i ≠ sub.index.toNat) :
    (s.topic.without sub).subscribers i = s.topic.subscribers i := Function.update_of_ne hi _ _

theorem without_self : (s.topic.without sub).subscribers sub.index.toNat =
    { s.topic.subscribers sub.index.toNat with pendingRemove := false, active := false } := Function.update_self _ _ _

theorem layout_remove (hl : Layout s used free ids rest) (h : Removed s sub used free xs m ys) :
    Layout (removed s sub l) (xs ++ ys) (m :: free) ids [] := by
  obtain ⟨hcreated, -, hnames⟩ := sub.close_semaphores s.topic.semaphores
  have hm : m ∈ used := by simp [h.used]
  have hsub : ∀ k ∈ xs ++ ys, k ∈ used := by
    intro k hk
    rw [List.mem_append] at hk
    simp only [h.used, List.mem_append, List.mem_cons]
    tauto
  constructor
  · exact h.nodes
  · exact hl.pool
  · rw [h.slot_same]
    exact h.slots
  · intro k hk
    rw [h.slot_same]
    simp only [removed, TopicService.without, h.value]
    exact hl.member k (hsub k hk)
  · exact ⟨by simp, rfl⟩
  · exact hl.unused
  · refine ⟨hl.entering.1, fun i hi => ?_⟩
    obtain ⟨hnone, hzero⟩ := hl.entering.2 i hi
    refine ⟨hnone, ?_⟩
    have hne := ne_slot hl hm hnone
    rw [h.slot] at hne
    simpa [removed, TopicService.without, hne] using hzero
  · intro i p hi
    simp only [removed, TopicService.without, hcreated]
    exact hl.objects i p hi
  · exact fun k o ho => hl.names k o (hnames k o ho)
  · exact hl.readers

/-- The slot's account is closed and unmarked; every other stays. -/
theorem move_remove (hp : s.publisher = .removing (sub :: l)) (h : Removed s sub used free xs m ys)
    (i : Nat) (p : Pushed) :
    Move (ledger s used [] i p) (ledger (removed s sub l) (xs ++ ys) [] i p) := by
  have hcounts : (removed s sub l).topic.semaphores.count = s.topic.semaphores.count :=
    (sub.close_semaphores s.topic.semaphores).2.1
  have hbuffer : (removed s sub l).topic.buffer = s.topic.buffer := rfl
  have hpassed : stageOf (removed s sub l).publisher s.slot [] i = stageOf s.publisher s.slot [] i := by
    simp [removed, stageOf, hp]
  have hreaders : (removed s sub l).readers = s.readers := rfl
  by_cases hi : i = sub.index.toNat
  · subst hi
    have hself : (removed s sub l).topic.subscribers sub.index.toNat = _ := without_self
    have hd : ledger (removed s sub l) (xs ++ ys) [] sub.index.toNat p =
        { ledger s used [] sub.index.toNat p with present := false, marked := false } := by
      simp only [ledger, hpassed, h.slot_same, h.gone, hself, hcounts, hbuffer, hreaders, decide_false]
    rw [hd]
    exact Move.leave _ false
  · have hother : (removed s sub l).topic.subscribers i = s.topic.subscribers i := without_other hi
    have hmem : i ∈ (xs ++ ys).map s.slot ↔ i ∈ used.map s.slot := by
      rw [← h.slot] at hi
      simp only [h.used, List.map_append, List.map_cons, List.mem_append, List.mem_cons]
      tauto
    have hd : ledger (removed s sub l) (xs ++ ys) [] i p = ledger s used [] i p := by
      simp only [ledger, hpassed, h.slot_same, decide_eq_decide.mpr hmem, hother, hcounts, hbuffer, hreaders]
    rw [hd]
    exact Move.stay _

/-- A subscription taken out of the bag: its slot is unmarked and never met again. -/
theorem turn_remove (hl : Layout s used free ids rest) (ha : Accounts s used rest)
    (hp : s.publisher = .removing (sub :: l))
    (hfound : (s.topic.subscriptions.remove sub).1 = true) :
    Turn s { s with topic := s.topic.without sub, publisher := .removing l } used rest := by
  have hnil := hl.pass.2
  rw [hp] at hnil
  subst hnil
  obtain ⟨xs, m, ys, h⟩ := exists_removed hl hfound
  have hmove := move_remove hp h
  refine ⟨xs ++ ys, m :: free, ids, [], layout_remove hl h, fun i p hi => ?_, fun i p hi =>
    Or.inl ⟨hi, hmove i p⟩⟩
  obtain ⟨hbalanced, hreading⟩ := ha i p hi
  refine ⟨balanced_move hbalanced (hmove i p), ?_⟩
  have hstart : ((s.topic.without sub).subscribers i).nextIndex = (s.topic.subscribers i).nextIndex := by
    by_cases hi' : i = sub.index.toNat
    · subst hi'
      rw [without_self]
    · rw [without_other hi']
  change Reading ((s.topic.without sub).subscribers i).nextIndex (s.readers i)
  rw [hstart]
  exact hreading

end Remove

/-- Subscribe rents a slot that no subscription has. -/
theorem rented_slot (hl : Layout s used free ids rest) {index : Nat} {idPool : IDPool}
    (hrent : s.topic.idPool.rent = some (index, idPool)) :
    ∃ ids', ids = index :: ids' ∧ idPool.Free ids' ∧ idPool.size = s.topic.idPool.size ∧
      s.pushed index = none ∧ index ∉ s.entering.map Prod.fst := by
  have hspec := IDPool.rent_eq hl.pool
  cases ids with
  | nil =>
    rw [hrent] at hspec
    cases hspec
  | cons j ids =>
    obtain ⟨pool', hrent', hfree, hsize⟩ := hspec
    rw [hrent, Option.some.injEq, Prod.mk.injEq] at hrent'
    obtain ⟨rfl, rfl⟩ := hrent'
    exact ⟨ids, rfl, hfree, hsize, hl.unused index List.mem_cons_self⟩

theorem resetSlot_other (hl : Layout s used free ids rest) {index : Nat} {idPool : IDPool}
    (hrent : s.topic.idPool.rent = some (index, idPool)) (pid : Nat) {i : Nat} {p : Pushed}
    (hi : s.pushed i = some p) :
    (resetSlot s index pid idPool).topic.subscribers i = s.topic.subscribers i := by
  obtain ⟨-, -, -, -, hnone, -⟩ := rented_slot hl hrent
  refine Function.update_of_ne ?_ _ _
  rintro rfl
  rw [hnone] at hi
  cases hi

theorem layout_reset (hl : Layout s used free ids rest) {index : Nat} {idPool : IDPool}
    (hrent : s.topic.idPool.rent = some (index, idPool)) (pid : Nat) :
    ∃ ids', Layout (resetSlot s index pid idPool) used free ids' rest := by
  obtain ⟨ids', rfl, hfree, -, hnone, hout⟩ := rented_slot hl hrent
  have hnotin := (List.nodup_cons.mp hl.pool.nodup).1
  refine ⟨ids', ?_⟩
  constructor
  · exact hl.nodes
  · exact hfree
  · exact hl.slots
  · exact hl.member
  · exact hl.pass
  · intro i hi
    obtain ⟨hinone, hientering⟩ := hl.unused i (List.mem_cons_of_mem index hi)
    refine ⟨hinone, ?_⟩
    change i ∉ index :: s.entering.map Prod.fst
    rw [List.mem_cons, not_or]
    refine ⟨?_, hientering⟩
    rintro rfl
    exact hnotin hi
  · refine ⟨List.nodup_cons.mpr ⟨hout, hl.entering.1⟩, fun i hi => ?_⟩
    change i ∈ index :: s.entering.map Prod.fst at hi
    simp only [resetSlot, State.setSlot]
    by_cases hi' : i = index
    · subst hi'
      rw [Function.update_self]
      exact ⟨hnone, rfl⟩
    · rw [Function.update_of_ne hi']
      exact hl.entering.2 i (by simpa [hi'] using hi)
  · exact hl.objects
  · exact hl.names
  · exact hl.readers

theorem ledger_reset (hl : Layout s used free ids rest) {index : Nat} {idPool : IDPool}
    (hrent : s.topic.idPool.rent = some (index, idPool)) (pid : Nat) {i : Nat} {p : Pushed}
    (hi : s.pushed i = some p) :
    ledger (resetSlot s index pid idPool) used rest i p = ledger s used rest i p := by
  simp only [ledger, resetSlot_other hl hrent pid hi]
  rfl

theorem turn_reset (hl : Layout s used free ids rest) (ha : Accounts s used rest) {index : Nat} {idPool : IDPool}
    (hrent : s.topic.idPool.rent = some (index, idPool)) (pid : Nat) :
    Turn s (resetSlot s index pid idPool) used rest := by
  obtain ⟨ids', hl'⟩ := layout_reset hl hrent pid
  refine ⟨used, free, ids', rest, hl', fun i p hi => ?_, fun i p hi => Or.inl ⟨hi, ?_⟩⟩
  · have hacc := ha i p hi
    rw [resetSlot_other hl hrent pid hi]
    exact hacc
  · have hi : s.pushed i = some p := hi
    rw [ledger_reset hl hrent pid hi]
    exact Move.stay _

/-- A name that was never opened leads to a new semaphore of count zero. -/
theorem openOrCreate_new {os : Semaphores SemaphoreName} {k : SemaphoreName} (h : os.names k = none)
    (address index : Nat) : Subscription.new.openOrCreate os address k index =
    (⟨some ⟨address, os.created, k⟩, index, some k⟩, {
      names := Function.update os.names k (some os.created)
      count := Function.update os.count os.created 0
      created := os.created + 1 }) := by
  simp [Subscription.openOrCreate, Subscription.new, Semaphores.openOrCreate, h]

/-- What the push does to the bag, whether or not it finds room. -/
theorem push_layout {b : ConcurrentBag Subscription} (hn : b.Nodes used free) (item : Subscription) :
    ∃ used' free', (b.push item).2.Nodes used' free' ∧
      (∀ m ∈ used, m ∈ used' ∧ (b.push item).2.next m = b.next m ∧ (b.push item).2.value m = b.value m) ∧
      (used' = used ∨ ∃ n, n ∉ used ∧ used' = n :: used ∧ (b.push item).2.value n = item) := by
  cases free with
  | nil =>
    rw [ConcurrentBag.push_none hn item]
    exact ⟨used, [], hn, fun m hm => ⟨hm, rfl, rfl⟩, Or.inl rfl⟩
  | cons n free =>
    obtain ⟨_, hnodes, hout, hvalue, hnext⟩ := ConcurrentBag.push_nodes hn item
    refine ⟨n :: used, free, hnodes, fun m hm => ⟨List.mem_cons_of_mem n hm, hnext m hm, ?_⟩,
      Or.inr ⟨n, hout, rfl, by rw [hvalue, Function.update_self]⟩⟩
    rw [hvalue]
    refine Function.update_of_ne ?_ _ _
    rintro rfl
    exact hout hm

theorem stageOf_congr {publisher : Publisher} {slot slot' : Nat → Nat} (hrest : ∀ m ∈ rest, slot' m = slot m)
    (hnode : ∀ n l, publisher = .checked n l ∨ publisher = .storing n l ∨
      publisher = .releasing n l → slot' n = slot n)
    (i : Nat) : stageOf publisher slot' rest i = stageOf publisher slot rest i := by
  have hmap : rest.map slot' = rest.map slot := List.map_congr_left hrest
  cases publisher with
  | checked n l => simp only [stageOf, hmap, hnode n l (Or.inl rfl)]
  | storing n l => simp only [stageOf, hmap, hnode n l (Or.inr (Or.inl rfl))]
  | releasing n l => simp only [stageOf, hmap, hnode n l (Or.inr (Or.inr rfl))]
  | _ => simp only [stageOf, hmap]

/-- A pass goes on as before when nodes are added in front of the chain; one
that has not begun will meet them. -/
theorem pass_push {used' : List Nat} (hl : Layout s used free ids rest)
    (hbuffer : s'.topic.buffer = s.topic.buffer) (hpublisher : s'.publisher = s.publisher)
    (hold : ∀ m ∈ used, m ∈ used' ∧ s'.topic.subscriptions.next m = s.topic.subscriptions.next m) :
    ∃ rest', Pass s' used' rest' ∧
      (s.publisher = .published ∧ rest' = used' ∧ 1 ≤ s.topic.buffer.nextIndex ∨
        s.publisher ≠ .published ∧ rest' = rest) := by
  obtain ⟨hrest, hpass⟩ := hl.pass
  have hrest' : ∀ m ∈ rest, m ∈ used' := fun m hm => (hold m (hrest m hm)).1
  have hnext : ∀ m ∈ rest, s'.topic.subscriptions.next m = s.topic.subscriptions.next m :=
    fun m hm => (hold m (hrest m hm)).2
  have hworked : ∀ n, n ∈ used ∧ Chain s.topic.subscriptions.next (some n) (n :: rest) →
      n ∈ used' ∧ Chain s'.topic.subscriptions.next (some n) (n :: rest) := by
    rintro n ⟨hn, hchain⟩
    refine ⟨(hold n hn).1, chain_congr hchain fun m hm => ?_⟩
    rcases List.mem_cons.mp hm with rfl | hm
    · exact (hold m hn).2
    · exact hnext m hm
  cases hp : s.publisher with
  | published =>
    rw [hp] at hpass
    refine ⟨used', ⟨fun _ hm => hm, ?_⟩, Or.inl ⟨rfl, rfl, hpass.2⟩⟩
    simp only [hpublisher, hp, hbuffer]
    exact ⟨trivial, hpass.2⟩
  | idle =>
    rw [hp] at hpass
    exact ⟨rest, ⟨hrest', by simp only [hpublisher, hp]; exact hpass⟩, Or.inr ⟨by simp, rfl⟩⟩
  | removing l =>
    rw [hp] at hpass
    exact ⟨rest, ⟨hrest', by simp only [hpublisher, hp]; exact hpass⟩, Or.inr ⟨by simp, rfl⟩⟩
  | visiting current l =>
    rw [hp] at hpass
    exact ⟨rest, ⟨hrest', by simp only [hpublisher, hp]; exact chain_congr hpass hnext⟩,
      Or.inr ⟨by simp, rfl⟩⟩
  | checked n l =>
    rw [hp] at hpass
    exact ⟨rest, ⟨hrest', by simp only [hpublisher, hp]; exact hworked n hpass⟩, Or.inr ⟨by simp, rfl⟩⟩
  | storing n l =>
    rw [hp] at hpass
    exact ⟨rest, ⟨hrest', by simp only [hpublisher, hp]; exact hworked n hpass⟩, Or.inr ⟨by simp, rfl⟩⟩
  | releasing n l =>
    rw [hp] at hpass
    exact ⟨rest, ⟨hrest', by simp only [hpublisher, hp]; exact hworked n hpass⟩, Or.inr ⟨by simp, rfl⟩⟩

theorem not_mem_eraseIdx {l : List (Nat × Nat)} {position index pid : Nat} (hn : (l.map Prod.fst).Nodup)
    (h : l[position]? = some (index, pid)) : index ∉ (l.eraseIdx position).map Prod.fst := by
  induction l generalizing position with
  | nil => simp
  | cons e l ih =>
    rw [List.map_cons, List.nodup_cons] at hn
    cases position with
    | zero =>
      rw [List.getElem?_cons_zero, Option.some.injEq] at h
      subst h
      exact hn.1
    | succ position =>
      rw [List.getElem?_cons_succ] at h
      rw [List.eraseIdx_cons_succ, List.map_cons, List.mem_cons, not_or]
      refine ⟨?_, ih hn.2 h⟩
      rintro rfl
      exact hn.1 (List.mem_map.mpr ⟨_, List.mem_of_getElem? h, rfl⟩)

/-- All that a push does. -/
structure Entered (s s' : State) (index pid : Nat) (used used' free' : List Nat) : Prop where
  buffer : s'.topic.buffer = s.topic.buffer
  publisher : s'.publisher = s.publisher
  subscribers : s'.topic.subscribers = s.topic.subscribers
  idPool : s'.topic.idPool = s.topic.idPool
  readers : s'.readers = s.readers
  pushed : s'.pushed = Function.update s.pushed index
    (some ⟨pid, s.topic.buffer.nextIndex, s.topic.semaphores.created⟩)
  names : s'.topic.semaphores.names =
    Function.update s.topic.semaphores.names ⟨pid, index⟩ (some s.topic.semaphores.created)
  count : s'.topic.semaphores.count = Function.update s.topic.semaphores.count s.topic.semaphores.created 0
  created : s'.topic.semaphores.created = s.topic.semaphores.created + 1
  entering : (s'.entering.map Prod.fst).Sublist (s.entering.map Prod.fst) ∧ index ∉ s'.entering.map Prod.fst
  nodes : s'.topic.subscriptions.Nodes used' free'
  old : ∀ m ∈ used, m ∈ used' ∧ s'.topic.subscriptions.next m = s.topic.subscriptions.next m ∧
    s'.topic.subscriptions.value m = s.topic.subscriptions.value m
  new : used' = used ∨ ∃ n sem, used' = n :: used ∧ s'.slot n = index ∧
    (s'.topic.subscriptions.value n).sem = some sem ∧ sem.handle = s.topic.semaphores.created

/-- What a push puts into the bag. -/
def entry (s : State) (index pid : Nat) : Subscription :=
  ⟨some ⟨s.topic.heap, s.topic.semaphores.created, ⟨pid, index⟩⟩, index, some ⟨pid, index⟩⟩

theorem enter_eq (hl : Layout s used free ids rest) {position index pid : Nat}
    (he : s.entering[position]? = some (index, pid)) : enter s position index pid = { s with
      topic := { s.topic with
        semaphores := {
          names := Function.update s.topic.semaphores.names ⟨pid, index⟩ (some s.topic.semaphores.created)
          count := Function.update s.topic.semaphores.count s.topic.semaphores.created 0
          created := s.topic.semaphores.created + 1 }
        heap := s.topic.heap + 1
        subscriptions := (s.topic.subscriptions.push (entry s index pid)).2 }
      entering := s.entering.eraseIdx position
      pushed := Function.update s.pushed index
        (some ⟨pid, s.topic.buffer.nextIndex, s.topic.semaphores.created⟩) } := by
  have hname : s.topic.semaphores.names ⟨pid, index⟩ = none := by
    cases hk : s.topic.semaphores.names ⟨pid, index⟩ with
    | none => rfl
    | some o =>
      obtain ⟨p, hp, _⟩ := hl.names _ o hk
      have hnone := (hl.entering.2 index (List.mem_map_of_mem (List.mem_of_getElem? he))).1
      rw [hnone] at hp
      cases hp
  simp only [enter, openOrCreate_new hname]
  rfl

theorem entered_of_enter (hl : Layout s used free ids rest) {position index pid : Nat}
    (he : s.entering[position]? = some (index, pid)) :
    s.pushed index = none ∧ (s.topic.subscribers index).notified = 0 ∧ s.readers index = none ∧
    ∃ used' free', Entered s (enter s position index pid) index pid used used' free' := by
  have hindex : index ∈ s.entering.map Prod.fst := List.mem_map_of_mem (List.mem_of_getElem? he)
  obtain ⟨hnone, hzero⟩ := hl.entering.2 index hindex
  have hreader : s.readers index = none := by
    cases hr : s.readers index with
    | none => rfl
    | some r =>
      obtain ⟨p, hp, _⟩ := hl.readers index r hr
      rw [hnone] at hp
      cases hp
  obtain ⟨used', free', hnodes, hold, hnew⟩ := push_layout hl.nodes (entry s index pid)
  refine ⟨hnone, hzero, hreader, used', free', ?_⟩
  rw [enter_eq hl he]
  constructor
  · rfl
  · rfl
  · rfl
  · rfl
  · rfl
  · rfl
  · rfl
  · rfl
  · rfl
  · exact ⟨(s.entering.eraseIdx_sublist position).map Prod.fst, not_mem_eraseIdx hl.entering.1 he⟩
  · exact hnodes
  · exact hold
  · rcases hnew with rfl | ⟨n, _, rfl, hvalue⟩
    · exact Or.inl rfl
    · exact Or.inr ⟨n, ⟨s.topic.heap, s.topic.semaphores.created, ⟨pid, index⟩⟩, rfl,
        by simp only [State.slot, hvalue]; rfl, by simp only [hvalue]; rfl, rfl⟩

section Enter

variable {index pid : Nat} {used' free' : List Nat}

theorem Entered.slot (h : Entered s s' index pid used used' free') : ∀ m ∈ used, s'.slot m = s.slot m := by
  intro m hm
  simp only [State.slot, (h.old m hm).2.2]

theorem Entered.pushed_self (h : Entered s s' index pid used used' free') :
    s'.pushed index = some ⟨pid, s.topic.buffer.nextIndex, s.topic.semaphores.created⟩ := by
  rw [h.pushed, Function.update_self]

theorem Entered.pushed_other (h : Entered s s' index pid used used' free') {i : Nat} (hi : i ≠ index) :
    s'.pushed i = s.pushed i := by
  rw [h.pushed, Function.update_of_ne hi]

/-- The slots in the bag are the old ones, except the new one. -/
theorem Entered.present (h : Entered s s' index pid used used' free') {i : Nat} (hi : i ≠ index) :
    i ∈ used'.map s'.slot ↔ i ∈ used.map s.slot := by
  have hmap : used.map s'.slot = used.map s.slot := List.map_congr_left h.slot
  rcases h.new with rfl | ⟨n, sem, rfl, hslot, _⟩
  · rw [hmap]
  · rw [List.map_cons, List.mem_cons, hmap, hslot]
    tauto

theorem Entered.kept (h : Entered s s' index pid used used' free')
    (hnone : s.pushed index = none) {i : Nat} {p : Pushed}
    (hp : s.pushed i = some p) : s'.pushed i = some p := by
  rw [h.pushed_other, hp]
  rintro rfl
  rw [hnone] at hp
  cases hp

theorem slots_enter (hl : Layout s used free ids rest) (h : Entered s s' index pid used used' free')
    (hnone : s.pushed index = none) : (used'.map s'.slot).Nodup := by
  have hmap : used.map s'.slot = used.map s.slot := List.map_congr_left h.slot
  rcases h.new with rfl | ⟨n, sem, rfl, hslot, _⟩
  · rw [hmap]
    exact hl.slots
  · rw [List.map_cons, hmap, hslot, List.nodup_cons]
    refine ⟨fun hin => ?_, hl.slots⟩
    obtain ⟨m, hm, hmn⟩ := List.mem_map.mp hin
    exact ne_slot hl hm hnone hmn.symm

theorem member_enter (hl : Layout s used free ids rest) (h : Entered s s' index pid used used' free')
    (hnone : s.pushed index = none) (m : Nat) (hm : m ∈ used') : ∃ p sem, s'.pushed (s'.slot m) = some p ∧
      (s'.topic.subscriptions.value m).sem = some sem ∧ sem.handle = p.object := by
  have hmember : ∀ m ∈ used, ∃ p sem, s'.pushed (s'.slot m) = some p ∧
      (s'.topic.subscriptions.value m).sem = some sem ∧ sem.handle = p.object := by
    intro m hm
    obtain ⟨p, sem, hp, hsem, hobject⟩ := hl.member m hm
    rw [h.slot m hm, (h.old m hm).2.2]
    exact ⟨p, sem, h.kept hnone hp, hsem, hobject⟩
  rcases h.new with rfl | ⟨n, sem, rfl, hslot, hsem, hobject⟩
  · exact hmember m hm
  · rcases List.mem_cons.mp hm with rfl | hm
    · exact ⟨_, sem, by rw [hslot]; exact h.pushed_self, hsem, hobject⟩
    · exact hmember m hm

/-- The new semaphore is nobody else's. -/
theorem objects_enter (hl : Layout s used free ids rest)
    (h : Entered s s' index pid used used' free') (i : Nat) (p : Pushed)
    (hi : s'.pushed i = some p) : p.object < s'.topic.semaphores.created ∧
      ∀ j q, s'.pushed j = some q → p.object = q.object → i = j := by
  have hold : ∀ j q, j ≠ index → s'.pushed j = some q → s.pushed j = some q ∧
      q.object < s.topic.semaphores.created := by
    intro j q hj hq
    rw [h.pushed_other hj] at hq
    exact ⟨hq, (hl.objects j q hq).1⟩
  rw [h.created]
  by_cases hi' : i = index
  · subst hi'
    obtain rfl := Option.some.inj (h.pushed_self.symm.trans hi)
    refine ⟨Nat.lt_succ_self _, fun j q hq heq => ?_⟩
    by_contra hj
    have := (hold j q (Ne.symm hj) hq).2
    simp only at heq
    omega
  · obtain ⟨hp, hlt⟩ := hold i p hi' hi
    refine ⟨by omega, fun j q hq heq => ?_⟩
    by_cases hj : j = index
    · subst hj
      obtain rfl := Option.some.inj (h.pushed_self.symm.trans hq)
      simp only at heq
      omega
    · exact (hl.objects i p hp).2 j q (hold j q hj hq).1 heq

theorem layout_enter (hl : Layout s used free ids rest) (h : Entered s s' index pid used used' free')
    (hnone : s.pushed index = none) (hpass : Pass s' used' rest') (hindex : index ∈ s.entering.map Prod.fst) :
    Layout s' used' free' ids rest' := by
  constructor
  · exact h.nodes
  · rw [h.idPool]
    exact hl.pool
  · exact slots_enter hl h hnone
  · exact member_enter hl h hnone
  · exact hpass
  · intro i hi
    obtain ⟨hinone, hientering⟩ := hl.unused i hi
    have hne : i ≠ index := by
      rintro rfl
      exact hientering hindex
    exact ⟨(h.pushed_other hne).trans hinone, fun hin => hientering (h.entering.1.subset hin)⟩
  · refine ⟨hl.entering.1.sublist h.entering.1, fun i hi => ?_⟩
    obtain ⟨hinone, hizero⟩ := hl.entering.2 i (h.entering.1.subset hi)
    have hne : i ≠ index := by
      rintro rfl
      exact h.entering.2 hi
    rw [h.subscribers]
    exact ⟨(h.pushed_other hne).trans hinone, hizero⟩
  · exact objects_enter hl h
  · intro k o ho
    rw [h.names] at ho
    by_cases hk : k = ⟨pid, index⟩
    · subst hk
      rw [Function.update_self, Option.some.injEq] at ho
      exact ⟨_, h.pushed_self, ho⟩
    · rw [Function.update_of_ne hk] at ho
      obtain ⟨p, hp, hobject⟩ := hl.names k o ho
      exact ⟨p, h.kept hnone hp, hobject⟩
  · intro i r hr
    rw [h.readers] at hr
    obtain ⟨p, hp, hsem⟩ := hl.readers i r hr
    exact ⟨p, h.kept hnone hp, hsem⟩

/-- The pass stands as before with an old slot, and with the new one it has
either not begun or passed. -/
theorem stage_enter (hl : Layout s used free ids rest) (h : Entered s s' index pid used used' free')
    (hnone : s.pushed index = none)
    (hrest : s.publisher = .published ∧ rest' = used' ∧ 1 ≤ s.topic.buffer.nextIndex ∨
      s.publisher ≠ .published ∧ rest' = rest) :
    (∀ i, i ≠ index → stageOf s'.publisher s'.slot rest' i = stageOf s.publisher s.slot rest i) ∧
    (stageOf s'.publisher s'.slot rest' index = .passed ∨ s.publisher = .published ∧
      stageOf s'.publisher s'.slot rest' index = .due ∧ index ∈ used'.map s'.slot ∧
      1 ≤ s.topic.buffer.nextIndex) := by
  rw [h.publisher]
  rcases hrest with ⟨hp, rfl, hpos⟩ | ⟨hp, rfl⟩
  · have hall : rest = used := by
      have := hl.pass.2
      rw [hp] at this
      exact this.1
    subst hall
    constructor
    · intro i hi
      simp only [stageOf, hp, h.present hi]
    · by_cases hin : index ∈ rest'.map s'.slot
      · exact Or.inr ⟨hp, by simp only [stageOf, hp, hin, ↓reduceIte], hin, hpos⟩
      · exact Or.inl (by simp only [stageOf, hp, hin, ↓reduceIte])
  · obtain ⟨hsub, hpass⟩ := hl.pass
    have hstage : ∀ i, stageOf s.publisher s'.slot rest' i = stageOf s.publisher s.slot rest' i := by
      refine stageOf_congr (fun m hm => h.slot m (hsub m hm)) fun n l hn => h.slot n ?_
      rcases hn with hn | hn | hn <;> rw [hn] at hpass <;> exact hpass.1
    refine ⟨fun i _ => hstage i, Or.inl ?_⟩
    rw [hstage]
    have hlater : index ∉ rest'.map s.slot := by
      intro hin
      obtain ⟨m, hm, hmi⟩ := List.mem_map.mp hin
      exact ne_slot hl (hsub m hm) hnone hmi.symm
    cases hpub : s.publisher with
    | checked n l =>
      rw [hpub] at hpass
      simp [stageOf, hlater, Ne.symm (ne_slot hl hpass.1 hnone)]
    | storing n l =>
      rw [hpub] at hpass
      simp [stageOf, hlater, Ne.symm (ne_slot hl hpass.1 hnone)]
    | releasing n l =>
      rw [hpub] at hpass
      simp [stageOf, hlater, Ne.symm (ne_slot hl hpass.1 hnone)]
    | _ => simp only [stageOf, hlater, ↓reduceIte]

theorem ledger_enter (hl : Layout s used free ids rest) (h : Entered s s' index pid used used' free') {i : Nat}
    {p : Pushed} (hi : i ≠ index) (hstage : stageOf s'.publisher s'.slot rest' i = stageOf s.publisher s.slot rest i)
    (hp : s.pushed i = some p) : ledger s' used' rest' i p = ledger s used rest i p := by
  have hne : p.object ≠ s.topic.semaphores.created := Nat.ne_of_lt (hl.objects i p hp).1
  simp only [ledger, h.buffer, h.subscribers, h.readers, h.count, Function.update_of_ne hne,
    decide_eq_decide.mpr (h.present hi), hstage]

end Enter

/-- The account that a push opens. -/
theorem ledger_entered {index pid : Nat} {used' free' rest' : List Nat} (h : Entered s s' index pid used used' free')
    (hzero : (s.topic.subscribers index).notified = 0) (hreader : s.readers index = none) :
    ledger s' used' rest' index ⟨pid, s.topic.buffer.nextIndex, s.topic.semaphores.created⟩ =
      ⟨s.topic.buffer.nextIndex, s.topic.buffer.nextIndex, decide (index ∈ used'.map s'.slot),
        (s.topic.subscribers index).pendingRemove, (s.topic.subscribers index).nextIndex, 0, 0, 0,
        stageOf s'.publisher s'.slot rest' index⟩ := by
  simp only [ledger, h.count, h.readers, h.subscribers, h.buffer, Function.update_self, hreader,
    hzero, Option.elim_none]

/-- Subscribe's push: a new account, opened at the current length of the log. -/
theorem turn_enter (hl : Layout s used free ids rest) (ha : Accounts s used rest) {position index pid : Nat}
    (he : s.entering[position]? = some (index, pid)) : Turn s (enter s position index pid) used rest := by
  obtain ⟨hnone, hzero, hreader, used', free', h⟩ := entered_of_enter hl he
  obtain ⟨rest', hpass, hrest⟩ := pass_push hl h.buffer h.publisher
    (fun m hm => ⟨(h.old m hm).1, (h.old m hm).2.1⟩)
  obtain ⟨hstage, hstage'⟩ := stage_enter hl h hnone hrest
  have hindex : index ∈ s.entering.map Prod.fst := List.mem_map_of_mem (List.mem_of_getElem? he)
  have hold : ∀ i p, i ≠ index → s.pushed i = some p →
      ledger (enter s position index pid) used' rest' i p = ledger s used rest i p :=
    fun i p hi hp => ledger_enter hl h hi (hstage i hi) hp
  refine ⟨used', free', ids, rest', layout_enter hl h hnone hpass hindex, fun i p hi => ?_, fun i p hi => ?_⟩
  · by_cases hi' : i = index
    · subst hi'
      obtain rfl := Option.some.inj (h.pushed_self.symm.trans hi)
      have hbalanced : Balanced (ledger (enter s position i pid) used' rest' i
          ⟨pid, s.topic.buffer.nextIndex, s.topic.semaphores.created⟩) := by
        rw [ledger_entered h hzero hreader]
        exact balanced_new (hstage'.imp_right fun h => ⟨h.2.1, h.2.2.2⟩)
      refine ⟨hbalanced, ?_⟩
      rw [h.readers, hreader]
      trivial
    · rw [h.pushed_other hi'] at hi
      obtain ⟨hbalanced, hreading⟩ := ha i p hi
      refine ⟨?_, by rw [h.subscribers, h.readers]; exact hreading⟩
      have hledger : Balanced (ledger (enter s position index pid) used' rest' i p) := by
        rw [hold i p hi' hi]
        exact hbalanced
      exact hledger
  · by_cases hi' : i = index
    · subst hi'
      rw [h.subscribers]
      exact Or.inr hzero
    · rw [h.pushed_other hi'] at hi
      rw [hold i p hi' hi]
      exact Or.inl ⟨hi, Move.stay _⟩

/-- A reader's step: it moves its slot's account and follows its start. -/
structure Reads (s s' : State) (used rest : List Nat) : Prop where
  moved : Moved s s' used rest rest
  reading : ∀ i p, s.pushed i = some p → Reading (s'.topic.subscribers i).nextIndex (s'.readers i)
  publisher : s'.publisher = s.publisher
  buffer : s'.topic.buffer = s.topic.buffer

theorem reads_still (hl : Layout s used free ids rest) (hf : Follows s) : Reads s s used rest :=
  ⟨moved_stay hl, hf, rfl, rfl⟩

theorem reads_reader (hl : Layout s used free ids rest) (hf : Follows s) {i : Nat} {p : Pushed}
    (hp : s.pushed i = some p) (r : Reader) (hsem : r.sem = p.object) (count : Nat → Nat)
    (hcount : ∀ o, o ≠ p.object → count o = s.topic.semaphores.count o)
    (hmove : Move (ledger s used rest i p) { ledger s used rest i p with count := count p.object, taken := taken r })
    (hreading : Reading (s.topic.subscribers i).nextIndex (some r)) :
    Reads s (State.setReader { s with topic := { s.topic with
      semaphores := { s.topic.semaphores with count := count } } } i r) used rest := by
  refine ⟨moved_reader hl hp r hsem count hcount hmove, fun j q hj => ?_, rfl, rfl⟩
  change Reading (s.topic.subscribers j).nextIndex (Function.update s.readers i (some r) j)
  by_cases hji : j = i
  · subst hji
    rw [Function.update_self]
    exact hreading
  · rw [Function.update_of_ne hji]
    exact hf j q hj

theorem reads_openSemaphore (hl : Layout s used free ids rest) (hf : Follows s) {i : Nat} {p : Pushed}
    (hp : s.pushed i = some p) (hr : s.readers i = none) {object : Nat}
    (ho : s.topic.semaphores.names ⟨p.pid, i⟩ = some object) :
    Reads s (s.setReader i ⟨object, none, false, []⟩) used rest := by
  obtain ⟨q, hq, hobject⟩ := hl.names _ _ ho
  obtain rfl : p = q := Option.some.inj (hp.symm.trans hq)
  refine reads_reader hl hf hp ⟨object, none, false, []⟩ hobject.symm s.topic.semaphores.count
    (fun _ _ => rfl) ?_ rfl
  have htaken : (ledger s used rest i p).taken = taken ⟨object, none, false, []⟩ := by
    simp only [ledger, hr]
    rfl
  rw [← htaken]
  exact Move.stay _

theorem reads_acquire (hl : Layout s used free ids rest) (hf : Follows s) {i : Nat} {r : Reader}
    (hr : s.readers i = some r) (hholding : r.holding = false) {os : Semaphores SemaphoreName}
    (hos : s.topic.semaphores.tryAcquire r.sem = (true, os)) :
    Reads s (State.setReader { s with topic := { s.topic with semaphores := os } } i { r with holding := true })
      used rest := by
  obtain ⟨p, hp, hsem⟩ := hl.readers i r hr
  have hread := hf i p hp
  rw [hr] at hread
  by_cases hc : 0 < s.topic.semaphores.count r.sem
  · simp only [Semaphores.tryAcquire, hc, ↓reduceIte, Prod.mk.injEq, true_and] at hos
    subst hos
    have htaken : taken { r with holding := true } = taken r + 1 := by
      simp [taken, hholding]
    refine reads_reader hl hf hp { r with holding := true } hsem
      (Function.update s.topic.semaphores.count r.sem (s.topic.semaphores.count r.sem - 1))
      (fun o ho => Function.update_of_ne (hsem ▸ ho) _ _) ?_ ?_
    · have hold : (ledger s used rest i p).taken = taken r := by
        simp only [ledger, hr, Option.elim_some]
      have hcount : 0 < (ledger s used rest i p).count := by
        rw [hsem] at hc
        exact hc
      rw [← hsem, Function.update_self, htaken, ← hold, hsem]
      exact Move.take hcount
    · simp only [Reading, htaken] at hread ⊢
      cases hcur : r.cursor with
      | none => rwa [hcur] at hread
      | some c =>
        rw [hcur] at hread
        exact ⟨Nat.succ_pos _, hread.2⟩
  · simp [Semaphores.tryAcquire, hc] at hos

theorem reads_load (hl : Layout s used free ids rest) (hf : Follows s) {i : Nat} {r : Reader}
    (hr : s.readers i = some r) (hholding : r.holding = true) (hcursor : r.cursor = none) :
    Reads s (s.setReader i { r with cursor := some (CyclicBuffer.openCursorAt (s.topic.subscribers i).nextIndex) })
      used rest := by
  obtain ⟨p, hp, hsem⟩ := hl.readers i r hr
  have hread := hf i p hp
  rw [hr] at hread
  have hreads : r.reads = [] := by
    simpa only [Reading, hcursor] using hread
  let r' : Reader := { r with cursor := some (CyclicBuffer.openCursorAt (s.topic.subscribers i).nextIndex) }
  refine reads_reader hl hf hp r' hsem s.topic.semaphores.count (fun _ _ => rfl) ?_ ?_
  · have hold : (ledger s used rest i p).taken = taken r' := by
      simp only [ledger, hr, Option.elim_some]
      rfl
    rw [← hold]
    exact Move.stay _
  · have htaken : taken r' = 1 := by simp [r', taken, hholding, hreads]
    change 0 < taken r' ∧ CyclicBuffer.openCursorAt (s.topic.subscribers i).nextIndex =
      ⟨subWord ((s.topic.subscribers i).nextIndex + r.reads.length) 1⟩ ∧
      r.reads = List.range' (s.topic.subscribers i).nextIndex r.reads.length
    rw [htaken, hreads]
    exact ⟨Nat.one_pos, rfl, rfl⟩

/-- What a reader that holds a token is about to read. -/
theorem next_read (hl : Layout s used free ids rest) (hf : Follows s) (hcovers : Covered s)
    (hbound : s.topic.buffer.nextIndex < 0xffffffffffffffff) {i : Nat} {r : Reader} (hr : s.readers i = some r) :
    ∃ p, s.pushed i = some p ∧ r.reads = List.range' (s.topic.subscribers i).nextIndex r.reads.length ∧
      (0 < taken r → (s.topic.subscribers i).nextIndex + taken r ≤ s.topic.buffer.nextIndex ∧
        (s.topic.subscribers i).nextIndex ≤ p.entries) ∧
      (r.holding = true → ∀ c, r.cursor = some c ∨
          r.cursor = none ∧ c = CyclicBuffer.openCursorAt (s.topic.subscribers i).nextIndex →
        c.tryRead s.topic.buffer = (true, ⟨(s.topic.subscribers i).nextIndex + r.reads.length⟩)) := by
  obtain ⟨p, hp, _⟩ := hl.readers i r hr
  have hread := hf i p hp
  have hcovered := hcovers i p hp
  rw [hr] at hread hcovered
  simp only [Option.elim_some] at hcovered
  refine ⟨p, hp, ?_, hcovered, fun hholding c hc => ?_⟩
  · simp only [Reading] at hread
    cases hcur : r.cursor with
    | none =>
      rw [hcur] at hread
      rw [hread]
      rfl
    | some c =>
      rw [hcur] at hread
      exact hread.2.2
  · have htaken : taken r = r.reads.length + 1 := by simp [taken, hholding]
    have hle := (hcovered (by omega)).1
    have hcursor : c = ⟨subWord ((s.topic.subscribers i).nextIndex + r.reads.length) 1⟩ := by
      simp only [Reading] at hread
      rcases hc with hc | ⟨hc, rfl⟩
      · rw [hc] at hread
        exact hread.2.1
      · rw [hc] at hread
        rw [hread]
        rfl
    rw [hcursor, Cursor.tryRead_eq (by omega) (by omega), if_pos (by omega)]

/-- A reader that has read or holds a token has taken as many as it has read. -/
theorem taken_of_token {r : Reader} (h : r.reads ≠ [] ∨ r.holding = true) :
    0 < taken r ∧ r.reads.length ≤ taken r := by
  refine ⟨?_, by simp [taken]⟩
  rcases h with hne | hholding
  · have := List.length_pos_of_ne_nil hne
    simp only [taken]
    omega
  · simp [taken, hholding]

theorem reads_tryRead (hl : Layout s used free ids rest) (hf : Follows s) (hcovers : Covered s)
    (hbound : s.topic.buffer.nextIndex < 0xffffffffffffffff) {i : Nat} {r : Reader} (hr : s.readers i = some r)
    (hholding : r.holding = true) {c c' : Cursor} (hc : r.cursor = some c)
    (hread : c.tryRead s.topic.buffer = (true, c')) :
    Reads s (s.setReader i { r with cursor := some c', holding := false, reads := r.reads ++ [c'.index] })
      used rest := by
  obtain ⟨p, hp, hreads, hcovered, hnext⟩ := next_read hl hf hcovers hbound hr
  obtain ⟨q, hq, hsem⟩ := hl.readers i r hr
  obtain rfl : p = q := Option.some.inj (hp.symm.trans hq)
  have htaken : taken r = r.reads.length + 1 := by simp [taken, hholding]
  have hle := (hcovered (by omega)).1
  have hc' : c' = ⟨(s.topic.subscribers i).nextIndex + r.reads.length⟩ := by
    have := hnext hholding c (Or.inl hc)
    rw [hread] at this
    exact (Prod.mk.inj this).2
  let r' : Reader := { r with cursor := some c', holding := false, reads := r.reads ++ [c'.index] }
  have hsame : taken r' = taken r := by
    rw [htaken]
    simp [r', taken]
  refine reads_reader hl hf hp r' hsem s.topic.semaphores.count (fun _ _ => rfl) ?_ ?_
  · have hold : (ledger s used rest i p).taken = taken r' := by
      simp only [ledger, hr, Option.elim_some, hsame]
    rw [← hold]
    exact Move.stay _
  · change 0 < taken r' ∧ c' =
      ⟨subWord ((s.topic.subscribers i).nextIndex + (r.reads ++ [c'.index]).length) 1⟩ ∧
      r.reads ++ [c'.index] = List.range' (s.topic.subscribers i).nextIndex (r.reads ++ [c'.index]).length
    rw [hsame]
    refine ⟨by omega, ?_, ?_⟩
    · rw [hc', List.length_append, List.length_singleton, ← Nat.add_assoc, subWord_exact (by omega) (by omega)]
      rfl
    · rw [List.length_append, List.length_singleton, List.range'_concat, ← hreads, hc']
      simp

/-- The publisher's step either moves the accounts or takes a subscription out. -/
theorem notify_cases (hl : Layout s used free ids rest)
    (hcounted : ∀ i p, s.pushed i = some p → (s.topic.subscribers i).notified < 0xffffffffffffffff)
    (hpos : ∀ n l, s.publisher = .storing n l → 1 ≤ s.topic.buffer.nextIndex)
    (hbound : s.topic.buffer.nextIndex < 0xffffffffffffffff) {lostRace : Bool} (hs : notify s lostRace = some s') :
    (∃ rest', Moved s s' used rest rest' ∧ s'.readers = s.readers ∧ s'.topic.buffer = s.topic.buffer ∧
      ∀ sub ∈ toRemove s'.publisher, sub ∈ toRemove s.publisher ∨
        ∃ n ∈ used, sub = s.topic.subscriptions.value n) ∨
    ∃ sub l, s.publisher = .removing (sub :: l) ∧ (s.topic.subscriptions.remove sub).1 = true ∧
      s' = { s with topic := s.topic.without sub, publisher := .removing l } := by
  have hsame : ∀ {next : Publisher}, (∀ sub ∈ toRemove next, sub ∈ toRemove s.publisher) →
      ∀ sub ∈ toRemove next, sub ∈ toRemove s.publisher ∨
        ∃ n ∈ used, sub = s.topic.subscriptions.value n :=
    fun h sub hsub => Or.inl (h sub hsub)
  unfold notify at hs
  split at hs
  · cases hs
  · rename_i hp
    cases hs
    exact Or.inl ⟨rest, moved_begin hl hp, rfl, rfl, hsame (by simp [toRemove])⟩
  · rename_i l hp
    cases hs
    exact Or.inl ⟨[], moved_end hl hp, rfl, rfl, hsame (by simp [toRemove, hp])⟩
  · rename_i n l hp
    split at hs
    · rename_i hm
      cases hs
      obtain ⟨rest', h⟩ := moved_skip hl hp hm (s.topic.subscriptions.value n :: l)
      obtain ⟨hn, -⟩ := visited_node hl hp
      refine Or.inl ⟨rest', h, rfl, rfl, fun sub hsub => ?_⟩
      rcases List.mem_cons.mp hsub with rfl | hsub
      · exact Or.inr ⟨n, hn, rfl⟩
      · exact Or.inl (by simpa [toRemove, hp] using hsub)
    · rename_i hm
      cases hs
      obtain ⟨rest', h⟩ := moved_check hl hp (by simpa using hm)
      exact Or.inl ⟨rest', h, rfl, rfl, hsame (by simp [toRemove, hp])⟩
  · rename_i n l hp
    cases hs
    obtain ⟨_, hn, -⟩ := worked_node hl (Or.inl hp)
    obtain ⟨p, _, hpushed, -⟩ := hl.member n hn
    refine Or.inl ⟨rest, moved_count hl hp (hcounted _ p hpushed) rfl, rfl, rfl, hsame ?_⟩
    split <;> simp [toRemove, hp]
  · rename_i n l hp
    cases hs
    exact Or.inl ⟨rest, moved_store hl hp (hpos n l hp) hbound, rfl, rfl, hsame (by simp [toRemove, hp])⟩
  · rename_i n l hp
    cases hs
    exact Or.inl ⟨rest, moved_release hl hp rfl, rfl, rfl, hsame (by simp [toRemove, hp])⟩
  · rename_i hp
    cases hs
    exact Or.inl ⟨rest, moved_idle hl hp (Or.inl rfl), rfl, rfl, hsame (by simp [toRemove])⟩
  · rename_i sub l hp
    split at hs
    · cases hs
      exact Or.inl ⟨rest, moved_idle hl hp (Or.inr ⟨l, rfl⟩), rfl, rfl,
        hsame (by simp +contextual [toRemove, hp])⟩
    · rw [TopicService.discard_eq] at hs
      by_cases hfound : (s.topic.subscriptions.remove sub).1 = true
      · rw [if_pos hfound] at hs
        cases hs
        exact Or.inr ⟨sub, l, hp, hfound, rfl⟩
      · rw [if_neg hfound] at hs
        cases hs
        exact Or.inl ⟨rest, moved_idle hl hp (Or.inr ⟨l, rfl⟩), rfl, rfl,
          hsame (by simp +contextual [toRemove, hp])⟩

theorem outcome_notify (hl : Layout s used free ids rest) (ha : Accounts s used rest)
    (hbound : s.topic.buffer.nextIndex < 0xffffffffffffffff) {lostRace : Bool} (hs : notify s lostRace = some s') :
    Outcome s s' used rest ∧ s'.topic.buffer = s.topic.buffer := by
  have hcounted : ∀ i p, s.pushed i = some p → (s.topic.subscribers i).notified < 0xffffffffffffffff := by
    intro i p hi
    have hle := notified_le (ha i p hi).balanced
    simp only at hle
    omega
  have hpos : ∀ n l, s.publisher = .storing n l → 1 ≤ s.topic.buffer.nextIndex := by
    intro n l hp
    obtain ⟨_, hn, -⟩ := worked_node hl (Or.inr (Or.inl hp))
    obtain ⟨p, _, hpushed, -⟩ := hl.member n hn
    exact (ha _ p hpushed).balanced.going (Or.inr (Or.inr (by simp [stageOf, hp])))
  rcases notify_cases hl hcounted hpos hbound hs with ⟨rest', h, hreaders, hbuffer, hremove⟩ |
    ⟨sub, l, hp, hfound, rfl⟩
  · exact ⟨.moved h (reading_moved ha h hreaders) hremove, hbuffer⟩
  · exact ⟨.removed hp hfound rfl, rfl⟩

/-- The steps of the readers. -/
def OfReader : Event → Prop
  | .openSemaphore _ | .acquire _ | .load _ | .tryRead _ => True
  | _ => False

theorem reads_step {e : Event} (he : OfReader e) (hl : Layout s used free ids rest) (hf : Follows s)
    (hcovers : Covered s) (hbound : s.topic.buffer.nextIndex < 0xffffffffffffffff) (hs : step s e = some s') :
    Reads s s' used rest := by
  cases e with
  | publish scope => exact he.elim
  | notify lostRace => exact he.elim
  | reset pid => exact he.elim
  | push position => exact he.elim
  | unsubscribe pid id weakFailure => exact he.elim
  | openSemaphore slot =>
    simp only [step] at hs
    split at hs
    · rename_i p hp hr
      split at hs
      · cases hs
      · rename_i object ho
        cases hs
        exact reads_openSemaphore hl hf hp hr ho
    · cases hs
  | acquire slot =>
    simp only [step] at hs
    split at hs
    · cases hs
    · rename_i r hr
      split at hs
      · cases hs
      · rename_i hholding
        split at hs
        · cases hs
        · rename_i os hos
          cases hs
          exact reads_acquire hl hf hr (by simpa using hholding) hos
  | load slot =>
    simp only [step] at hs
    split at hs
    · cases hs
    · rename_i r hr
      split at hs
      · rename_i hcond
        cases hs
        exact reads_load hl hf hr hcond.1 hcond.2
      · cases hs
  | tryRead slot =>
    simp only [step] at hs
    split at hs
    · cases hs
    · rename_i r hr
      split at hs
      · cases hs
      · rename_i c hc
        split at hs
        · rename_i hholding
          split at hs
          · rename_i c' hread
            cases hs
            exact reads_tryRead hl hf hcovers hbound hr hholding hc hread
          · cases hs
            exact reads_still hl hf
        · cases hs

theorem step_cases {e : Event} (hl : Layout s used free ids rest) (ha : Accounts s used rest)
    (hbound : s.topic.buffer.nextIndex + e.entries < 0xffffffffffffffff) (hs : step s e = some s') :
    Outcome s s' used rest ∧ s'.topic.buffer.nextIndex = s.topic.buffer.nextIndex + e.entries := by
  have hreads : OfReader e → Outcome s s' used rest ∧ s'.topic.buffer.nextIndex =
      s.topic.buffer.nextIndex + e.entries := by
    intro he
    have hzero : e.entries = 0 := by cases e <;> first | rfl | exact he.elim
    have h := reads_step he hl (follows_of_accounts ha) (covered_of_accounts ha) (by omega) hs
    exact ⟨.moved h.moved h.reading fun sub hsub => Or.inl (by rwa [h.publisher] at hsub),
      by rw [h.buffer, hzero]; rfl⟩
  cases e with
  | publish scope =>
    simp only [step] at hs
    split at hs
    · rename_i hp
      by_cases hc : 0 < scope.span.committed
      · simp only [Event.entries, hc, ↓reduceIte, Option.some.injEq] at hbound hs ⊢
        subst hs
        have hnext : (scope.destroy s.topic.buffer).nextIndex = s.topic.buffer.nextIndex + 1 := by
          rw [WriterScope.destroy_nextIndex, if_pos hc, addWord_exact (by omega)]
        exact ⟨outcome_quiet ha (moved_publish hl hp hnext) rfl (by simp [toRemove, hp]), hnext⟩
      · simp only [Event.entries, hc, ↓reduceIte, Option.some.injEq] at hs ⊢
        subst hs
        have hnext : (scope.destroy s.topic.buffer).nextIndex = s.topic.buffer.nextIndex := by
          rw [WriterScope.destroy_nextIndex, if_neg hc]
        exact ⟨outcome_quiet ha (moved_uncommitted hl hp hnext) rfl rfl, hnext⟩
    · cases hs
  | notify lostRace =>
    obtain ⟨houtcome, hbuffer⟩ := outcome_notify hl ha hbound hs
    exact ⟨houtcome, by rw [hbuffer]; rfl⟩
  | unsubscribe pid id weakFailure =>
    simp only [step, Option.some.injEq] at hs
    subst hs
    refine ⟨outcome_quiet ha (moved_unsubscribe hl pid id weakFailure) rfl rfl, ?_⟩
    unfold TopicService.unsubscribe
    dsimp only
    split
    · split <;> rfl
    · rfl
  | reset pid =>
    simp only [step] at hs
    split at hs
    · cases hs
      exact ⟨outcome_still hl (follows_of_accounts ha), rfl⟩
    · rename_i index idPool hrent
      cases hs
      exact ⟨.reset hrent pid rfl, rfl⟩
  | push position =>
    simp only [step] at hs
    split at hs
    · cases hs
    · rename_i index pid he
      cases hs
      exact ⟨.entered he rfl, rfl⟩
  | openSemaphore slot => exact hreads trivial
  | acquire slot => exact hreads trivial
  | load slot => exact hreads trivial
  | tryRead slot => exact hreads trivial

/-- Whatever a step does, it turns books in order into books in order. -/
theorem turn_of_outcome (hl : Layout s used free ids rest) (ha : Accounts s used rest) (h : Outcome s s' used rest) :
    Turn s s' used rest := by
  cases h with
  | moved h hreading => exact turn_moved hl ha h hreading
  | removed hp hfound hs => exact hs ▸ turn_remove hl ha hp hfound
  | reset hrent pid hs => exact hs ▸ turn_reset hl ha hrent pid
  | entered he hs => exact hs ▸ turn_enter hl ha he

theorem turn_step {e : Event} (hl : Layout s used free ids rest) (ha : Accounts s used rest)
    (hbound : s.topic.buffer.nextIndex + e.entries < 0xffffffffffffffff) (hs : step s e = some s') :
    Turn s s' used rest ∧ s'.topic.buffer.nextIndex = s.topic.buffer.nextIndex + e.entries := by
  obtain ⟨houtcome, hnext⟩ := step_cases hl ha hbound hs
  exact ⟨turn_of_outcome hl ha houtcome, hnext⟩

end SubscriptionTurns
