import ZeroCopyRpc.SubscriptionMachine
import ZeroCopyRpc.TokenLedger

/-!
# The subscribers' accounts

Each subscription's account is a ledger of `TokenLedger`, and every step of the
machine is one of the ledger's moves for one slot and nothing for the others.
The layout says how bag, pool, semaphores and readers fit together, so that a
step finds the one account it is about.
-/
namespace SubscriptionAccounts

open LinkedChain SubscriptionMachine TokenLedger Transitions Words

def taken (r : Reader) : Nat := r.reads.length + if r.holding then 1 else 0

/-- Where the pass stands with slot `i`, when these nodes are still to be visited. -/
def stageOf (publisher : Publisher) (slot : Nat → Nat) (rest : List Nat) (i : Nat) : Stage :=
  let later := if i ∈ rest.map slot then Stage.due else .passed
  match publisher with
  | .checked n _ => if slot n = i then .checked else later
  | .storing n _ => if slot n = i then .storing else later
  | .releasing n _ => if slot n = i then .releasing else later
  | _ => later

/-- The cursor of a reader follows the indexes it has read. -/
def Reading (start : Nat) : Option Reader → Prop
  | none => True
  | some r => match r.cursor with
    | none => r.reads = []
    | some c => 0 < taken r ∧ c = ⟨subWord (start + r.reads.length) 1⟩ ∧
        r.reads = List.range' start r.reads.length

/-- The books of one subscription: its ledger balances and its reader follows. -/
structure Account (published : Nat) (p : Pushed) (present : Bool) (d : SubscriptionSharedData) (count : Nat)
    (reader : Option Reader) (stage : Stage) : Prop where
  balanced : Balanced ⟨published, p.entries, present, d.pendingRemove, d.nextIndex, d.notified, count,
    reader.elim 0 taken, stage⟩
  reading : Reading d.nextIndex reader

/-- The nodes the pass still has to visit. -/
def Pass (s : State) (used rest : List Nat) : Prop :=
  (∀ n ∈ rest, n ∈ used) ∧
  match s.publisher with
  | .idle | .removing _ => rest = []
  | .published => rest = used ∧ 1 ≤ s.topic.buffer.nextIndex
  | .visiting current _ => Chain s.topic.subscriptions.next current rest
  | .checked n _ | .storing n _ | .releasing n _ =>
    n ∈ used ∧ Chain s.topic.subscriptions.next (some n) (n :: rest)

/-- How bag, pool, semaphores and readers fit together. -/
structure Layout (s : State) (used free ids rest : List Nat) : Prop where
  nodes : s.topic.subscriptions.Nodes used free
  pool : s.topic.idPool.Free ids
  slots : (used.map s.slot).Nodup
  member : ∀ n ∈ used, ∃ p sem, s.pushed (s.slot n) = some p ∧
    (s.topic.subscriptions.value n).sem = some sem ∧ sem.handle = p.object
  pass : Pass s used rest
  unused : ∀ i ∈ ids, s.pushed i = none ∧ i ∉ s.entering.map Prod.fst
  entering : (s.entering.map Prod.fst).Nodup ∧
    ∀ i ∈ s.entering.map Prod.fst, s.pushed i = none ∧ (s.topic.subscribers i).notified = 0
  objects : ∀ i p, s.pushed i = some p → p.object < s.topic.semaphores.created ∧
    ∀ j q, s.pushed j = some q → p.object = q.object → i = j
  names : ∀ k o, s.topic.semaphores.names k = some o → ∃ p, s.pushed k.index = some p ∧ p.object = o
  readers : ∀ i r, s.readers i = some r → ∃ p, s.pushed i = some p ∧ r.sem = p.object

def Accounts (s : State) (used rest : List Nat) : Prop :=
  ∀ i p, s.pushed i = some p → Account s.topic.buffer.nextIndex p (decide (i ∈ used.map s.slot))
    (s.topic.subscribers i) (s.topic.semaphores.count p.object) (s.readers i) (stageOf s.publisher s.slot rest i)

def Inv (s : State) : Prop :=
  ∃ used free ids rest, Layout s used free ids rest ∧ Accounts s used rest

/-- The nodes the iterator still has to meet. -/
def toVisit (s : State) : List Nat :=
  let bag := s.topic.subscriptions
  match s.publisher with
  | .idle | .removing _ => []
  | .published => walk bag.next bag.capacity bag.itemsHead
  | .visiting current _ => walk bag.next bag.capacity current
  | .checked n _ | .storing n _ | .releasing n _ => walk bag.next bag.capacity (bag.next n)

/-- Where the pass under way stands with slot `i`. -/
def stageAt (s : State) (i : Nat) : Stage := stageOf s.publisher s.slot (toVisit s) i

variable {s s' : State} {head : Option Nat} {used free ids rest rest' : List Nat} {n : Nat}
    {toRemove : List Subscription}

theorem inv_start (buffer : CyclicBuffer) : Inv (start buffer) := by
  refine ⟨[], List.range' 0 256, List.range 256, [], ?_, fun i p hp => by cases hp⟩
  exact {
    nodes := ⟨rfl, ConcurrentBag.new_spare 256 0 Subscription.new (Nat.zero_le _), by simp, by
      simp [start, TopicService.new, ConcurrentBag.new]⟩
    pool := (IDPool.new_free 256).1
    slots := List.nodup_nil
    member := by simp
    pass := ⟨by simp, rfl⟩
    unused := fun i _ => ⟨rfl, by simp [start]⟩
    entering := ⟨List.nodup_nil, by simp [start]⟩
    objects := fun i p hp => by cases hp
    names := fun k o ho => by cases ho
    readers := fun i r hr => by cases hr }

theorem mem_items {b : ConcurrentBag Subscription} (hn : b.Nodes used free) {sub : Subscription} :
    sub ∈ b.items ↔ ∃ n ∈ used, b.value n = sub := by
  have hb : b.Holds (used.map b.value) := ⟨used, free, hn, rfl⟩
  rw [hb.items_eq, List.mem_map]

/-- The pass's rest is what the iterator will meet. -/
theorem toVisit_eq (hl : Layout s used free ids rest) : toVisit s = rest := by
  have hlength : ∀ l : List Nat, l.Nodup → (∀ n ∈ l, n ∈ used) →
      l.length ≤ s.topic.subscriptions.capacity := by
    intro l hn hsub
    have hle := (List.subperm_of_subset hn hsub).length_le
    have := hl.nodes.count
    omega
  have hwalk : ∀ head : Option Nat, Chain s.topic.subscriptions.next head rest →
      walk s.topic.subscriptions.next s.topic.subscriptions.capacity head = rest :=
    fun head hc => walk_chain hc (hlength rest (chain_nodup hc) hl.pass.1)
  have hpass := hl.pass.2
  unfold toVisit
  cases hp : s.publisher with
  | idle =>
    rw [hp] at hpass
    exact hpass.symm
  | removing l =>
    rw [hp] at hpass
    exact hpass.symm
  | published =>
    rw [hp] at hpass
    obtain ⟨rfl, -⟩ := hpass
    exact hwalk _ hl.nodes.items
  | visiting current l =>
    rw [hp] at hpass
    exact hwalk _ hpass
  | checked n l =>
    rw [hp] at hpass
    exact hwalk _ hpass.2.2
  | storing n l =>
    rw [hp] at hpass
    exact hwalk _ hpass.2.2
  | releasing n l =>
    rw [hp] at hpass
    exact hwalk _ hpass.2.2

/-- Steps that leave bag, pool, names and pushes alone keep the layout. -/
theorem layout_congr (h : Layout s used free ids rest) (hbag : s'.topic.subscriptions = s.topic.subscriptions)
    (hpool : s'.topic.idPool = s.topic.idPool) (hnames : s'.topic.semaphores.names = s.topic.semaphores.names)
    (hcreated : s'.topic.semaphores.created = s.topic.semaphores.created) (hentering : s'.entering = s.entering)
    (hpushed : s'.pushed = s.pushed)
    (hquiet : ∀ i, s.pushed i = none → (s'.topic.subscribers i).notified = (s.topic.subscribers i).notified)
    (hreaders : ∀ i r', s'.readers i = some r' → ∃ p, s.pushed i = some p ∧ r'.sem = p.object)
    (hpass : Pass s' used rest') : Layout s' used free ids rest' := by
  have hslot : s'.slot = s.slot := by
    funext m
    simp only [State.slot, hbag]
  constructor
  · exact hbag ▸ h.nodes
  · exact hpool ▸ h.pool
  · exact hslot ▸ h.slots
  · rw [hslot, hpushed, hbag]
    exact h.member
  · exact hpass
  · rw [hpushed, hentering]
    exact h.unused
  · rw [hpushed, hentering]
    refine ⟨h.entering.1, fun i hi => ?_⟩
    obtain ⟨hnone, hzero⟩ := h.entering.2 i hi
    exact ⟨hnone, (hquiet i hnone).trans hzero⟩
  · rw [hpushed, hcreated]
    exact h.objects
  · rw [hpushed, hnames]
    exact h.names
  · rw [hpushed]
    exact hreaders

/-- The slot of a node is in the bag, and no other node has it. -/
theorem slot_inj (h : Layout s used free ids rest) {m : Nat} (hn : n ∈ used) (hm : m ∈ used)
    (he : s.slot n = s.slot m) : n = m := List.inj_on_of_nodup_map h.slots hn hm he

/-- A slot that was never pushed is not the slot of a node. -/
theorem ne_slot (h : Layout s used free ids rest) (hn : n ∈ used) {i : Nat}
    (hi : s.pushed i = none) : i ≠ s.slot n := by
  obtain ⟨p, _, hp, _⟩ := h.member n hn
  rintro rfl
  rw [hi] at hp
  cases hp

/-- The node being visited is not visited again in this pass. -/
theorem slot_not_ahead (h : Layout s used free ids rest) (hn : n ∈ used) (hlater : ∀ m ∈ rest', m ∈ used)
    (hchain : Chain s.topic.subscriptions.next (some n) (n :: rest')) : s.slot n ∉ rest'.map s.slot := by
  intro hm
  obtain ⟨m, hm, hslot⟩ := List.mem_map.mp hm
  have hmn := slot_inj h (hlater m hm) hn hslot
  exact (List.nodup_cons.mp (chain_nodup hchain)).1 (hmn ▸ hm)

/-- The account of slot `i` as a ledger. -/
def ledger (s : State) (used rest : List Nat) (i : Nat) (p : Pushed) : Ledger where
  published := s.topic.buffer.nextIndex
  entered := p.entries
  present := decide (i ∈ used.map s.slot)
  marked := (s.topic.subscribers i).pendingRemove
  start := (s.topic.subscribers i).nextIndex
  notified := (s.topic.subscribers i).notified
  count := s.topic.semaphores.count p.object
  taken := (s.readers i).elim 0 taken
  stage := stageOf s.publisher s.slot rest i

/-- Every reader follows from the start in its slot. -/
def Follows (s : State) : Prop :=
  ∀ i p, s.pushed i = some p → Reading (s.topic.subscribers i).nextIndex (s.readers i)

/-- Every token taken is covered by an entry from the start on, and the start is
not later than the log was long at the push. -/
def Covered (s : State) : Prop :=
  ∀ i p, s.pushed i = some p → 0 < (s.readers i).elim 0 taken →
    (s.topic.subscribers i).nextIndex + (s.readers i).elim 0 taken ≤ s.topic.buffer.nextIndex ∧
    (s.topic.subscribers i).nextIndex ≤ p.entries

theorem follows_of_accounts (ha : Accounts s used rest) : Follows s := fun i p hi => (ha i p hi).reading

theorem covered_of_accounts (ha : Accounts s used rest) : Covered s :=
  fun i p hi => taken_covered (ha i p hi).balanced

/-- Bag, pool, names and pushes are what they were, and so is who holds a slot. -/
structure Kept (s s' : State) : Prop where
  bag : s'.topic.subscriptions = s.topic.subscriptions
  idPool : s'.topic.idPool = s.topic.idPool
  names : s'.topic.semaphores.names = s.topic.semaphores.names
  created : s'.topic.semaphores.created = s.topic.semaphores.created
  entering : s'.entering = s.entering
  pushed : s'.pushed = s.pushed
  table : ∀ i, (s'.topic.subscribers i).active = (s.topic.subscribers i).active ∧
    (s'.topic.subscribers i).pid = (s.topic.subscribers i).pid
  quiet : ∀ i, s.pushed i = none → (s'.topic.subscribers i).notified = (s.topic.subscribers i).notified
  readers : ∀ i r', s'.readers i = some r' → ∃ p, s.pushed i = some p ∧ r'.sem = p.object

/-- A step that keeps all that and makes one of the ledger's moves for every slot. -/
structure Moved (s s' : State) (used rest rest' : List Nat) : Prop where
  kept : Kept s s'
  pass : Pass s' used rest'
  moves : ∀ i p, s.pushed i = some p → Move (ledger s used rest i p) (ledger s' used rest' i p)

theorem layout_moved (hl : Layout s used free ids rest) (h : Moved s s' used rest rest') :
    Layout s' used free ids rest' :=
  layout_congr hl h.kept.bag h.kept.idPool h.kept.names h.kept.created h.kept.entering h.kept.pushed h.kept.quiet
    h.kept.readers h.pass

/-- The start of a reader that has taken no token can change. -/
theorem reading_untaken {d : Nat} {r : Option Reader} (h : Reading d r) (ht : r.elim 0 taken = 0) (d' : Nat) :
    Reading d' r := by
  cases r with
  | none => trivial
  | some r =>
    simp only [Reading] at h ⊢
    cases hc : r.cursor with
    | none => simpa [hc] using h
    | some c =>
      rw [hc] at h
      have := h.1
      simp only [Option.elim_some] at ht
      omega

theorem accounts_moved (ha : Accounts s used rest) (h : Moved s s' used rest rest')
    (hreading : ∀ i p, s.pushed i = some p → Reading (s'.topic.subscribers i).nextIndex (s'.readers i)) :
    Accounts s' used rest' := by
  intro i p hi
  rw [h.kept.pushed] at hi
  have hbalanced : Balanced (ledger s used rest i p) := (ha i p hi).balanced
  exact ⟨balanced_move hbalanced (h.moves i p hi), hreading i p hi⟩

/-- While the readers do nothing they follow, also where a start is stored. -/
theorem follows_moved (hf : Follows s) (h : Moved s s' used rest rest') (hreaders : s'.readers = s.readers)
    (huntaken : ∀ i p, s.pushed i = some p → stageOf s.publisher s.slot rest i = .storing →
      (s.readers i).elim 0 taken = 0)
    (i : Nat) (p : Pushed) (hi : s.pushed i = some p) : Reading (s'.topic.subscribers i).nextIndex (s'.readers i) := by
  have hreading := hf i p hi
  rw [hreaders]
  rcases start_move (h.moves i p hi) with hstart | ⟨hstage, -⟩
  · have hsame : (s'.topic.subscribers i).nextIndex = (s.topic.subscribers i).nextIndex := hstart
    rwa [hsame]
  · exact reading_untaken hreading (huntaken i p hi hstage) _

theorem reading_moved (ha : Accounts s used rest) (h : Moved s s' used rest rest')
    (hreaders : s'.readers = s.readers) :
    ∀ i p, s.pushed i = some p → Reading (s'.topic.subscribers i).nextIndex (s'.readers i) :=
  follows_moved (follows_of_accounts ha) h hreaders fun i p hi hs => untaken_of_storing (ha i p hi).balanced hs

/-- The publisher raises the index; every subscription in the bag falls due. -/
theorem moved_publish (hl : Layout s used free ids rest) (hp : s.publisher = .idle) {b : CyclicBuffer}
    (hb : b.nextIndex = s.topic.buffer.nextIndex + 1) :
    Moved s { s with topic := { s.topic with buffer := b }, publisher := .published } used rest used := by
  have hnil : rest = [] := by
    have := hl.pass.2
    rwa [hp] at this
  subst hnil
  refine ⟨⟨rfl, rfl, rfl, rfl, rfl, rfl, fun _ => ⟨rfl, rfl⟩, fun _ _ => rfl, hl.readers⟩,
    ⟨fun _ hn => hn, rfl, by simp only [hb]; omega⟩, fun i p _ => ?_⟩
  have hs : (ledger s used [] i p).stage = .passed := by simp [ledger, stageOf, hp]
  have hmove := Move.publish hs
  have hdue : (if (ledger s used [] i p).present = true then Stage.due else .passed) =
      if i ∈ used.map s.slot then .due else .passed := by
    simp only [ledger, decide_eq_true_eq]
  rw [hdue] at hmove
  simp only [ledger, hb]
  exact hmove

/-- A scope that committed nothing. -/
theorem moved_uncommitted (hl : Layout s used free ids rest) (hp : s.publisher = .idle) {b : CyclicBuffer}
    (hb : b.nextIndex = s.topic.buffer.nextIndex) :
    Moved s { s with topic := { s.topic with buffer := b } } used rest rest := by
  refine ⟨⟨rfl, rfl, rfl, rfl, rfl, rfl, fun _ => ⟨rfl, rfl⟩, fun _ _ => rfl, hl.readers⟩, ?_,
    fun i p _ => ?_⟩
  · have hpass := hl.pass
    rw [Pass, hp] at hpass
    refine ⟨hpass.1, ?_⟩
    simp only [hp]
    exact hpass.2
  · simp only [ledger, hb]
    exact Move.stay _

/-- A step of the iterator alone. -/
theorem moved_stage (hl : Layout s used free ids rest) {next : Publisher}
    (hpass : Pass { s with publisher := next } used rest')
    (hmove : ∀ i p, Move (ledger s used rest i p)
      { ledger s used rest i p with stage := stageOf next s.slot rest' i }) :
    Moved s { s with publisher := next } used rest rest' :=
  ⟨⟨rfl, rfl, rfl, rfl, rfl, rfl, fun _ => ⟨rfl, rfl⟩, fun _ _ => rfl, hl.readers⟩, hpass,
    fun i p _ => hmove i p⟩

theorem moved_still (hl : Layout s used free ids rest) {next : Publisher}
    (hpass : Pass { s with publisher := next } used rest')
    (hstage : ∀ i, stageOf next s.slot rest' i = stageOf s.publisher s.slot rest i) :
    Moved s { s with publisher := next } used rest rest' := by
  refine moved_stage hl hpass fun i p => ?_
  rw [hstage]
  exact Move.stay _

theorem moved_begin (hl : Layout s used free ids rest) (hp : s.publisher = .published) :
    Moved s { s with publisher := .visiting s.topic.subscriptions.itemsHead [] } used rest rest := by
  have hall : rest = used := by
    have := hl.pass.2
    rw [hp] at this
    exact this.1
  subst hall
  exact moved_still hl ⟨fun _ hn => hn, hl.nodes.items⟩ fun i => by simp only [stageOf, hp]

theorem moved_end (hl : Layout s used free ids rest) (hp : s.publisher = .visiting none toRemove) :
    Moved s { s with publisher := .removing toRemove } used rest [] := by
  have hchain := hl.pass.2
  rw [hp] at hchain
  have hnil : rest = [] := by
    cases rest with
    | nil => rfl
    | cons m rest => cases hchain.1
  subst hnil
  exact moved_still hl ⟨by simp, rfl⟩ fun i => by simp only [stageOf, hp]

theorem moved_idle (hl : Layout s used free ids rest) {l : List Subscription} (hp : s.publisher = .removing l)
    {next : Publisher} (hnext : next = .idle ∨ ∃ l', next = .removing l') :
    Moved s { s with publisher := next } used rest rest := by
  have hnil := hl.pass.2
  rw [hp] at hnil
  rcases hnext with rfl | ⟨l', rfl⟩
  · exact moved_still hl ⟨hl.pass.1, hnil⟩ fun i => by simp only [stageOf, hp]
  · exact moved_still hl ⟨hl.pass.1, hnil⟩ fun i => by simp only [stageOf, hp]

/-- What is known when the iterator stands on a node. -/
theorem visited_node (hl : Layout s used free ids rest) (hp : s.publisher = .visiting (some n) toRemove) :
    n ∈ used ∧ ∃ later, rest = n :: later ∧ Chain s.topic.subscriptions.next (some n) (n :: later) ∧
      (∀ m ∈ later, m ∈ used) ∧ s.slot n ∉ later.map s.slot := by
  have hchain := hl.pass.2
  rw [hp] at hchain
  cases rest with
  | nil => cases hchain
  | cons m later =>
    obtain ⟨hm, hrest⟩ := hchain
    cases hm
    have hn := hl.pass.1 n List.mem_cons_self
    have hc : Chain s.topic.subscriptions.next (some n) (n :: later) := ⟨rfl, hrest⟩
    have hlater : ∀ k ∈ later, k ∈ used := fun k hk => hl.pass.1 k (List.mem_cons_of_mem n hk)
    exact ⟨hn, later, rfl, hc, hlater, slot_not_ahead hl hn hlater hc⟩

theorem moved_skip (hl : Layout s used free ids rest) (hp : s.publisher = .visiting (some n) toRemove)
    (hm : (s.topic.subscribers (s.slot n)).pendingRemove = true) (toRemove' : List Subscription) :
    ∃ rest', Moved s { s with publisher := .visiting (s.topic.subscriptions.next n) toRemove' } used rest rest' := by
  obtain ⟨hn, later, rfl, hchain, hlater, hout⟩ := visited_node hl hp
  refine ⟨later, moved_stage hl ⟨hlater, hchain.2⟩ fun i p => ?_⟩
  have hold : (ledger s used (n :: later) i p).stage =
      if i ∈ (n :: later).map s.slot then Stage.due else .passed := by
    simp only [ledger, stageOf, hp]
  have hnew : stageOf (.visiting (s.topic.subscriptions.next n) toRemove') s.slot later i =
      if i ∈ later.map s.slot then .due else .passed := rfl
  rw [hnew]
  by_cases hslot : s.slot n = i
  · subst hslot
    rw [if_neg hout]
    exact Move.skip (by simpa using hold) hm
  · have hsame : (if i ∈ later.map s.slot then Stage.due else .passed) =
        (ledger s used (n :: later) i p).stage := by
      rw [hold]
      simp [Ne.symm hslot]
    rw [hsame]
    exact Move.stay _

theorem moved_check (hl : Layout s used free ids rest) (hp : s.publisher = .visiting (some n) toRemove)
    (hm : (s.topic.subscribers (s.slot n)).pendingRemove = false) :
    ∃ rest', Moved s { s with publisher := .checked n toRemove } used rest rest' := by
  obtain ⟨hn, later, rfl, hchain, hlater, hout⟩ := visited_node hl hp
  refine ⟨later, moved_stage hl ⟨hlater, hn, hchain⟩ fun i p => ?_⟩
  have hold : (ledger s used (n :: later) i p).stage =
      if i ∈ (n :: later).map s.slot then Stage.due else .passed := by
    simp only [ledger, stageOf, hp]
  have hnew : stageOf (.checked n toRemove) s.slot later i =
      if s.slot n = i then .checked else if i ∈ later.map s.slot then .due else .passed := rfl
  rw [hnew]
  by_cases hslot : s.slot n = i
  · subst hslot
    rw [if_pos rfl]
    exact Move.check (by simpa using hold) hm
  · have hsame : (if i ∈ later.map s.slot then Stage.due else .passed) =
        (ledger s used (n :: later) i p).stage := by
      rw [hold]
      simp [Ne.symm hslot]
    rw [if_neg hslot, hsame]
    exact Move.stay _

/-- What is known while the publisher works on a node. -/
theorem worked_node (hl : Layout s used free ids rest)
    (hp : s.publisher = .checked n toRemove ∨ s.publisher = .storing n toRemove ∨
      s.publisher = .releasing n toRemove) :
    (∀ m ∈ rest, m ∈ used) ∧ n ∈ used ∧ Chain s.topic.subscriptions.next (some n) (n :: rest) ∧
      s.slot n ∉ rest.map s.slot := by
  obtain ⟨hrest, hpass⟩ := hl.pass
  have hnode : n ∈ used ∧ Chain s.topic.subscriptions.next (some n) (n :: rest) := by
    rcases hp with hp | hp | hp <;> rwa [hp] at hpass
  exact ⟨hrest, hnode.1, hnode.2, slot_not_ahead hl hnode.1 hrest hnode.2⟩

/-- Writing the slot of a node, but not whose it is, is about the one account. -/
theorem moved_setSlot (hl : Layout s used free ids rest) (hn : n ∈ used)
    (d : SubscriptionSharedData) (next : Publisher)
    (hactive : d.active = (s.topic.subscribers (s.slot n)).active)
    (hpid : d.pid = (s.topic.subscribers (s.slot n)).pid)
    (hpass : Pass { s.setSlot (s.slot n) d with publisher := next } used rest)
    (hother : ∀ i, s.slot n ≠ i → stageOf next s.slot rest i = stageOf s.publisher s.slot rest i)
    (hself : ∀ p, Move (ledger s used rest (s.slot n) p) { ledger s used rest (s.slot n) p with
      marked := d.pendingRemove, start := d.nextIndex, notified := d.notified,
      stage := stageOf next s.slot rest (s.slot n) }) :
    Moved s { s.setSlot (s.slot n) d with publisher := next } used rest rest := by
  have hset : ∀ i, s.slot n ≠ i → Function.update s.topic.subscribers (s.slot n) d i = s.topic.subscribers i :=
    fun i hi => Function.update_of_ne (Ne.symm hi) _ _
  refine ⟨⟨rfl, rfl, rfl, rfl, rfl, rfl, fun i => ?_, fun i hi => ?_, hl.readers⟩, hpass, fun i p _ => ?_⟩
  · simp only [State.setSlot]
    by_cases hi : s.slot n = i
    · subst hi
      rw [Function.update_self]
      exact ⟨hactive, hpid⟩
    · rw [hset i hi]
      exact ⟨rfl, rfl⟩
  · exact congrArg _ (hset i (Ne.symm (ne_slot hl hn hi)))
  · by_cases hi : s.slot n = i
    · subst hi
      have hd : ledger { s.setSlot (s.slot n) d with publisher := next } used rest (s.slot n) p =
          { ledger s used rest (s.slot n) p with
            marked := d.pendingRemove, start := d.nextIndex, notified := d.notified,
            stage := stageOf next s.slot rest (s.slot n) } := by
        simp only [ledger, State.setSlot, Function.update_self]
        rfl
      rw [hd]
      exact hself p
    · have hd : ledger { s.setSlot (s.slot n) d with publisher := next } used rest i p = ledger s used rest i p := by
        simp only [ledger, State.setSlot, hset i hi]
        rw [← hother i hi]
        rfl
      rw [hd]
      exact Move.stay _

theorem moved_count (hl : Layout s used free ids rest) (hp : s.publisher = .checked n toRemove)
    (hcounted : (s.topic.subscribers (s.slot n)).notified < 0xffffffffffffffff) {next : Publisher}
    (hnext : next = if (s.topic.subscribers (s.slot n)).notified = 0 then .storing n toRemove
      else .releasing n toRemove) :
    Moved s { s.setSlot (s.slot n) { s.topic.subscribers (s.slot n) with
      notified := addWord (s.topic.subscribers (s.slot n)).notified 1 } with publisher := next } used rest rest := by
  obtain ⟨hlater, hn, hchain, hout⟩ := worked_node hl (Or.inl hp)
  refine moved_setSlot hl hn _ next rfl rfl ?_ (fun i hi => ?_) fun p => ?_
  · subst hnext
    split <;> exact ⟨hlater, hn, hchain⟩
  · subst hnext
    split <;> simp [stageOf, hp, hi]
  · have hstage : stageOf next s.slot rest (s.slot n) =
        if (s.topic.subscribers (s.slot n)).notified = 0 then .storing else .releasing := by
      subst hnext
      split <;> simp [stageOf]
    rw [hstage, addWord_exact (by omega)]
    exact Move.count (by simp [ledger, stageOf, hp]) (decide_eq_true (List.mem_map_of_mem hn))

theorem moved_store (hl : Layout s used free ids rest) (hp : s.publisher = .storing n toRemove)
    (hpos : 1 ≤ s.topic.buffer.nextIndex) (hbound : s.topic.buffer.nextIndex < 0xffffffffffffffff) :
    Moved s { s.setSlot (s.slot n) { s.topic.subscribers (s.slot n) with
      nextIndex := subWord s.topic.buffer.nextIndex 1 } with publisher := .releasing n toRemove } used rest rest := by
  obtain ⟨hlater, hn, hchain, hout⟩ := worked_node hl (Or.inr (Or.inl hp))
  refine moved_setSlot hl hn _ _ rfl rfl ⟨hlater, hn, hchain⟩ (fun i hi => ?_) fun p => ?_
  · simp [stageOf, hp, hi]
  · have hstage : stageOf (.releasing n toRemove) s.slot rest (s.slot n) = .releasing := by simp [stageOf]
    rw [hstage, subWord_exact hpos (by omega)]
    exact Move.store (by simp [ledger, stageOf, hp])

theorem moved_release (hl : Layout s used free ids rest) (hp : s.publisher = .releasing n toRemove)
    {os : Semaphores SemaphoreName}
    (hos : os = (s.topic.subscriptions.value n).sem.elim s.topic.semaphores
      (fun sem => s.topic.semaphores.release sem.handle)) :
    Moved s { s with
      topic := { s.topic with semaphores := os }
      publisher := .visiting (s.topic.subscriptions.next n) toRemove } used rest rest := by
  obtain ⟨hlater, hn, hchain, hout⟩ := worked_node hl (Or.inr (Or.inr hp))
  obtain ⟨q, sem, hq, hsem, hobject⟩ := hl.member n hn
  rw [hsem, Option.elim_some] at hos
  subst hos
  refine ⟨⟨rfl, rfl, rfl, rfl, rfl, rfl, fun _ => ⟨rfl, rfl⟩, fun _ _ => rfl, hl.readers⟩,
    ⟨hlater, hchain.2⟩, fun i p hi => ?_⟩
  change Move (ledger s used rest i p) { ledger s used rest i p with
    count := Function.update s.topic.semaphores.count sem.handle _ p.object
    stage := if i ∈ rest.map s.slot then .due else .passed }
  by_cases hslot : s.slot n = i
  · subst hslot
    obtain rfl : q = p := Option.some.inj (hq.symm.trans hi)
    rw [hobject, Function.update_self, if_neg hout]
    exact Move.release (by simp [ledger, stageOf, hp])
  · have hne : p.object ≠ sem.handle := by
      intro he
      exact hslot (((hl.objects i p hi).2 _ q hq (he.trans hobject)).symm)
    have hsame : (if i ∈ rest.map s.slot then Stage.due else .passed) = stageOf s.publisher s.slot rest i := by
      simp [stageOf, hp, hslot]
    rw [Function.update_of_ne hne, hsame]
    exact Move.stay _

theorem moved_mark (hl : Layout s used free ids rest) (id : Nat) :
    Moved s (s.setSlot id { s.topic.subscribers id with pendingRemove := true }) used rest rest := by
  have hset : ∀ i, i ≠ id → Function.update s.topic.subscribers id
      { s.topic.subscribers id with pendingRemove := true } i = s.topic.subscribers i :=
    fun i hi => Function.update_of_ne hi _ _
  have hfields : ∀ i,
      ((s.setSlot id { s.topic.subscribers id with pendingRemove := true }).topic.subscribers i).active =
      (s.topic.subscribers i).active ∧
      ((s.setSlot id { s.topic.subscribers id with pendingRemove := true }).topic.subscribers i).pid =
      (s.topic.subscribers i).pid ∧
      ((s.setSlot id { s.topic.subscribers id with pendingRemove := true }).topic.subscribers i).notified =
      (s.topic.subscribers i).notified := by
    intro i
    simp only [State.setSlot]
    by_cases hi : i = id
    · subst hi
      rw [Function.update_self]
      exact ⟨rfl, rfl, rfl⟩
    · rw [hset i hi]
      exact ⟨rfl, rfl, rfl⟩
  refine ⟨⟨rfl, rfl, rfl, rfl, rfl, rfl, fun i => ⟨(hfields i).1, (hfields i).2.1⟩, fun i _ => (hfields i).2.2,
    hl.readers⟩, hl.pass, fun i p _ => ?_⟩
  by_cases hi : i = id
  · subst hi
    have hd : ledger (s.setSlot i { s.topic.subscribers i with pendingRemove := true }) used rest i p =
        { ledger s used rest i p with marked := true } := by
      simp only [ledger, State.setSlot, Function.update_self]
      rfl
    rw [hd]
    exact Move.mark _
  · have hd : ledger (s.setSlot id { s.topic.subscribers id with pendingRemove := true }) used rest i p =
        ledger s used rest i p := by
      simp only [ledger, State.setSlot, hset i hi]
      rfl
    rw [hd]
    exact Move.stay _

theorem moved_stay (hl : Layout s used free ids rest) : Moved s s used rest rest :=
  ⟨⟨rfl, rfl, rfl, rfl, rfl, rfl, fun _ => ⟨rfl, rfl⟩, fun _ _ => rfl, hl.readers⟩, hl.pass,
    fun _ _ _ => Move.stay _⟩

theorem moved_unsubscribe (hl : Layout s used free ids rest) (pid id : Nat) (weakFailure : Bool) :
    Moved s { s with topic := (s.topic.unsubscribe pid id weakFailure).2 } used rest rest := by
  have hstill := moved_stay hl
  unfold TopicService.unsubscribe
  dsimp only
  split
  · split
    · exact moved_mark hl id
    · exact hstill
  · exact hstill

/-- A reader's step is about its slot's account. -/
theorem moved_reader (hl : Layout s used free ids rest) {i : Nat} {p : Pushed} (hp : s.pushed i = some p) (r : Reader)
    (hsem : r.sem = p.object) (count : Nat → Nat)
    (hcount : ∀ o, o ≠ p.object → count o = s.topic.semaphores.count o)
    (hmove : Move (ledger s used rest i p) { ledger s used rest i p with count := count p.object, taken := taken r }) :
    Moved s (State.setReader { s with topic := { s.topic with
      semaphores := { s.topic.semaphores with count := count } } } i r) used rest rest := by
  refine ⟨⟨rfl, rfl, rfl, rfl, rfl, rfl, fun _ => ⟨rfl, rfl⟩, fun _ _ => rfl, fun j r' hr' => ?_⟩, hl.pass,
    fun j q hj => ?_⟩
  · simp only [State.setReader] at hr'
    by_cases hj : j = i
    · subst hj
      rw [Function.update_self, Option.some.injEq] at hr'
      exact ⟨p, hp, hr' ▸ hsem⟩
    · rw [Function.update_of_ne hj] at hr'
      exact hl.readers j r' hr'
  · by_cases hji : j = i
    · subst hji
      obtain rfl : p = q := Option.some.inj (hp.symm.trans hj)
      have hd : ledger (State.setReader { s with topic := { s.topic with
          semaphores := { s.topic.semaphores with count := count } } } j r) used rest j p =
          { ledger s used rest j p with count := count p.object, taken := taken r } := by
        simp only [ledger, State.setReader, Function.update_self, Option.elim_some]
        rfl
      rw [hd]
      exact hmove
    · have hd : ledger (State.setReader { s with topic := { s.topic with
          semaphores := { s.topic.semaphores with count := count } } } i r) used rest j q =
            ledger s used rest j q := by
        simp only [ledger, State.setReader, Function.update_of_ne hji]
        rw [hcount q.object fun he => hji ((hl.objects j q hj).2 i p hp he)]
        rfl
      rw [hd]
      exact Move.stay _

end SubscriptionAccounts
