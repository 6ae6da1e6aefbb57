import Mathlib.Data.List.Nodup

/-!
# An object behind a queue

Threads send operations into a bounded queue, one server takes them out in order
and applies them, and a thread returns once its operation has been applied. An
operation may also be applied by its own thread, in one step. A history lists
invocations and returns as they happen. It is linearizable when the object alone,
taking the operations in some order, gives the results that were returned, and
that order keeps what the history orders: an operation that returned before
another was invoked comes first.

A ticket stands for one invocation.
-/
namespace QueuedObject

variable {σ ι ο : Type}

/-- What happens at the border of the object. -/
inductive Observation (ι ο : Type) where
  | invoked (ticket : Nat) (op : ι)
  | returned (ticket : Nat) (result : ο)

/-- An operation that was applied. -/
structure Entry (ι ο : Type) where
  ticket : Nat
  op : ι
  result : ο

/-- The object takes the operations one after the other and gives these results. -/
def Executes (apply : σ → ι → Option (ο × σ)) : σ → List (Entry ι ο) → σ → Prop
  | s, [], t => s = t
  | s, e :: es, t => ∃ u, apply s e.op = some (e.result, u) ∧ Executes apply u es t

structure Linearizes (apply : σ → ι → Option (ο × σ)) (s : σ) (history : List (Observation ι ο))
    (order : List (Entry ι ο)) : Prop where
  legal : ∃ t, Executes apply s order t
  once : (order.map Entry.ticket).Nodup
  invoked : ∀ e ∈ order, .invoked e.ticket e.op ∈ history
  completed : ∀ ticket result, .returned ticket result ∈ history → ∃ op, ⟨ticket, op, result⟩ ∈ order
  realTime : ∀ a ∈ order, ∀ b ∈ order,
    [.returned a.ticket a.result, .invoked b.ticket b.op].Sublist history → [a, b].Sublist order

/-- `calling` are the threads whose operation is not in the queue yet. -/
structure World (σ ι ο : Type) where
  object : σ
  calling : List (Nat × ι)
  queue : List (Nat × ι)
  handled : List (Entry ι ο)
  history : List (Observation ι ο)

/-- The tickets that were given out. -/
def World.tickets (w : World σ ι ο) : List Nat :=
  w.calling.map Prod.fst ++ w.queue.map Prod.fst ++ w.handled.map Entry.ticket

def start (s : σ) : World σ ι ο := ⟨s, [], [], [], []⟩

/-- One step; none of them looks at the bound of the queue, so every bound is covered. -/
inductive Step (apply : σ → ι → Option (ο × σ)) : World σ ι ο → World σ ι ο → Prop where
  | invoke (w : World σ ι ο) (ticket : Nat) (op : ι) (fresh : ticket ∉ w.tickets) :
    Step apply w { w with calling := (ticket, op) :: w.calling, history := w.history ++ [.invoked ticket op] }
  | send (w : World σ ι ο) (before after : List (Nat × ι)) (call : Nat × ι)
      (calling : w.calling = before ++ call :: after) :
    Step apply w { w with calling := before ++ after, queue := w.queue ++ [call] }
  | serve (w : World σ ι ο) (ticket : Nat) (op : ι) (rest : List (Nat × ι)) (result : ο) (object : σ)
      (queue : w.queue = (ticket, op) :: rest) (applied : apply w.object op = some (result, object)) :
    Step apply w { w with object := object, queue := rest, handled := w.handled ++ [⟨ticket, op, result⟩] }
  | act (w : World σ ι ο) (ticket : Nat) (op : ι) (result : ο) (object : σ) (fresh : ticket ∉ w.tickets)
      (applied : apply w.object op = some (result, object)) :
    Step apply w { w with
      object := object
      handled := w.handled ++ [⟨ticket, op, result⟩]
      history := w.history ++ [.invoked ticket op, .returned ticket result] }
  | finish (w : World σ ι ο) (e : Entry ι ο) (handled : e ∈ w.handled) :
    Step apply w { w with history := w.history ++ [.returned e.ticket e.result] }

/-- Any number of steps. -/
inductive Reaches (apply : σ → ι → Option (ο × σ)) : World σ ι ο → World σ ι ο → Prop where
  | refl (w : World σ ι ο) : Reaches apply w w
  | tail {u v w : World σ ι ο} (h : Reaches apply u v) (hstep : Step apply v w) : Reaches apply u w

theorem executes_append {apply : σ → ι → Option (ο × σ)} {s t u : σ}
    {es : List (Entry ι ο)} {e : Entry ι ο}
    (h : Executes apply s es t) (hstep : apply t e.op = some (e.result, u)) : Executes apply s (es ++ [e]) u := by
  induction es generalizing s with
  | nil =>
    cases h
    exact ⟨u, hstep, rfl⟩
  | cons f es ih =>
    obtain ⟨v, hv, hrest⟩ := h
    exact ⟨v, hv, ih hrest⟩

/-- One thing comes before another in a longer list. -/
theorem pair_append {α : Type} {x y z : α} {l : List α} (h : [x, y].Sublist (l ++ [z])) :
    [x, y].Sublist l ∨ (x ∈ l ∧ y = z) := by
  obtain ⟨l₁, l₂, heq, h₁, h₂⟩ := List.sublist_append_iff.mp h
  cases l₁ with
  | nil =>
    have hlength := h₂.length_le
    rw [List.nil_append] at heq
    rw [← heq] at hlength
    simp at hlength
  | cons a l₁ =>
    obtain ⟨rfl, htail⟩ := List.cons.inj heq
    cases l₁ with
    | nil =>
      obtain rfl : [y] = l₂ := htail
      rw [List.singleton_sublist, List.mem_singleton] at h₂
      exact Or.inr ⟨List.singleton_sublist.mp h₁, h₂⟩
    | cons b l₁ =>
      obtain ⟨rfl, hnil⟩ := List.cons.inj htail
      obtain ⟨rfl, -⟩ := List.append_eq_nil_iff.mp hnil.symm
      exact Or.inl h₁

theorem pair_last {α : Type} {x y : α} {l : List α} (h : x ∈ l) : [x, y].Sublist (l ++ [y]) :=
  List.Sublist.append (List.singleton_sublist.mpr h) (List.Sublist.refl [y])

structure Inv (apply : σ → ι → Option (ο × σ)) (s : σ) (w : World σ ι ο) : Prop where
  legal : Executes apply s w.handled w.object
  once : w.tickets.Nodup
  called : ∀ c ∈ w.calling ++ w.queue, .invoked c.1 c.2 ∈ w.history
  invoked : ∀ e ∈ w.handled, .invoked e.ticket e.op ∈ w.history
  known : ∀ ticket op, .invoked ticket op ∈ w.history → ticket ∈ w.tickets
  completed : ∀ ticket result, .returned ticket result ∈ w.history →
    ∃ op, ⟨ticket, op, result⟩ ∈ w.handled
  realTime : ∀ a ∈ w.handled, ∀ b ∈ w.handled,
    [.returned a.ticket a.result, .invoked b.ticket b.op].Sublist w.history → [a, b].Sublist w.handled

variable {apply : σ → ι → Option (ο × σ)} {s : σ} {w w' : World σ ι ο}

theorem inv_start (s : σ) : Inv apply s (start s) := by
  constructor <;> simp [start, Executes, World.tickets]

theorem mem_tickets_handled {e : Entry ι ο} (h : e ∈ w.handled) : e.ticket ∈ w.tickets :=
  List.mem_append_right _ (List.mem_map_of_mem h)

/-- Only what was handled has returned. -/
theorem not_returned {ticket : Nat} {result : ο} (h : Inv apply s w) (hnone : ticket ∉ w.handled.map Entry.ticket) :
    .returned ticket result ∉ w.history := by
  intro hreturned
  obtain ⟨op, hop⟩ := h.completed ticket result hreturned
  exact hnone (List.mem_map_of_mem hop)

theorem inv_invoke {ticket : Nat} {op : ι} (h : Inv apply s w) (hfresh : ticket ∉ w.tickets) :
    Inv apply s { w with calling := (ticket, op) :: w.calling, history := w.history ++ [.invoked ticket op] } where
  legal := h.legal
  once := List.nodup_cons.mpr ⟨hfresh, h.once⟩
  called := by
    intro c hc
    rw [List.cons_append, List.mem_cons] at hc
    rcases hc with rfl | hc
    · exact List.mem_append_right _ List.mem_cons_self
    · exact List.mem_append_left _ (h.called c hc)
  invoked := fun e he => List.mem_append_left _ (h.invoked e he)
  known := by
    intro t o hmem
    rw [List.mem_append, List.mem_singleton] at hmem
    rcases hmem with hmem | hmem
    · exact List.mem_cons_of_mem _ (h.known t o hmem)
    · cases hmem
      exact List.mem_cons_self
  completed := by
    intro t r hmem
    rw [List.mem_append, List.mem_singleton] at hmem
    rcases hmem with hmem | hmem
    · exact h.completed t r hmem
    · cases hmem
  realTime := by
    intro a ha b hb hpair
    rcases pair_append hpair with hpair | ⟨-, heq⟩
    · exact h.realTime a ha b hb hpair
    · obtain ⟨rfl, -⟩ := Observation.invoked.inj heq
      exact absurd (mem_tickets_handled (w := w) hb) hfresh

theorem inv_send {before after : List (Nat × ι)} {call : Nat × ι} (h : Inv apply s w)
    (hcalling : w.calling = before ++ call :: after) :
    Inv apply s { w with calling := before ++ after, queue := w.queue ++ [call] } := by
  have hperm : (before ++ after ++ (w.queue ++ [call])).Perm (w.calling ++ w.queue) := by
    rw [hcalling]
    have hmiddle : (before ++ after ++ (w.queue ++ [call])).Perm (call :: (before ++ after ++ w.queue)) := by
      rw [← List.append_assoc]
      exact List.perm_append_singleton call _
    apply hmiddle.trans
    rw [List.append_assoc before (call :: after), List.cons_append, List.append_assoc before after]
    exact List.perm_middle.symm
  have htickets : ((before ++ after).map Prod.fst ++ (w.queue ++ [call]).map Prod.fst ++
      w.handled.map Entry.ticket).Perm w.tickets := by
    rw [World.tickets, ← List.map_append, ← List.map_append]
    exact (hperm.map Prod.fst).append_right _
  constructor
  · exact h.legal
  · exact htickets.nodup_iff.mpr h.once
  · exact fun c hc => h.called c (hperm.mem_iff.mp hc)
  · exact h.invoked
  · exact fun t o hmem => htickets.mem_iff.mpr (h.known t o hmem)
  · exact h.completed
  · exact h.realTime

/-- An operation that is applied last comes after everything that returned before it. -/
theorem realTime_append {e : Entry ι ο} (h : Inv apply s w) (hnone : e.ticket ∉ w.handled.map Entry.ticket) :
    ∀ a ∈ w.handled ++ [e], ∀ b ∈ w.handled ++ [e],
      [.returned a.ticket a.result, .invoked b.ticket b.op].Sublist w.history →
        [a, b].Sublist (w.handled ++ [e]) := by
  intro a ha b hb hpair
  rw [List.mem_append, List.mem_singleton] at ha hb
  have hreturned : .returned a.ticket a.result ∈ w.history := hpair.subset List.mem_cons_self
  rcases ha with ha | rfl
  · rcases hb with hb | rfl
    · exact (h.realTime a ha b hb hpair).trans (List.sublist_append_left _ _)
    · exact pair_last ha
  · exact absurd hreturned (not_returned h hnone)

theorem inv_serve {ticket : Nat} {op : ι} {rest : List (Nat × ι)} {result : ο} {object : σ} (h : Inv apply s w)
    (hqueue : w.queue = (ticket, op) :: rest) (happlied : apply w.object op = some (result, object)) :
    Inv apply s { w with object := object, queue := rest, handled := w.handled ++ [⟨ticket, op, result⟩] } := by
  have htickets : (w.calling.map Prod.fst ++ rest.map Prod.fst ++
      (w.handled ++ [(⟨ticket, op, result⟩ : Entry ι ο)]).map Entry.ticket).Perm w.tickets := by
    rw [World.tickets, hqueue, List.map_append, List.map_cons, List.map_cons, List.map_nil, ← List.append_assoc]
    apply (List.perm_append_singleton ticket _).trans
    rw [List.append_assoc _ (ticket :: rest.map Prod.fst), List.cons_append, List.append_assoc]
    exact List.perm_middle.symm
  have hnone : ticket ∉ w.handled.map Entry.ticket := by
    have hdisjoint := (List.nodup_append.mp h.once).2.2
    intro hmem
    apply hdisjoint ticket _ ticket hmem rfl
    rw [hqueue]
    exact List.mem_append_right _ List.mem_cons_self
  constructor
  · exact executes_append h.legal happlied
  · exact htickets.nodup_iff.mpr h.once
  · intro c hc
    apply h.called c
    rw [hqueue]
    rcases List.mem_append.mp hc with hc | hc
    · exact List.mem_append_left _ hc
    · exact List.mem_append_right _ (List.mem_cons_of_mem _ hc)
  · intro e he
    rcases List.mem_append.mp he with he | he
    · exact h.invoked e he
    · obtain rfl := List.mem_singleton.mp he
      apply h.called (ticket, op)
      rw [hqueue]
      exact List.mem_append_right _ List.mem_cons_self
  · exact fun t o hmem => htickets.mem_iff.mpr (h.known t o hmem)
  · intro t r hmem
    obtain ⟨o, ho⟩ := h.completed t r hmem
    exact ⟨o, List.mem_append_left _ ho⟩
  · exact realTime_append h hnone

theorem inv_act {ticket : Nat} {op : ι} {result : ο} {object : σ} (h : Inv apply s w)
    (hfresh : ticket ∉ w.tickets)
    (happlied : apply w.object op = some (result, object)) : Inv apply s { w with
      object := object
      handled := w.handled ++ [⟨ticket, op, result⟩]
      history := w.history ++ [.invoked ticket op, .returned ticket result] } := by
  have hnone : ticket ∉ w.handled.map Entry.ticket := fun hmem => hfresh (List.mem_append_right _ hmem)
  have htickets : w.calling.map Prod.fst ++ w.queue.map Prod.fst ++
      (w.handled ++ [(⟨ticket, op, result⟩ : Entry ι ο)]).map Entry.ticket = w.tickets ++ [ticket] := by
    rw [World.tickets, List.map_append, List.map_singleton, List.append_assoc, List.append_assoc, List.append_assoc]
  have hsplit : w.history ++ [.invoked ticket op, .returned ticket result] =
      (w.history ++ [.invoked ticket op]) ++ [.returned ticket result] := by
    rw [List.append_assoc, List.singleton_append]
  constructor
  · exact executes_append h.legal happlied
  · rw [World.tickets, htickets]
    exact (List.perm_append_singleton ticket w.tickets).nodup_iff.mpr (List.nodup_cons.mpr ⟨hfresh, h.once⟩)
  · exact fun c hc => List.mem_append_left _ (h.called c hc)
  · intro e he
    rcases List.mem_append.mp he with he | he
    · exact List.mem_append_left _ (h.invoked e he)
    · obtain rfl := List.mem_singleton.mp he
      exact List.mem_append_right _ List.mem_cons_self
  · intro t o hmem
    rw [World.tickets, htickets]
    rcases List.mem_append.mp hmem with hmem | hmem
    · exact List.mem_append_left _ (h.known t o hmem)
    · rw [List.mem_cons, List.mem_singleton] at hmem
      rcases hmem with hmem | hmem
      · cases hmem
        exact List.mem_append_right _ List.mem_cons_self
      · cases hmem
  · intro t r hmem
    rcases List.mem_append.mp hmem with hmem | hmem
    · obtain ⟨o, ho⟩ := h.completed t r hmem
      exact ⟨o, List.mem_append_left _ ho⟩
    · rw [List.mem_cons, List.mem_singleton] at hmem
      rcases hmem with hmem | hmem
      · cases hmem
      · cases hmem
        exact ⟨op, List.mem_append_right _ List.mem_cons_self⟩
  · intro a ha b hb hpair
    simp only [hsplit] at hpair
    rcases pair_append hpair with hpair | ⟨-, heq⟩
    · rcases pair_append hpair with hpair | ⟨hreturned, heq⟩
      · exact realTime_append h hnone a ha b hb hpair
      · -- the operation that returned earlier was applied earlier
        obtain ⟨hticket, -⟩ := Observation.invoked.inj heq
        rcases List.mem_append.mp hb with hb | hb
        · exact absurd (hticket ▸ mem_tickets_handled hb) hfresh
        · obtain rfl := List.mem_singleton.mp hb
          rcases List.mem_append.mp ha with ha | ha
          · exact pair_last ha
          · obtain rfl := List.mem_singleton.mp ha
            exact absurd hreturned (not_returned h hnone)
    · cases heq

theorem inv_finish {e : Entry ι ο} (h : Inv apply s w) (he : e ∈ w.handled) :
    Inv apply s { w with history := w.history ++ [.returned e.ticket e.result] } where
  legal := h.legal
  once := h.once
  called := fun c hc => List.mem_append_left _ (h.called c hc)
  invoked := fun f hf => List.mem_append_left _ (h.invoked f hf)
  known := by
    intro t o hmem
    rcases List.mem_append.mp hmem with hmem | hmem
    · exact h.known t o hmem
    · cases List.mem_singleton.mp hmem
  completed := by
    intro t r hmem
    rcases List.mem_append.mp hmem with hmem | hmem
    · exact h.completed t r hmem
    · cases List.mem_singleton.mp hmem
      exact ⟨e.op, he⟩
  realTime := by
    intro a ha b hb hpair
    rcases pair_append hpair with hpair | ⟨-, heq⟩
    · exact h.realTime a ha b hb hpair
    · cases heq

theorem inv_step (h : Inv apply s w) (hstep : Step apply w w') : Inv apply s w' := by
  cases hstep with
  | invoke ticket op fresh => exact inv_invoke h fresh
  | send before after call calling => exact inv_send h calling
  | serve ticket op rest result object queue applied => exact inv_serve h queue applied
  | act ticket op result object fresh applied => exact inv_act h fresh applied
  | finish e handled => exact inv_finish h handled

theorem inv_reaches (h : Reaches apply (start s) w) : Inv apply s w := by
  induction h with
  | refl => exact inv_start s
  | tail _ hstep ih => exact inv_step ih hstep

/-- The order of handling linearizes every history. -/
theorem linearizes (h : Reaches apply (start s) w) : Linearizes apply s w.history w.handled := by
  have hinv := inv_reaches h
  exact ⟨⟨w.object, hinv.legal⟩, (List.nodup_append.mp hinv.once).2.1, hinv.invoked,
    hinv.completed, hinv.realTime⟩

end QueuedObject
