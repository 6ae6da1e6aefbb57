import ZeroCopyRpc.BagInterleaving

/-!
# Subscribe and NotifyAll on one bag

The dispatcher thread only pushes and the publishing thread only iterates and
removes. So the free list has one popper and the items have one remover: what
either of them has read of a chain it takes from still holds when its exchange
succeeds, and what an iteration has in front of it stays there.
-/
namespace BagMachine

open LinkedChain Transitions

inductive Thread where
  | dispatcher
  | publisher
  deriving DecidableEq, Repr

variable {α : Type}

/-- `Subscribe` pushes; `NotifyAll` iterates and removes. -/
def Roles : Event Thread α → Prop
  | .call .dispatcher (.push _) => True
  | .call .publisher (.remove _) => True
  | .call .publisher .iterate => True
  | .call _ _ => False
  | .advance _ _ => True

/-- Where the publishing thread stands inside `NotifyAll`. -/
def Notifying : Phase α → Prop
  | .loadingRemove _ => True
  | .readingValue _ _ _ => True
  | .readingNext _ _ _ _ => True
  | .unlinking _ _ _ _ => True
  | .loadingSpare _ => True
  | .linkingSpare _ _ => True
  | .swappingSpare _ _ => True
  | .beginning => True
  | .iterating _ _ _ => True
  | .moving _ _ _ => True
  | _ => False

def InRole (t : Thread) (phase : Phase α) : Prop :=
  phase = .idle ∨ match t with
    | .dispatcher => Pushing phase
    | .publisher => Notifying phase

theorem not_pushing_of_notifying {phase : Phase α} (h : Notifying phase) : ¬ Pushing phase := by
  cases phase <;> first | exact id | exact False.elim h

/-- What a thread knows of the chain that only it takes nodes from. -/
def Knows {τ : Type} (w : World τ α) (items free : List Nat) : Phase α → Prop
  | .readingFree _ oldHead => oldHead ∈ free
  | .swappingFree _ oldHead next => oldHead ∈ free ∧ w.bag.next oldHead = next
  | .readingValue _ previous current => (∀ p, previous = some p → p ∈ items) ∧ current ∈ items
  | .readingNext _ previous current _ => (∀ p, previous = some p → p ∈ items) ∧ current ∈ items
  | .unlinking _ previous current next =>
    (∀ p, previous = some p → p ∈ items) ∧ current ∈ items ∧ w.bag.next current = next
  | .iterating found visited current =>
    (found.map Prod.fst).Nodup ∧ ∃ rest, Chain w.bag.next current rest ∧ (∀ n ∈ rest, n ∈ items) ∧
      found = visited ++ rest.map (entryOf w)
  | .moving found visited current =>
    (found.map Prod.fst).Nodup ∧ current ∈ items ∧ ∃ rest, Chain w.bag.next (w.bag.next current) rest ∧
      (∀ n ∈ rest, n ∈ items) ∧ found = visited ++ rest.map (entryOf w)
  | _ => True

variable {w w' : World Thread α} {items free items' free' : List Nat} {t : Thread} {phase : Phase α}

theorem knows_walkOn {item : α} {previous current : Option Nat} (hprevious : ∀ p, previous = some p → p ∈ items)
    (hcurrent : ∀ n, current = some n → n ∈ items) : Knows w items free (walkOn item previous current) := by
  cases current with
  | none => exact trivial
  | some current => exact ⟨hprevious, hcurrent current rfl⟩

/-- What is known of the items survives a step that leaves them. -/
theorem Knows.of_items (h : Knows w items free phase) (hphase : InRole .publisher phase)
    (hleaves : ∀ n ∈ items, n ∈ items' ∧ w'.bag.next n = w.bag.next n ∧ entryOf w' n = entryOf w n) :
    Knows w' items' free' phase := by
  have hmem : ∀ n ∈ items, n ∈ items' := fun n hn => (hleaves n hn).1
  have hrest : ∀ {current : Option Nat} {rest : List Nat}, Chain w.bag.next current rest →
      (∀ n ∈ rest, n ∈ items) →
      Chain w'.bag.next current rest ∧ (∀ n ∈ rest, n ∈ items') ∧
      rest.map (entryOf w') = rest.map (entryOf w) := by
    intro current rest hchain hsub
    refine ⟨chain_congr hchain (fun n hn => (hleaves n (hsub n hn)).2.1), fun n hn => hmem n (hsub n hn), ?_⟩
    exact List.map_congr_left (fun n hn => (hleaves n (hsub n hn)).2.2)
  cases phase with
  | readingFree item oldHead =>
    rcases hphase with hf | hf <;> cases hf
  | swappingFree item oldHead next =>
    rcases hphase with hf | hf <;> cases hf
  | readingValue item previous current => exact ⟨fun p hp => hmem p (h.1 p hp), hmem current h.2⟩
  | readingNext item previous current currentValue => exact ⟨fun p hp => hmem p (h.1 p hp), hmem current h.2⟩
  | unlinking item previous current next =>
    refine ⟨fun p hp => hmem p (h.1 p hp), hmem current h.2.1, ?_⟩
    rw [(hleaves current h.2.1).2.1]
    exact h.2.2
  | iterating found visited current =>
    obtain ⟨hnodup, rest, hchain, hsub, hfound⟩ := h
    obtain ⟨hchain', hsub', hmap⟩ := hrest hchain hsub
    exact ⟨hnodup, rest, hchain', hsub', by rw [hmap]; exact hfound⟩
  | moving found visited current =>
    obtain ⟨hnodup, hcurrent, rest, hchain, hsub, hfound⟩ := h
    obtain ⟨hchain', hsub', hmap⟩ := hrest hchain hsub
    refine ⟨hnodup, hmem current hcurrent, rest, ?_, hsub', by rw [hmap]; exact hfound⟩
    rw [(hleaves current hcurrent).2.1]
    exact hchain'
  | _ => exact trivial

/-- What is known of the free list survives a step that leaves it. -/
theorem Knows.of_free (h : Knows w items free phase) (hphase : InRole .dispatcher phase)
    (hleaves : ∀ n ∈ free, n ∈ free' ∧ w'.bag.next n = w.bag.next n) : Knows w' items' free' phase := by
  cases phase with
  | readingFree item oldHead => exact (hleaves oldHead h).1
  | swappingFree item oldHead next =>
    obtain ⟨hmem, hnext⟩ := hleaves oldHead h.1
    refine ⟨hmem, ?_⟩
    rw [hnext]
    exact h.2
  | readingValue item previous current =>
    rcases hphase with hf | hf <;> cases hf
  | readingNext item previous current currentValue =>
    rcases hphase with hf | hf <;> cases hf
  | unlinking item previous current next =>
    rcases hphase with hf | hf <;> cases hf
  | iterating found visited current =>
    rcases hphase with hf | hf <;> cases hf
  | moving found visited current =>
    rcases hphase with hf | hf <;> cases hf
  | _ => exact trivial

section Step

variable [BEq α] {weakFailure : Bool}

/-- What a thread knows after a step that leaves the bag alone, and what its
iteration has found. -/
theorem knows_reads {old : Phase α} (h : Inv w items free) (hrole : InRole t old) (hknows : Knows w items free old)
    (hreads : Reads w old phase) : Knows (w.goto t phase) items free phase := by
  have hhead : ∀ n, w.bag.itemsHead = some n → n ∈ items := mem_of_head h.used
  have hfreeHead : ∀ n, w.bag.freeListHead = some n → n ∈ free := mem_of_head h.spare
  cases hreads with
  | free hfree | freeMoved hfree => exact hfreeHead _ hfree
  | freeNext => exact ⟨hknows, rfl⟩
  | first => exact knows_walkOn (fun p hp => by cases hp) hhead
  | value => exact hknows
  | found => exact ⟨hknows.1, hknows.2, rfl⟩
  | next =>
    refine knows_walkOn ?_ (mem_of_next h.used hknows.2)
    rintro p ⟨⟩
    exact hknows.2
  | headMoved =>
    obtain ⟨-, hcurrent, rfl⟩ := hknows
    exact knows_walkOn hhead (mem_of_next h.used hcurrent)
  | linkMoved =>
    obtain ⟨hprevious, hcurrent, rfl⟩ := hknows
    exact knows_walkOn (mem_of_next h.used (hprevious _ rfl)) (mem_of_next h.used hcurrent)
  | begin =>
    have hnodup := chain_nodup h.used
    have hlength : items.length ≤ w.bag.capacity := by
      have hsub : items ⊆ List.range w.bag.capacity :=
        fun n hn => List.mem_range.mpr (h.bound n (List.mem_append_left free hn))
      have hle := (hnodup.subperm hsub).length_le
      rwa [List.length_range] at hle
    rw [walk_chain h.used hlength]
    refine ⟨?_, items, h.used, fun n hn => hn, rfl⟩
    rw [List.map_map]
    refine hnodup.map_on ?_
    intro m hm n hn
    exact h.labelled.distinct m n (Or.inl hm) (Or.inl hn)
  | @visit found visited current =>
    obtain ⟨hnodup, rest, hchain, hsub, hfound⟩ := hknows
    cases rest with
    | nil => cases hchain
    | cons first rest =>
      obtain ⟨hfirst, hrest⟩ := hchain
      cases hfirst
      refine ⟨hnodup, hsub current List.mem_cons_self, rest, hrest, fun n hn =>
        hsub n (List.mem_cons_of_mem _ hn), ?_⟩
      rw [hfound, List.map_cons, List.append_assoc]
      rfl
  | move =>
    obtain ⟨hnodup, -, rest, hchain, hsub, hfound⟩ := hknows
    exact ⟨hnodup, rest, hchain, hsub, hfound⟩
  | _ => exact trivial

omit [BEq α] in
/-- After a step that writes a thread has to read again. -/
theorem knows_writes {old : Phase α} {v : World Thread α} (hwrites : Writes w weakFailure old phase v) :
    Knows w' items' free' phase := by
  cases hwrites <;> exact trivial

omit [BEq α] in
theorem inRole_walkOn (item : α) (previous current : Option Nat) :
    InRole .publisher (walkOn item previous current) := by
  cases current with
  | none => exact Or.inl rfl
  | some current => exact Or.inr trivial

/-- A step stays inside the call that its thread is in. -/
theorem inRole_reads {old : Phase α} (hrole : InRole t old) (hreads : Reads w old phase) : InRole t phase := by
  cases t with
  | dispatcher =>
    cases hreads with
    | noFree | freeGone => exact Or.inl rfl
    | free | freeNext | freeMoved | items | itemsMoved => exact Or.inr trivial
    | _ => rcases hrole with hf | hf <;> cases hf
  | publisher =>
    cases hreads with
    | first | next | headMoved | linkMoved => exact inRole_walkOn _ _ _
    | spare | spareMoved | value | found | begin | visit | move => exact Or.inr trivial
    | _ => rcases hrole with hf | hf <;> cases hf

omit [BEq α] in
theorem inRole_writes {old : Phase α} {v : World Thread α} (hrole : InRole t old)
    (hwrites : Writes w weakFailure old phase v) : InRole t phase := by
  cases t with
  | dispatcher =>
    cases hwrites with
    | takeFree | store | linkItem => exact Or.inr trivial
    | pushItem => exact Or.inl rfl
    | _ => rcases hrole with hf | hf <;> cases hf
  | publisher =>
    cases hwrites with
    | linkSpare | removeHead | removeInner => exact Or.inr trivial
    | pushSpare | pass => exact Or.inl rfl
    | _ => rcases hrole with hf | hf <;> cases hf

/-- A step moves its own thread only; what the thread knows then holds. -/
theorem advance_thread (h : Inv w items free) (h' : Inv w' items' free') (hrole : InRole t (w.phase t))
    (hknows : Knows w items free (w.phase t)) (hstep : advance w t weakFailure = some w') :
    ∃ phase, w'.phase = Function.update w.phase t phase ∧ InRole t phase ∧ Knows w' items' free' phase := by
  rcases advance_cases hstep with ⟨phase, hreads, rfl⟩ | ⟨phase, v, hwrites, rfl⟩
  · obtain rfl : items' = items := chain_unique h'.used h.used
    obtain rfl : free' = free := chain_unique h'.spare h.spare
    exact ⟨phase, rfl, inRole_reads hrole hreads, knows_reads h hrole hknows hreads⟩
  · refine ⟨phase, ?_, inRole_writes hrole hwrites, knows_writes hwrites⟩
    generalize w.phase t = old at hwrites
    cases hwrites <;> rfl

/-- Only the end of an iteration adds a pass. -/
theorem advance_passes (hstep : advance w t weakFailure = some w') : w'.passes = w.passes ∨
    ∃ found visited, w.phase t = .iterating found visited none ∧ w'.passes = w.passes ++ [(found, visited)] := by
  rcases advance_cases hstep with ⟨phase, hreads, rfl⟩ | ⟨phase, v, hwrites, rfl⟩
  · exact Or.inl rfl
  · generalize w.phase t = old at hwrites
    cases hwrites with
    | @pass found visited => exact Or.inr ⟨found, visited, rfl, rfl⟩
    | _ => exact Or.inl rfl

structure Attended (w : World Thread α) (items free : List Nat) : Prop where
  inv : Inv w items free
  roles : ∀ t, InRole t (w.phase t)
  knows : ∀ t, Knows w items free (w.phase t)
  passes : ∀ pass ∈ w.passes, pass.2 = pass.1 ∧ (pass.1.map Prod.fst).Nodup

omit [BEq α] in
theorem attended_start (capacity : Nat) (default : α) :
    Attended (start capacity default) [] (List.range' 0 capacity) := by
  refine ⟨inv_start capacity default, fun _ => Or.inl rfl, fun _ => trivial, ?_⟩
  exact fun pass hpass => absurd hpass List.not_mem_nil

omit [BEq α] in
/-- What a thread has read still holds at its exchange. -/
theorem Attended.sound (h : Attended w items free) (t : Thread) (weakFailure : Bool) :
    Sound w (.advance t weakFailure) := by
  have hknows := h.knows t
  have hrole := h.roles t
  rw [Sound]
  cases hphase : w.phase t with
  | swappingFree item oldHead next =>
    rw [hphase] at hknows
    exact fun _ _ => hknows.2
  | swappingPop head next =>
    rw [hphase] at hrole
    cases t <;> rcases hrole with hf | hf <;> cases hf
  | unlinking item previous current next =>
    rw [hphase] at hknows
    cases previous with
    | none => exact fun _ => hknows.2.2
    | some previous => exact fun _ => ⟨hknows.2.2, items, h.inv.used, hknows.1 previous rfl⟩
  | _ => exact trivial

theorem attended_advance (h : Attended w items free) (hstep : advance w t weakFailure = some w') :
    ∃ items' free', Attended w' items' free' := by
  obtain ⟨items', free', hinv, hleaves⟩ := inv_advance h.inv (h.sound t weakFailure) hstep
  obtain ⟨phase, hphase, hrole, hknown⟩ := advance_thread h.inv hinv (h.roles t) (h.knows t) hstep
  have hothers : ∀ u, u ≠ t → w'.phase u = w.phase u := by
    intro u hu
    rw [hphase, Function.update_of_ne hu]
  refine ⟨items', free', hinv, ?_, ?_, ?_⟩
  · intro u
    by_cases hu : u = t
    · rw [hphase, hu, Function.update_self]
      exact hrole
    · rw [hothers u hu]
      exact h.roles u
  · intro u
    by_cases hu : u = t
    · rw [hphase, hu, Function.update_self]
      exact hknown
    · rw [hothers u hu]
      have hidle : w.phase t ≠ .idle := by
        intro hidle
        rw [advance, hidle] at hstep
        cases hstep
      have hmine := (h.roles t).resolve_left hidle
      cases t with
      | dispatcher =>
        cases u with
        | dispatcher => exact absurd rfl hu
        | publisher => exact (h.knows .publisher).of_items (h.roles .publisher) (hleaves.items hmine)
      | publisher =>
        have hpush := not_pushing_of_notifying hmine
        cases u with
        | dispatcher => exact (h.knows .dispatcher).of_free (h.roles .dispatcher) (hleaves.free hpush)
        | publisher => exact absurd rfl hu
  · rcases advance_passes hstep with hpasses | ⟨found, visited, hlast, hpasses⟩
    · rw [hpasses]
      exact h.passes
    · intro pass hpass
      rw [hpasses, List.mem_append, List.mem_singleton] at hpass
      rcases hpass with hpass | rfl
      · exact h.passes pass hpass
      · have hknows := h.knows t
        rw [hlast] at hknows
        obtain ⟨hnodup, rest, hchain, -, hfound⟩ := hknows
        have hrest : rest = [] := chain_unique hchain (rfl : Chain w.bag.next none [])
        refine ⟨?_, hnodup⟩
        rw [hfound, hrest, List.map_nil, List.append_nil]

theorem attended_step (h : Attended w items free) {e : Event Thread α} (hrole : Roles e)
    (hstep : step w e = some w') :
    ∃ items' free', Attended w' items' free' := by
  cases e with
  | call t c =>
    simp only [step] at hstep
    cases hphase : w.phase t with
    | idle =>
      rw [hphase] at hstep
      cases hstep
      have hinv : Inv (w.goto t c.first) items free := by
        refine inv_goto_empty h.inv (fun n => by rw [hphase]; exact id) ?_
        cases c <;> exact fun _ => id
      refine ⟨items, free, hinv, ?_, ?_, h.passes⟩
      · intro u
        by_cases hu : u = t
        · subst hu
          rw [goto_same]
          right
          cases u <;> cases c <;> first | exact trivial | cases hrole
        · rw [goto_other w c.first hu]
          exact h.roles u
      · intro u
        by_cases hu : u = t
        · rw [hu, goto_same]
          cases c <;> exact trivial
        · rw [goto_other w c.first hu]
          have hkept := h.knows u
          cases hother : w.phase u <;> rw [hother] at hkept <;> exact hkept
    | _ =>
      rw [hphase] at hstep
      cases hstep
  | advance t weakFailure => exact attended_advance h hstep

end Step

/-- The chains end, share no node and together with the nodes in transit are all
nodes; every item that was pushed and not taken is on the items; none is taken
twice; and every iteration has visited what it found, each item once. -/
structure Intact (w : World Thread α) : Prop where
  chains : ∃ items free, Chain w.bag.next w.bag.itemsHead items ∧ Chain w.bag.next w.bag.freeListHead free ∧
    (∀ n ∈ items, n ∉ free) ∧
    (∀ n, n < w.bag.capacity ↔ n ∈ items ∨ n ∈ free ∨ ∃ t, Carries (w.phase t) n) ∧
    (∀ t n, Carries (w.phase t) n → n ∉ items ∧ n ∉ free) ∧
    ∀ k ∈ w.pushed, k ∉ w.taken → ∃ n ∈ items, w.label n = k
  once : w.taken.Nodup
  passes : ∀ pass ∈ w.passes, pass.2 = pass.1 ∧ (pass.1.map Prod.fst).Nodup

theorem intact_of_attended (h : Attended w items free) : Intact w := by
  refine ⟨⟨items, free, h.inv.used, h.inv.spare, h.inv.apart, ?_, ?_, h.inv.labelled.reachable⟩,
    h.inv.labelled.once, h.passes⟩
  · intro n
    constructor
    · intro hn
      by_cases hstock : n ∈ items ++ free
      · exact (List.mem_append.mp hstock).imp_right Or.inl
      · exact Or.inr (Or.inr ((h.inv.shared.cover n hn).mp hstock))
    · rintro (hn | hn | ⟨t, ht⟩)
      · exact h.inv.bound n (List.mem_append_left free hn)
      · exact h.inv.bound n (List.mem_append_right items hn)
      · exact h.inv.shared.bound t n ht
  · exact fun t n hn => ⟨h.inv.not_items hn, h.inv.not_free hn⟩

/-- One thread pushes and one iterates and removes: every state of every
interleaving of their steps is intact. -/
theorem bag_intact [BEq α] {capacity : Nat} {default : α} {es : List (Event Thread α)}
    (hroles : ∀ e ∈ es, Roles e)
    (hvisit : Visits step (start capacity default) es w) : Intact w := by
  have hguard : Guarded step (fun _ e => Roles e) (start capacity default) es := by
    rintro pre e suf - rfl -
    exact hroles e (by simp)
  have hattended : ∃ items free, Attended w items free :=
    guarded_visits (I := fun w => ∃ items free, Attended w items free)
      (fun w e w' ⟨_, _, h⟩ hg hstep => attended_step h hg hstep)
        ⟨_, _, attended_start capacity default⟩ hguard hvisit
  obtain ⟨items, free, h⟩ := hattended
  exact intact_of_attended h

/-- A second push overtakes a `remove` of the head, whose exchange then fails. -/
def overtaken : List (Event Thread Nat) :=
  [.call .dispatcher (.push 5)] ++ List.replicate 7 (.advance .dispatcher false) ++
    [.call .publisher .iterate] ++ List.replicate 4 (.advance .publisher false) ++
    [.call .publisher (.remove 5)] ++ List.replicate 3 (.advance .publisher false) ++
    [.call .dispatcher (.push 7)] ++ List.replicate 7 (.advance .dispatcher false) ++ [.advance .publisher false]

theorem bag_intact_overtaken : ∃ w, run step (start 2 0) overtaken = some w ∧ w.passes = [([(0, 5)], [(0, 5)])] ∧
    w.taken = [] ∧ Intact w := by
  have hrun : (run step (start 2 0) overtaken).map (fun w => (w.passes, w.taken)) =
      some ([([(0, 5)], [(0, 5)])], []) := by
    decide +kernel
  have hroles : ∀ e ∈ overtaken, Roles e := by
    intro e he
    simp only [overtaken, List.mem_append, List.mem_singleton, List.mem_replicate] at he
    rcases he with (((((((rfl | he) | rfl) | he) | rfl) | he) | rfl) | he) | rfl
    all_goals first | exact trivial | (rw [he.2]; exact trivial)
  obtain ⟨w, hw, he⟩ := Option.map_eq_some_iff.mp hrun
  obtain ⟨hpasses, htaken⟩ := Prod.mk.inj he
  exact ⟨w, hw, hpasses, htaken, bag_intact hroles (visits_end hw)⟩

end BagMachine
