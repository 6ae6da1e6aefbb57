import ZeroCopyRpc.IDPool
import ZeroCopyRpc.Transitions

/-!
# What the id pool promises to one thread

An id is held from the call of `rent` or `try_rent` that yields it to the call
of `returns` that takes it back. `returns` goes by the mark of the id's node,
and `try_rent` marks the node only when it is not the first of the free list.
An id taken from the head by `try_rent` is held for good.
-/
namespace IDPoolContract

open Transitions

inductive Call where
  | rent
  | tryRent (targetId : Nat)
  | returns (id : Nat)
  deriving DecidableEq, Repr

/-- The pool, and the ids that its user holds. -/
structure Session where
  pool : IDPool
  held : Nat → Bool

/-- What a call that throws or is refused leaves is the pool it found. -/
def perform (s : Session) : Call → Session
  | .rent => match s.pool.rent with
    | none => s
    | some (id, pool) => ⟨pool, Function.update s.held id true⟩
  | .tryRent targetId => match s.pool.tryRent targetId with
    | (false, pool) => ⟨pool, s.held⟩
    | (true, pool) => ⟨pool, Function.update s.held targetId true⟩
  | .returns id => match s.pool.returns id with
    | .error _ => s
    | .ok pool => ⟨pool, Function.update s.held id false⟩

def call : Machine Session Call := fun s c => some (perform s c)

def start (size : Nat) : Session := ⟨.new size, fun _ => false⟩

/-- Exactly this id leaves the free list. -/
def Takes (p q : IDPool) (id : Nat) : Prop :=
  id ∈ p.freeList ∧ ∀ j, j ∈ q.freeList ↔ j ∈ p.freeList ∧ j ≠ id

/-- The contract, as far as the next call goes. -/
structure Contract (s : Session) : Prop where
  free_iff : ∀ id, id ∈ s.pool.freeList ↔ id < s.pool.size ∧ s.held id = false
  rent_iff : (∃ id pool, s.pool.rent = some (id, pool)) ↔ ∃ id, id < s.pool.size ∧ s.held id = false
  rent_takes : ∀ id pool, s.pool.rent = some (id, pool) → s.held id = false ∧ Takes s.pool pool id
  tryRent_iff : ∀ id, (s.pool.tryRent id).1 = true ↔ id < s.pool.size ∧ s.held id = false
  tryRent_takes : ∀ id pool, s.pool.tryRent id = (true, pool) → Takes s.pool pool id
  tryRent_refused : ∀ id pool, s.pool.tryRent id = (false, pool) → pool = s.pool
  returns_iff : ∀ id, (∃ pool, s.pool.returns id = .ok pool) ↔ s.held id = true
  returns_gives : ∀ id pool, s.pool.returns id = .ok pool →
    ∀ j, j ∈ pool.freeList ↔ j ∈ s.pool.freeList ∨ j = id

/-- The call is no `try_rent` of the first id of the free list. -/
def NotAtHead (s : Session) : Call → Prop
  | .tryRent targetId => s.pool.head ≠ some targetId
  | _ => True

/-- The free list is what is not held; a marked id is held. -/
structure Inv (s : Session) (ids : List Nat) : Prop where
  free : s.pool.Free ids
  mem : ∀ id, id ∈ ids ↔ id < s.pool.size ∧ s.held id = false
  marked : ∀ id, s.pool.inUse id = true → id < s.pool.size ∧ s.held id = true

/-- Every held id is marked. -/
def AllMarked (s : Session) : Prop := ∀ id, s.held id = true → s.pool.inUse id = true

variable {s : Session} {ids : List Nat}

theorem rent_cons {i : Nat} (h : Inv s (i :: ids)) : ∃ pool, s.pool.rent = some (i, pool) ∧ pool.Free ids ∧
    pool.size = s.pool.size ∧ pool.inUse = Function.update s.pool.inUse i true := by
  obtain ⟨pool, hrent, hfree, hsize⟩ := IDPool.rent_eq h.free
  refine ⟨pool, hrent, hfree, hsize, ?_⟩
  have hhead : s.pool.head = some i := h.free.chain.1
  rw [IDPool.rent, hhead] at hrent
  rw [← (Prod.mk.inj (Option.some.inj hrent)).2]

theorem mem_rest {pool : IDPool} {i : Nat} {rest : List Nat} (h : pool.Free (i :: rest)) (j : Nat) :
    j ∈ rest ↔ j ∈ i :: rest ∧ j ≠ i := by
  rw [and_comm, ← h.nodup.mem_erase_iff, List.erase_cons_head]

/-- `returns` succeeds on the marked ids. -/
theorem returns_marked (h : Inv s ids) (id : Nat) :
    (∃ pool, s.pool.returns id = .ok pool) ↔ s.pool.inUse id = true := by
  by_cases hin : s.pool.inUse id = true
  · obtain ⟨hlt, hheld⟩ := h.marked id hin
    have hout : id ∉ ids := by
      rw [h.mem, hheld]
      simp
    obtain ⟨pool, hpool, -⟩ := IDPool.returns_eq h.free hout hlt hin
    exact iff_of_true ⟨pool, hpool⟩ hin
  · refine iff_of_false ?_ hin
    rintro ⟨pool, hpool⟩
    rw [Bool.not_eq_true] at hin
    rw [IDPool.returns, hin] at hpool
    split at hpool
    · cases hpool
    · simp at hpool

theorem returns_ok (h : Inv s ids) {id : Nat} {pool : IDPool} (hpool : s.pool.returns id = .ok pool) :
    s.held id = true ∧ pool.Free (id :: ids) ∧ pool.size = s.pool.size ∧
    pool.inUse = Function.update s.pool.inUse id false := by
  have hin := (returns_marked h id).mp ⟨pool, hpool⟩
  obtain ⟨hlt, hheld⟩ := h.marked id hin
  have hout : id ∉ ids := by
    rw [h.mem, hheld]
    simp
  obtain ⟨pool', hpool', hfree⟩ := IDPool.returns_eq h.free hout hlt hin
  rw [hpool', Except.ok.injEq] at hpool
  subst hpool
  refine ⟨hheld, hfree, ?_⟩
  simp only [IDPool.returns, Nat.not_le.mpr hlt, ↓reduceIte, hin, Bool.true_eq_false, Except.ok.injEq] at hpool'
  rw [← hpool']
  exact ⟨rfl, rfl⟩

/-- The contract holds wherever every held id is marked, and nowhere else. -/
theorem contract_iff (h : Inv s ids) : Contract s ↔ AllMarked s := by
  constructor
  · intro hc id hheld
    exact (returns_marked h id).mp ((hc.returns_iff id).mpr hheld)
  · intro hall
    have hlist : s.pool.freeList = ids := h.free.freeList_eq
    have htry : ∀ id, id ∈ ids → ∃ pool, s.pool.tryRent id = (true, pool) ∧ Takes s.pool pool id := by
      intro id hid
      obtain ⟨pool, hpool, hfree, -⟩ := IDPool.tryRent_eq h.free hid
      refine ⟨pool, hpool, hlist ▸ hid, fun j => ?_⟩
      rw [hfree.freeList_eq, hlist, h.free.nodup.mem_erase_iff, and_comm]
    refine ⟨fun id => hlist ▸ h.mem id, ?_, ?_, fun id => ?_, ?_, ?_, fun id => ?_, ?_⟩
    · cases ids with
      | nil =>
        have hnone : s.pool.rent = none := IDPool.rent_eq h.free
        refine iff_of_false (by simp [hnone]) ?_
        rintro ⟨id, hid⟩
        exact absurd ((h.mem id).mpr hid) List.not_mem_nil
      | cons i rest =>
        obtain ⟨pool, hpool, -⟩ := rent_cons h
        exact iff_of_true ⟨i, pool, hpool⟩ ⟨i, (h.mem i).mp List.mem_cons_self⟩
    · intro id pool hrent
      cases ids with
      | nil =>
        have hnone : s.pool.rent = none := IDPool.rent_eq h.free
        rw [hnone] at hrent
        cases hrent
      | cons i rest =>
        obtain ⟨pool', hpool', hfree, -⟩ := rent_cons h
        rw [hpool', Option.some.injEq, Prod.mk.injEq] at hrent
        obtain ⟨rfl, rfl⟩ := hrent
        refine ⟨((h.mem i).mp List.mem_cons_self).2, by rw [hlist]; exact List.mem_cons_self, fun j => ?_⟩
        rw [hfree.freeList_eq, hlist]
        exact mem_rest h.free j
    · by_cases hid : id ∈ ids
      · obtain ⟨pool, hpool, -⟩ := htry id hid
        rw [hpool]
        exact iff_of_true rfl ((h.mem id).mp hid)
      · rw [IDPool.tryRent_refused h.free hid]
        exact iff_of_false (by simp) (fun hf => hid ((h.mem id).mpr hf))
    · intro id pool hpool
      by_cases hid : id ∈ ids
      · obtain ⟨pool', hpool', htakes⟩ := htry id hid
        rw [hpool', Prod.mk.injEq] at hpool
        exact hpool.2 ▸ htakes
      · rw [IDPool.tryRent_refused h.free hid] at hpool
        simp at hpool
    · intro id pool hpool
      by_cases hid : id ∈ ids
      · obtain ⟨pool', hpool', -⟩ := htry id hid
        rw [hpool'] at hpool
        simp at hpool
      · rw [IDPool.tryRent_refused h.free hid, Prod.mk.injEq] at hpool
        exact hpool.2.symm
    · rw [returns_marked h]
      exact ⟨fun hin => (h.marked id hin).2, hall id⟩
    · intro id pool hpool j
      obtain ⟨-, hfree, -⟩ := returns_ok h hpool
      rw [hfree.freeList_eq, hlist, List.mem_cons, or_comm]

/-- An id leaves the free list, is held, and is marked or not. -/
theorem inv_taken (h : Inv s ids) {pool : IDPool} {i : Nat} {rest : List Nat} (hfree : pool.Free rest)
    (hsize : pool.size = s.pool.size) (hi : i ∈ ids) (hrest : ∀ j, j ∈ rest ↔ j ∈ ids ∧ j ≠ i)
    (hmarks : ∀ j, j ≠ i → pool.inUse j = s.pool.inUse j) :
    Inv ⟨pool, Function.update s.held i true⟩ rest := by
  refine ⟨hfree, fun j => ?_, fun j hj => ?_⟩
  · simp only [hsize]
    rw [hrest, h.mem]
    by_cases hji : j = i
    · subst hji
      simp
    · rw [Function.update_of_ne hji]
      exact and_iff_left hji
  · simp only [hsize]
    by_cases hji : j = i
    · subst hji
      exact ⟨((h.mem j).mp hi).1, Function.update_self ..⟩
    · rw [Function.update_of_ne hji]
      rw [hmarks j hji] at hj
      exact h.marked j hj

/-- Taking an id and marking it keeps all held ids marked. -/
theorem allMarked_taken {i : Nat} {pool : IDPool} (hfree : s.held i = false)
    (hmarks : pool.inUse = Function.update s.pool.inUse i true) :
    AllMarked ⟨pool, Function.update s.held i true⟩ ↔ AllMarked s := by
  constructor
  · intro h j hj
    have hji : j ≠ i := by
      rintro rfl
      rw [hfree] at hj
      cases hj
    have hmark : pool.inUse j = true := h j (by
      change Function.update s.held i true j = true
      rw [Function.update_of_ne hji]
      exact hj)
    rwa [hmarks, Function.update_of_ne hji] at hmark
  · intro h j hj
    change pool.inUse j = true
    rw [hmarks]
    by_cases hji : j = i
    · rw [hji, Function.update_self]
    · rw [Function.update_of_ne hji]
      exact h j (by rwa [← Function.update_of_ne hji true s.held])

/-- A returned id is free and no longer marked. -/
theorem inv_given (h : Inv s ids) {pool : IDPool} {i : Nat} (hpool : s.pool.returns i = .ok pool) :
    Inv ⟨pool, Function.update s.held i false⟩ (i :: ids) := by
  obtain ⟨-, hfree, hsize, hmarks⟩ := returns_ok h hpool
  obtain ⟨hlt, -⟩ := h.marked i ((returns_marked h i).mp ⟨pool, hpool⟩)
  refine ⟨hfree, fun j => ?_, fun j hj => ?_⟩
  · simp only [hsize]
    rw [List.mem_cons, h.mem]
    by_cases hji : j = i
    · subst hji
      simp [hlt]
    · rw [Function.update_of_ne hji, or_iff_right hji]
  · simp only [hmarks, hsize] at hj ⊢
    by_cases hji : j = i
    · rw [hji, Function.update_self] at hj
      cases hj
    · rw [Function.update_of_ne hji] at hj ⊢
      exact h.marked j hj

theorem allMarked_given (h : Inv s ids) {pool : IDPool} {i : Nat} (hpool : s.pool.returns i = .ok pool) :
    AllMarked ⟨pool, Function.update s.held i false⟩ ↔ AllMarked s := by
  obtain ⟨-, -, -, hmarks⟩ := returns_ok h hpool
  constructor
  · intro hall j hj
    by_cases hji : j = i
    · rw [hji]
      exact (returns_marked h i).mp ⟨pool, hpool⟩
    · have hmark : pool.inUse j = true := hall j (by
        change Function.update s.held i false j = true
        rw [Function.update_of_ne hji]
        exact hj)
      rwa [hmarks, Function.update_of_ne hji] at hmark
  · intro hall j hj
    have hji : j ≠ i := by
      rintro rfl
      have hj : Function.update s.held j false j = true := hj
      rw [Function.update_self] at hj
      cases hj
    have hj : Function.update s.held i false j = true := hj
    rw [Function.update_of_ne hji] at hj
    change pool.inUse j = true
    rw [hmarks, Function.update_of_ne hji]
    exact hall j hj

/-- `try_rent` takes a free id, and marks it unless it is the first one. -/
theorem inv_tryRent (h : Inv s ids) {i : Nat} (hi : i ∈ ids) :
    (∃ ids', Inv (perform s (.tryRent i)) ids') ∧
    (AllMarked (perform s (.tryRent i)) ↔ AllMarked s ∧ NotAtHead s (.tryRent i)) := by
  obtain ⟨pool, hpool, hfree, hsize⟩ := IDPool.tryRent_eq h.free hi
  have hmarks := IDPool.tryRent_inUse h.free hi
  obtain ⟨hlt, hheld⟩ := (h.mem i).mp hi
  rw [perform]
  rw [hpool] at hmarks ⊢
  have hother : ∀ j, j ≠ i → pool.inUse j = s.pool.inUse j := by
    intro j hj
    simp only at hmarks
    rw [hmarks]
    split
    · rfl
    · exact Function.update_of_ne hj ..
  refine ⟨⟨ids.erase i, inv_taken h hfree hsize hi (fun j => ?_) hother⟩, ?_⟩
  · rw [h.free.nodup.mem_erase_iff, and_comm]
  · by_cases hhead : s.pool.head = some i
    · -- the node stays unmarked although its id is held now
      rw [if_pos hhead] at hmarks
      refine iff_of_false (fun hall => ?_) (fun hn => hn.2 hhead)
      have hmark : pool.inUse i = true := hall i (Function.update_self ..)
      have hsame : pool.inUse = s.pool.inUse := hmarks
      rw [hsame] at hmark
      rw [(h.marked i hmark).2] at hheld
      cases hheld
    · rw [if_neg hhead] at hmarks
      exact (allMarked_taken hheld hmarks).trans (and_iff_left hhead).symm

/-- One call keeps the invariant; it keeps all held ids marked unless it is a
`try_rent` of the first free id. -/
theorem inv_perform (h : Inv s ids) (c : Call) :
    (∃ ids', Inv (perform s c) ids') ∧ (AllMarked (perform s c) ↔ AllMarked s ∧ NotAtHead s c) := by
  cases c with
  | rent =>
    rw [perform]
    have htrue : (AllMarked s ∧ NotAtHead s .rent) ↔ AllMarked s := and_iff_left trivial
    rw [htrue]
    cases ids with
    | nil =>
      have hnone : s.pool.rent = none := IDPool.rent_eq h.free
      rw [hnone]
      exact ⟨⟨[], h⟩, Iff.rfl⟩
    | cons i rest =>
      obtain ⟨pool, hpool, hfree, hsize, hmarks⟩ := rent_cons h
      rw [hpool]
      refine ⟨⟨rest, inv_taken h hfree hsize List.mem_cons_self (mem_rest h.free) (fun j hj => ?_)⟩,
        allMarked_taken ((h.mem i).mp List.mem_cons_self).2 hmarks⟩
      rw [hmarks, Function.update_of_ne hj]
  | tryRent i =>
    by_cases hi : i ∈ ids
    · exact inv_tryRent h hi
    · rw [perform, IDPool.tryRent_refused h.free hi]
      have hhead : s.pool.head ≠ some i := fun he => hi (LinkedChain.mem_of_head h.free.chain i he)
      exact ⟨⟨ids, h⟩, (and_iff_left hhead).symm⟩
  | returns i =>
    rw [perform]
    have htrue : (AllMarked s ∧ NotAtHead s (.returns i)) ↔ AllMarked s := and_iff_left trivial
    rw [htrue]
    cases hpool : s.pool.returns i with
    | error e => exact ⟨⟨ids, h⟩, Iff.rfl⟩
    | ok pool => exact ⟨⟨i :: ids, inv_given h hpool⟩, allMarked_given h hpool⟩

theorem inv_start (size : Nat) : Inv (start size) (List.range size) := by
  obtain ⟨hfree, hsize⟩ := IDPool.new_free size
  have hmarks : ∀ l : List Nat, (l.foldr
      (fun id p => { p with next := Function.update p.next id p.head, head := some id })
      (⟨size, none, fun _ => none, fun _ => false⟩ : IDPool)).inUse = fun _ => false := by
    intro l
    induction l with
    | nil => rfl
    | cons i l ih => exact ih
  refine ⟨hfree, fun id => ?_, fun id hid => ?_⟩
  · rw [List.mem_range]
    change id < size ↔ id < (IDPool.new size).size ∧ false = false
    rw [hsize]
    exact (and_iff_left rfl).symm
  · have hnone : (IDPool.new size).inUse = fun _ => false := hmarks (List.range size)
    change (IDPool.new size).inUse id = true at hid
    rw [hnone] at hid
    cases hid

theorem inv_visits {size : Nat} {calls : List Call} (h : Visits call (start size) calls s) :
    ∃ ids, Inv s ids := by
  obtain ⟨pre, suf, rfl, hs⟩ := h
  refine run_invariant (I := fun s => ∃ ids, Inv s ids) ?_ ⟨_, inv_start size⟩ hs
  rintro s c t ⟨ids, hinv⟩ hc
  cases hc
  exact (inv_perform hinv c).1

/-- In every state of a run the pool keeps its contract, if and only if no
`try_rent` of the run asks for the first id of the free list. -/
theorem contract_kept_iff (size : Nat) (calls : List Call) :
    (∀ s, Visits call (start size) calls s → Contract s) ↔ Guarded call NotAtHead (start size) calls := by
  constructor
  · intro h pre c suf s hcalls hs
    obtain ⟨ids, hinv⟩ := inv_visits ⟨pre, c :: suf, hcalls, hs⟩
    obtain ⟨⟨ids', hinv'⟩, hmarked⟩ := inv_perform hinv c
    have hnext : Contract (perform s c) :=
      h _ ⟨pre ++ [c], suf, by simp [hcalls], run_join hs (run_step rfl)⟩
    exact (hmarked.mp ((contract_iff hinv').mp hnext)).2
  · intro hg s hs
    have hboth : (∃ ids, Inv s ids) ∧ AllMarked s := by
      refine guarded_visits (I := fun s => (∃ ids, Inv s ids) ∧ AllMarked s) ?_ ?_ hg hs
      · rintro s c t ⟨⟨ids, hinv⟩, hall⟩ hn hc
        cases hc
        obtain ⟨hinv', hmarked⟩ := inv_perform hinv c
        exact ⟨hinv', hmarked.mpr ⟨hall, hn⟩⟩
      · exact ⟨⟨_, inv_start size⟩, fun id hid => by cases hid⟩
    obtain ⟨⟨ids, hinv⟩, hall⟩ := hboth
    exact (contract_iff hinv).mpr hall

/-- The first id of a new pool, taken by `try_rent`, is held and cannot be returned. -/
theorem held_for_good : ∃ s, run call (start 4) [.tryRent 0] = some s ∧ s.held 0 = true ∧
    s.pool.returns 0 = .error .alreadyReturned ∧ ¬ Contract s := by
  have hrun : (run call (start 4) [.tryRent 0]).map (fun s => (s.held 0, s.pool.inUse 0, s.pool.size)) =
      some (true, false, 4) := by
    decide +kernel
  obtain ⟨s, hs, hfields⟩ := Option.map_eq_some_iff.mp hrun
  rw [Prod.mk.injEq, Prod.mk.injEq] at hfields
  have hthrow : s.pool.returns 0 = .error .alreadyReturned := by
    rw [IDPool.returns, hfields.2.2, hfields.2.1]
    rfl
  refine ⟨s, hs, hfields.1, hthrow, fun hc => ?_⟩
  obtain ⟨pool, hpool⟩ := (hc.returns_iff 0).mpr hfields.1
  rw [hthrow] at hpool
  cases hpool

end IDPoolContract
