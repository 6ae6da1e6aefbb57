import Mathlib.Data.List.Perm.Subperm
import ZeroCopyRpc.LinkedChain

/-!
# The pool of ids

`IDPool` hands out the ids below its size from a linked free list over an
array of nodes. One thread at a time uses it here, so each compare-exchange on
the head succeeds and the checks of a concurrent change never fail. Only
`rent` and the inner case of `try_rent` mark a node as in use.
-/
open LinkedChain

inductive IDPoolError where
  | outOfRange | alreadyReturned
  deriving DecidableEq, Repr

def IDPoolError.what : IDPoolError → String
  | .outOfRange => "ID out of range"
  | .alreadyReturned => "ID already returned to pool"

structure IDPool where
  size : Nat
  head : Option Nat
  next : Nat → Option Nat
  inUse : Nat → Bool

namespace IDPool

/-- The constructor links the nodes from the last one to the first. -/
def new (size : Nat) : IDPool :=
  (List.range size).foldr
    (fun id p => { p with next := Function.update p.next id p.head, head := some id })
    ⟨size, none, fun _ => none, fun _ => false⟩

def tryRent (p : IDPool) (targetId : Nat) : Bool × IDPool :=
  if p.size ≤ targetId then (false, p)
  else match find p.next (fun id => id == targetId) p.size none p.head with
    | none => (false, p)
    | some (none, current) => (true, { p with head := p.next current })
    | some (some prev, current) =>
      (true, { p with
        inUse := Function.update p.inUse current true
        next := Function.update p.next prev (p.next current) })

def rent (p : IDPool) : Option (Nat × IDPool) :=
  match p.head with
  | none => none
  | some oldHead =>
    some (oldHead, { p with head := p.next oldHead, inUse := Function.update p.inUse oldHead true })

def returns (p : IDPool) (id : Nat) : Except IDPoolError IDPool :=
  if p.size ≤ id then .error .outOfRange
  else if p.inUse id = false then .error .alreadyReturned
  else .ok { p with
    inUse := Function.update p.inUse id false
    next := Function.update p.next id p.head
    head := some id }

/-- The ids met on the way from the head. -/
def freeList (p : IDPool) : List Nat := walk p.next p.size p.head

/-- The free list ends and holds these ids of the pool, in this order. -/
structure Free (p : IDPool) (ids : List Nat) : Prop where
  chain : Chain p.next p.head ids
  bound : ∀ i ∈ ids, i < p.size

variable {p : IDPool} {ids : List Nat}

theorem Free.nodup (h : p.Free ids) : ids.Nodup := chain_nodup h.chain

/-- Distinct ids below the size are no more than the size. -/
theorem length_le_of_nodup {size : Nat} (hn : ids.Nodup) (hb : ∀ i ∈ ids, i < size) : ids.length ≤ size := by
  have hsub : ids ⊆ List.range size := fun i hi => List.mem_range.mpr (hb i hi)
  have := (List.subperm_of_subset hn hsub).length_le
  simpa using this

theorem Free.freeList_eq (h : p.Free ids) : p.freeList = ids :=
  walk_chain h.chain (length_le_of_nodup h.nodup h.bound)

/-- Linking the last node first gives the ids in order. -/
theorem new_chain (size : Nat) (l : List Nat) (hl : l.Nodup) :
    let p : IDPool := l.foldr
      (fun id p => { p with next := Function.update p.next id p.head, head := some id })
      ⟨size, none, fun _ => none, fun _ => false⟩
    Chain p.next p.head l ∧ p.size = size := by
  induction l with
  | nil => exact ⟨rfl, rfl⟩
  | cons id l ih =>
    obtain ⟨hc, hs⟩ := ih (List.nodup_cons.mp hl).2
    exact ⟨chain_push hc (List.nodup_cons.mp hl).1, hs⟩

theorem new_free (size : Nat) : (new size).Free (List.range size) ∧ (new size).size = size := by
  obtain ⟨hc, hs⟩ := new_chain size (List.range size) List.nodup_range
  refine ⟨⟨hc, fun i hi => ?_⟩, hs⟩
  rw [List.mem_range] at hi
  exact Nat.lt_of_lt_of_le hi (Nat.le_of_eq hs.symm)

/-- `rent` takes the head of the free list, and fails when there is none. -/
theorem rent_eq (h : p.Free ids) : match ids with
    | [] => p.rent = none
    | i :: rest => ∃ p', p.rent = some (i, p') ∧ p'.Free rest ∧ p'.size = p.size := by
  cases ids with
  | nil =>
    have hh : p.head = none := h.chain
    simp [rent, hh]
  | cons i rest =>
    obtain ⟨hh, hc⟩ := h.chain
    refine ⟨{ p with head := p.next i, inUse := Function.update p.inUse i true }, by simp [rent, hh],
      ⟨hc, fun j hj => h.bound j (List.mem_cons_of_mem i hj)⟩, rfl⟩

/-- The walk finds a free id, and the one before it unless it is the first. -/
theorem find_target (h : p.Free ids) {i : Nat} (hi : i ∈ ids) :
    ∃ xs ys, ids = xs ++ i :: ys ∧ i ∉ xs ∧
      find p.next (fun id => id == i) p.size none p.head = some (xs.getLast?, i) := by
  have hlong := length_le_of_nodup h.nodup h.bound
  obtain ⟨xs, ys, rfl, hxs⟩ := List.eq_append_cons_of_mem hi
  rw [List.length_append, List.length_cons] at hlong
  have hmiss : ∀ m ∈ xs, (m == i) = false := by
    intro m hm
    rw [beq_eq_false_iff_ne]
    rintro rfl
    exact hxs hm
  have hfind := find_some _ h.chain hmiss (beq_self_eq_true i) p.size (by omega) none
  rw [Option.or_none] at hfind
  exact ⟨xs, ys, rfl, hxs, hfind⟩

/-- `try_rent` takes exactly the requested id out of the free list. -/
theorem tryRent_eq (h : p.Free ids) {i : Nat} (hi : i ∈ ids) :
    ∃ p', p.tryRent i = (true, p') ∧ p'.Free (ids.erase i) ∧ p'.size = p.size := by
  have hlt := h.bound i hi
  obtain ⟨xs, ys, rfl, hxs, hfind⟩ := find_target h hi
  have hcut := chain_unlink h.chain
  have hbound : ∀ j ∈ xs ++ ys, j < p.size := fun j hj => h.bound j (by
    rw [List.mem_append] at hj
    simp only [List.mem_append, List.mem_cons]
    tauto)
  rw [List.erase_append_right _ hxs, List.erase_cons_head]
  cases hlast : xs.getLast? with
  | none =>
    rw [hlast] at hfind hcut
    exact ⟨{ p with head := p.next i }, by simp [tryRent, Nat.not_le.mpr hlt, hfind], ⟨hcut, hbound⟩, rfl⟩
  | some prev =>
    rw [hlast] at hfind hcut
    exact ⟨{ p with inUse := Function.update p.inUse i true, next := Function.update p.next prev (p.next i) },
      by simp [tryRent, Nat.not_le.mpr hlt, hfind], ⟨hcut, hbound⟩, rfl⟩

/-- It marks the node only when another one stands before it. -/
theorem tryRent_inUse (h : p.Free ids) {i : Nat} (hi : i ∈ ids) :
    (p.tryRent i).2.inUse = if p.head = some i then p.inUse else Function.update p.inUse i true := by
  have hlt := h.bound i hi
  obtain ⟨xs, ys, rfl, hxs, hfind⟩ := find_target h hi
  cases xs with
  | nil =>
    have hhead : p.head = some i := h.chain.1
    rw [if_pos hhead]
    simp [tryRent, Nat.not_le.mpr hlt, hfind]
  | cons x xs =>
    have hhead : p.head = some x := h.chain.1
    have hne : x ≠ i := fun he => hxs (he ▸ List.mem_cons_self)
    have hlast : (x :: xs).getLast? = some ((x :: xs).getLast (List.cons_ne_nil x xs)) :=
      List.getLast?_eq_some_getLast _
    rw [hlast] at hfind
    rw [if_neg (by simp [hhead, hne])]
    simp [tryRent, Nat.not_le.mpr hlt, hfind]

/-- An id that is not free is refused. -/
theorem tryRent_refused (h : p.Free ids) {i : Nat} (hi : i ∉ ids) : p.tryRent i = (false, p) := by
  have hmiss : ∀ m ∈ ids, (m == i) = false := by
    intro m hm
    rw [beq_eq_false_iff_ne]
    rintro rfl
    exact hi hm
  simp only [tryRent, find_none h.chain hmiss]
  split <;> rfl

/-- An id given back by its holder becomes the head of the free list. -/
theorem returns_eq (h : p.Free ids) {i : Nat} (hi : i ∉ ids) (hlt : i < p.size) (hu : p.inUse i = true) :
    ∃ p', p.returns i = .ok p' ∧ p'.Free (i :: ids) := by
  refine ⟨{ p with
    inUse := Function.update p.inUse i false
    next := Function.update p.next i p.head
    head := some i }, ?_, chain_push h.chain hi, ?_⟩
  · simp [returns, hu, Nat.not_le.mpr hlt]
  · intro j hj
    rcases List.mem_cons.mp hj with rfl | hj
    · exact hlt
    · exact h.bound j hj

end IDPool
