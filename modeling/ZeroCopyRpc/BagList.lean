import ZeroCopyRpc.ConcurrentBag
import ZeroCopyRpc.Transitions

/-!
# The bag is a bounded list

One thread pushes, pops, removes, asks and iterates in any order. Its answers
are those of a list with a bound on its length, newest item first, and the two
chains keep sharing out the nodes of the array. A weak compare-exchange that
fails without cause has read the same head again, so it repeats its round and
changes no answer.
-/
open LinkedChain Transitions

namespace ConcurrentBag

variable {α : Type}

section Iterator

/-- `begin`: the iterator is the index of its node. -/
def begin (b : ConcurrentBag α) : Option Nat := b.itemsHead

/-- The item at a valid iterator; one that is not valid throws. -/
def currentItem (b : ConcurrentBag α) (current : Option Nat) : Option α := current.map b.value

/-- Read and step on while the iterator is valid, for at most `fuel` rounds. -/
def iterate (b : ConcurrentBag α) : Nat → Option Nat → Option (List α)
  | _, none => some []
  | 0, some _ => none
  | fuel + 1, some n =>
    (b.currentItem (some n)).bind fun item => (b.iterate fuel (b.next n)).map fun rest => item :: rest

theorem iterate_chain {b : ConcurrentBag α} {current : Option Nat} {l : List Nat} (h : Chain b.next current l)
    {fuel : Nat} (hf : l.length ≤ fuel) : b.iterate fuel current = some (l.map b.value) := by
  induction l generalizing current fuel with
  | nil =>
    rw [chain_nil] at h
    rw [h]
    cases fuel <;> rfl
  | cons n l ih =>
    obtain ⟨rfl, h⟩ := h
    cases fuel with
    | zero => simp at hf
    | succ fuel =>
      rw [iterate, ih h (by simpa using hf)]
      rfl

end Iterator

/-- The items are the list, and every node is on one of the two chains, once. -/
structure Represents (capacity : Nat) (b : ConcurrentBag α) (l : List α) : Prop where
  capacity_eq : b.capacity = capacity
  chains : ∃ used free, Chain b.next b.itemsHead used ∧ Chain b.next b.freeListHead free ∧
    (used ++ free).Perm (List.range capacity) ∧ used.map b.value = l

variable {capacity : Nat} {b : ConcurrentBag α} {l : List α}

theorem nodes_of_share {used free : List Nat} (hc : b.capacity = capacity) (hu : Chain b.next b.itemsHead used)
    (hf : Chain b.next b.freeListHead free) (hshare : (used ++ free).Perm (List.range capacity)) :
    b.Nodes used free := by
  have hnodup : (used ++ free).Nodup := hshare.nodup_iff.mpr List.nodup_range
  have hcount : (used ++ free).length = capacity := by
    rw [hshare.length_eq, List.length_range]
  rw [List.length_append] at hcount
  exact ⟨hu, hf, fun n hn hm => List.disjoint_of_nodup_append hnodup hn hm, by rw [hc, hcount]⟩

theorem Represents.length_le (h : Represents capacity b l) : l.length ≤ capacity := by
  obtain ⟨used, free, hu, hf, hshare, rfl⟩ := h.chains
  have hcount := (nodes_of_share h.capacity_eq hu hf hshare).count
  rw [List.length_map, ← h.capacity_eq]
  omega

theorem new_represents (capacity : Nat) (default : α) : Represents capacity (new capacity default) [] := by
  refine ⟨rfl, [], List.range' 0 capacity, rfl, new_spare capacity 0 default (Nat.zero_le _), ?_, rfl⟩
  rw [List.nil_append, List.range_eq_range']

theorem represents_empty (h : Represents capacity b l) : b.empty = l.isEmpty := by
  obtain ⟨used, free, hu, -, -, rfl⟩ := h.chains
  cases used with
  | nil =>
    have hhead : b.itemsHead = none := hu
    simp [empty, hhead]
  | cons n used =>
    have hhead : b.itemsHead = some n := hu.1
    simp [empty, hhead]

theorem represents_full (h : Represents capacity b l) : b.full = (l.length == capacity) := by
  obtain ⟨used, free, hu, hf, hshare, rfl⟩ := h.chains
  have hcount := (nodes_of_share h.capacity_eq hu hf hshare).count
  rw [h.capacity_eq] at hcount
  cases free with
  | nil =>
    have hhead : b.freeListHead = none := hf
    rw [List.length_nil] at hcount
    simp [full, hhead, ← hcount]
  | cons n free =>
    have hhead : b.freeListHead = some n := hf.1
    rw [List.length_cons] at hcount
    rw [full, hhead, List.length_map, eq_comm]
    exact beq_false_of_ne (by omega)

/-- A full bag refuses a push and is left as it was. -/
theorem push_full (h : Represents capacity b l) (hfull : l.length = capacity) (item : α) :
    b.push item = (false, b) := by
  have hhead : b.freeListHead = none := by
    have := represents_full h
    rw [hfull, beq_self_eq_true, full, Option.isNone_iff_eq_none] at this
    exact this
  simp [push, popFromFreeList, hhead]

theorem represents_push (h : Represents capacity b l) (hroom : l.length < capacity) (item : α) :
    (b.push item).1 = true ∧ Represents capacity (b.push item).2 (item :: l) := by
  obtain ⟨used, free, hu, hf, hshare, rfl⟩ := h.chains
  have hn := nodes_of_share h.capacity_eq hu hf hshare
  have hcount := hn.count
  rw [h.capacity_eq] at hcount
  rw [List.length_map] at hroom
  cases free with
  | nil =>
    rw [List.length_nil] at hcount
    omega
  | cons n free =>
    obtain ⟨hpushed, hnodes, hout, hvalue, _⟩ := push_nodes hn item
    have hkeep : used.map (b.push item).2.value = used.map b.value := by
      apply List.map_congr_left
      intro m hm
      rw [hvalue, Function.update_of_ne]
      rintro rfl
      exact hout hm
    refine ⟨hpushed, by rw [push_capacity, h.capacity_eq], n :: used, free, hnodes.items, hnodes.spare, ?_, ?_⟩
    · exact List.perm_middle.symm.trans hshare
    · rw [List.map_cons, hkeep, hvalue, Function.update_self]

theorem represents_tryPop (h : Represents capacity b l) :
    match b.tryPop with
    | none => l = []
    | some (item, b') => ∃ rest, l = item :: rest ∧ Represents capacity b' rest := by
  obtain ⟨used, free, hu, hf, hshare, rfl⟩ := h.chains
  have hn := nodes_of_share h.capacity_eq hu hf hshare
  cases used with
  | nil =>
    rw [tryPop_none hn]
    rfl
  | cons n used =>
    obtain ⟨b', hpop, hnodes, hvalue, hcapacity⟩ := tryPop_nodes hn
    rw [hpop]
    refine ⟨used.map b.value, List.map_cons, by rw [hcapacity, h.capacity_eq], used, n :: free,
      hnodes.items, hnodes.spare, List.perm_middle.trans hshare, by rw [hvalue]⟩

inductive Op (α : Type) where
  | push (item : α)
  | tryPop
  | remove (item : α)
  | empty
  | full
  | iterate

inductive Answer (α : Type) where
  | flag (value : Bool)
  | popped (item : Option α)
  /-- The items of a full iteration, or none where it does not end. -/
  | items (list : Option (List α))

section Operations

variable [BEq α]

def perform (b : ConcurrentBag α) : Op α → Answer α × ConcurrentBag α
  | .push item => (.flag (b.push item).1, (b.push item).2)
  | .tryPop =>
    match b.tryPop with
    | none => (.popped none, b)
    | some (item, b) => (.popped (some item), b)
  | .remove item => (.flag (b.remove item).1, (b.remove item).2)
  | .empty => (.flag b.empty, b)
  | .full => (.flag b.full, b)
  | .iterate => (.items (b.iterate b.capacity b.begin), b)

/-- What the bag is for: a list of at most `capacity` items. -/
def performList (capacity : Nat) (l : List α) : Op α → Answer α × List α
  | .push item => if l.length < capacity then (.flag true, item :: l) else (.flag false, l)
  | .tryPop => (.popped l.head?, l.tail)
  | .remove item => (.flag (l.any (· == item)), l.eraseP (· == item))
  | .empty => (.flag l.isEmpty, l)
  | .full => (.flag (l.length == capacity), l)
  | .iterate => (.items (some l), l)

theorem represents_remove (h : Represents capacity b l) (item : α) :
    (b.remove item).1 = l.any (· == item) ∧ Represents capacity (b.remove item).2 (l.eraseP (· == item)) := by
  obtain ⟨used, free, hu, hf, hshare, rfl⟩ := h.chains
  have hn := nodes_of_share h.capacity_eq hu hf hshare
  obtain ⟨hanswer, -, hcapacity⟩ := remove_eq ⟨used, free, hn, rfl⟩ item
  refine ⟨hanswer, by rw [hcapacity, h.capacity_eq], ?_⟩
  cases remove_nodes hn item with
  | inl hmissing =>
    obtain ⟨hmiss, hsame⟩ := hmissing
    rw [hsame, List.eraseP_of_forall_not (by simpa using hmiss)]
    exact h.chains
  | inr hfound =>
    obtain ⟨xs, n, ys, rfl, hmiss, hhit, -, hnodes, hvalue, -⟩ := hfound
    refine ⟨xs ++ ys, n :: free, hnodes.items, hnodes.spare, ?_, ?_⟩
    · -- the node only moved from the one chain to the head of the other
      refine List.Perm.trans ?_ hshare
      rw [List.append_assoc, List.append_assoc, List.cons_append]
      exact (List.Perm.append_left xs List.perm_middle)
    · rw [hvalue, List.map_append, List.map_append, List.map_cons, List.eraseP_append_right _ (by simpa using hmiss),
        List.eraseP_cons, hhit, cond_true]

/-- One operation answers as the list does, and the bag then stands for the new list. -/
theorem perform_represents (h : Represents capacity b l) (op : Op α) :
    (b.perform op).1 = (performList capacity l op).1 ∧
    Represents capacity (b.perform op).2 (performList capacity l op).2 := by
  cases op with
  | push item =>
    by_cases hroom : l.length < capacity
    · obtain ⟨hanswer, hnext⟩ := represents_push h hroom item
      simp only [perform, performList, if_pos hroom, hanswer]
      exact ⟨trivial, hnext⟩
    · have hfull : l.length = capacity := Nat.le_antisymm h.length_le (Nat.le_of_not_lt hroom)
      simp only [perform, performList, if_neg hroom, push_full h hfull item]
      exact ⟨trivial, h⟩
  | tryPop =>
    have hpop := represents_tryPop h
    simp only [perform, performList]
    cases hb : b.tryPop with
    | none =>
      rw [hb] at hpop
      subst hpop
      exact ⟨rfl, h⟩
    | some popped =>
      rw [hb] at hpop
      obtain ⟨rest, rfl, hnext⟩ := hpop
      exact ⟨rfl, hnext⟩
  | remove item =>
    obtain ⟨hanswer, hnext⟩ := represents_remove h item
    simp only [perform, performList, hanswer]
    exact ⟨trivial, hnext⟩
  | empty => exact ⟨congrArg Answer.flag (represents_empty h), h⟩
  | full => exact ⟨congrArg Answer.flag (represents_full h), h⟩
  | iterate =>
    refine ⟨?_, h⟩
    obtain ⟨used, free, hu, hf, hshare, rfl⟩ := h.chains
    have hcount := (nodes_of_share h.capacity_eq hu hf hshare).count
    simp only [perform, performList, begin]
    rw [iterate_chain hu (by omega)]

/-- One thread's bag answers every sequence of operations as the bounded list
does, and the list is at all times what the chain of items holds. -/
theorem bag_sequential (capacity : Nat) (default : α) (ops : List (Op α)) :
    (serve perform (new capacity default) ops).1 = (serve (performList capacity) [] ops).1 ∧
    Represents capacity (serve perform (new capacity default) ops).2 (serve (performList capacity) [] ops).2 ∧
    ((serve (performList capacity) [] ops).2.length = capacity → ∀ item,
      (serve perform (new capacity default) ops).2.push item =
        (false, (serve perform (new capacity default) ops).2)) := by
  obtain ⟨hanswers, hend⟩ := serve_refines (fun _ _ op h => perform_represents h op)
    (new_represents capacity default) ops
  exact ⟨hanswers, hend, fun hfull item => push_full hend hfull item⟩

end Operations

end ConcurrentBag
