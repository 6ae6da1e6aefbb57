import Mathlib.Data.List.Perm.Subperm
import ZeroCopyRpc.LinkedChain

/-!
# The bag of subscriptions

`ConcurrentBag` keeps its items in a fixed array of nodes with two chains
through it, the items and the free nodes. `size_t(-1)`, the end of a chain, is
`none` here. This file is the bag as one thread at a time uses it, so that each
compare-exchange succeeds; `empty` and `full` only read the two heads.
-/
open LinkedChain

structure ConcurrentBag (α : Type) where
  capacity : Nat
  value : Nat → α
  next : Nat → Option Nat
  freeListHead : Option Nat
  itemsHead : Option Nat

namespace ConcurrentBag

variable {α : Type}

/-- The constructor chains all nodes to the free list, each to the one after it. -/
def new (capacity : Nat) (default : α) : ConcurrentBag α where
  capacity := capacity
  value := fun _ => default
  next := fun i => if i + 1 < capacity then some (i + 1) else none
  freeListHead := if 0 < capacity then some 0 else none
  itemsHead := none

def popFromFreeList (b : ConcurrentBag α) : Option (Nat × ConcurrentBag α) :=
  match b.freeListHead with
  | none => none
  | some oldHead => some (oldHead, { b with freeListHead := b.next oldHead })

def pushToFreeList (b : ConcurrentBag α) (index : Nat) : ConcurrentBag α :=
  { b with next := Function.update b.next index b.freeListHead, freeListHead := some index }

def push (b : ConcurrentBag α) (item : α) : Bool × ConcurrentBag α :=
  match b.popFromFreeList with
  | none => (false, b)
  | some (newNode, b) =>
    (true, { b with
      value := Function.update b.value newNode item
      next := Function.update b.next newNode b.itemsHead
      itemsHead := some newNode })

def tryPop (b : ConcurrentBag α) : Option (α × ConcurrentBag α) :=
  match b.itemsHead with
  | none => none
  | some head => some (b.value head, { b with itemsHead := b.next head }.pushToFreeList head)

def remove [BEq α] (b : ConcurrentBag α) (item : α) : Bool × ConcurrentBag α :=
  match find b.next (fun n => b.value n == item) b.capacity none b.itemsHead with
  | none => (false, b)
  | some (previous, current) =>
    let chain := unlink b.next b.itemsHead previous current
    (true, { b with next := chain.1, itemsHead := chain.2 }.pushToFreeList current)

def empty (b : ConcurrentBag α) : Bool := b.itemsHead.isNone

def full (b : ConcurrentBag α) : Bool := b.freeListHead.isNone

/-- The items an iterator yields, from `begin` until it is no longer valid. -/
def items (b : ConcurrentBag α) : List α := (walk b.next b.capacity b.itemsHead).map b.value

/-- The two chains share no node and together use every node of the array. -/
structure Nodes (b : ConcurrentBag α) (used free : List Nat) : Prop where
  items : Chain b.next b.itemsHead used
  spare : Chain b.next b.freeListHead free
  apart : ∀ n ∈ used, n ∉ free
  count : used.length + free.length = b.capacity

/-- The bag holds these items, newest first. -/
def Holds (b : ConcurrentBag α) (l : List α) : Prop :=
  ∃ used free, b.Nodes used free ∧ used.map b.value = l

variable {b : ConcurrentBag α} {l : List α}

theorem Holds.length_le (h : b.Holds l) : l.length ≤ b.capacity := by
  obtain ⟨used, free, hn, rfl⟩ := h
  have := hn.count
  rw [List.length_map]
  omega

theorem Holds.items_eq (h : b.Holds l) : b.items = l := by
  obtain ⟨used, free, hn, rfl⟩ := h
  have := hn.count
  rw [items, walk_chain hn.items (by omega)]

/-- The rest of the new array's free list, from node `i` on. -/
theorem new_spare (capacity i : Nat) (default : α) (hi : i ≤ capacity) :
    Chain (new capacity default).next (if i < capacity then some i else none) (List.range' i (capacity - i)) := by
  induction hk : capacity - i generalizing i with
  | zero =>
    rw [List.range'_zero, chain_nil, if_neg (by omega)]
  | succ k ih =>
    rw [List.range'_succ, chain_cons, if_pos (by omega)]
    exact ⟨rfl, ih (i + 1) (by omega) (by omega)⟩

theorem new_holds (capacity : Nat) (default : α) : (new capacity default).Holds [] := by
  refine ⟨[], List.range' 0 capacity, ⟨rfl, new_spare capacity 0 default (Nat.zero_le _), by simp, ?_⟩, rfl⟩
  simp [new]

theorem push_capacity (b : ConcurrentBag α) (item : α) : (b.push item).2.capacity = b.capacity := by
  cases h : b.freeListHead <;> simp [push, popFromFreeList, h]

/-- A push that finds a free node puts the item in front; it changes neither the
value nor the successor of a node in use. -/
theorem push_nodes {used free : List Nat} {n : Nat} (hn : b.Nodes used (n :: free)) (item : α) :
    (b.push item).1 = true ∧ (b.push item).2.Nodes (n :: used) free ∧ n ∉ used ∧
    (b.push item).2.value = Function.update b.value n item ∧
    ∀ m ∈ used, (b.push item).2.next m = b.next m := by
  have hcount := hn.count
  obtain ⟨hhead, hrest⟩ := hn.spare
  have hout : n ∉ used := fun hu => hn.apart n hu List.mem_cons_self
  have hfree : n ∉ free := (List.nodup_cons.mp (chain_nodup hn.spare)).1
  have hpush : b.push item = (true, { b with
      freeListHead := b.next n
      value := Function.update b.value n item
      next := Function.update b.next n b.itemsHead
      itemsHead := some n }) := by
    simp [push, popFromFreeList, hhead]
  rw [hpush]
  refine ⟨rfl, ⟨chain_push hn.items hout, chain_update hrest hfree _, ?_, ?_⟩, hout, rfl, ?_⟩
  · intro m hm
    rcases List.mem_cons.mp hm with rfl | hm
    · exact hfree
    · exact fun hf => hn.apart m hm (List.mem_cons_of_mem n hf)
  · simp only [List.length_cons] at hcount ⊢
    omega
  · intro m hm
    refine Function.update_of_ne ?_ _ _
    rintro rfl
    exact hout hm

theorem push_none {used : List Nat} (hn : b.Nodes used []) (item : α) : b.push item = (false, b) := by
  have hhead : b.freeListHead = none := hn.spare
  simp [push, popFromFreeList, hhead]

/-- While there is room a push succeeds and the item becomes the first one. -/
theorem push_eq (h : b.Holds l) (hroom : l.length < b.capacity) (item : α) :
    (b.push item).1 = true ∧ (b.push item).2.Holds (item :: l) := by
  obtain ⟨used, free, hn, rfl⟩ := h
  have hcount := hn.count
  rw [List.length_map] at hroom
  cases free with
  | nil =>
    rw [List.length_nil] at hcount
    omega
  | cons n free =>
    obtain ⟨hpushed, hnodes, hout, hvalue, _⟩ := push_nodes hn item
    refine ⟨hpushed, n :: used, free, hnodes, ?_⟩
    rw [hvalue, List.map_cons, Function.update_self]
    congr 1
    refine List.map_congr_left fun m hm => Function.update_of_ne ?_ _ _
    rintro rfl
    exact hout hm

/-- A pop takes the first node off the items and gives it to the free list. -/
theorem tryPop_nodes {used free : List Nat} {n : Nat} (hn : b.Nodes (n :: used) free) :
    ∃ b', b.tryPop = some (b.value n, b') ∧ b'.Nodes used (n :: free) ∧ b'.value = b.value ∧
      b'.capacity = b.capacity := by
  have hcount := hn.count
  obtain ⟨hhead, hrest⟩ := hn.items
  have hout : n ∉ used := (List.nodup_cons.mp (chain_nodup hn.items)).1
  have hfree : n ∉ free := hn.apart n List.mem_cons_self
  refine ⟨{ b with itemsHead := b.next n }.pushToFreeList n, by rw [tryPop, hhead], ?_, rfl, rfl⟩
  refine ⟨chain_update hrest hout _, chain_push hn.spare hfree, ?_, ?_⟩
  · intro m hm hm'
    cases List.mem_cons.mp hm' with
    | inl heq => exact hout (heq ▸ hm)
    | inr hm' => exact hn.apart m (List.mem_cons_of_mem n hm) hm'
  · simp only [List.length_cons] at hcount ⊢
    exact (Nat.succ_add_eq_add_succ used.length free.length).symm.trans hcount

theorem tryPop_none {free : List Nat} (hn : b.Nodes [] free) : b.tryPop = none := by
  have hhead : b.itemsHead = none := hn.items
  rw [tryPop, hhead]

section Remove

variable [BEq α]

/-- A remove finds nothing, or takes the first node with an equal value off the
chain and gives it to the free list. -/
theorem remove_nodes {used free : List Nat} (hn : b.Nodes used free) (item : α) :
    ((∀ m ∈ used, (b.value m == item) = false) ∧ b.remove item = (false, b)) ∨
    ∃ xs n ys, used = xs ++ n :: ys ∧ (∀ m ∈ xs, (b.value m == item) = false) ∧
      (b.value n == item) = true ∧
      (b.remove item).1 = true ∧ (b.remove item).2.Nodes (xs ++ ys) (n :: free) ∧
      (b.remove item).2.value = b.value ∧ (b.remove item).2.capacity = b.capacity := by
  have hcount := hn.count
  by_cases hany : ∃ n ∈ used, (b.value n == item) = true
  · right
    obtain ⟨k, hk, hhit⟩ := hany
    obtain ⟨n, xs, ys, hxs, hn', rfl, _⟩ := @List.exists_of_eraseP _ (fun m => b.value m == item) used k hk hhit
    have hmiss : ∀ m ∈ xs, (b.value m == item) = false := fun m hm => by simpa using hxs m hm
    rw [List.length_append, List.length_cons] at hcount
    have hfind := find_some (fun m => b.value m == item) hn.items hmiss hn' b.capacity (by omega) none
    rw [Option.or_none] at hfind
    have hnodup := chain_nodup hn.items
    have hout : n ∉ xs ++ ys := by
      rw [List.nodup_middle, List.nodup_cons] at hnodup
      exact hnodup.1
    have hfree : n ∉ free := hn.apart n (by simp)
    refine ⟨xs, n, ys, rfl, hmiss, hn', ?_⟩
    simp only [remove, hfind, pushToFreeList]
    refine ⟨trivial, ⟨chain_update (chain_unlink hn.items) hout _, ?_, ?_, ?_⟩, trivial, trivial⟩
    · refine chain_push (chain_congr hn.spare fun m hm => unlink_other fun hx => ?_) hfree
      exact hn.apart m (by simp [hx]) hm
    · intro m hm hm'
      rcases List.mem_cons.mp hm' with rfl | hm'
      · exact hout hm
      · refine hn.apart m ?_ hm'
        rw [List.mem_append] at hm
        simp only [List.mem_append, List.mem_cons]
        tauto
    · simp only [List.length_append, List.length_cons]
      omega
  · left
    have hmiss : ∀ m ∈ used, (b.value m == item) = false := by
      intro m hm
      rw [← Bool.not_eq_true]
      exact fun he => hany ⟨m, hm, he⟩
    exact ⟨hmiss, by simp only [remove, find_none hn.items hmiss]⟩

/-- `remove` takes out the first equal item and says whether there was one. -/
theorem remove_eq (h : b.Holds l) (item : α) : (b.remove item).1 = l.any (· == item) ∧
    (b.remove item).2.Holds (l.eraseP (· == item)) ∧ (b.remove item).2.capacity = b.capacity := by
  obtain ⟨used, free, hn, rfl⟩ := h
  rcases remove_nodes hn item with ⟨hmiss, hfind⟩ |
    ⟨xs, n, ys, rfl, hmiss, hhit, hfound, hnodes, hvalue, hcapacity⟩
  · have hnone : ∀ a ∈ used.map b.value, ¬ (a == item) = true := by
      simpa using hmiss
    rw [hfind, List.eraseP_of_forall_not hnone]
    refine ⟨?_, ⟨used, free, hn, rfl⟩, rfl⟩
    rw [eq_comm, ← Bool.not_eq_true, List.any_eq_true]
    rintro ⟨a, ha, he⟩
    exact hnone a ha he
  · have hnone : ∀ a ∈ xs.map b.value, ¬ (a == item) = true := by
      simpa using hmiss
    refine ⟨?_, ⟨xs ++ ys, n :: free, hnodes, ?_⟩, hcapacity⟩
    · rw [hfound, eq_comm, List.any_eq_true]
      exact ⟨b.value n, by simp, hhit⟩
    · rw [hvalue, List.map_append, List.map_append, List.map_cons, List.eraseP_append_right _ hnone,
        List.eraseP_cons, hhit, cond_true]

end Remove

end ConcurrentBag
