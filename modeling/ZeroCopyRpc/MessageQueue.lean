import Mathlib.Data.List.Basic
import Mathlib.Logic.Function.Basic

/-!
# Named message queues of the operating system

A name leads to a queue object until it is removed. A handle is the object it
was opened on: it stays attached to that object when the name is removed and
when a new object is created under it.
-/

structure MessageQueues (κ μ : Type) where
  names : κ → Option Nat
  contents : Nat → List μ
  created : Nat

namespace MessageQueues

variable {κ μ : Type} [DecidableEq κ]

/-- A system in which no name is taken. -/
def fresh : MessageQueues κ μ := ⟨fun _ => none, fun _ => [], 0⟩

/-- Fails when the name is taken. -/
def createOnly (q : MessageQueues κ μ) (name : κ) : Option (Nat × MessageQueues κ μ) :=
  match q.names name with
  | some _ => none
  | none => some (q.created, {
      names := Function.update q.names name (some q.created)
      contents := Function.update q.contents q.created []
      created := q.created + 1 })

def openOrCreate (q : MessageQueues κ μ) (name : κ) : Nat × MessageQueues κ μ :=
  match q.names name with
  | some object => (object, q)
  | none => (q.created, {
      names := Function.update q.names name (some q.created)
      contents := Function.update q.contents q.created []
      created := q.created + 1 })

/-- Fails when no object has the name. -/
def openOnly (q : MessageQueues κ μ) (name : κ) : Option Nat := q.names name

def remove (q : MessageQueues κ μ) (name : κ) : MessageQueues κ μ :=
  { q with names := Function.update q.names name none }

/-- Fails when the queue holds as many messages as it may; a blocking send waits there. -/
def trySend (capacity : Nat) (q : MessageQueues κ μ) (object : Nat) (message : μ) : Option (MessageQueues κ μ) :=
  if (q.contents object).length < capacity then
    some { q with contents := Function.update q.contents object (q.contents object ++ [message]) }
  else none

def receive (q : MessageQueues κ μ) (object : Nat) : Option (μ × MessageQueues κ μ) :=
  match q.contents object with
  | [] => none
  | message :: rest => some (message, { q with contents := Function.update q.contents object rest })

/-- Everything in the queue is received. -/
def drain (q : MessageQueues κ μ) (object : Nat) : MessageQueues κ μ :=
  { q with contents := Function.update q.contents object [] }

theorem createOnly_some {q q' : MessageQueues κ μ} {name : κ} {object : Nat}
    (h : q.createOnly name = some (object, q')) :
    q.names name = none ∧ object = q.created ∧ q'.names = Function.update q.names name (some q.created) ∧
    q'.contents = Function.update q.contents q.created [] ∧ q'.created = q.created + 1 := by
  unfold createOnly at h
  split at h
  · cases h
  · rename_i hn
    cases h
    exact ⟨hn, rfl, rfl, rfl, rfl⟩

theorem openOrCreate_name (q : MessageQueues κ μ) (name : κ) :
    (q.openOrCreate name).2.names = Function.update q.names name (some (q.openOrCreate name).1) := by
  unfold openOrCreate
  split
  · rename_i object hobject
    exact (Function.update_eq_self_iff.mpr hobject.symm).symm
  · rfl

theorem openOrCreate_object (q : MessageQueues κ μ) (name : κ) :
    q.names name = some (q.openOrCreate name).1 ∧ (q.openOrCreate name).2 = q ∨
    q.names name = none ∧ (q.openOrCreate name).1 = q.created ∧ (q.openOrCreate name).2.created = q.created + 1 ∧
      (q.openOrCreate name).2.contents = Function.update q.contents q.created [] := by
  unfold openOrCreate
  split
  · rename_i object hobject
    exact Or.inl ⟨hobject, rfl⟩
  · rename_i hnone
    exact Or.inr ⟨hnone, rfl, rfl, rfl⟩

/-- Removing a name gives no name to anything. -/
theorem remove_le {q : MessageQueues κ μ} {name k : κ} {o : Nat} (h : (q.remove name).names k = some o) :
    q.names k = some o := by
  by_cases hk : k = name
  · simp [remove, hk] at h
  · simpa [remove, Function.update_of_ne hk] using h

omit [DecidableEq κ] in
theorem trySend_some {capacity : Nat} {q q' : MessageQueues κ μ} {object : Nat} {message : μ}
    (h : trySend capacity q object message = some q') :
    q'.names = q.names ∧ q'.created = q.created ∧
    q'.contents = Function.update q.contents object (q.contents object ++ [message]) := by
  unfold trySend at h
  split at h
  · cases h
    exact ⟨rfl, rfl, rfl⟩
  · cases h

omit [DecidableEq κ] in
theorem trySend_none {capacity : Nat} {q : MessageQueues κ μ} {object : Nat} {message : μ}
    (h : trySend capacity q object message = none) : capacity ≤ (q.contents object).length := by
  unfold trySend at h
  split at h
  · cases h
  · omega

omit [DecidableEq κ] in
theorem receive_some {q q' : MessageQueues κ μ} {object : Nat} {message : μ}
    (h : q.receive object = some (message, q')) :
    ∃ rest, q.contents object = message :: rest ∧ q'.names = q.names ∧ q'.created = q.created ∧
      q'.contents = Function.update q.contents object rest := by
  unfold receive at h
  split at h
  · cases h
  · rename_i m rest hc
    cases h
    exact ⟨rest, hc, rfl, rfl, rfl⟩

end MessageQueues
