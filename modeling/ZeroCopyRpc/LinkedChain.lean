import Mathlib.Data.List.Nodup
import Mathlib.Logic.Function.Basic

/-!
# Singly linked chains

Nodes are names, and `next` gives the successor of each node. A chain is the
list of nodes met by following `next` from a head until it ends. The lemmas
say what pushing a node, unlinking a node and changing a node off the chain do
to that list, and that the walks of bounded length find what is there.
-/
namespace LinkedChain

variable {ν : Type}

/-- Following `next` from the head meets exactly these nodes and then ends. -/
def Chain (next : ν → Option ν) : Option ν → List ν → Prop
  | head, [] => head = none
  | head, n :: l => head = some n ∧ Chain next (next n) l

/-- Walk at most `fuel` nodes to the first hit; also the node before it. -/
def find (next : ν → Option ν) (hit : ν → Bool) : Nat → Option ν → Option ν → Option (Option ν × ν)
  | 0, _, _ => none
  | _ + 1, _, none => none
  | fuel + 1, previous, some n => if hit n then some (previous, n) else find next hit fuel (some n) (next n)

/-- The nodes met by a walk of at most `fuel` nodes. -/
def walk (next : ν → Option ν) : Nat → Option ν → List ν
  | 0, _ => []
  | _ + 1, none => []
  | fuel + 1, some n => n :: walk next fuel (next n)

variable {next : ν → Option ν} {head : Option ν} {n p : ν} {l l₁ l₂ : List ν}

@[simp] theorem chain_nil : Chain next head [] ↔ head = none := Iff.rfl
@[simp] theorem chain_cons : Chain next head (n :: l) ↔ head = some n ∧ Chain next (next n) l := Iff.rfl

theorem chain_unique (h₁ : Chain next head l₁) (h₂ : Chain next head l₂) : l₁ = l₂ := by
  induction l₁ generalizing head l₂ with
  | nil =>
    cases l₂ with
    | nil => rfl
    | cons m l₂ =>
      rw [chain_nil] at h₁
      rw [chain_cons, h₁] at h₂
      cases h₂.1
  | cons m l₁ ih =>
    obtain ⟨rfl, h₁⟩ := h₁
    cases l₂ with
    | nil => cases h₂
    | cons k l₂ =>
      obtain ⟨hk, h₂⟩ := h₂
      cases hk
      rw [ih h₁ h₂]

/-- A chain goes on from each of its nodes. -/
theorem chain_from (h : Chain next head (l₁ ++ n :: l₂)) : Chain next (some n) (n :: l₂) := by
  induction l₁ generalizing head with
  | nil => exact ⟨rfl, h.2⟩
  | cons m l₁ ih => exact ih h.2

theorem mem_of_head (h : Chain next head l) (n : ν) (hn : head = some n) : n ∈ l := by
  cases l with
  | nil =>
    rw [chain_nil, hn] at h
    cases h
  | cons m l =>
    obtain ⟨hm, -⟩ := h
    rw [hn] at hm
    cases hm
    exact List.mem_cons_self

theorem mem_of_next (h : Chain next head l) (hp : p ∈ l) (n : ν) (hn : next p = some n) : n ∈ l := by
  obtain ⟨l₁, l₂, rfl⟩ := List.append_of_mem hp
  have hrest := mem_of_head (chain_from h).2 n hn
  exact List.mem_append_right l₁ (List.mem_cons_of_mem p hrest)

/-- A chain that ends meets no node twice. -/
theorem chain_nodup (h : Chain next head l) : l.Nodup := by
  induction l generalizing head with
  | nil => exact List.nodup_nil
  | cons m l ih =>
    refine List.nodup_cons.mpr ⟨fun hm => ?_, ih h.2⟩
    -- a second visit of m would start a shorter chain from the same node
    obtain ⟨xs, ys, rfl⟩ := List.append_of_mem hm
    have hlong : Chain next (some m) (m :: (xs ++ m :: ys)) := ⟨rfl, h.2⟩
    have hshort : Chain next (some m) (m :: ys) := chain_from h.2
    have := congrArg List.length (chain_unique hlong hshort)
    simp at this
    omega

theorem find_none {hit : ν → Bool} (h : Chain next head l) (hmiss : ∀ m ∈ l, hit m = false) (fuel : Nat)
    (previous : Option ν) : find next hit fuel previous head = none := by
  induction fuel generalizing head l previous with
  | zero => rfl
  | succ fuel ih =>
    cases l with
    | nil =>
      rw [chain_nil] at h
      rw [h]
      rfl
    | cons m l =>
      obtain ⟨rfl, h⟩ := h
      rw [find, hmiss m List.mem_cons_self]
      exact ih h (fun k hk => hmiss k (List.mem_cons_of_mem m hk)) (some m)

/-- The walk finds the first hit and the node before it. -/
theorem find_some (hit : ν → Bool) (h : Chain next head (l₁ ++ n :: l₂)) (hmiss : ∀ m ∈ l₁, hit m = false)
    (hn : hit n = true) (fuel : Nat) (hf : l₁.length < fuel) (previous : Option ν) :
    find next hit fuel previous head = some (l₁.getLast?.or previous, n) := by
  induction l₁ generalizing head fuel previous with
  | nil =>
    obtain ⟨rfl, h⟩ := h
    cases fuel with
    | zero => simp at hf
    | succ fuel => simp [find, hn]
  | cons m l₁ ih =>
    obtain ⟨rfl, h⟩ := h
    cases fuel with
    | zero => simp at hf
    | succ fuel =>
      rw [find, hmiss m List.mem_cons_self, if_neg (by simp)]
      rw [ih h (fun k hk => hmiss k (List.mem_cons_of_mem m hk)) fuel (by simpa using hf) (some m)]
      rw [List.getLast?_cons]
      cases l₁.getLast? <;> rfl

theorem walk_chain (h : Chain next head l) {fuel : Nat} (hf : l.length ≤ fuel) : walk next fuel head = l := by
  induction l generalizing head fuel with
  | nil =>
    rw [chain_nil] at h
    rw [h]
    cases fuel <;> rfl
  | cons m l ih =>
    obtain ⟨rfl, h⟩ := h
    cases fuel with
    | zero => simp at hf
    | succ fuel =>
      rw [walk, ih h (by simpa using hf)]

section Update

variable [DecidableEq ν]

/-- A node that is not on the chain may change its successor. -/
theorem chain_update (h : Chain next head l) (hn : n ∉ l) (v : Option ν) :
    Chain (Function.update next n v) head l := by
  induction l generalizing head with
  | nil => exact h
  | cons m l ih =>
    rw [List.mem_cons, not_or] at hn
    refine ⟨h.1, ?_⟩
    rw [Function.update_of_ne (Ne.symm hn.1)]
    exact ih h.2 hn.2

/-- A node off the chain becomes its new head. -/
theorem chain_push (h : Chain next head l) (hn : n ∉ l) :
    Chain (Function.update next n head) (some n) (n :: l) := by
  refine ⟨rfl, ?_⟩
  rw [Function.update_self]
  exact chain_update h hn head

/-- Take a node out of the chain, given the node before it. -/
def unlink (next : ν → Option ν) (head previous : Option ν) (n : ν) : (ν → Option ν) × Option ν :=
  match previous with
  | none => (next, next n)
  | some p => (Function.update next p (next n), head)

theorem chain_skip (h : Chain next head (l₁ ++ p :: n :: l₂)) :
    Chain (Function.update next p (next n)) head (l₁ ++ p :: l₂) := by
  induction l₁ generalizing head with
  | nil =>
    obtain ⟨rfl, hp, h⟩ := h
    have hchain : Chain next (some p) (p :: n :: l₂) := ⟨rfl, hp, h⟩
    have hout : p ∉ n :: l₂ := (List.nodup_cons.mp (chain_nodup hchain)).1
    refine ⟨rfl, ?_⟩
    rw [Function.update_self]
    exact chain_update h (fun hm => hout (List.mem_cons_of_mem n hm)) (next n)
  | cons m l₁ ih =>
    have hm : m ≠ p := by
      have hout := (List.nodup_cons.mp (chain_nodup h)).1
      rintro rfl
      exact hout (by simp)
    refine ⟨h.1, ?_⟩
    rw [Function.update_of_ne hm]
    exact ih h.2

theorem chain_unlink (h : Chain next head (l₁ ++ n :: l₂)) :
    Chain (unlink next head l₁.getLast? n).1 (unlink next head l₁.getLast? n).2 (l₁ ++ l₂) := by
  rcases List.eq_nil_or_concat l₁ with rfl | ⟨l, p, rfl⟩
  · exact h.2
  · rw [List.concat_eq_append, List.append_assoc, List.singleton_append] at h
    rw [List.concat_eq_append, List.getLast?_concat, List.append_assoc, List.singleton_append]
    exact chain_skip h

/-- Unlinking changes no successor off the chain. -/
theorem unlink_other {m : ν} (hm : m ∉ l₁) : (unlink next head l₁.getLast? n).1 m = next m := by
  rcases List.eq_nil_or_concat l₁ with rfl | ⟨l, p, rfl⟩
  · rfl
  · rw [List.concat_eq_append, List.getLast?_concat]
    refine Function.update_of_ne ?_ _ _
    rintro rfl
    exact hm (by simp)

end Update

/-- A chain only depends on the successors of its own nodes. -/
theorem chain_congr {next' : ν → Option ν} (h : Chain next head l) (heq : ∀ m ∈ l, next' m = next m) :
    Chain next' head l := by
  induction l generalizing head with
  | nil => exact h
  | cons m l ih =>
    refine ⟨h.1, ?_⟩
    rw [heq m List.mem_cons_self]
    exact ih h.2 (fun k hk => heq k (List.mem_cons_of_mem m hk))

end LinkedChain
