import Mathlib.Logic.Function.Basic

/-!
# Named semaphores of the operating system

A name leads to a semaphore object until it is unlinked. Whoever has opened the
object keeps it, and opening the name again then makes a new object.
-/

structure Semaphores (κ : Type) where
  names : κ → Option Nat
  count : Nat → Nat
  created : Nat

namespace Semaphores

variable {κ : Type} [DecidableEq κ]

/-- A system in which no name is taken. -/
def fresh : Semaphores κ := ⟨fun _ => none, fun _ => 0, 0⟩

def openOrCreate (s : Semaphores κ) (name : κ) (initialCount : Nat) : Nat × Semaphores κ :=
  match s.names name with
  | some object => (object, s)
  | none => (s.created, {
      names := Function.update s.names name (some s.created)
      count := Function.update s.count s.created initialCount
      created := s.created + 1 })

def remove (s : Semaphores κ) (name : κ) : Semaphores κ := { s with names := Function.update s.names name none }

def release (s : Semaphores κ) (object : Nat) : Semaphores κ :=
  { s with count := Function.update s.count object (s.count object + 1) }

def tryAcquire (s : Semaphores κ) (object : Nat) : Bool × Semaphores κ :=
  if 0 < s.count object then (true, { s with count := Function.update s.count object (s.count object - 1) })
  else (false, s)

variable {s t : Semaphores κ} {name : κ}

/-- Names lead to different objects, all of them created. -/
def Distinct (s : Semaphores κ) : Prop :=
  ∀ k o, s.names k = some o → o < s.created ∧ ∀ k', s.names k' = some o → k = k'

theorem openOrCreate_self (s : Semaphores κ) (name : κ) (initialCount : Nat) :
    (s.openOrCreate name initialCount).2.names name = some (s.openOrCreate name initialCount).1 := by
  unfold openOrCreate
  split
  · rename_i h
    exact h
  · exact Function.update_self _ _ _

theorem openOrCreate_other (s : Semaphores κ) (initialCount : Nat) {k : κ} (hk : k ≠ name) :
    (s.openOrCreate name initialCount).2.names k = s.names k := by
  unfold openOrCreate
  split
  · rfl
  · exact Function.update_of_ne hk _ _

theorem remove_other (s : Semaphores κ) {k : κ} (hk : k ≠ name) : (s.remove name).names k = s.names k :=
  Function.update_of_ne hk _ _

theorem remove_le {k : κ} {o : Nat} (h : (s.remove name).names k = some o) : k ≠ name ∧ s.names k = some o := by
  have hk : k ≠ name := by
    rintro rfl
    simp [remove] at h
  exact ⟨hk, by rwa [remove_other s hk] at h⟩

theorem distinct_remove (h : s.Distinct) (name : κ) : (s.remove name).Distinct := by
  intro k o ho
  obtain ⟨hlt, heq⟩ := h k o (remove_le ho).2
  exact ⟨hlt, fun k' ho' => heq k' (remove_le ho').2⟩

theorem distinct_openOrCreate (h : s.Distinct) (name : κ) (initialCount : Nat) :
    (s.openOrCreate name initialCount).2.Distinct := by
  unfold openOrCreate
  split
  · exact h
  · have hcase : ∀ k o, Function.update s.names name (some s.created) k = some o →
        k = name ∧ o = s.created ∨ s.names k = some o ∧ o < s.created := by
      intro k o ho
      by_cases hk : k = name
      · subst hk
        rw [Function.update_self, Option.some.injEq] at ho
        exact Or.inl ⟨rfl, ho.symm⟩
      · rw [Function.update_of_ne hk] at ho
        exact Or.inr ⟨ho, (h k o ho).1⟩
    intro k o ho
    rcases hcase k o ho with ⟨rfl, rfl⟩ | ⟨hold, hlt⟩
    · refine ⟨Nat.lt_succ_self _, fun k' ho' => ?_⟩
      rcases hcase k' _ ho' with ⟨rfl, -⟩ | ⟨-, hlt⟩
      · rfl
      · exact absurd hlt (Nat.lt_irrefl _)
    · refine ⟨Nat.lt_succ_of_lt hlt, fun k' ho' => ?_⟩
      rcases hcase k' o ho' with ⟨-, rfl⟩ | ⟨hold', -⟩
      · exact absurd hlt (Nat.lt_irrefl _)
      · exact (h k o hold).2 k' hold'

/-- Open a name that is to be kept, and unlink one that is not. -/
def tend (keep : κ → Bool) (s : Semaphores κ) (name : κ) : Semaphores κ :=
  if keep name then (s.openOrCreate name 0).2 else s.remove name

/-- What tending to some names leaves of the semaphores: the objects keep their
counts, and a name that is kept leads to its object or to a new one. -/
structure Tended (keep : κ → Bool) (s t : Semaphores κ) (names : List κ) : Prop where
  distinct : t.Distinct
  created : s.created ≤ t.created
  count : ∀ o < s.created, t.count o = s.count o
  other : ∀ k ∉ names, t.names k = s.names k
  kept : ∀ k ∈ names, keep k = true → ∃ o, t.names k = some o ∧
    (s.names k = some o ∨ s.names k = none ∧ t.count o = 0)
  unlinked : ∀ k ∈ names, keep k = false → t.names k = none

omit [DecidableEq κ] in
theorem tended_nil (keep : κ → Bool) (h : s.Distinct) : Tended keep s s [] :=
  ⟨h, Nat.le_refl _, fun _ _ => rfl, fun _ _ => rfl, fun _ hk => (List.not_mem_nil hk).elim,
    fun _ hk => (List.not_mem_nil hk).elim⟩

theorem tend_other (keep : κ → Bool) (s : Semaphores κ) {k : κ} (hk : k ≠ name) :
    (s.tend keep name).names k = s.names k := by
  unfold tend
  split
  · exact openOrCreate_other s 0 hk
  · exact remove_other s hk

/-- Opening a name touches no object there is. -/
theorem openOrCreate_count (s : Semaphores κ) (name : κ) {o : Nat} (ho : o < s.created) :
    (s.openOrCreate name 0).2.count o = s.count o := by
  unfold openOrCreate
  split
  · rfl
  · exact Function.update_of_ne (Nat.ne_of_lt ho) _ _

theorem openOrCreate_created (s : Semaphores κ) (name : κ) : s.created ≤ (s.openOrCreate name 0).2.created := by
  unfold openOrCreate
  split
  · exact Nat.le_refl _
  · exact Nat.le_succ _

/-- An object opened by a name that led nowhere is new. -/
theorem openOrCreate_fresh (h : s.names name = none) :
    (s.openOrCreate name 0).2.names name = some s.created ∧ (s.openOrCreate name 0).2.count s.created = 0 := by
  simp [openOrCreate, h]

theorem tend_count (keep : κ → Bool) (s : Semaphores κ) (name : κ) {o : Nat} (ho : o < s.created) :
    (s.tend keep name).count o = s.count o := by
  unfold tend
  split
  · exact openOrCreate_count s name ho
  · rfl

theorem tended_append {keep : κ → Bool} {names : List κ} (h : Tended keep s t names) (hname : name ∉ names) :
    Tended keep s (t.tend keep name) (names ++ [name]) := by
  have hne : ∀ k ∈ names, k ≠ name := by
    rintro k hk rfl
    exact hname hk
  have hsame := h.other name hname
  constructor
  · unfold tend
    split
    · exact distinct_openOrCreate h.distinct name 0
    · exact distinct_remove h.distinct name
  · refine Nat.le_trans h.created ?_
    unfold tend
    split
    · exact openOrCreate_created t name
    · exact Nat.le_refl _
  · intro o ho
    rw [tend_count keep t name (Nat.lt_of_lt_of_le ho h.created)]
    exact h.count o ho
  · intro k hk
    rw [List.mem_append, List.mem_singleton, not_or] at hk
    rw [tend_other keep t hk.2]
    exact h.other k hk.1
  · intro k hk hkeep
    rw [List.mem_append, List.mem_singleton] at hk
    rcases hk with hk | rfl
    · obtain ⟨o, ho, hold⟩ := h.kept k hk hkeep
      rw [tend_other keep t (hne k hk)]
      refine ⟨o, ho, hold.imp_right fun hnew => ⟨hnew.1, ?_⟩⟩
      rw [tend_count keep t name (h.distinct k o ho).1]
      exact hnew.2
    · rw [tend, if_pos hkeep]
      cases hk : t.names k with
      | some o => exact ⟨o, by simp [openOrCreate, hk], Or.inl (hsame ▸ hk)⟩
      | none => exact ⟨t.created, (openOrCreate_fresh hk).1, Or.inr ⟨hsame ▸ hk, (openOrCreate_fresh hk).2⟩⟩
  · intro k hk hkeep
    rw [List.mem_append, List.mem_singleton] at hk
    rcases hk with hk | rfl
    · rw [tend_other keep t (hne k hk)]
      exact h.unlinked k hk hkeep
    · rw [tend, hkeep]
      simp [remove]

end Semaphores
