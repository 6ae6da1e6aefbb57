import Mathlib.Algebra.GroupWithZero.Nat
import Mathlib.Data.List.Basic

/-!
# Runs of event-driven machines

A machine takes named events one after the other. An event either leads to a
state or cannot happen there, so a run is a list of events that all happen.
The invariant rules below package the induction over runs once: a property of
the start that every event preserves holds in every state a run visits. The
guarded variant asks for preservation only by the events that meet a guard, and
the budgeted one for preservation while a counter that the events raise stays
below a bound. A machine that takes every request and answers it has its own
rule, for two machines that give the same answers.
-/
namespace Transitions

variable {σ ε : Type}

/-- The successor state, or none where the event cannot happen. -/
abbrev Machine (σ ε : Type) := σ → ε → Option σ

def run (step : Machine σ ε) : σ → List ε → Option σ
  | s, [] => some s
  | s, e :: es => (step s e).bind (fun t => run step t es)

@[simp] theorem run_nil (step : Machine σ ε) (s : σ) : run step s [] = some s := rfl
@[simp] theorem run_cons (step : Machine σ ε) (s : σ) (e : ε) (es : List ε) :
    run step s (e :: es) = (step s e).bind (fun t => run step t es) := rfl

theorem run_append (step : Machine σ ε) (s : σ) (es fs : List ε) :
    run step s (es ++ fs) = (run step s es).bind (fun t => run step t fs) := by
  induction es generalizing s with
  | nil => rfl
  | cons e es ih =>
    simp only [List.cons_append, run_cons]
    cases step s e with
    | none => rfl
    | some t => exact ih t

theorem run_cons_some {step : Machine σ ε} {s u : σ} {e : ε} {es : List ε}
    (h : run step s (e :: es) = some u) : ∃ t, step s e = some t ∧ run step t es = some u := by
  rw [run_cons, Option.bind_eq_some_iff] at h
  exact h

/-- Two runs that meet in a state join to one run. -/
theorem run_join {step : Machine σ ε} {s t u : σ} {es fs : List ε}
    (h₁ : run step s es = some t) (h₂ : run step t fs = some u) :
    run step s (es ++ fs) = some u := by
  rw [run_append, h₁]
  exact h₂

theorem run_step {step : Machine σ ε} {s t : σ} {e : ε} (h : step s e = some t) :
    run step s [e] = some t := by
  simp [h]

/-- What every event preserves holds at the end of every run. -/
theorem run_invariant {step : Machine σ ε} {I : σ → Prop}
    (hstep : ∀ s e t, I s → step s e = some t → I t) {s u : σ} {es : List ε}
    (hs : I s) (h : run step s es = some u) : I u := by
  induction es generalizing s with
  | nil =>
    cases h
    exact hs
  | cons e es ih =>
    obtain ⟨t, ht, hu⟩ := run_cons_some h
    exact ih (hstep s e t hs ht) hu

/-- A machine seen through a view goes through the steps of a machine of its own, for the
events that concern it, where the others leave the view alone. -/
theorem run_project {τ : Type} {step : Machine σ ε} {inner : Machine τ ε} {v : σ → τ} {about : ε → Bool}
    (hown : ∀ s e t, about e = true → step s e = some t → inner (v s) e = some (v t))
    (hother : ∀ s e t, about e = false → step s e = some t → v t = v s) {s u : σ} {es : List ε}
    (h : run step s es = some u) : run inner (v s) (es.filter about) = some (v u) := by
  induction es generalizing s with
  | nil =>
    cases h
    rfl
  | cons e es ih =>
    obtain ⟨t, ht, hu⟩ := run_cons_some h
    cases habout : about e with
    | true =>
      rw [List.filter_cons_of_pos habout, run_cons, hown s e t habout ht]
      exact ih hu
    | false =>
      rw [List.filter_cons_of_neg (by simp [habout]), ← hother s e t habout ht]
      exact ih hu

/-- A state that some prefix of the run ends in. -/
def Visits (step : Machine σ ε) (s : σ) (es : List ε) (t : σ) : Prop :=
  ∃ pre suf, es = pre ++ suf ∧ run step s pre = some t

theorem visits_end {step : Machine σ ε} {s t : σ} {es : List ε} (h : run step s es = some t) :
    Visits step s es t :=
  ⟨es, [], by simp, h⟩

/-- Every event of the run that happens is taken where the guard allows it. -/
def Guarded (step : Machine σ ε) (G : σ → ε → Prop) (s : σ) (es : List ε) : Prop :=
  ∀ pre e suf t, es = pre ++ e :: suf → run step s pre = some t → G t e

theorem guarded_initial {step : Machine σ ε} {G : σ → ε → Prop} {s : σ} {es fs : List ε}
    (h : Guarded step G s (es ++ fs)) : Guarded step G s es := by
  intro pre e suf t he ht
  exact h pre e (suf ++ fs) t (by simp [he]) ht

theorem guarded_cons {step : Machine σ ε} {G : σ → ε → Prop} {s t : σ} {e : ε} {es : List ε}
    (h : Guarded step G s (e :: es)) (ht : step s e = some t) : Guarded step G t es := by
  intro pre f suf u he hu
  exact h (e :: pre) f suf u (by simp [he]) (by simp [ht, hu])

theorem guarded_head {step : Machine σ ε} {G : σ → ε → Prop} {s : σ} {e : ε} {es : List ε}
    (h : Guarded step G s (e :: es)) : G s e :=
  h [] e es s rfl rfl

theorem guarded_nil (step : Machine σ ε) (G : σ → ε → Prop) (s : σ) : Guarded step G s [] := by
  intro pre e suf t he
  simp at he

/-- A run that takes its first step inside the guard and goes on there. -/
theorem guarded_step {step : Machine σ ε} {G : σ → ε → Prop} {s t : σ} {e : ε} {es : List ε}
    (hg : G s e) (ht : step s e = some t) (h : Guarded step G t es) : Guarded step G s (e :: es) := by
  intro pre f suf u he hu
  cases pre with
  | nil =>
    simp only [List.nil_append, List.cons.injEq] at he
    cases hu
    exact he.1 ▸ hg
  | cons e' pre =>
    simp only [List.cons_append, List.cons.injEq] at he
    obtain ⟨rfl, he⟩ := he
    rw [run_cons, ht] at hu
    exact h pre f suf u he hu

/-- Follows a run and asks the guard at each event. -/
def check (step : Machine σ ε) (G : σ → ε → Prop) [∀ s e, Decidable (G s e)] : σ → List ε → Bool
  | _, [] => true
  | s, e :: es => decide (G s e) && (step s e).elim true (fun t => check step G t es)

theorem guarded_of_check {step : Machine σ ε} {G : σ → ε → Prop} [∀ s e, Decidable (G s e)] {s : σ}
    {es : List ε}
    (h : check step G s es = true) : Guarded step G s es := by
  induction es generalizing s with
  | nil => exact guarded_nil step G s
  | cons e es ih =>
    rw [check, Bool.and_eq_true, decide_eq_true_iff] at h
    intro pre f suf u he hu
    cases pre with
    | nil =>
      cases hu
      exact (List.cons.inj he).1 ▸ h.1
    | cons e' pre =>
      obtain ⟨rfl, htail⟩ := List.cons.inj he
      obtain ⟨t, ht, hrun⟩ := run_cons_some hu
      rw [ht] at h
      exact ih h.2 pre f suf u htail hrun

/-- The invariant rule for runs that stay inside the guard. -/
theorem guarded_invariant {step : Machine σ ε} {G : σ → ε → Prop} {I : σ → Prop}
    (hstep : ∀ s e t, I s → G s e → step s e = some t → I t) {s u : σ} {es : List ε}
    (hs : I s) (hg : Guarded step G s es) (h : run step s es = some u) : I u := by
  induction es generalizing s with
  | nil =>
    cases h
    exact hs
  | cons e es ih =>
    obtain ⟨t, ht, hu⟩ := run_cons_some h
    exact ih (hstep s e t hs (guarded_head hg) ht) (guarded_cons hg ht) hu

theorem guarded_visits {step : Machine σ ε} {G : σ → ε → Prop} {I : σ → Prop}
    (hstep : ∀ s e t, I s → G s e → step s e = some t → I t) {s u : σ} {es : List ε}
    (hs : I s) (hg : Guarded step G s es) (h : Visits step s es u) : I u := by
  obtain ⟨pre, suf, rfl, hu⟩ := h
  exact guarded_invariant hstep hs (guarded_initial hg) hu

/-- The rule for an invariant that needs a counter below a bound, on runs whose
events together do not raise it that far. -/
theorem guarded_budget {step : Machine σ ε} {G : σ → ε → Prop} {I : σ → Prop}
    (count : σ → Nat) (cost : ε → Nat)
    {bound : Nat} {s u : σ} {es : List ε} (hs : I s) (hg : Guarded step G s es) (h : run step s es = some u)
    (hcount : count s + (es.map cost).sum < bound)
    (hstep : ∀ s e t, I s → G s e → count s + cost e < bound → step s e = some t → I t ∧
      count t = count s + cost e) :
    I u ∧ count u = count s + (es.map cost).sum := by
  induction es generalizing s with
  | nil =>
    cases h
    exact ⟨hs, rfl⟩
  | cons e es ih =>
    obtain ⟨t, ht, hu⟩ := run_cons_some h
    rw [List.map_cons, List.sum_cons] at hcount ⊢
    obtain ⟨hinv, hnext⟩ := hstep s e t hs (guarded_head hg) (by omega) ht
    obtain ⟨hinv', hnext'⟩ := ih hinv (guarded_cons hg ht) hu (by omega)
    exact ⟨hinv', by omega⟩

theorem visits_budget {step : Machine σ ε} {G : σ → ε → Prop} {I : σ → Prop}
    (count : σ → Nat) (cost : ε → Nat)
    {bound : Nat} {s u : σ} {es : List ε} (hs : I s) (hg : Guarded step G s es) (h : Visits step s es u)
    (hcount : count s + (es.map cost).sum < bound)
    (hstep : ∀ s e t, I s → G s e → count s + cost e < bound → step s e = some t → I t ∧
      count t = count s + cost e) :
    I u ∧ count u < bound := by
  obtain ⟨pre, suf, rfl, hu⟩ := h
  rw [List.map_append, List.sum_append] at hcount
  obtain ⟨hinv, hnext⟩ := guarded_budget count cost hs (guarded_initial hg) hu (by omega) hstep
  exact ⟨hinv, by omega⟩

/-- Where a step reaches a good state just when its guard allows it, a run visits
good states only if and only if it stays inside the guard. -/
theorem visits_iff_guarded {step : Machine σ ε} {G : σ → ε → Prop} {I P : σ → Prop}
    (hgood : ∀ s, I s → P s)
    (hstep : ∀ s e t, I s → step s e = some t → (P t ↔ G s e))
    (hkeep : ∀ s e t, I s → G s e → step s e = some t → I t) {s u : σ} {es : List ε}
    (hs : I s) (h : run step s es = some u) : (∀ v, Visits step s es v → P v) ↔ Guarded step G s es := by
  constructor
  · intro hvisits
    induction es generalizing s with
    | nil => exact guarded_nil step G s
    | cons e es ih =>
      obtain ⟨t, ht, hu⟩ := run_cons_some h
      have hP : P t := hvisits t ⟨[e], es, rfl, run_step ht⟩
      have hG : G s e := (hstep s e t hs ht).mp hP
      refine guarded_step hG ht (ih (hkeep s e t hs hG ht) hu ?_)
      rintro v ⟨pre, suf, rfl, hv⟩
      exact hvisits v ⟨e :: pre, suf, rfl, by rw [run_cons, ht]; exact hv⟩
  · intro hguarded v hv
    exact hgood v (guarded_visits hkeep hs hguarded hv)

/-- Where a step keeps a property just when its guard allows it, and no step gives the
property back, a run ends with it if and only if the run stays inside the guard. -/
theorem end_iff_guarded {step : Machine σ ε} {G : σ → ε → Prop} {I P : σ → Prop}
    (hkeep : ∀ s e t, I s → step s e = some t → I t)
    (hstep : ∀ s e t, I s → P s → step s e = some t → (P t ↔ G s e))
    (hlost : ∀ s e t, I s → ¬ P s → step s e = some t → ¬ P t) {s u : σ} {es : List ε}
    (hI : I s) (hP : P s) (h : run step s es = some u) : P u ↔ Guarded step G s es := by
  induction es generalizing s with
  | nil =>
    cases h
    exact ⟨fun _ => guarded_nil step G _, fun _ => hP⟩
  | cons e es ih =>
    obtain ⟨t, ht, hu⟩ := run_cons_some h
    have hI' : I t := hkeep s e t hI ht
    have hone : P t ↔ G s e := hstep s e t hI hP ht
    by_cases hP' : P t
    · rw [ih hI' hP' hu]
      exact ⟨guarded_step (hone.mp hP') ht, fun hg => guarded_cons hg ht⟩
    · constructor
      · intro hend
        have hnever : I u ∧ ¬ P u :=
          run_invariant (I := fun v => I v ∧ ¬ P v)
            (fun v f v' hv hf => ⟨hkeep v f v' hv.1 hf, hlost v f v' hv.1 hv.2 hf⟩) ⟨hI', hP'⟩ hu
        exact absurd hend hnever.2
      · intro hg
        exact absurd (hone.mpr (guarded_head hg)) hP'

/-- Where some events lower a measure, runs of them are no longer than the measure at the start. -/
theorem run_measure {step : Machine σ ε} {G : ε → Prop} {I : σ → Prop} (measure : σ → Nat)
    (hkeep : ∀ s e t, I s → step s e = some t → I t)
    (hstep : ∀ s e t, I s → G e → step s e = some t → measure t < measure s) {s u : σ} {es : List ε}
    (hs : I s) (hes : ∀ e ∈ es, G e) (h : run step s es = some u) : measure u + es.length ≤ measure s := by
  induction es generalizing s with
  | nil =>
    cases h
    exact Nat.le_refl _
  | cons e es ih =>
    obtain ⟨t, ht, hu⟩ := run_cons_some h
    have hlt := hstep s e t hs (hes e List.mem_cons_self) ht
    have hrest := ih (hkeep s e t hs ht) (fun f hf => hes f (List.mem_cons_of_mem e hf)) hu
    rw [List.length_cons]
    omega

/-- Such events can be taken until none of them can happen. -/
theorem run_exhaust {step : Machine σ ε} {G : ε → Prop} {I : σ → Prop} (measure : σ → Nat)
    (hkeep : ∀ s e t, I s → step s e = some t → I t)
    (hstep : ∀ s e t, I s → G e → step s e = some t → measure t < measure s) {s : σ} (hs : I s) :
    ∃ es u, (∀ e ∈ es, G e) ∧ run step s es = some u ∧ ∀ e, G e → step u e = none := by
  induction hn : measure s using Nat.strongRecOn generalizing s with
  | ind n ih =>
    by_cases hend : ∀ e, G e → step s e = none
    · exact ⟨[], s, by simp, rfl, hend⟩
    · simp only [not_forall] at hend
      obtain ⟨e, hG, hsome⟩ := hend
      obtain ⟨t, ht⟩ := Option.ne_none_iff_exists'.mp hsome
      have hlt := hstep s e t hs hG ht
      obtain ⟨es, u, hes, hu, hquiet⟩ := ih (measure t) (hn ▸ hlt) (hkeep s e t hs ht) rfl
      refine ⟨e :: es, u, ?_, ?_, hquiet⟩
      · intro f hf
        rcases List.mem_cons.mp hf with rfl | hf
        · exact hG
        · exact hes f hf
      · rw [run_cons, ht]
        exact hu

section Answers

variable {τ ι ο : Type}

/-- Serve the requests in order and collect the answers. -/
def serve (f : σ → ι → ο × σ) : σ → List ι → List ο × σ
  | s, [] => ([], s)
  | s, i :: is =>
    let rest := serve f (f s i).2 is
    ((f s i).1 :: rest.1, rest.2)

/-- Related machines that answer each request alike and stay related answer
every list of requests alike. -/
theorem serve_refines {f : σ → ι → ο × σ} {g : τ → ι → ο × τ} {R : σ → τ → Prop}
    (hstep : ∀ s t i, R s t → (f s i).1 = (g t i).1 ∧ R (f s i).2 (g t i).2) {s : σ} {t : τ} (h : R s t)
    (is : List ι) : (serve f s is).1 = (serve g t is).1 ∧ R (serve f s is).2 (serve g t is).2 := by
  induction is generalizing s t with
  | nil => exact ⟨rfl, h⟩
  | cons i is ih =>
    obtain ⟨hanswer, hnext⟩ := hstep s t i h
    obtain ⟨hrest, hend⟩ := ih hnext
    refine ⟨?_, hend⟩
    simp only [serve, hanswer, hrest]

end Answers

end Transitions
