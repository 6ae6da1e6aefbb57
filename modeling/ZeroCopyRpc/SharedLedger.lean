import Mathlib.Algebra.Order.BigOperators.Group.Finset
import Mathlib.Data.Fintype.BigOperators
import Mathlib.Tactic.Ring
import ZeroCopyRpc.TokenLedger

/-!
# Tokens from several notifiers

Several notifiers share one log and one account for each reader. Each makes its
own passes, and a pass sees the account with the stage it has reached itself;
so a step of one notifier is a move of its view, and the stages of the others
stay where they are.

The account stays covered as long as only one pass at a time is about to give a
reader its first token: the start is fixed at the newest entry, and a second
pass that was already under way would give a token for no entry.
-/
namespace SharedLedger

open TokenLedger

variable {τ : Type} [Fintype τ]

/-- The tokens that the passes under way have yet to count. -/
def ahead (stages : τ → Stage) : Nat := ∑ t, (stages t).ahead

/-- The tokens counted and not released. -/
def held (stages : τ → Stage) : Nat := ∑ t, (stages t).held

/-- The account of one reader; the stage in `l` itself says nothing. -/
structure Shared (l : Ledger) (stages : τ → Stage) : Prop where
  unmarked : l.marked = false
  present : ∀ t, stages t ≠ .passed → l.present = true ∧ 1 ≤ l.published
  tokens : l.notified = l.count + l.taken + held stages
  fresh : l.present = true → l.notified = 0 →
    (∀ t u, stages t ≠ .passed → stages u ≠ .passed → t = u) ∧ l.published ≤ l.entered + ahead stages
  started : 0 < l.notified → (∀ t, stages t ≠ .storing) →
    l.start + l.notified + ahead stages ≤ l.published ∧ l.start ≤ l.entered
  storing : ∀ t, stages t = .storing →
    l.notified = 1 ∧ (∀ u, u ≠ t → stages u = .passed) ∧ l.published ≤ l.entered + 1

variable {l l' : Ledger} {stages : τ → Stage} {t : τ} {x : Stage}

/-- A pass alone with a reader is all there is ahead of it. -/
theorem ahead_alone (h : ∀ u, u ≠ t → stages u = .passed) : ahead stages = (stages t).ahead :=
  Fintype.sum_eq_single t fun u hu => by rw [h u hu]; rfl

/-- A reader that has just entered, while at most one pass has not begun. -/
theorem shared_new {published start : Nat} {present : Bool} {s : Stage}
    (hstage : ∀ t, stages t ≠ .passed → stages t = .due ∧ present = true ∧ 1 ≤ published)
    (halone : ∀ t u, stages t ≠ .passed → stages u ≠ .passed → t = u) :
    Shared ⟨published, published, present, false, start, 0, 0, 0, s⟩ stages := by
  have hheld : held stages = 0 := by
    refine Finset.sum_eq_zero fun t _ => ?_
    by_cases hp : stages t = .passed
    · rw [hp]
      rfl
    · rw [(hstage t hp).1]
      rfl
  refine ⟨rfl, fun t ht => (hstage t ht).2, by simp only [hheld], fun _ _ => ⟨halone, Nat.le_add_right _ _⟩,
    fun h => absurd h (Nat.lt_irrefl 0), fun t ht => ?_⟩
  have hp : stages t ≠ .passed := by simp [ht]
  rw [(hstage t hp).1] at ht
  cases ht

/-- The account does not depend on whose view it is seen in. -/
theorem Shared.view (h : Shared l stages) (s : Stage) : Shared { l with stage := s } stages :=
  ⟨h.unmarked, h.present, h.tokens, h.fresh, h.started, h.storing⟩

theorem shared_take (h : Shared l stages) (hc : 0 < l.count) :
    Shared { l with count := l.count - 1, taken := l.taken + 1 } stages := by
  refine ⟨h.unmarked, h.present, ?_, h.fresh, h.started, h.storing⟩
  have := h.tokens
  simp only
  omega

/-- While a start is not yet stored no token has been taken. -/
theorem untaken_of_storing (h : Shared l stages) (ht : stages t = .storing) : l.taken = 0 := by
  have htokens := h.tokens
  have hone := (h.storing t ht).1
  have hle : (stages t).held ≤ held stages :=
    Finset.single_le_sum (f := fun u => (stages u).held) (fun _ _ => Nat.zero_le _) (Finset.mem_univ t)
  simp only [ht, Stage.held] at hle
  omega

/-- A token taken is covered by an entry from the start on. -/
theorem taken_covered (h : Shared l stages) (ht : 0 < l.taken) :
    l.start + l.taken ≤ l.published ∧ l.start ≤ l.entered := by
  have htokens := h.tokens
  have hnone : ∀ t, stages t ≠ .storing := by
    intro t hs
    have := untaken_of_storing h hs
    omega
  have := h.started (by omega) hnone
  omega

/-- The tokens counted never outnumber the entries. -/
theorem notified_le (h : Shared l stages) : l.notified ≤ l.published := by
  by_cases hs : ∃ t, stages t = .storing
  · obtain ⟨t, ht⟩ := hs
    have hone := (h.storing t ht).1
    have hpos := (h.present t (by simp [ht])).2
    omega
  · rcases Nat.eq_zero_or_pos l.notified with hn | hn
    · omega
    · have := (h.started hn fun t ht => hs ⟨t, ht⟩).1
      omega

section Update

variable [DecidableEq τ]

theorem sum_update (f : Stage → Nat) (stages : τ → Stage) (t : τ) (x : Stage) :
    ∑ u, f (Function.update stages t x u) + f (stages t) = ∑ u, f (stages u) + f x := by
  have hsame : ∑ u ∈ Finset.univ.erase t, f (Function.update stages t x u) =
      ∑ u ∈ Finset.univ.erase t, f (stages u) := by
    refine Finset.sum_congr rfl fun u hu => ?_
    rw [Function.update_of_ne (Finset.ne_of_mem_erase hu)]
  rw [← Finset.add_sum_erase Finset.univ _ (Finset.mem_univ t), hsame, Function.update_self,
    ← Finset.add_sum_erase Finset.univ (fun u => f (stages u)) (Finset.mem_univ t)]
  ring

theorem ahead_update (stages : τ → Stage) (t : τ) (x : Stage) :
    ahead (Function.update stages t x) + (stages t).ahead = ahead stages + x.ahead := sum_update Stage.ahead stages t x

theorem held_update (stages : τ → Stage) (t : τ) (x : Stage) :
    held (Function.update stages t x) + (stages t).held = held stages + x.held := sum_update Stage.held stages t x

/-- A pass that goes on without counting or releasing. -/
theorem shared_stage (h : Shared l stages) (ht : stages t ≠ .passed) (hx : x ≠ .storing)
    (hstoring : stages t ≠ .storing) (hahead : x.ahead = (stages t).ahead) (hheld : x.held = (stages t).held) :
    Shared l (Function.update stages t x) := by
  have ha := ahead_update stages t x
  have hh := held_update stages t x
  have hother : ∀ u, Function.update stages t x u ≠ .passed → stages u ≠ .passed := by
    intro u hu
    by_cases hut : u = t
    · exact hut ▸ ht
    · rwa [Function.update_of_ne hut] at hu
  have hsame : ∀ u, Function.update stages t x u = .storing ↔ stages u = .storing := by
    intro u
    by_cases hut : u = t
    · rw [hut, Function.update_self]
      exact ⟨fun he => absurd he hx, fun he => absurd he hstoring⟩
    · rw [Function.update_of_ne hut]
  refine ⟨h.unmarked, fun u hu => h.present u (hother u hu), ?_, fun hp hn => ?_, fun hn hs => ?_, fun u hu => ?_⟩
  · rw [h.tokens]
    omega
  · obtain ⟨halone, hle⟩ := h.fresh hp hn
    exact ⟨fun u v hu hv => halone u v (hother u hu) (hother v hv), by omega⟩
  · have := h.started hn fun u hu => hs u ((hsame u).mpr hu)
    omega
  · have hpassed := (h.storing u ((hsame u).mp hu)).2.1 t
    by_cases hut : t = u
    · rw [hut, Function.update_self] at hu
      exact absurd hu hx
    · exact absurd (hpassed hut) ht

/-- A new entry. A reader without a start must not be owed a visit by another pass. -/
theorem shared_publish (h : Shared l stages) (ht : stages t = .passed)
    (hfresh : l.present = true → l.notified = 0 ∨ (∃ u, stages u = .storing) → ∀ u, stages u = .passed) :
    Shared { l with published := l.published + 1 }
      (Function.update stages t (if l.present then .due else .passed)) := by
  by_cases hp : l.present = true
  · rw [if_pos hp]
    have ha := ahead_update stages t .due
    have hh := held_update stages t .due
    simp only [ht, Stage.ahead, Stage.held] at ha hh
    have hold : ∀ u, Function.update stages t .due u = .storing → stages u = .storing := by
      intro u hu
      by_cases hut : u = t
      · rw [hut, Function.update_self] at hu
        cases hu
      · rwa [Function.update_of_ne hut] at hu
    refine ⟨h.unmarked, fun u _ => ⟨hp, Nat.le_add_left 1 _⟩, ?_, fun _ hn => ?_,
      fun hn hs => ?_, fun u hu => ?_⟩
    · have := h.tokens
      simp only
      omega
    · have hpassed := hfresh hp (Or.inl hn)
      have honly : ∀ u, Function.update stages t .due u ≠ .passed → u = t := by
        intro u hu
        by_contra hut
        rw [Function.update_of_ne hut] at hu
        exact hu (hpassed u)
      refine ⟨fun u v hu hv => (honly u hu).trans (honly v hv).symm, ?_⟩
      have := (h.fresh hp hn).2
      simp only
      omega
    · have hsame : ∀ u, stages u ≠ .storing := by
        intro u hu
        have hut : u ≠ t := by
          rintro rfl
          rw [ht] at hu
          cases hu
        exact hs u (by rw [Function.update_of_ne hut]; exact hu)
      have := h.started hn hsame
      simp only
      omega
    · have hpassed := hfresh hp (Or.inr ⟨u, hold u hu⟩) u
      rw [hold u hu] at hpassed
      cases hpassed
  · have hpassed : ∀ u, stages u = .passed := by
      intro u
      by_contra hu
      exact hp (h.present u hu).1
    rw [if_neg hp, ← ht, Function.update_eq_self]
    refine ⟨h.unmarked, fun u hu => absurd (hpassed u) hu, h.tokens, fun hp' => absurd hp' hp, fun hn hs => ?_,
      fun u hu => ?_⟩
    · have := h.started hn hs
      simp only
      omega
    · rw [hpassed u] at hu
      cases hu

theorem shared_count (h : Shared l stages) (ht : stages t = .checked) :
    Shared { l with notified := l.notified + 1 }
      (Function.update stages t (if l.notified = 0 then .storing else .releasing)) := by
  have hpassed : stages t ≠ .passed := by simp [ht]
  obtain ⟨hpresent, hpos⟩ := h.present t hpassed
  by_cases hz : l.notified = 0
  · rw [if_pos hz]
    obtain ⟨halone, hle⟩ := h.fresh hpresent hz
    have hothers : ∀ u, u ≠ t → stages u = .passed := by
      intro u hu
      by_contra hne
      exact hu (halone u t hne hpassed)
    have ha := ahead_alone hothers
    have hh := held_update stages t .storing
    simp only [ht, Stage.ahead, Stage.held] at ha hh
    refine ⟨h.unmarked, fun _ _ => ⟨hpresent, hpos⟩, ?_, fun _ hn => ?_, fun _ hs => ?_, fun u hu => ?_⟩
    · have := h.tokens
      simp only
      omega
    · simp at hn
    · exact absurd (Function.update_self t _ stages) (hs t)
    · have hut : u = t := by
        by_contra hne
        rw [Function.update_of_ne hne, hothers u hne] at hu
        cases hu
      subst hut
      refine ⟨by simp only [hz], fun v hv => ?_, by simp only; omega⟩
      rw [Function.update_of_ne hv]
      exact hothers v hv
  · rw [if_neg hz]
    have ha := ahead_update stages t .releasing
    have hh := held_update stages t .releasing
    simp only [ht, Stage.ahead, Stage.held] at ha hh
    have hnone : ∀ u, stages u ≠ .storing := by
      intro u hu
      have hut : t ≠ u := by
        rintro rfl
        rw [ht] at hu
        cases hu
      exact hpassed ((h.storing u hu).2.1 t hut)
    refine ⟨h.unmarked, fun _ _ => ⟨hpresent, hpos⟩, ?_, fun _ hn => ?_, fun _ _ => ?_, fun u hu => ?_⟩
    · have := h.tokens
      simp only
      omega
    · simp at hn
    · have := h.started (Nat.pos_of_ne_zero hz) hnone
      simp only
      omega
    · by_cases hut : u = t
      · rw [hut, Function.update_self] at hu
        cases hu
      · rw [Function.update_of_ne hut] at hu
        exact absurd hu (hnone u)

/-- The start is fixed at the newest entry, and no pass is ahead of the reader. -/
theorem shared_store (h : Shared l stages) (ht : stages t = .storing) :
    Shared { l with start := l.published - 1 } (Function.update stages t .releasing) := by
  obtain ⟨hone, hothers, hle⟩ := h.storing t ht
  obtain ⟨hpresent, hpos⟩ := h.present t (by simp [ht])
  have ha := ahead_alone hothers
  have ha' := ahead_update stages t .releasing
  have hh := held_update stages t .releasing
  simp only [ht, Stage.ahead, Stage.held] at ha ha' hh
  refine ⟨h.unmarked, fun _ _ => ⟨hpresent, hpos⟩, ?_, fun _ hn => ?_, fun _ _ => ?_, fun u hu => ?_⟩
  · have := h.tokens
    simp only
    omega
  · simp only [hone] at hn
    cases hn
  · simp only [hone]
    omega
  · by_cases hut : u = t
    · rw [hut, Function.update_self] at hu
      cases hu
    · rw [Function.update_of_ne hut, hothers u hut] at hu
      cases hu

theorem shared_release (h : Shared l stages) (ht : stages t = .releasing) :
    Shared { l with count := l.count + 1 } (Function.update stages t .passed) := by
  have ha := ahead_update stages t .passed
  have hh := held_update stages t .passed
  simp only [ht, Stage.ahead, Stage.held] at ha hh
  have hother : ∀ u, Function.update stages t .passed u ≠ .passed → u ≠ t ∧ stages u ≠ .passed := by
    intro u hu
    by_cases hut : u = t
    · rw [hut, Function.update_self] at hu
      exact absurd rfl hu
    · rw [Function.update_of_ne hut] at hu
      exact ⟨hut, hu⟩
  have htokens := h.tokens
  refine ⟨h.unmarked, fun u hu => h.present u (hother u hu).2, ?_, fun _ hn => ?_, fun hn hs => ?_, fun u hu => ?_⟩
  · simp only
    omega
  · simp only at hn
    omega
  · have := h.started hn fun u hu => ?_
    · simp only
      omega
    · have hut : u ≠ t := by
        rintro rfl
        rw [ht] at hu
        cases hu
      exact hs u (by rw [Function.update_of_ne hut]; exact hu)
  · obtain ⟨hut, -⟩ := hother u (by simp [hu])
    rw [Function.update_of_ne hut] at hu
    have := (h.storing u hu).2.1 t (Ne.symm hut)
    rw [ht] at this
    cases this

/-- A move that one notifier makes in its view keeps the account, if a new entry
comes only when no reader without a start is owed a visit by another pass. -/
theorem shared_move (h : Shared l stages) (hl : l.stage = stages t) (hm : Move l l')
    (hkeep : l'.marked = false ∧ l'.present = l.present)
    (hfresh : l'.published ≠ l.published → l.present = true → l.notified = 0 ∨ (∃ u, stages u = .storing) →
      ∀ u, stages u = .passed) : Shared l' (Function.update stages t l'.stage) := by
  have hstay : Function.update stages t l.stage = stages := by rw [hl, Function.update_eq_self]
  cases hm with
  | stay => rwa [hstay]
  | publish hs => exact (shared_publish h (hl ▸ hs) (hfresh (by simp))).view _
  | skip hs hm =>
    rw [h.unmarked] at hm
    cases hm
  | check hs hm =>
    rw [hl] at hs
    exact (shared_stage h (by simp [hs]) (by simp) (by simp [hs]) (by rw [hs]; rfl) (by rw [hs]; rfl)).view _
  | count hs hp => exact (shared_count h (hl ▸ hs)).view _
  | store hs => exact (shared_store h (hl ▸ hs)).view _
  | release hs => exact (shared_release h (hl ▸ hs)).view _
  | mark => cases hkeep.1
  | leave marked =>
    simp only [hstay]
    have hunmarked := h.unmarked
    obtain ⟨hmarked, hpresent⟩ := hkeep
    cases l
    simp only at hmarked hpresent hunmarked
    subst hmarked hpresent hunmarked
    exact h
  | take hc =>
    simp only [hstay]
    exact shared_take h hc

end Update

end SharedLedger
