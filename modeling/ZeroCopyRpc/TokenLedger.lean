import Mathlib.Data.Nat.Notation

/-!
# Tokens for a log reader that starts late

A log grows by one entry at a time, and after each entry a notifier makes a
pass over the readers it knows. It gives each reader it meets one token, unless
the reader is marked as leaving; before the first token it fixes the reader's
start at the newest entry. A token is counted first, then the start is stored,
then it is released, and only then can the reader take it.

A ledger is one reader's account. The invariant balances it: no token is ever
given for an entry that is not there, and the start is not later than the first
entry that came after the reader entered.
-/
namespace TokenLedger

/-- Where the notifier's current pass stands with this reader. -/
inductive Stage where
  | passed | due | checked | storing | releasing
  deriving DecidableEq, Repr

structure Ledger where
  published : Nat
  entered : Nat
  present : Bool
  marked : Bool
  start : Nat
  notified : Nat
  count : Nat
  taken : Nat
  stage : Stage
  deriving DecidableEq, Repr

/-- The pass has yet to count this reader's token. -/
def Stage.ahead : Stage → Nat
  | .due | .checked => 1
  | _ => 0

/-- The reader's token is counted and not released. -/
def Stage.held : Stage → Nat
  | .storing | .releasing => 1
  | _ => 0

structure Balanced (l : Ledger) : Prop where
  tokens : l.notified = l.count + l.taken + l.stage.held
  fresh : l.present = true → l.notified = 0 → l.marked = false ∨ l.stage = .checked →
    l.published ≤ l.entered + l.stage.ahead
  started : 0 < l.notified → l.stage ≠ .storing →
    l.start + l.notified + l.stage.ahead ≤ l.published ∧ l.start ≤ l.entered
  storing : l.stage = .storing → l.notified = 1 ∧ l.published ≤ l.entered + 1
  going : l.stage = .due ∨ l.stage = .checked ∨ l.stage = .storing → 1 ≤ l.published

variable {l : Ledger}

/-- A reader that has just entered. -/
theorem balanced_new {published start : Nat} {present marked : Bool} {stage : Stage}
    (h : stage = .passed ∨ stage = .due ∧ 1 ≤ published) :
    Balanced ⟨published, published, present, marked, start, 0, 0, 0, stage⟩ := by
  rcases h with rfl | ⟨rfl, h⟩
  · constructor <;> simp [Stage.ahead, Stage.held]
  · constructor <;> simp [Stage.ahead, Stage.held]
    exact h

/-- A new entry: the next pass will meet the readers that are present. -/
theorem balanced_publish (h : Balanced l) (hs : l.stage = .passed) {stage : Stage}
    (hstage : stage = if l.present then .due else .passed) :
    Balanced { l with published := l.published + 1, stage := stage } := by
  subst hstage
  obtain ⟨tokens, fresh, started, storing, going⟩ := h
  rw [hs] at tokens fresh started
  cases hp : l.present with
  | true =>
    rw [hp] at fresh
    constructor <;> simp [Stage.ahead, Stage.held] at *
    · exact tokens
    · intro hn hm
      have := fresh hn hm
      omega
    · intro hn
      have := started hn
      omega
  | false =>
    constructor <;> simp [Stage.ahead, Stage.held] at *
    · exact tokens
    · intro hn
      have := started hn
      omega

/-- The pass leaves out a reader that is marked. -/
theorem balanced_skip (h : Balanced l) (hs : l.stage = .due) (hm : l.marked = true) :
    Balanced { l with stage := .passed } := by
  obtain ⟨tokens, fresh, started, storing, going⟩ := h
  rw [hs] at tokens fresh started
  constructor <;> simp [Stage.ahead, Stage.held, hm] at *
  · exact tokens
  · intro hn
    have := started hn
    omega

theorem balanced_check (h : Balanced l) (hs : l.stage = .due) (hm : l.marked = false) :
    Balanced { l with stage := .checked } := by
  obtain ⟨tokens, fresh, started, storing, going⟩ := h
  rw [hs] at tokens fresh started going
  constructor <;> simp [Stage.ahead, Stage.held, hm] at *
  · exact tokens
  · exact fresh
  · exact started
  · exact going

/-- The token is counted; the first one still lacks the start. -/
theorem balanced_count (h : Balanced l) (hs : l.stage = .checked) (hp : l.present = true) {stage : Stage}
    (hstage : stage = if l.notified = 0 then .storing else .releasing) :
    Balanced { l with notified := l.notified + 1, stage := stage } := by
  subst hstage
  obtain ⟨tokens, fresh, started, storing, going⟩ := h
  rw [hs] at tokens fresh started going
  by_cases hn : l.notified = 0
  · constructor <;> simp [Stage.ahead, Stage.held, hn, hp] at *
    · omega
    · exact fresh
    · exact going
  · have hstarted := started (Nat.pos_of_ne_zero hn) (by decide)
    simp only [Stage.ahead] at hstarted
    constructor <;> simp [Stage.held, Stage.ahead, hn]
    · simpa [Stage.held] using tokens
    · omega

/-- The start is fixed at the newest entry. -/
theorem balanced_store (h : Balanced l) (hs : l.stage = .storing) :
    Balanced { l with start := l.published - 1, stage := .releasing } := by
  obtain ⟨tokens, fresh, started, storing, going⟩ := h
  obtain ⟨hone, hentered⟩ := storing hs
  have hpos := going (Or.inr (Or.inr hs))
  rw [hs] at tokens
  constructor <;> simp [Stage.ahead, Stage.held, hone] at *
  · omega
  · omega

theorem balanced_release (h : Balanced l) (hs : l.stage = .releasing) :
    Balanced { l with count := l.count + 1, stage := .passed } := by
  obtain ⟨tokens, fresh, started, storing, going⟩ := h
  rw [hs] at tokens fresh started
  constructor <;> simp [Stage.ahead, Stage.held] at *
  · omega
  · intro _ hn
    omega
  · exact started

/-- Marking a reader takes duties away only. -/
theorem balanced_mark (h : Balanced l) : Balanced { l with marked := true } := by
  obtain ⟨tokens, fresh, started, storing, going⟩ := h
  refine ⟨tokens, ?_, started, storing, going⟩
  intro hp hn hm
  rcases hm with hm | hm
  · cases hm
  · exact fresh hp hn (Or.inr hm)

/-- A reader that is gone is never met again. -/
theorem balanced_leave (h : Balanced l) (marked : Bool) : Balanced { l with present := false, marked := marked } := by
  obtain ⟨tokens, fresh, started, storing, going⟩ := h
  refine ⟨tokens, ?_, started, storing, going⟩
  intro hp
  cases hp

/-- A reader whose account is opened again between two passes. -/
theorem balanced_again (h : Balanced l) (hs : l.stage = .passed) (present : Bool) :
    Balanced { l with entered := l.published, present := present } := by
  obtain ⟨tokens, fresh, started, storing, going⟩ := h
  refine ⟨tokens, fun _ _ _ => Nat.le_add_right _ _, fun hn hstage => ?_, ?_, going⟩
  · have := (started hn hstage).1
    exact ⟨this, by simp only; omega⟩
  · intro hstage
    simp only [hs] at hstage
    cases hstage

theorem balanced_take (h : Balanced l) (hc : 0 < l.count) :
    Balanced { l with count := l.count - 1, taken := l.taken + 1 } := by
  obtain ⟨tokens, fresh, started, storing, going⟩ := h
  refine ⟨?_, fresh, started, storing, going⟩
  simp only
  omega

/-- What the notifier and the reader can do to one account in a step. -/
inductive Move : Ledger → Ledger → Prop where
  | stay (l : Ledger) : Move l l
  | publish {l : Ledger} (hs : l.stage = .passed) :
      Move l { l with published := l.published + 1, stage := if l.present then .due else .passed }
  | skip {l : Ledger} (hs : l.stage = .due) (hm : l.marked = true) : Move l { l with stage := .passed }
  | check {l : Ledger} (hs : l.stage = .due) (hm : l.marked = false) : Move l { l with stage := .checked }
  | count {l : Ledger} (hs : l.stage = .checked) (hp : l.present = true) :
      Move l { l with notified := l.notified + 1, stage := if l.notified = 0 then .storing else .releasing }
  | store {l : Ledger} (hs : l.stage = .storing) : Move l { l with start := l.published - 1, stage := .releasing }
  | release {l : Ledger} (hs : l.stage = .releasing) : Move l { l with count := l.count + 1, stage := .passed }
  | mark (l : Ledger) : Move l { l with marked := true }
  | leave (l : Ledger) (marked : Bool) : Move l { l with present := false, marked := marked }
  | take {l : Ledger} (hc : 0 < l.count) : Move l { l with count := l.count - 1, taken := l.taken + 1 }

theorem balanced_move {l' : Ledger} (h : Balanced l) (hm : Move l l') : Balanced l' := by
  cases hm with
  | stay => exact h
  | publish hs => exact balanced_publish h hs rfl
  | skip hs hm => exact balanced_skip h hs hm
  | check hs hm => exact balanced_check h hs hm
  | count hs hp => exact balanced_count h hs hp rfl
  | store hs => exact balanced_store h hs
  | release hs => exact balanced_release h hs
  | mark => exact balanced_mark h
  | leave marked => exact balanced_leave h marked
  | take hc => exact balanced_take h hc

/-- The start changes only when it is stored. -/
theorem start_move {l' : Ledger} (hm : Move l l') :
    l'.start = l.start ∨ l.stage = .storing ∧ l'.taken = l.taken := by
  cases hm with
  | store hs => exact Or.inr ⟨hs, rfl⟩
  | _ => exact Or.inl rfl

/-- A token taken is covered by an entry from the start on, and the start is
not later than the log was long when the reader entered. -/
theorem taken_covered (h : Balanced l) (ht : 0 < l.taken) :
    l.start + l.taken ≤ l.published ∧ l.start ≤ l.entered := by
  obtain ⟨tokens, fresh, started, storing, going⟩ := h
  have hs : l.stage ≠ .storing := by
    intro hs
    have := (storing hs).1
    rw [hs] at tokens
    simp only [Stage.held] at tokens
    omega
  have := started (by omega) hs
  omega

/-- While the start is not yet stored no token has been taken. -/
theorem untaken_of_storing (h : Balanced l) (hs : l.stage = .storing) : l.taken = 0 := by
  have htokens := h.tokens
  have hone := (h.storing hs).1
  rw [hs] at htokens
  simp only [Stage.held] at htokens
  omega

/-- The tokens counted never outnumber the entries. -/
theorem notified_le (h : Balanced l) : l.notified ≤ l.published := by
  by_cases hs : l.stage = .storing
  · have := (h.storing hs).1
    have := h.going (Or.inr (Or.inr hs))
    omega
  · rcases Nat.eq_zero_or_pos l.notified with hn | hn
    · omega
    · have := (h.started hn hs).1
      omega

/-- A reader that is here to stay has had a token for every entry since its start,
but for the one the current pass still owes it. -/
def Level (l : Ledger) : Prop :=
  l.present = true → l.marked = false → 0 < l.notified → l.stage ≠ .storing →
    l.start + l.notified + l.stage.ahead = l.published

theorem level_move {l' : Ledger} (hb : Balanced l) (h : Level l) (hm : Move l l') : Level l' := by
  intro hpresent hmarked hnotified hstage
  cases hm with
  | stay => exact h hpresent hmarked hnotified hstage
  | publish hs =>
    have := h hpresent hmarked hnotified (by simp [hs])
    simp only at hpresent
    simp only [hs, hpresent, Stage.ahead, ↓reduceIte] at this ⊢
    omega
  | skip hs hm =>
    rw [hm] at hmarked
    cases hmarked
  | check hs hm =>
    have := h hpresent hmarked hnotified (by simp [hs])
    simpa only [hs, Stage.ahead] using this
  | count hs hp =>
    by_cases hz : l.notified = 0
    · simp [hz] at hstage
    · have := h hpresent hmarked (Nat.pos_of_ne_zero hz) (by simp [hs])
      simp only [hs, hz, Stage.ahead, ↓reduceIte] at this ⊢
      omega
  | store hs =>
    have hone := (hb.storing hs).1
    have hpos := hb.going (Or.inr (Or.inr hs))
    simp only [hone, Stage.ahead]
    omega
  | release hs =>
    have := h hpresent hmarked hnotified (by simp [hs])
    simpa only [hs, Stage.ahead] using this
  | mark => cases hmarked
  | leave marked => cases hpresent
  | take hc => exact h hpresent hmarked hnotified hstage

end TokenLedger
