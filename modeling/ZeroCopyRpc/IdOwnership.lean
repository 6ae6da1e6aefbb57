import ZeroCopyRpc.IDPool
import ZeroCopyRpc.Ownership
import ZeroCopyRpc.Transitions

/-!
# Many threads on one id pool

Every load, store and compare-exchange of `rent` and `returns` is one step, and
the steps of any number of threads interleave freely.

`rent` reads the successor of the head before the compare-exchange that makes
it the new head. When the head has been taken and given back in between, its
successor may be another one by then, and a node that is held comes back into
the free list. As long as no such compare-exchange succeeds, every id is free,
or held by one thread, or in the middle of one call.
-/
namespace IdOwnership

open LinkedChain Ownership Transitions

/-- Where a thread stands inside a call. -/
inductive Pc where
  | idle
  | loading
  | reading (oldHead : Nat)
  | exchanging (oldHead : Nat) (next : Option Nat)
  | marking (id : Nat)
  | unmarking (id : Nat)
  | loadingBack (id : Nat)
  | linking (id : Nat) (oldHead : Option Nat)
  | publishing (id : Nat) (oldHead : Option Nat)
  deriving DecidableEq, Repr

structure World (τ : Type) where
  pool : IDPool
  pc : τ → Pc
  held : τ → List Nat

inductive Event (τ : Type) where
  | rent (thread : τ)
  | returns (thread : τ) (id : Nat)
  | advance (thread : τ) (weakFailure : Bool)

variable {τ : Type} [DecidableEq τ]

namespace World

def goto (w : World τ) (t : τ) (pc : Pc) : World τ := { w with pc := Function.update w.pc t pc }

def setHeld (w : World τ) (t : τ) (ids : List Nat) : World τ := { w with held := Function.update w.held t ids }

@[simp] theorem goto_pool (w : World τ) (t : τ) (pc : Pc) : (w.goto t pc).pool = w.pool := rfl
@[simp] theorem goto_same (w : World τ) (t : τ) (pc : Pc) : (w.goto t pc).pc t = pc := by simp [goto]
theorem goto_other (w : World τ) {t u : τ} (pc : Pc) (h : u ≠ t) : (w.goto t pc).pc u = w.pc u := by simp [goto, h]
end World

/-- The next atomic step of a call in progress. -/
def advance (w : World τ) (t : τ) (weakFailure : Bool) : Option (World τ) :=
  match w.pc t with
  | .idle => none
  | .loading =>
    match w.pool.head with
    | none => some (w.goto t .idle)
    | some oldHead => some (w.goto t (.reading oldHead))
  | .reading oldHead => some (w.goto t (.exchanging oldHead (w.pool.next oldHead)))
  | .exchanging oldHead next =>
    if w.pool.head = some oldHead then
      some ({ w with pool := { w.pool with head := next } }.goto t (.marking oldHead))
    else some (w.goto t .loading)
  | .marking id =>
    some (({ w with pool := { w.pool with inUse := Function.update w.pool.inUse id true } }.setHeld t
      (id :: w.held t)).goto t .idle)
  | .unmarking id =>
    -- the exception leaves the id with its holder
    if w.pool.inUse id then
      some (({ w with pool := { w.pool with inUse := Function.update w.pool.inUse id false } }.setHeld t
        ((w.held t).erase id)).goto t (.loadingBack id))
    else some (w.goto t .idle)
  | .loadingBack id => some (w.goto t (.linking id w.pool.head))
  | .linking id oldHead =>
    some ({ w with pool := { w.pool with next := Function.update w.pool.next id oldHead } }.goto t
      (.publishing id oldHead))
  | .publishing id oldHead =>
    if w.pool.head = oldHead ∧ weakFailure = false then
      some ({ w with pool := { w.pool with head := some id } }.goto t .idle)
    else some (w.goto t (.loadingBack id))

/-- A thread returns only an id that it holds. -/
def step : Machine (World τ) (Event τ)
  | w, .rent t => if w.pc t = .idle then some (w.goto t .loading) else none
  | w, .returns t id => if w.pc t = .idle ∧ id ∈ w.held t then some (w.goto t (.unmarking id)) else none
  | w, .advance t weakFailure => advance w t weakFailure

def start (size : Nat) : World τ := ⟨.new size, fun _ => .idle, fun _ => []⟩

/-- A compare-exchange of `rent` that succeeds finds the successor it has read. -/
def Fresh (w : World τ) : Event τ → Prop
  | .advance t _ => match w.pc t with
    | .exchanging oldHead next => w.pool.head = some oldHead → w.pool.next oldHead = next
    | _ => True
  | _ => True

/-- The id that a thread has taken and does not hold yet, or is giving back. -/
def Carries (pc : Pc) (i : Nat) : Prop :=
  match pc with
  | .marking id => id = i
  | .loadingBack id => id = i
  | .linking id _ => id = i
  | .publishing id _ => id = i
  | _ => False

def Owns (w : World τ) (t : τ) (i : Nat) : Prop := i ∈ w.held t ∨ Carries (w.pc t) i

structure Inv (w : World τ) (free : List Nat) : Prop where
  chain : w.pool.Free free
  shared : SharedOut w.pool.size free (Owns w)
  nodup : ∀ t, (w.held t).Nodup
  once : ∀ t i, i ∈ w.held t → ¬ Carries (w.pc t) i
  holder : ∀ t i, w.pc t = .unmarking i → i ∈ w.held t
  linked : ∀ t i h, w.pc t = .publishing i h → w.pool.next i = h

variable {w w' : World τ} {free : List Nat} {t : τ}

omit [DecidableEq τ] in
theorem inv_start (size : Nat) : Inv (start size : World τ) (List.range size) := by
  obtain ⟨hfree, hsize⟩ := IDPool.new_free size
  have hnone : ∀ t i, ¬ Owns (start size : World τ) t i := by
    rintro t i (hheld | hcarries)
    · exact absurd hheld List.not_mem_nil
    · exact hcarries
  refine ⟨hfree, ⟨?_, ?_, ?_⟩, fun _ => List.nodup_nil, fun _ _ hi => absurd hi List.not_mem_nil, ?_, ?_⟩
  · exact fun t _ i hi => absurd hi (hnone t i)
  · exact fun t i hi => absurd hi (hnone t i)
  · intro i hi
    have hi : i < size := hsize ▸ hi
    exact ⟨fun hout => absurd (List.mem_range.mpr hi) hout, fun ⟨t, ht⟩ => absurd ht (hnone t i)⟩
  · intro t i hpc
    cases hpc
  · intro t i h hpc
    cases hpc

/-- Only the thread that moves can own more or less than before. -/
theorem owns_move {held : List Nat} {pc : Pc} (hpc : w'.pc = Function.update w.pc t pc)
    (hheld : w'.held = Function.update w.held t held) (u : τ) (i : Nat) :
    Owns w' u i ↔ if u = t then i ∈ held ∨ Carries pc i else Owns w u i := by
  rw [Owns, hpc, hheld]
  by_cases hu : u = t
  · rw [if_pos hu, hu, Function.update_self, Function.update_self]
  · rw [if_neg hu, Function.update_of_ne hu, Function.update_of_ne hu]
    rfl

/-- What a step has to show when thread `t` moves. -/
theorem inv_move {held : List Nat} {pc : Pc} {free' : List Nat} (h : Inv w free)
    (hpc : w'.pc = Function.update w.pc t pc) (hheld : w'.held = Function.update w.held t held)
    (hchain : w'.pool.Free free') (hshared : SharedOut w'.pool.size free' (Owns w')) (hnodup : held.Nodup)
    (honce : ∀ i ∈ held, ¬ Carries pc i) (hholder : ∀ i, pc = .unmarking i → i ∈ held)
    (hlinked : ∀ i h, pc = .publishing i h → w'.pool.next i = h)
    (hnext : ∀ u i h, u ≠ t → w.pc u = .publishing i h → w'.pool.next i = w.pool.next i) : Inv w' free' := by
  refine ⟨hchain, hshared, ?_, ?_, ?_, ?_⟩
  · intro u
    rw [hheld]
    by_cases hu : u = t
    · rw [hu, Function.update_self]
      exact hnodup
    · rw [Function.update_of_ne hu]
      exact h.nodup u
  · intro u i
    rw [hheld, hpc]
    by_cases hu : u = t
    · rw [hu, Function.update_self, Function.update_self]
      exact honce i
    · rw [Function.update_of_ne hu, Function.update_of_ne hu]
      exact h.once u i
  · intro u i
    rw [hheld, hpc]
    by_cases hu : u = t
    · rw [hu, Function.update_self, Function.update_self]
      exact hholder i
    · rw [Function.update_of_ne hu, Function.update_of_ne hu]
      exact h.holder u i
  · intro u i oldHead
    rw [hpc]
    by_cases hu : u = t
    · rw [hu, Function.update_self]
      exact hlinked i oldHead
    · rw [Function.update_of_ne hu]
      intro hother
      rw [hnext u i oldHead hu hother]
      exact h.linked u i oldHead hother

/-- The thread goes on and every id stays where it is. -/
theorem inv_goto {pc : Pc} (h : Inv w free) (hcarries : ∀ i, Carries pc i ↔ Carries (w.pc t) i)
    (hpc : ∀ i h, pc ≠ .publishing i h) (hholder : ∀ i, pc = .unmarking i → i ∈ w.held t) :
    Inv (w.goto t pc) free := by
  have hheld : (w.goto t pc).held = Function.update w.held t (w.held t) := (Function.update_eq_self _ _).symm
  refine inv_move h rfl hheld h.chain (h.shared.congr (fun _ => Iff.rfl) ?_) (h.nodup t) ?_
    hholder (fun i oldHead he => absurd he (hpc i oldHead)) (fun _ _ _ _ _ => rfl)
  · intro u i
    rw [owns_move (w := w) rfl hheld u i]
    by_cases hu : u = t
    · rw [if_pos hu, hu, hcarries]
      rfl
    · rw [if_neg hu]
  · intro i hi
    rw [hcarries]
    exact h.once t i hi

/-- A head taken off the free list belongs to the thread that took it. -/
theorem inv_take {oldHead : Nat} {next : Option Nat} (h : Inv w free) (hpc : w.pc t = .exchanging oldHead next)
    (hhead : w.pool.head = some oldHead) (hfresh : w.pool.next oldHead = next) :
    ∃ rest, Inv (({ w with pool := { w.pool with head := next } } : World τ).goto t (.marking oldHead)) rest := by
  cases free with
  | nil =>
    have hnone : w.pool.head = none := h.chain.chain
    rw [hhead] at hnone
    cases hnone
  | cons first rest =>
    obtain ⟨hfirst, hrest⟩ := h.chain.chain
    rw [hhead] at hfirst
    cases hfirst
    rw [hfresh] at hrest
    have hout := (List.nodup_cons.mp h.chain.nodup).1
    have hnobody := h.shared.not_owned List.mem_cons_self
    have hheld : (({ w with pool := { w.pool with head := next } } : World τ).goto t (.marking oldHead)).held =
        Function.update w.held t (w.held t) := (Function.update_eq_self _ _).symm
    refine ⟨rest, inv_move h rfl hheld ⟨hrest, fun i hi => h.chain.bound i (List.mem_cons_of_mem _ hi)⟩ ?_
      (h.nodup t) ?_
      (fun i he => by cases he) (fun i oldHead' he => by cases he) (fun _ _ _ _ _ => rfl)⟩
    · refine h.shared.take (t := t) List.mem_cons_self (h.chain.bound oldHead List.mem_cons_self) ?_ ?_
      · intro j
        rw [List.mem_cons]
        constructor
        · intro hj
          refine ⟨Or.inr hj, ?_⟩
          rintro rfl
          exact hout hj
        · exact fun hj => hj.1.resolve_left hj.2
      · intro u j
        rw [owns_move (w := w) rfl hheld u j]
        by_cases hu : u = t
        · rw [if_pos hu, hu, Owns, hpc]
          simp only [Carries, or_false, true_and, eq_comm]
        · rw [if_neg hu]
          simp only [hu, false_and, or_false]
    · rintro i hi rfl
      exact hnobody t (Or.inl hi)

/-- The id that a thread has taken becomes one it holds. -/
theorem inv_mark {id : Nat} (h : Inv w free) (hpc : w.pc t = .marking id) (inUse : Nat → Bool) :
    Inv ((({ w with pool := { w.pool with inUse := inUse } } : World τ).setHeld t (id :: w.held t)).goto t .idle)
      free := by
  have hout : id ∉ w.held t := by
    intro hi
    apply h.once t id hi
    rw [hpc]
    rfl
  refine inv_move h rfl rfl ⟨h.chain.chain, h.chain.bound⟩ (h.shared.congr (fun _ => Iff.rfl) ?_)
    (List.nodup_cons.mpr ⟨hout, h.nodup t⟩) (fun _ _ hf => hf) (fun i he => by cases he)
    (fun i oldHead he => by cases he) (fun _ _ _ _ _ => rfl)
  intro u i
  rw [owns_move (w := w) rfl rfl u i]
  by_cases hu : u = t
  · rw [if_pos hu, hu, Owns, hpc, List.mem_cons]
    simp only [Carries, or_false]
    rw [or_comm, eq_comm]
  · rw [if_neg hu]

/-- An id that a thread holds becomes one it is giving back. -/
theorem inv_unmark {id : Nat} (h : Inv w free) (hpc : w.pc t = .unmarking id) (hid : id ∈ w.held t)
    (inUse : Nat → Bool) : Inv ((({ w with pool := { w.pool with inUse := inUse } } : World τ).setHeld t
      ((w.held t).erase id)).goto t (.loadingBack id)) free := by
  have hnodup := h.nodup t
  refine inv_move h rfl rfl ⟨h.chain.chain, h.chain.bound⟩
    (h.shared.congr (fun _ => Iff.rfl) ?_) (hnodup.erase id) ?_
    (fun i he => by cases he) (fun i oldHead he => by cases he) (fun _ _ _ _ _ => rfl)
  · intro u i
    rw [owns_move (w := w) rfl rfl u i]
    by_cases hu : u = t
    · rw [if_pos hu, hu, Owns, hpc, hnodup.mem_erase_iff]
      simp only [Carries, or_false]
      constructor
      · rintro (⟨-, hi⟩ | rfl)
        · exact hi
        · exact hid
      · intro hi
        by_cases he : id = i
        · exact Or.inr he
        · exact Or.inl ⟨fun hi' => he hi'.symm, hi⟩
    · rw [if_neg hu]
  · rintro i hi rfl
    exact (hnodup.mem_erase_iff.mp hi).1 rfl

theorem inv_link {id : Nat} {oldHead : Option Nat} (h : Inv w free) (hpc : w.pc t = .linking id oldHead) :
    Inv (({ w with pool := { w.pool with next := Function.update w.pool.next id oldHead } } : World τ).goto t
      (.publishing id oldHead)) free := by
  have hmine : Owns w t id := Or.inr (by rw [hpc]; rfl)
  have hheld : (({ w with pool := { w.pool with next := Function.update w.pool.next id oldHead } } : World τ).goto t
      (.publishing id oldHead)).held = Function.update w.held t (w.held t) := (Function.update_eq_self _ _).symm
  refine inv_move h rfl hheld ⟨chain_update h.chain.chain (h.shared.not_stocked hmine) _, h.chain.bound⟩
    (h.shared.congr (fun _ => Iff.rfl) ?_) (h.nodup t) ?_ (fun i he => by cases he) ?_ ?_
  · intro u i
    rw [owns_move (w := w) rfl hheld u i]
    by_cases hu : u = t
    · rw [if_pos hu, hu, Owns, hpc]
      rfl
    · rw [if_neg hu]
  · intro i hi hcarries
    apply h.once t i hi
    rw [hpc]
    exact hcarries
  · rintro i oldHead' ⟨⟩
    exact Function.update_self ..
  · intro u i oldHead' hu hother
    refine Function.update_of_ne ?_ ..
    rintro rfl
    exact hu (h.shared.unique u t i (Or.inr (by rw [hother]; rfl)) hmine)

/-- The id given back is the new head. -/
theorem inv_publish {id : Nat} (h : Inv w free) (hpc : w.pc t = .publishing id w.pool.head) :
    Inv (({ w with pool := { w.pool with head := some id } } : World τ).goto t .idle) (id :: free) := by
  have hmine : Owns w t id := Or.inr (by rw [hpc]; rfl)
  have hheld : (({ w with pool := { w.pool with head := some id } } : World τ).goto t .idle).held =
      Function.update w.held t (w.held t) := (Function.update_eq_self _ _).symm
  have hchain : Chain w.pool.next (some id) (id :: free) := by
    refine ⟨rfl, ?_⟩
    rw [h.linked t id _ hpc]
    exact h.chain.chain
  refine inv_move h rfl hheld ⟨hchain, ?_⟩ ?_ (h.nodup t) (fun _ _ hf => hf) (fun i he => by cases he)
    (fun i oldHead he => by cases he) (fun _ _ _ _ _ => rfl)
  · intro i hi
    rcases List.mem_cons.mp hi with rfl | hi
    · exact h.shared.bound t i hmine
    · exact h.chain.bound i hi
  · refine h.shared.give hmine ?_ ?_
    · intro j
      rw [List.mem_cons, or_comm]
    · intro u j
      rw [owns_move (w := w) rfl hheld u j]
      by_cases hu : u = t
      · rw [if_pos hu, hu, Owns, hpc]
        simp only [Carries, or_false, true_and]
        constructor
        · intro hj
          refine ⟨Or.inl hj, ?_⟩
          rintro rfl
          apply h.once t j hj
          rw [hpc]
          rfl
        · rintro ⟨hj, hne⟩
          exact hj.resolve_right (fun he => hne he.symm)
      · rw [if_neg hu]
        simp only [hu, false_and, not_false_eq_true, and_true]

theorem inv_advance (h : Inv w free) {weakFailure : Bool} (hfresh : Fresh w (.advance t weakFailure))
    (hstep : advance w t weakFailure = some w') :
    ∃ free', Inv w' free' := by
  rw [advance] at hstep
  cases hpc : w.pc t with
  | idle =>
    rw [hpc] at hstep
    cases hstep
  | loading =>
    rw [hpc] at hstep
    cases hhead : w.pool.head with
    | none =>
      simp only [hhead] at hstep
      cases hstep
      exact ⟨free, inv_goto h (by simp [hpc, Carries]) (by simp) (by simp)⟩
    | some oldHead =>
      simp only [hhead] at hstep
      cases hstep
      exact ⟨free, inv_goto h (by simp [hpc, Carries]) (by simp) (by simp)⟩
  | reading oldHead =>
    rw [hpc] at hstep
    cases hstep
    exact ⟨free, inv_goto h (by simp [hpc, Carries]) (by simp) (by simp)⟩
  | exchanging oldHead next =>
    simp only [hpc] at hstep
    by_cases hhead : w.pool.head = some oldHead
    · rw [if_pos hhead] at hstep
      cases hstep
      rw [Fresh, hpc] at hfresh
      exact inv_take h hpc hhead (hfresh hhead)
    · rw [if_neg hhead] at hstep
      cases hstep
      exact ⟨free, inv_goto h (by simp [hpc, Carries]) (by simp) (by simp)⟩
  | marking id =>
    rw [hpc] at hstep
    cases hstep
    exact ⟨free, inv_mark h hpc _⟩
  | unmarking id =>
    simp only [hpc] at hstep
    by_cases hused : w.pool.inUse id = true
    · rw [if_pos hused] at hstep
      cases hstep
      exact ⟨free, inv_unmark h hpc (h.holder t id hpc) _⟩
    · rw [if_neg hused] at hstep
      cases hstep
      exact ⟨free, inv_goto h (by simp [hpc, Carries]) (by simp) (by simp)⟩
  | loadingBack id =>
    rw [hpc] at hstep
    cases hstep
    exact ⟨free, inv_goto h (by simp [hpc, Carries]) (by simp) (by simp)⟩
  | linking id oldHead =>
    rw [hpc] at hstep
    cases hstep
    exact ⟨free, inv_link h hpc⟩
  | publishing id oldHead =>
    simp only [hpc] at hstep
    by_cases hhead : w.pool.head = oldHead ∧ weakFailure = false
    · rw [if_pos hhead] at hstep
      cases hstep
      rw [← hhead.1] at hpc
      exact ⟨id :: free, inv_publish h hpc⟩
    · rw [if_neg hhead] at hstep
      cases hstep
      exact ⟨free, inv_goto h (by simp [hpc, Carries]) (by simp) (by simp)⟩

theorem inv_step (h : Inv w free) {e : Event τ} (hfresh : Fresh w e) (hstep : step w e = some w') :
    ∃ free', Inv w' free' := by
  cases e with
  | rent t =>
    simp only [step] at hstep
    by_cases hidle : w.pc t = .idle
    · rw [if_pos hidle] at hstep
      cases hstep
      exact ⟨free, inv_goto h (by simp [hidle, Carries]) (by simp) (by simp)⟩
    · rw [if_neg hidle] at hstep
      cases hstep
  | returns t id =>
    simp only [step] at hstep
    by_cases hidle : w.pc t = .idle ∧ id ∈ w.held t
    · rw [if_pos hidle] at hstep
      cases hstep
      refine ⟨free, inv_goto h (by simp [hidle.1, Carries]) (by simp) ?_⟩
      rintro i ⟨⟩
      exact hidle.2
    · rw [if_neg hidle] at hstep
      cases hstep
  | advance t weakFailure => exact inv_advance h hfresh hstep

/-- No id is held by two threads; and when every thread is idle, the free list
holds exactly the ids that are not held, each once. -/
structure Exact (w : World τ) : Prop where
  exclusive : ∀ t u i, i ∈ w.held t → i ∈ w.held u → t = u
  once : ∀ t, (w.held t).Nodup
  free : (∀ t, w.pc t = .idle) → ∃ free, w.pool.Free free ∧ free.Nodup ∧
    ∀ i, i < w.pool.size → (i ∈ free ↔ ∀ t, i ∉ w.held t)

omit [DecidableEq τ] in
theorem exact_of_inv (h : Inv w free) : Exact w := by
  refine ⟨?_, h.nodup, ?_⟩
  · intro t u i ht hu
    exact h.shared.unique t u i (Or.inl ht) (Or.inl hu)
  · intro hidle
    refine ⟨free, h.chain, h.chain.nodup, ?_⟩
    intro i hi
    have hcover := h.shared.cover i hi
    constructor
    · intro hmem t ht
      exact h.shared.not_owned hmem t (Or.inl ht)
    · intro hnobody
      by_contra hout
      obtain ⟨t, ht⟩ := hcover.mp hout
      rcases ht with ht | ht
      · exact hnobody t ht
      · rw [hidle t] at ht
        exact ht

/-- In every run in which each successful compare-exchange of `rent` finds the
successor it has read, every state keeps the ids apart. -/
theorem ids_exact {size : Nat} {es : List (Event τ)} (hfresh : Guarded step Fresh (start size) es)
    (hvisit : Visits step (start size) es w) : Exact w := by
  have hinv : ∃ free, Inv w free :=
    guarded_visits (I := fun w => ∃ free, Inv w free)
      (fun w e w' ⟨_, h⟩ hg hstep => inv_step h hg hstep) ⟨_, inv_start size⟩ hfresh hvisit
  obtain ⟨free, h⟩ := hinv
  exact exact_of_inv h

def advances (t count : Nat) : List (Event Nat) := List.replicate count (.advance t false)

/-- Two threads whose loads interleave; the second one's exchange fails. -/
def contended : List (Event Nat) :=
  [.rent 0, .rent 1, .advance 0 false, .advance 1 false, .advance 0 false, .advance 1 false, .advance 0 false,
    .advance 1 false, .advance 0 false]

theorem ids_exact_contended : ∃ w, run step (start 2) contended = some w ∧ w.held 0 = [0] ∧ Exact w := by
  have hguard : Guarded step Fresh (start 2) contended :=
    guarded_step trivial rfl <| guarded_step trivial rfl <| guarded_step trivial rfl <| guarded_step trivial rfl <|
      guarded_step trivial rfl <| guarded_step trivial rfl <| guarded_step (fun _ => rfl) rfl <|
      guarded_step (fun he => absurd he (by decide)) rfl <| guarded_step trivial rfl <| guarded_nil _ _ _
  exact ⟨_, rfl, rfl, ids_exact hguard (visits_end rfl)⟩

/-- A thread has read that 1 comes after 0; another one takes 0 and 1 and gives
0 back; then the first one's exchange succeeds. -/
def staleExchange : List (Event Nat) :=
  [.rent 0] ++ advances 0 2 ++ [.rent 1] ++ advances 1 4 ++ [.rent 1] ++ advances 1 4 ++ [.returns 1 0] ++
    advances 1 4 ++ advances 0 2 ++ [.rent 0] ++ advances 0 4

theorem id_held_twice : ∃ w, run step (start 3) staleExchange = some w ∧ 1 ∈ w.held 0 ∧ 1 ∈ w.held 1 := by
  have hrun : (run step (start 3) staleExchange).map (fun w => (w.held 0, w.held 1)) = some ([1, 0], [1]) := by
    decide +kernel
  obtain ⟨w, hw, he⟩ := Option.map_eq_some_iff.mp hrun
  obtain ⟨hzero, hone⟩ := Prod.mk.inj he
  exact ⟨w, hw, by rw [hzero]; decide, by rw [hone]; decide⟩

end IdOwnership
