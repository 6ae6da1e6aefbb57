import ZeroCopyRpc.SharedLedger
import ZeroCopyRpc.SubscriptionTurns

/-!
# Several threads that publish

The pool lock puts the publications in order: a thread waits until the lock is
free, prepares and fills its entry, and raises the index before it lets the lock
go. The pass of `NotifyAll` comes after that, so the passes of several threads
interleave freely.

A thread's step is the machine's step in the thread's own view. Subscribe and
the readers have a view of their own, in which nobody publishes.
-/
namespace PublisherThreads

open SharedLedger SubscriptionAccounts SubscriptionMachine SubscriptionTurns TokenLedger Transitions Words

structure World (τ : Type) where
  topic : TopicService
  publishers : τ → Publisher
  entering : List (Nat × Nat)
  readers : Nat → Option Reader
  pushed : Nat → Option Pushed

inductive Event (τ : Type) where
  | publish (t : τ) (scope : WriterScope)
  | notify (t : τ)
  | reset (pid : Nat)
  | push (position : Nat)
  | openSemaphore (slot : Nat)
  | acquire (slot : Nat)
  | load (slot : Nat)
  | tryRead (slot : Nat)
  deriving DecidableEq, Repr

variable {τ : Type}

def Event.thread : Event τ → Option τ
  | .publish t _ | .notify t => some t
  | _ => none

def Event.action : Event τ → SubscriptionMachine.Event
  | .publish _ scope => .publish scope
  | .notify _ => .notify false
  | .reset pid => .reset pid
  | .push position => .push position
  | .openSemaphore slot => .openSemaphore slot
  | .acquire slot => .acquire slot
  | .load slot => .load slot
  | .tryRead slot => .tryRead slot

def World.view (w : World τ) (o : Option τ) : State where
  topic := w.topic
  publisher := o.elim .idle w.publishers
  entering := w.entering
  readers := w.readers
  pushed := w.pushed

def World.put [DecidableEq τ] (w : World τ) (o : Option τ) (s : State) : World τ where
  topic := s.topic
  publishers := o.elim w.publishers (fun t => Function.update w.publishers t s.publisher)
  entering := s.entering
  readers := s.readers
  pushed := s.pushed

def step [DecidableEq τ] : Machine (World τ) (Event τ)
  | w, e => (SubscriptionMachine.step (w.view e.thread) e.action).map (w.put e.thread)

def start (buffer : CyclicBuffer) : World τ := ⟨.new buffer, fun _ => .idle, [], fun _ => none, fun _ => none⟩

def publications (events : List (Event τ)) : Nat := (events.map fun e => e.action.entries).sum

/-- The start of slot `i` is still to be stored. -/
def Unstarted (w : World τ) (i : Nat) : Prop :=
  (w.topic.subscribers i).notified = 0 ∨ ∃ t, stageAt (w.view (some t)) i = .storing

/-- The index is raised only when no pass under way still owes a visit to a
subscription whose start is still to be stored, and a subscription is pushed
only when at most one thread is between its publication and its pass. -/
def Guard (w : World τ) : Event τ → Prop
  | .publish _ scope => 0 < scope.span.committed → ∀ sub ∈ w.topic.subscriptions.items,
      Unstarted w sub.index.toNat → ∀ t, stageAt (w.view (some t)) sub.index.toNat = .passed
  | .push _ => ∀ t u, w.publishers t = .published → w.publishers u = .published → t = u
  | _ => True

/-- Where each pass stands with slot `i`. -/
def stages (w : World τ) (rest : Option τ → List Nat) (i : Nat) (o : Option τ) : Stage :=
  stageOf (w.view o).publisher (w.view o).slot (rest o) i

variable {w w' : World τ} {o u : Option τ} {s s' : State}

theorem view_put_same [DecidableEq τ] (w : World τ) (h : o = none → s.publisher = .idle) :
    (w.put o s).view o = s := by
  cases o with
  | none =>
    simp only [World.put, World.view, Option.elim_none, ← h rfl]
  | some t =>
    simp only [World.put, World.view, Option.elim_some, Function.update_self]

theorem view_put_other [DecidableEq τ] (w : World τ) (s : State) (hu : u ≠ o) :
    (w.put o s).view u = { s with publisher := (w.view u).publisher } := by
  cases o with
  | none => rfl
  | some t =>
    cases u with
    | none => rfl
    | some v =>
      have hvt : v ≠ t := by
        rintro rfl
        exact hu rfl
      simp only [World.put, World.view, Option.elim_some, Function.update_of_ne hvt]

variable [Fintype τ]

structure Books (w : World τ) (used free ids : List Nat) (rest : Option τ → List Nat) : Prop where
  layout : ∀ o, Layout (w.view o) used free ids (rest o)
  shared : ∀ i p, w.pushed i = some p → Shared (ledger (w.view none) used (rest none) i p) (stages w rest i)
  follows : Follows (w.view none)
  unmarked : ∀ i, (w.topic.subscribers i).pendingRemove = false
  empty : ∀ o, toRemove (w.view o).publisher = []

def Inv (w : World τ) : Prop := ∃ used free ids rest, Books w used free ids rest

variable {used free ids : List Nat} {rest : Option τ → List Nat}

theorem covered_of_books (h : Books w used free ids rest) (o : Option τ) : Covered (w.view o) :=
  fun i p hi => SharedLedger.taken_covered (h.shared i p hi)

theorem shared_view (h : Books w used free ids rest) (o : Option τ) {i : Nat} {p : Pushed}
    (hi : w.pushed i = some p) :
    Shared (ledger (w.view o) used (rest o) i p) (stages w rest i) := (h.shared i p hi).view _

/-- A pass is what it was when only slots, counts and readers change. -/
theorem pass_congr {used rest : List Nat} (h : Pass s used rest) (hp : s'.publisher = s.publisher)
    (hbag : s'.topic.subscriptions = s.topic.subscriptions)
    (hle : s.topic.buffer.nextIndex ≤ s'.topic.buffer.nextIndex) : Pass s' used rest := by
  obtain ⟨hsub, hpass⟩ := h
  refine ⟨hsub, ?_⟩
  rw [hp, hbag]
  cases hpub : s.publisher with
  | published =>
    rw [hpub] at hpass
    exact ⟨hpass.1, Nat.le_trans hpass.2 hle⟩
  | _ =>
    rw [hpub] at hpass
    exact hpass

/-- Views differ in their publisher only. -/
theorem layout_view {used rest rest' : List Nat} (hl : Layout s used free ids rest) (p : Publisher)
    (hpass : Pass { s with publisher := p } used rest') : Layout { s with publisher := p } used free ids rest' :=
  layout_congr hl rfl rfl rfl rfl rfl rfl (fun _ _ => rfl) hl.readers hpass

theorem unmarked_setSlot (hm : ∀ i, (s.topic.subscribers i).pendingRemove = false) {slot : Nat}
    {d : SubscriptionSharedData} (hd : d.pendingRemove = false) (i : Nat) :
    ((s.setSlot slot d).topic.subscribers i).pendingRemove = false := by
  simp only [State.setSlot]
  by_cases hi : i = slot
  · subst hi
    rwa [Function.update_self]
  · rw [Function.update_of_ne hi]
    exact hm i

/-- The publisher's side leaves slots unmarked when they are, and collects none. -/
theorem unmarked_notify (hm : ∀ i, (s.topic.subscribers i).pendingRemove = false) (hr : toRemove s.publisher = [])
    {lostRace : Bool} (hs : notify s lostRace = some s') :
    (∀ i, (s'.topic.subscribers i).pendingRemove = false) ∧ toRemove s'.publisher = [] := by
  unfold notify at hs
  split at hs
  · cases hs
  · cases hs
    exact ⟨hm, rfl⟩
  · rename_i l hp
    cases hs
    exact ⟨hm, by simpa [toRemove, hp] using hr⟩
  · rename_i n l hp
    rw [if_neg (by simp [hm])] at hs
    cases hs
    exact ⟨hm, by simpa [toRemove, hp] using hr⟩
  · rename_i n l hp
    cases hs
    rw [hp] at hr
    refine ⟨unmarked_setSlot hm (hm (s.slot n)), ?_⟩
    split <;> exact hr
  · rename_i n l hp
    cases hs
    rw [hp] at hr
    exact ⟨unmarked_setSlot hm (hm (s.slot n)), hr⟩
  · rename_i n l hp
    cases hs
    exact ⟨hm, by simpa [toRemove, hp] using hr⟩
  · cases hs
    exact ⟨hm, rfl⟩
  · rename_i sub l hp
    simp [toRemove, hp] at hr

/-- The readers write no slot. -/
theorem subscribers_reader {e : SubscriptionMachine.Event} (he : OfReader e)
    (hs : SubscriptionMachine.step s e = some s') :
    s'.topic.subscribers = s.topic.subscribers := by
  cases e with
  | publish | notify | reset | push | unsubscribe => exact he.elim
  | openSemaphore | acquire | load | tryRead =>
    simp only [SubscriptionMachine.step] at hs
    repeat' split at hs
    all_goals cases hs <;> rfl

theorem inv_start (buffer : CyclicBuffer) : Inv (start buffer : World τ) := by
  obtain ⟨used, free, ids, rest, hl, -⟩ := SubscriptionAccounts.inv_start buffer
  refine ⟨used, free, ids, fun _ => rest, fun o => ?_, fun i p hp => (by cases hp), fun i p hp => (by cases hp),
    fun _ => rfl, fun o => ?_⟩
  · cases o <;> exact hl
  · cases o <;> rfl

/-- What the guard says at a publication, for every view. -/
theorem passed_of_guard (h : Books w used free ids rest) {t : τ} {scope : WriterScope}
    (hg : Guard w (.publish t scope))
    (hc : 0 < scope.span.committed) (i : Nat) (hi : i ∈ used.map (w.view none).slot)
    (hn : (w.topic.subscribers i).notified = 0 ∨ ∃ u, stages w rest i u = .storing) (u : Option τ) :
    stages w rest i u = .passed := by
  have hnone : ∀ j, stages w rest j none = .passed := by
    intro j
    have hnil := (h.layout none).pass.2
    have hnil : rest none = [] := hnil
    simp [stages, World.view, stageOf, hnil]
  have hat : ∀ v, stageAt (w.view v) i = stages w rest i v := by
    intro v
    rw [stageAt, toVisit_eq (h.layout v)]
    rfl
  obtain ⟨n, hin, rfl⟩ := List.mem_map.mp hi
  cases u with
  | none => exact hnone _
  | some u =>
    rw [← hat]
    refine hg hc _ ((mem_items (h.layout none).nodes).mpr ⟨n, hin, rfl⟩) (hn.imp_right ?_) u
    rintro ⟨v, hv⟩
    cases v with
    | none =>
      rw [hnone] at hv
      cases hv
    | some v => exact ⟨v, (hat (some v)).trans hv⟩

section Put

variable [DecidableEq τ]

/-- A step that moves the accounts in one view moves them in all. -/
theorem books_moved (h : Books w used free ids rest) {rest' : List Nat} (hm : Moved (w.view o) s' used (rest o) rest')
    (hview : (w.put o s').view o = s') (hle : w.topic.buffer.nextIndex ≤ s'.topic.buffer.nextIndex)
    (hunmarked : (∀ i, (s'.topic.subscribers i).pendingRemove = false) ∧ toRemove s'.publisher = [])
    (hreading : ∀ i p, w.pushed i = some p → Reading (s'.topic.subscribers i).nextIndex (s'.readers i))
    (hfresh : s'.topic.buffer.nextIndex ≠ w.topic.buffer.nextIndex → ∀ i ∈ used.map (w.view none).slot,
      (w.topic.subscribers i).notified = 0 ∨ (∃ u, stages w rest i u = .storing) →
        ∀ u, stages w rest i u = .passed) :
    Books (w.put o s') used free ids (Function.update rest o rest') := by
  have hk := hm.kept
  have hslot : ∀ u, ((w.put o s').view u).slot = (w.view u).slot := by
    intro u
    funext m
    change (s'.topic.subscriptions.value m).index.toNat = (w.topic.subscriptions.value m).index.toNat
    rw [hk.bag]
    rfl
  have hstages : ∀ i, stages (w.put o s') (Function.update rest o rest') i =
      Function.update (stages w rest i) o (stageOf s'.publisher s'.slot rest' i) := by
    intro i
    funext u
    by_cases hu : u = o
    · subst hu
      rw [Function.update_self, stages, hview, Function.update_self]
    · rw [Function.update_of_ne hu, stages, Function.update_of_ne hu, hslot, view_put_other w s' hu]
      rfl
  constructor
  · intro u
    by_cases hu : u = o
    · subst hu
      rw [hview, Function.update_self]
      exact layout_moved (h.layout u) hm
    · rw [view_put_other w s' hu, Function.update_of_ne hu]
      exact layout_view (layout_moved (h.layout o) hm) _ (pass_congr (s := w.view u) (h.layout u).pass rfl hk.bag hle)
  · intro i p hi
    have hi : s'.pushed i = some p := hi
    rw [hk.pushed] at hi
    have hpresent : (ledger s' used rest' i p).present = (ledger (w.view o) used (rest o) i p).present := by
      have hsame : s'.slot = (w.view o).slot := by
        rw [← hslot o, hview]
      simp only [ledger, hsame]
    have hshared := shared_move (shared_view h o hi) rfl (hm.moves i p hi) ⟨hunmarked.1 i, hpresent⟩
      fun hne hin => hfresh hne i (of_decide_eq_true hin)
    rw [hstages]
    exact hshared.view _
  · intro i p hi
    have hi : s'.pushed i = some p := hi
    rw [hk.pushed] at hi
    exact hreading i p hi
  · exact hunmarked.1
  · intro u
    by_cases hu : u = o
    · subst hu
      rw [hview]
      exact hunmarked.2
    · rw [view_put_other w s' hu]
      exact h.empty u

/-- Subscribe's first step touches no account. -/
theorem books_reset (h : Books w used free ids rest) {index : Nat} {idPool : IDPool}
    (hrent : w.topic.idPool.rent = some (index, idPool)) (pid : Nat) :
    Inv (w.put none (resetSlot (w.view none) index pid idPool)) := by
  have hl := h.layout none
  obtain ⟨ids', hl'⟩ := layout_reset hl hrent pid
  refine ⟨used, free, ids', rest, fun u => ?_, fun i p hi => ?_, fun i p hi => ?_, ?_, h.empty⟩
  · exact layout_view hl' (w.view u).publisher (h.layout u).pass
  · have hledger := ledger_reset hl hrent pid (i := i) (p := p) hi
    have hshared := h.shared i p hi
    rw [← hledger] at hshared
    exact hshared
  · have hread := h.follows i p hi
    have hother := resetSlot_other hl hrent pid (i := i) (p := p) hi
    change Reading ((resetSlot (w.view none) index pid idPool).topic.subscribers i).nextIndex (w.readers i)
    rw [hother]
    exact hread
  · have hmarks : ∀ i, ((w.view none).topic.subscribers i).pendingRemove = false := h.unmarked
    exact unmarked_setSlot hmarks rfl

/-- Subscribe's push opens an account; at most one pass is about to meet it. -/
theorem books_enter (h : Books w used free ids rest) {position index pid : Nat}
    (he : w.entering[position]? = some (index, pid))
    (halone : ∀ t u, w.publishers t = .published → w.publishers u = .published → t = u) :
    Inv (w.put none (enter (w.view none) position index pid)) := by
  have hl := h.layout none
  obtain ⟨hnone, hzero, hreader, used', free', hentered⟩ := entered_of_enter hl he
  have hview : ∀ u, Entered (w.view u) (enter (w.view u) position index pid) index pid used used' free' :=
    fun u => { hentered with publisher := rfl }
  have hindex : index ∈ w.entering.map Prod.fst := List.mem_map_of_mem (List.mem_of_getElem? he)
  have hpass : ∀ u, ∃ rest', Pass (enter (w.view u) position index pid) used' rest' ∧
      ((w.view u).publisher = .published ∧ rest' = used' ∧ 1 ≤ w.topic.buffer.nextIndex ∨
        (w.view u).publisher ≠ .published ∧ rest' = rest u) :=
    fun u => pass_push (h.layout u) rfl rfl fun m hm => ⟨((hview u).old m hm).1, ((hview u).old m hm).2.1⟩
  choose rest' hpass hrest using hpass
  have hstage := fun u => stage_enter (h.layout u) (hview u) hnone (hrest u)
  have hold : ∀ i, i ≠ index → stages (w.put none (enter (w.view none) position index pid)) rest' i =
      stages w rest i :=
    fun i hi => funext fun u => (hstage u).1 i hi
  refine ⟨used', free', ids, rest', fun u => ?_, fun i p hi => ?_, fun i p hi => ?_, ?_, h.empty⟩
  · exact layout_enter (h.layout u) (hview u) hnone (hpass u) hindex
  · have hi : (enter (w.view none) position index pid).pushed i = some p := hi
    by_cases hi' : i = index
    · subst hi'
      obtain rfl := Option.some.inj (hentered.pushed_self.symm.trans hi)
      have hmark : ((w.view none).topic.subscribers i).pendingRemove = false := h.unmarked i
      change Shared (ledger (enter (w.view none) position i pid) used' (rest' none) i _)
        (stages (w.put none (enter (w.view none) position i pid)) rest' i)
      rw [ledger_entered hentered hzero hreader, hmark]
      have hdue : ∀ u, stages (w.put none (enter (w.view none) position i pid)) rest' i u ≠ .passed →
          (w.view u).publisher = .published ∧
          stages (w.put none (enter (w.view none) position i pid)) rest' i u = .due ∧
          i ∈ used'.map (enter (w.view u) position i pid).slot ∧ 1 ≤ w.topic.buffer.nextIndex :=
        fun u hu => (hstage u).2.resolve_left hu
      refine shared_new (fun u hu => ?_) fun t u ht hu => ?_
      · obtain ⟨-, hs, hin, hpos⟩ := hdue u hu
        exact ⟨hs, decide_eq_true hin, hpos⟩
      · have htp := (hdue t ht).1
        have hup := (hdue u hu).1
        cases t with
        | none => cases htp
        | some t =>
          cases u with
          | none => cases hup
          | some u => rw [halone t u htp hup]
    · rw [hentered.pushed_other hi'] at hi
      have hshared := h.shared i p hi
      have hledger : ledger (enter (w.view none) position index pid) used' (rest' none) i p =
          ledger (w.view none) used (rest none) i p := ledger_enter hl hentered hi' ((hstage none).1 i hi') hi
      rw [← hledger] at hshared
      rw [hold i hi']
      exact hshared
  · have hi : (enter (w.view none) position index pid).pushed i = some p := hi
    by_cases hi' : i = index
    · subst hi'
      change Reading _ ((enter (w.view none) position i pid).readers i)
      rw [hentered.readers, hreader]
      trivial
    · rw [hentered.pushed_other hi'] at hi
      change Reading ((enter (w.view none) position index pid).topic.subscribers i).nextIndex
        ((enter (w.view none) position index pid).readers i)
      rw [hentered.readers, hentered.subscribers]
      exact h.follows i p hi
  · intro i
    change ((enter (w.view none) position index pid).topic.subscribers i).pendingRemove = false
    rw [hentered.subscribers]
    exact h.unmarked i

theorem inv_publish (h : Inv w) {t : τ} {scope : WriterScope} (hg : Guard w (.publish t scope))
    (hbound : w.topic.buffer.nextIndex + (SubscriptionMachine.Event.publish scope).entries < 0xffffffffffffffff)
    (hs : SubscriptionMachine.step (w.view (some t)) (.publish scope) = some s') :
    Inv (w.put (some t) s') ∧
      s'.topic.buffer.nextIndex = w.topic.buffer.nextIndex + (SubscriptionMachine.Event.publish scope).entries := by
  obtain ⟨used, free, ids, rest, h⟩ := h
  have hview : (w.put (some t) s').view (some t) = s' := view_put_same w (by simp)
  simp only [SubscriptionMachine.step] at hs
  split at hs
  · rename_i hp
    by_cases hc : 0 < scope.span.committed
    · rw [if_pos hc, Option.some.injEq] at hs
      rw [SubscriptionMachine.Event.entries, if_pos hc] at hbound ⊢
      have hnext : (scope.destroy w.topic.buffer).nextIndex = w.topic.buffer.nextIndex + 1 := by
        rw [WriterScope.destroy_nextIndex, if_pos hc, addWord_exact (by omega)]
      have hle : w.topic.buffer.nextIndex ≤ (scope.destroy w.topic.buffer).nextIndex := by omega
      have hm := moved_publish (h.layout (some t)) hp hnext
      subst hs
      exact ⟨⟨_, _, _, _, books_moved h hm hview hle ⟨h.unmarked, rfl⟩ h.follows fun _ i hi hn =>
        passed_of_guard h hg hc i hi hn⟩, hnext⟩
    · rw [if_neg hc, Option.some.injEq] at hs
      have hnext : (scope.destroy w.topic.buffer).nextIndex = w.topic.buffer.nextIndex := by
        rw [WriterScope.destroy_nextIndex, if_neg hc]
      have hm := moved_uncommitted (h.layout (some t)) hp hnext
      subst hs
      refine ⟨⟨_, _, _, _, books_moved h hm hview (Nat.le_of_eq hnext.symm)
        ⟨h.unmarked, h.empty (some t)⟩ h.follows
        fun hne => absurd hnext hne⟩, ?_⟩
      rw [SubscriptionMachine.Event.entries, if_neg hc]
      exact hnext
  · cases hs

theorem inv_notify (h : Inv w) {t : τ} (hbound : w.topic.buffer.nextIndex < 0xffffffffffffffff)
    (hs : notify (w.view (some t)) false = some s') :
    Inv (w.put (some t) s') ∧ s'.topic.buffer = w.topic.buffer := by
  obtain ⟨used, free, ids, rest, h⟩ := h
  have hunmarked := unmarked_notify h.unmarked (h.empty (some t)) hs
  have hcounted : ∀ i p, w.pushed i = some p → (w.topic.subscribers i).notified < 0xffffffffffffffff := by
    intro i p hi
    have hle : (w.topic.subscribers i).notified ≤ w.topic.buffer.nextIndex :=
      SharedLedger.notified_le (h.shared i p hi)
    omega
  have hpos : ∀ n l, (w.view (some t)).publisher = .storing n l → 1 ≤ w.topic.buffer.nextIndex := by
    intro n l hp
    obtain ⟨-, hn, -⟩ := worked_node (h.layout (some t)) (Or.inr (Or.inl hp))
    obtain ⟨p, _, hpushed, -⟩ := (h.layout (some t)).member n hn
    exact ((h.shared _ p hpushed).present (some t) (by simp [stages, stageOf, hp])).2
  rcases notify_cases (h.layout (some t)) hcounted hpos hbound hs with ⟨rest', hm, hreaders, hbuffer, -⟩ |
    ⟨sub, l, hp, -, -⟩
  · have huntaken : ∀ i p, w.pushed i = some p →
        stageOf (w.view (some t)).publisher (w.view (some t)).slot (rest (some t)) i = .storing →
        (w.readers i).elim 0 taken = 0 :=
      fun i p hi hstage => SharedLedger.untaken_of_storing (t := some t) (h.shared i p hi) hstage
    have hfollows : Follows (w.view (some t)) := h.follows
    have hreading := follows_moved hfollows hm hreaders huntaken
    have hsame : s'.topic.buffer = w.topic.buffer := hbuffer
    exact ⟨⟨_, _, _, _, books_moved h hm (view_put_same w (by simp)) (by rw [hsame]) hunmarked hreading
      fun hne => absurd (by rw [hsame]) hne⟩, hsame⟩
  · have hempty := h.empty (some t)
    rw [hp] at hempty
    cases hempty

theorem inv_reader (h : Inv w) {e : SubscriptionMachine.Event} (he : OfReader e)
    (hbound : w.topic.buffer.nextIndex < 0xffffffffffffffff)
    (hs : SubscriptionMachine.step (w.view none) e = some s') :
    Inv (w.put none s') ∧ s'.topic.buffer = w.topic.buffer := by
  obtain ⟨used, free, ids, rest, h⟩ := h
  have hreads := reads_step he (h.layout none) h.follows (covered_of_books h none) hbound hs
  have hunmarked : (∀ i, (s'.topic.subscribers i).pendingRemove = false) ∧ toRemove s'.publisher = [] := by
    rw [subscribers_reader he hs, hreads.publisher]
    exact ⟨h.unmarked, rfl⟩
  have hsame : s'.topic.buffer = w.topic.buffer := hreads.buffer
  exact ⟨⟨_, _, _, _, books_moved h hreads.moved (view_put_same w fun _ => hreads.publisher)
    (by rw [hsame]) hunmarked
    hreads.reading fun hne => absurd (by rw [hsame]) hne⟩, hsame⟩

theorem inv_step {e : Event τ} (h : Inv w) (hg : Guard w e)
    (hbound : w.topic.buffer.nextIndex + e.action.entries < 0xffffffffffffffff) (hs : step w e = some w') :
    Inv w' ∧ w'.topic.buffer.nextIndex = w.topic.buffer.nextIndex + e.action.entries := by
  obtain ⟨s', hs', rfl⟩ := Option.map_eq_some_iff.mp hs
  have hreader : e.thread = none → OfReader e.action → e.action.entries = 0 →
      Inv (w.put e.thread s') ∧ s'.topic.buffer.nextIndex = w.topic.buffer.nextIndex + e.action.entries := by
    intro hthread he hzero
    rw [hthread] at hs' ⊢
    obtain ⟨hinv, hbuffer⟩ := inv_reader h he (by omega) hs'
    exact ⟨hinv, by rw [hbuffer, hzero]; rfl⟩
  cases e with
  | publish t scope => exact inv_publish h hg hbound hs'
  | notify t =>
    obtain ⟨hinv, hbuffer⟩ := inv_notify h (by omega) hs'
    exact ⟨hinv, congrArg CyclicBuffer.nextIndex hbuffer⟩
  | reset pid =>
    obtain ⟨used, free, ids, rest, h⟩ := h
    simp only [Event.thread, Event.action, SubscriptionMachine.step] at hs'
    split at hs'
    · cases hs'
      exact ⟨⟨used, free, ids, rest, h⟩, rfl⟩
    · rename_i index idPool hrent
      cases hs'
      exact ⟨books_reset h hrent pid, rfl⟩
  | push position =>
    obtain ⟨used, free, ids, rest, h⟩ := h
    simp only [Event.thread, Event.action, SubscriptionMachine.step] at hs'
    split at hs'
    · cases hs'
    · rename_i index pid he
      cases hs'
      exact ⟨books_enter h he hg, rfl⟩
  | openSemaphore slot => exact hreader rfl trivial rfl
  | acquire slot => exact hreader rfl trivial rfl
  | load slot => exact hreader rfl trivial rfl
  | tryRead slot => exact hreader rfl trivial rfl

end Put

end PublisherThreads
