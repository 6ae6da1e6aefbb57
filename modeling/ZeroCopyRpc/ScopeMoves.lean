import ZeroCopyRpc.TopicService
import ZeroCopyRpc.Transitions

/-!
# Moving write scopes

A span, a writer scope and a publish scope can each be moved into a new object,
and a span or a writer scope into a new scope around it. Here the objects of
one reservation are followed, moved-from ones included, through moves, commits
and destructions in any order. The trace is what the outside sees: an entry
published, the pool's lock released, the topic's subscribers notified.
-/
namespace ScopeMoves

open Words Transitions

/-- What a `TopicService*` holds: null, the topic of the reservation, or anything else. -/
inductive TopicPointer where
  | null | topic | wild
  deriving DecidableEq, Repr

/-- A span with its pointers; `start` and `parent` are null once it was moved from. -/
structure SpanObject where
  start : Option Nat
  size : Nat
  committed : Nat
  parent : Bool
  deriving DecidableEq, Repr

structure WriterObject where
  span : SpanObject
  type : UInt64
  parent : Bool
  deriving DecidableEq, Repr

structure PublisherObject where
  scope : Option WriterObject
  parent : TopicPointer
  deriving DecidableEq, Repr

inductive Scope where
  | span (s : SpanObject)
  | writer (w : WriterObject)
  | publisher (p : PublisherObject)
  deriving DecidableEq, Repr

inductive Effect where
  | published | released | notified
  deriving DecidableEq, Repr

/-- Objects are numbered as they are made. `total` counts what was committed;
`prepared` says that the reservation has been in a publish scope. -/
structure World where
  topic : TopicService
  objects : Nat → Option Scope
  made : Nat
  trace : List Effect
  undefined : Bool
  total : Nat
  prepared : Bool

/-- `stale` is what the memory of the new publish scope's `_parent` happens to hold. -/
inductive Event where
  | moveSpan (source : Nat)
  | wrapSpan (source : Nat) (type : UInt64)
  | moveWriter (source : Nat)
  | wrapWriter (source : Nat)
  | movePublisher (source : Nat) (stale : TopicPointer)
  | commit (target : Nat) (size : Nat)
  | destroy (target : Nat)
  deriving DecidableEq, Repr

/-- What a move leaves of the source: `_committed` is copied and not reset. -/
def SpanObject.moved (s : SpanObject) : SpanObject := { s with start := none, size := 0, parent := false }

def WriterObject.moved (w : WriterObject) : WriterObject := { w with span := w.span.moved, parent := false }

def PublisherObject.moved : PublisherObject := ⟨none, .null⟩

/-- The span inside an object; none is the null pointer of an empty publish scope. -/
def Scope.spanOf : Scope → Option SpanObject
  | .span s => some s
  | .writer w => some w.span
  | .publisher p => p.scope.map WriterObject.span

def Scope.withSpan (s : SpanObject) : Scope → Scope
  | .span _ => .span s
  | .writer w => .writer { w with span := s }
  | .publisher p => .publisher { p with scope := p.scope.map fun w => { w with span := s } }

/-- The object whose span will release the lock. -/
def Scope.owns (o : Scope) : Bool := o.spanOf.elim false SpanObject.parent

namespace World

def put (w : World) (i : Nat) (o : Option Scope) : World := { w with objects := Function.update w.objects i o }

def add (w : World) (o : Scope) : World := { w.put w.made (some o) with made := w.made + 1 }

def fault (w : World) : World := { w with undefined := true }

def destroySpan (w : World) (s : SpanObject) : World :=
  if s.parent then
    { w with
      topic := { w.topic with buffer := { w.topic.buffer with memory := w.topic.buffer.memory.release } }
      trace := w.trace ++ [.released] }
  else w

/-- A scope that counts committed bytes reads both its parents. -/
def destroyWriter (w : World) (s : WriterObject) : World :=
  let w :=
    if 0 < s.span.committed then
      match s.parent, s.span.parent, s.span.start with
      | true, true, some start => { w with
          topic := { w.topic with
            buffer := (⟨⟨start, s.span.size, s.span.committed⟩, s.type⟩ : WriterScope).publish w.topic.buffer }
          trace := w.trace ++ [.published] }
      | _, _, _ => w.fault
    else w
  w.destroySpan s.span

def notifyAll (w : World) : World :=
  match w.topic.notifyAll with
  | .error _ => w.fault
  | .ok topic => { w with topic := topic, trace := w.trace ++ [.notified] }

def destroyPublisher (w : World) (p : PublisherObject) : World :=
  match p.parent, p.scope with
  | .null, none => w
  | .null, some scope => w.destroyWriter scope
  | _, none => w.fault
  | parent, some scope =>
    if 0 < scope.span.committed then
      let w := w.destroyWriter scope
      if parent = .topic then w.notifyAll else w.fault
    else w.destroyWriter scope

def destroy (w : World) : Scope → World
  | .span s => w.destroySpan s
  | .writer s => w.destroyWriter s
  | .publisher p => w.destroyPublisher p

/-- Move the span out of an object, into a new object made from it. -/
def takeSpan (w : World) (i : Nat) (make : SpanObject → Scope) : Option World :=
  (w.objects i).map fun o =>
    match o.spanOf with
    | none => w.fault
    | some s => (w.put i (some (o.withSpan s.moved))).add (make s)

/-- Only the current owner commits. -/
def commit (w : World) (i size : Nat) : Option World :=
  match w.objects i with
  | none => none
  | some o =>
    match o.spanOf with
    | some ⟨some start, length, committed, true⟩ =>
      match (⟨start, length, committed⟩ : Span).commit w.topic.buffer.memory size with
      | .error _ => some w
      | .ok (span, memory) => some { w.put i (some (o.withSpan ⟨some start, length, span.committed, true⟩)) with
          topic := { w.topic with buffer := { w.topic.buffer with memory := memory } }
          total := w.total + size }
    | _ => none

end World

/-- A run ends where the behaviour is undefined. -/
def step : Machine World Event
  | w, e =>
    if w.undefined then none
    else match e with
      | .moveSpan i => w.takeSpan i .span
      | .wrapSpan i type => w.takeSpan i fun s => .writer ⟨s, type, true⟩
      | .moveWriter i =>
        match w.objects i with
        | some (.writer s) => some ((w.put i (some (.writer s.moved))).add (.writer s))
        | _ => none
      | .wrapWriter i =>
        match w.objects i with
        | some (.writer s) => some { (w.put i (some (.writer s.moved))).add (.publisher ⟨some s, .topic⟩) with
            prepared := w.prepared || s.span.parent }
        | _ => none
      | .movePublisher i stale =>
        match w.objects i with
        | some (.publisher p) => some ((w.put i (some (.publisher .moved))).add (.publisher ⟨p.scope, stale⟩))
        | _ => none
      | .commit i size => w.commit i size
      | .destroy i => (w.objects i).map fun o => (w.put i none).destroy o

/-- The reservation: the pool's span, before any scope is made. -/
def reserve (t : TopicService) (minSize : Nat) : Option World :=
  match t.buffer.memory.getWriteSpan minSize with
  | .error _ => none
  | .ok (span, memory) => some {
      topic := { t with buffer := { t.buffer with memory := memory } }
      objects := Function.update (fun _ => none) 0 (some (.span ⟨some span.start, span.size, 0, true⟩))
      made := 1
      trace := []
      undefined := false
      total := 0
      prepared := false }

/-- `WriteScope`: the local span is moved into the scope it returns. -/
def writeScope (t : TopicService) (minSize : Nat) (type : UInt64) : Option World :=
  (reserve t minSize).bind fun w => run step w [.wrapSpan 0 type, .destroy 0]

/-- `Prepare` moves that scope into a publish scope. -/
def prepare (t : TopicService) (minSize : Nat) (type : UInt64) : Option World :=
  (writeScope t minSize type).bind fun w => run step w [.wrapWriter 1, .destroy 1]

def World.Owns (w : World) (i : Nat) : Prop := ∃ o, w.objects i = some o ∧ o.owns = true

/-- What the outside is to see of one reservation. -/
def World.expected (w : World) : List Effect :=
  (if 0 < w.total then [.published] else []) ++ [.released] ++
    if 0 < w.total ∧ w.prepared = true then [.notified] else []

/-- Nothing is seen while there is an owner; then all that is expected, once and in order. -/
structure Exact (w : World) : Prop where
  defined : w.undefined = false
  pending : ∀ i, w.Owns i → w.trace = []
  complete : (∀ i, ¬ w.Owns i) → w.trace = w.expected

/-- Where an object may be destroyed. A span publishes nothing. A scope that
counts committed bytes must be the owner, and one that has been in a publish
scope must be in one whose pointer is the topic's. -/
def Scope.Safe (prepared : Bool) : Scope → Prop
  | .span s => s.parent = true → s.committed = 0
  | .writer s => 0 < s.span.committed → s.span.parent = true ∧ prepared = false
  | .publisher ⟨none, parent⟩ => parent = .null
  | .publisher ⟨some s, parent⟩ => 0 < s.span.committed → s.span.parent = true ∧ parent = .topic

def Guard (w : World) : Event → Prop
  | .moveSpan i => ∀ o, w.objects i = some o → o.spanOf ≠ none
  | .wrapSpan i _ => ∀ o, w.objects i = some o → o.spanOf ≠ none
  | .destroy i => ∀ o, w.objects i = some o → o.Safe w.prepared
  | _ => True

/-- The pointers a scope around the owning span has. -/
def Scope.Attached (prepared : Bool) : Scope → Prop
  | .span _ => True
  | .writer s => s.parent = true
  | .publisher p => prepared = true ∧ ∀ s, p.scope = some s → s.parent = true

/-- The owner's span counts all that was committed. -/
def Owning (w : World) (o : Scope) : Prop :=
  ∃ start size, o.spanOf = some ⟨some start, size, w.total, true⟩ ∧ w.total ≤ size ∧
    size < 0x10000000000000000 ∧ o.Attached w.prepared

structure Inv (w : World) : Prop where
  exact : Exact w
  fresh : ∀ i, w.made ≤ i → w.objects i = none
  single : ∀ i j, w.Owns i → w.Owns j → i = j
  owner : ∀ i o, w.objects i = some o → o.owns = true → Owning w o

variable {w t : World} {i : Nat} {o : Scope}

@[simp] theorem moved_owns (s : SpanObject) : s.moved.parent = false := rfl

theorem put_self (w : World) (i : Nat) (x : Option Scope) : (w.put i x).objects i = x := Function.update_self _ _ _

theorem put_other {k : Nat} (hk : k ≠ i) (w : World) (x : Option Scope) : (w.put i x).objects k = w.objects k :=
  Function.update_of_ne hk _ _

theorem owns_of_span {s : SpanObject} (h : o.spanOf = some s) : o.owns = s.parent := by
  rw [Scope.owns, h]
  rfl

theorem spanOf_withSpan {s : SpanObject} (h : o.spanOf = some s) (s' : SpanObject) :
    (o.withSpan s').spanOf = some s' := by
  cases o with
  | span _ => rfl
  | writer _ => rfl
  | publisher p =>
    obtain ⟨scope, parent⟩ := p
    cases scope with
    | none => cases h
    | some _ => rfl

theorem attached_withSpan {prepared : Bool} (h : o.Attached prepared) (s : SpanObject) :
    (o.withSpan s).Attached prepared := by
  cases o with
  | span _ => trivial
  | writer _ => exact h
  | publisher p =>
    refine ⟨h.1, fun s' hs' => ?_⟩
    obtain ⟨s₀, hs₀, rfl⟩ := Option.map_eq_some_iff.mp hs'
    exact h.2 s₀ hs₀

theorem Inv.below (h : Inv w) (hi : w.objects i = some o) : i < w.made := by
  by_contra hlt
  rw [h.fresh i (Nat.le_of_not_lt hlt)] at hi
  cases hi

theorem owns_iff (hi : w.objects i = some o) : w.Owns i ↔ o.owns = true := by
  constructor
  · rintro ⟨x, hx, hxo⟩
    cases hi.symm.trans hx
    exact hxo
  · intro ho
    exact ⟨o, hi, ho⟩

section Moves

/-- Where the objects are after a move: the new one, what is left of the source, and the others. -/
structure Moved (w t : World) (i : Nat) (o' n : Scope) : Prop where
  new : t.objects w.made = some n
  source : t.objects i = some o'
  other : ∀ k, k ≠ i → k ≠ w.made → t.objects k = w.objects k

variable {o' n : Scope}

theorem moved_objects (hne : i ≠ w.made) (prepared : Bool) :
    Moved w { (w.put i (some o')).add n with prepared := prepared } i o' n where
  new := Function.update_self _ _ _
  source := (put_other hne _ _).trans (put_self w i _)
  other := fun _ hki hkm => (put_other hkm _ _).trans (put_other hki w _)

/-- Who owns after a move: the new object in place of the source. -/
theorem Moved.owner (h : Moved w t i o' n) (hi : w.objects i = some o) (ho' : o'.owns = false) (hn : n.owns = o.owns)
    {k : Nat} (hk : t.Owns k) : (k = w.made ∧ w.Owns i) ∨ (k ≠ i ∧ k ≠ w.made ∧ w.Owns k) := by
  by_cases hkm : k = w.made
  · subst hkm
    rw [owns_iff h.new, hn] at hk
    exact Or.inl ⟨rfl, (owns_iff hi).mpr hk⟩
  · by_cases hki : k = i
    · subst hki
      rw [owns_iff h.source, ho'] at hk
      cases hk
    · obtain ⟨x, hx, hxo⟩ := hk
      rw [h.other k hki hkm] at hx
      exact Or.inr ⟨hki, hkm, x, hx, hxo⟩

/-- Where nobody owns after a move, nobody did before. -/
theorem Moved.idle (h : Moved w t i o' n) (hw : Inv w) (hi : w.objects i = some o) (hn : n.owns = o.owns)
    (hnone : ∀ k, ¬ t.Owns k) : o.owns = false ∧ ∀ k, ¬ w.Owns k := by
  have hidle : ¬ o.owns = true := by
    rw [← hn, ← owns_iff h.new]
    exact hnone w.made
  refine ⟨Bool.eq_false_iff.mpr hidle, fun k hk => ?_⟩
  by_cases hki : k = i
  · subst hki
    exact hidle ((owns_iff hi).mp hk)
  · obtain ⟨x, hx, hxo⟩ := hk
    exact hnone k ⟨x, (h.other k hki (Nat.ne_of_lt (hw.below hx))).trans hx, hxo⟩

/-- A move hands the ownership the source has to the new object. -/
theorem inv_move (h : Inv w) (hi : w.objects i = some o) {prepared : Bool} (ho' : o'.owns = false)
    (hn : n.owns = o.owns) (hprepared : o.owns = false → prepared = w.prepared)
    (hnew : o.owns = true → Owning { w with prepared := prepared } n) :
    Inv { (w.put i (some o')).add n with prepared := prepared } := by
  have hmoved : Moved w { (w.put i (some o')).add n with prepared := prepared } i o' n :=
    moved_objects (Nat.ne_of_lt (h.below hi)) prepared
  refine ⟨⟨h.exact.defined, ?_, ?_⟩, ?_, ?_, ?_⟩
  · intro k hk
    cases hmoved.owner hi ho' hn hk with
    | inl hnewOwner => exact h.exact.pending i hnewOwner.2
    | inr hold => exact h.exact.pending k hold.2.2
  · intro hnone
    obtain ⟨hidle, hbefore⟩ := hmoved.idle h hi hn hnone
    have hexpected := h.exact.complete hbefore
    rw [hprepared hidle]
    exact hexpected
  · intro k hk
    have hlater : w.made + 1 ≤ k := hk
    have := h.below hi
    rw [hmoved.other k (by omega) (by omega)]
    exact h.fresh k (by omega)
  · intro j k hj hk
    cases hmoved.owner hi ho' hn hj with
    | inl hj =>
      cases hmoved.owner hi ho' hn hk with
      | inl hk => rw [hj.1, hk.1]
      | inr hk => exact absurd (h.single k i hk.2.2 hj.2) hk.1
    | inr hj =>
      cases hmoved.owner hi ho' hn hk with
      | inl hk => exact absurd (h.single j i hj.2.2 hk.2) hj.1
      | inr hk => exact h.single j k hj.2.2 hk.2.2
  · intro k x hx hxo
    cases hmoved.owner hi ho' hn ⟨x, hx, hxo⟩ with
    | inl hnewOwner =>
      obtain ⟨rfl, howner⟩ := hnewOwner
      cases hmoved.new.symm.trans hx
      exact hnew ((owns_iff hi).mp howner)
    | inr hold =>
      obtain ⟨hki, hkm, hk⟩ := hold
      have hidle : o.owns = false := by
        rw [← Bool.not_eq_true]
        exact fun ho => hki (h.single k i hk ((owns_iff hi).mpr ho))
      rw [hmoved.other k hki hkm] at hx
      rw [hprepared hidle]
      exact h.owner k x hx hxo

theorem inv_takeSpan (h : Inv w) {make : SpanObject → Scope} (hmake : ∀ s, (make s).spanOf = some s)
    (hattached : ∀ s, (make s).Attached w.prepared) (hi : w.objects i = some o) {s : SpanObject}
    (hs : o.spanOf = some s) : Inv ((w.put i (some (o.withSpan s.moved))).add (make s)) := by
  have howns : (make s).owns = o.owns := by rw [owns_of_span (hmake s), owns_of_span hs]
  have hmoved : (o.withSpan s.moved).owns = false := owns_of_span (spanOf_withSpan hs s.moved)
  apply inv_move h hi hmoved howns (fun _ => rfl)
  intro ho
  obtain ⟨start, size, hspan, hfits, hsize, -⟩ := h.owner i o hi ho
  exact ⟨start, size, by rw [hmake s, ← hs, hspan], hfits, hsize, hattached s⟩

end Moves

theorem inv_commit (h : Inv w) {size : Nat} (hstep : w.commit i size = some t) : Inv t := by
  cases hi : w.objects i with
  | none => simp [World.commit, hi] at hstep
  | some o =>
    cases hspan : o.spanOf with
    | none => simp [World.commit, hi, hspan] at hstep
    | some s =>
      cases hparent : s.parent with
      | false =>
        obtain ⟨start, length, committed, parent⟩ := s
        cases hparent
        cases start <;> simp [World.commit, hi, hspan] at hstep
      | true =>
        have hown : o.owns = true := by rw [owns_of_span hspan, hparent]
        obtain ⟨start, length, hs, hfits, hlength, hattached⟩ := h.owner i o hi hown
        by_cases hroom : subWord length w.total < size
        · simp only [World.commit, hi, hs, Span.commit, if_pos hroom, Option.some.injEq] at hstep
          exact hstep ▸ h
        · have hfits' : w.total + size ≤ length := by
            rw [subWord_exact hfits hlength] at hroom
            omega
          simp only [World.commit, hi, hs, Span.commit, if_neg hroom, Option.some.injEq] at hstep
          have hadd : addWord w.total size = w.total + size := addWord_exact (by omega)
          rw [hadd] at hstep
          have hobject : t.objects i = some (o.withSpan ⟨some start, length, w.total + size, true⟩) := by
            rw [← hstep]
            exact Function.update_self _ _ _
          have hother : ∀ k, k ≠ i → t.objects k = w.objects k := by
            intro k hk
            rw [← hstep]
            exact Function.update_of_ne hk _ _
          have howner : w.Owns i := ⟨o, hi, hown⟩
          have hkept : ∀ k, t.Owns k → k = i := by
            rintro k ⟨x, hx, hxo⟩
            by_contra hk
            rw [hother k hk] at hx
            exact hk (h.single k i ⟨x, hx, hxo⟩ howner)
          have hnew : (o.withSpan ⟨some start, length, w.total + size, true⟩).spanOf =
              some ⟨some start, length, w.total + size, true⟩ := spanOf_withSpan hs _
          subst hstep
          refine ⟨⟨h.exact.defined, fun _ _ => h.exact.pending i howner, fun hnone => ?_⟩, ?_, ?_, ?_⟩
          · exact absurd ⟨_, hobject, owns_of_span hnew⟩ (hnone i)
          · intro k hk
            rw [hother k (Nat.ne_of_gt (Nat.lt_of_lt_of_le (h.below hi) hk))]
            exact h.fresh k hk
          · intro j k hj hk
            rw [hkept j hj, hkept k hk]
          · intro k x hx hxo
            cases hkept k ⟨x, hx, hxo⟩
            rw [hobject] at hx
            cases hx
            exact ⟨start, length, hnew, hfits', hlength, attached_withSpan hattached _⟩

section Destroy

/-- What stays when an object goes: the other objects and the account of the run. -/
structure Frame (w t : World) : Prop where
  objects : t.objects = w.objects
  made : t.made = w.made
  total : t.total = w.total
  prepared : t.prepared = w.prepared
  undefined : w.undefined = true → t.undefined = true

theorem frame_refl (w : World) : Frame w w := ⟨rfl, rfl, rfl, rfl, id⟩

theorem Frame.trans {u : World} (h : Frame w t) (h' : Frame t u) : Frame w u :=
  ⟨h'.objects.trans h.objects, h'.made.trans h.made, h'.total.trans h.total, h'.prepared.trans h.prepared,
    fun hw => h'.undefined (h.undefined hw)⟩

theorem frame_fault (w : World) : Frame w w.fault := ⟨rfl, rfl, rfl, rfl, fun _ => rfl⟩

theorem frame_destroySpan (w : World) (s : SpanObject) : Frame w (w.destroySpan s) := by
  rw [World.destroySpan]
  split
  · exact ⟨rfl, rfl, rfl, rfl, id⟩
  · exact frame_refl w

theorem frame_destroyWriter (w : World) (s : WriterObject) : Frame w (w.destroyWriter s) := by
  apply Frame.trans ?_ (frame_destroySpan _ _)
  split
  · split
    · exact ⟨rfl, rfl, rfl, rfl, id⟩
    · exact frame_fault w
  · exact frame_refl w

theorem frame_notifyAll (w : World) : Frame w w.notifyAll := by
  rw [World.notifyAll]
  split
  · exact frame_fault w
  · exact ⟨rfl, rfl, rfl, rfl, id⟩

theorem frame_destroyPublisher (w : World) (p : PublisherObject) : Frame w (w.destroyPublisher p) := by
  unfold World.destroyPublisher
  split
  · exact frame_refl w
  · exact frame_destroyWriter w _
  · exact frame_fault w
  · split
    · dsimp only
      split
      · exact (frame_destroyWriter w _).trans (frame_notifyAll _)
      · exact (frame_destroyWriter w _).trans (frame_fault _)
    · exact frame_destroyWriter w _

theorem frame_destroy (w : World) (o : Scope) : Frame w (w.destroy o) := by
  cases o with
  | span s => exact frame_destroySpan w s
  | writer s => exact frame_destroyWriter w s
  | publisher p => exact frame_destroyPublisher w p

/-- What a writer scope that owns the lock shows. -/
def shown (committed : Nat) : List Effect := (if 0 < committed then [.published] else []) ++ [.released]

theorem destroyWriter_owner (w : World) {s : WriterObject} {start size committed : Nat}
    (hspan : s.span = ⟨some start, size, committed, true⟩) (hparent : s.parent = true) :
    (w.destroyWriter s).trace = w.trace ++ shown committed ∧ (w.destroyWriter s).undefined = w.undefined := by
  obtain ⟨span, type, parent⟩ := s
  cases hspan
  cases hparent
  by_cases hc : 0 < committed <;> simp [World.destroyWriter, World.destroySpan, shown, hc]

theorem destroyWriter_idle (w : World) {s : WriterObject} (hspan : s.span.parent = false)
    (hc : s.span.committed = 0) : w.destroyWriter s = w := by
  simp [World.destroyWriter, World.destroySpan, hspan, hc]

theorem destroyWriter_fault (w : World) {s : WriterObject} (hspan : s.span.parent = false)
    (hc : 0 < s.span.committed) : (w.destroyWriter s).undefined = true := by
  simp [World.destroyWriter, World.destroySpan, hspan, hc, World.fault]

theorem notifyAll_trace (w : World) :
    w.notifyAll.trace = w.trace ++ [.notified] ∧ w.notifyAll.undefined = w.undefined := by
  obtain ⟨topic, ht, -⟩ := w.topic.notifyAll_buffer
  simp [World.notifyAll, ht]

theorem Frame.expected_eq (h : Frame w t) : t.expected = w.expected := by
  rw [World.expected, World.expected, h.total, h.prepared]

theorem destroyPublisher_uncommitted (w : World) {s : WriterObject} (parent : TopicPointer)
    (hc : s.span.committed = 0) :
    w.destroyPublisher ⟨some s, parent⟩ = w.destroyWriter s := by
  cases parent <;> simp [World.destroyPublisher, hc]

theorem destroyPublisher_topic (w : World) {s : WriterObject} (hc : 0 < s.span.committed) :
    w.destroyPublisher ⟨some s, .topic⟩ = (w.destroyWriter s).notifyAll := by
  simp [World.destroyPublisher, hc]

theorem destroyPublisher_wild (w : World) {s : WriterObject} (hc : 0 < s.span.committed) :
    w.destroyPublisher ⟨some s, .wild⟩ = (w.destroyWriter s).fault := by
  simp [World.destroyPublisher, hc]

/-- An object that owns nothing goes without effect where it may go at all. -/
theorem destroy_idle (w : World) (ho : o.owns = false) (hsafe : o.Safe w.prepared) : w.destroy o = w := by
  cases o with
  | span s =>
    have hs : s.parent = false := ho
    simp [World.destroy, World.destroySpan, hs]
  | writer s =>
    have hs : s.span.parent = false := ho
    have hc : s.span.committed = 0 := by
      by_contra hne
      rw [(hsafe (Nat.pos_of_ne_zero hne)).1] at hs
      cases hs
    exact destroyWriter_idle w hs hc
  | publisher p =>
    obtain ⟨scope, parent⟩ := p
    cases scope with
    | none =>
      cases hsafe
      rfl
    | some s =>
      have hs : s.span.parent = false := ho
      have hc : s.span.committed = 0 := by
        by_contra hne
        rw [(hsafe (Nat.pos_of_ne_zero hne)).1] at hs
        cases hs
      exact (destroyPublisher_uncommitted w parent hc).trans (destroyWriter_idle w hs hc)

/-- The owner shows all that is expected where it may go. -/
theorem destroy_owner (h : Owning w o) (hsafe : o.Safe w.prepared) :
    (w.destroy o).trace = w.trace ++ w.expected ∧ (w.destroy o).undefined = w.undefined := by
  obtain ⟨start, size, hspan, -, -, hattached⟩ := h
  cases o with
  | span s =>
    cases hspan
    have htotal : w.total = 0 := hsafe rfl
    simp [World.destroy, World.destroySpan, World.expected, htotal]
  | writer s =>
    have hs : s.span = ⟨some start, size, w.total, true⟩ := Option.some.inj hspan
    obtain ⟨htrace, hdefined⟩ := destroyWriter_owner w hs hattached
    refine ⟨htrace.trans ?_, hdefined⟩
    by_cases hc : 0 < w.total
    · have hunprepared : w.prepared = false := (hsafe (by rw [hs]; exact hc)).2
      simp [World.expected, shown, hunprepared]
    · simp [World.expected, shown, hc]
  | publisher p =>
    obtain ⟨scope, parent⟩ := p
    obtain ⟨hprepared, hparent⟩ := hattached
    obtain ⟨s, hscope, hs⟩ := Option.map_eq_some_iff.mp hspan
    cases hscope
    obtain ⟨htrace, hdefined⟩ := destroyWriter_owner w hs (hparent s rfl)
    by_cases hc : 0 < w.total
    · have hpositive : 0 < s.span.committed := by rw [hs]; exact hc
      have htopic : parent = .topic := (hsafe hpositive).2
      subst htopic
      obtain ⟨hnotified, hdefined'⟩ := notifyAll_trace (w.destroyWriter s)
      rw [World.destroy, destroyPublisher_topic w hpositive, hnotified, hdefined', htrace, hdefined]
      simp [World.expected, shown, hc, hprepared]
    · have hzero : s.span.committed = 0 := by rw [hs]; exact Nat.eq_zero_of_not_pos hc
      rw [World.destroy, destroyPublisher_uncommitted w parent hzero, htrace, hdefined]
      simp [World.expected, shown, hc]

/-- Elsewhere the behaviour is undefined, or an effect of the owner is missing. -/
theorem destroy_unsafe (ho : o.owns = true → Owning w o) (hsafe : ¬ o.Safe w.prepared) :
    (w.destroy o).undefined = true ∨ o.owns = true ∧ (w.destroy o).trace ≠ w.trace ++ w.expected := by
  cases o with
  | span s =>
    right
    simp only [Scope.Safe, Classical.not_imp] at hsafe
    obtain ⟨hparent, hcommitted⟩ := hsafe
    obtain ⟨start, size, hspan, -⟩ := ho hparent
    cases hspan
    refine ⟨rfl, ?_⟩
    simp only [World.destroy, World.destroySpan, if_pos, World.expected, if_pos (Nat.pos_of_ne_zero hcommitted)]
    simp
  | writer s =>
    simp only [Scope.Safe, Classical.not_imp, not_and, Bool.not_eq_false] at hsafe
    obtain ⟨hc, hprepared⟩ := hsafe
    cases hparent : s.span.parent with
    | false => exact Or.inl (destroyWriter_fault w hparent hc)
    | true =>
      right
      obtain ⟨start, size, hspan, -, -, hattached⟩ := ho hparent
      have hs : s.span = ⟨some start, size, w.total, true⟩ := Option.some.inj hspan
      have htotal : 0 < w.total := by rwa [hs] at hc
      refine ⟨hparent, ?_⟩
      rw [World.destroy, (destroyWriter_owner w hs hattached).1]
      simp [World.expected, shown, htotal, hprepared hparent]
  | publisher p =>
    obtain ⟨scope, parent⟩ := p
    cases scope with
    | none =>
      left
      cases parent with
      | null => exact absurd rfl hsafe
      | topic => rfl
      | wild => rfl
    | some s =>
      simp only [Scope.Safe, Classical.not_imp, not_and] at hsafe
      obtain ⟨hc, hpointer⟩ := hsafe
      cases hparent : s.span.parent with
      | false =>
        left
        have hfault := destroyWriter_fault w hparent hc
        cases parent with
        | null => exact hfault
        | topic =>
          rw [World.destroy, destroyPublisher_topic w hc]
          exact (frame_notifyAll _).undefined hfault
        | wild =>
          rw [World.destroy, destroyPublisher_wild w hc]
          rfl
      | true =>
        cases parent with
        | topic => exact absurd rfl (hpointer hparent)
        | wild =>
          left
          rw [World.destroy, destroyPublisher_wild w hc]
          rfl
        | null =>
          right
          obtain ⟨start, size, hspan, -, -, hprepared, hattached⟩ := ho hparent
          have hs : s.span = ⟨some start, size, w.total, true⟩ := Option.some.inj hspan
          have htotal : 0 < w.total := by rwa [hs] at hc
          refine ⟨hparent, ?_⟩
          have htrace : (w.destroy (.publisher ⟨some s, .null⟩)).trace = w.trace ++ shown w.total :=
            (destroyWriter_owner w hs (hattached s rfl)).1
          rw [htrace]
          simp [World.expected, shown, htotal, hprepared]

end Destroy

/-- Without the object, the rest is as it was. -/
theorem inv_destroy (h : Inv w) (hi : w.objects i = some o) (hsafe : o.Safe w.prepared) :
    Inv ((w.put i none).destroy o) := by
  have hframe := frame_destroy (w.put i none) o
  have hother : ∀ k x, ((w.put i none).destroy o).objects k = some x → k ≠ i ∧ w.objects k = some x := by
    intro k x hx
    rw [hframe.objects] at hx
    by_cases hk : k = i
    · subst hk
      rw [put_self] at hx
      cases hx
    · exact ⟨hk, by rwa [put_other hk] at hx⟩
  have hkept : ∀ k, ((w.put i none).destroy o).Owns k → k ≠ i ∧ w.Owns k := by
    rintro k ⟨x, hx, hxo⟩
    exact ⟨(hother k x hx).1, x, (hother k x hx).2, hxo⟩
  have htotal : ((w.put i none).destroy o).total = w.total := hframe.total
  have hprepared : ((w.put i none).destroy o).prepared = w.prepared := hframe.prepared
  have hexpected : ((w.put i none).destroy o).expected = w.expected := hframe.expected_eq
  refine ⟨?_, ?_, ?_, ?_⟩
  · cases ho : o.owns with
    | false =>
      rw [destroy_idle (w.put i none) ho hsafe]
      refine ⟨h.exact.defined, ?_, ?_⟩
      · rintro k ⟨x, hx, hxo⟩
        by_cases hk : k = i
        · subst hk
          rw [put_self] at hx
          cases hx
        · rw [put_other hk] at hx
          exact h.exact.pending k ⟨x, hx, hxo⟩
      · intro hnone
        refine h.exact.complete ?_
        rintro k ⟨x, hx, hxo⟩
        have hk : k ≠ i := by
          rintro rfl
          have hown := (owns_iff hi).mp ⟨x, hx, hxo⟩
          rw [ho] at hown
          cases hown
        exact hnone k ⟨x, by rw [put_other hk, hx], hxo⟩
    | true =>
      have howner : w.Owns i := ⟨o, hi, ho⟩
      obtain ⟨htrace, hdefined⟩ := destroy_owner (w := w.put i none) (h.owner i o hi ho) hsafe
      refine ⟨hdefined.trans h.exact.defined, ?_, fun _ => ?_⟩
      · intro k hk
        obtain ⟨hki, hk⟩ := hkept k hk
        exact absurd (h.single k i hk howner) hki
      · rw [htrace, hexpected]
        exact congrArg (· ++ w.expected) (h.exact.pending i howner)
  · intro k hk
    rw [hframe.made] at hk
    cases hx : ((w.put i none).destroy o).objects k with
    | none => rfl
    | some x =>
      have hold := (hother k x hx).2
      rw [h.fresh k hk] at hold
      cases hold
  · intro j k hj hk
    exact h.single j k (hkept j hj).2 (hkept k hk).2
  · intro k x hx hxo
    have hold := h.owner k x (hother k x hx).2 hxo
    rw [Owning, htotal, hprepared]
    exact hold

section Step

variable {e : Event}

theorem inv_wrapWriter (h : Inv w) {s : WriterObject} (hi : w.objects i = some (.writer s)) :
    Inv { (w.put i (some (.writer s.moved))).add (.publisher ⟨some s, .topic⟩) with
      prepared := w.prepared || s.span.parent } := by
  apply inv_move (n := .publisher ⟨some s, .topic⟩) h hi rfl rfl
  · intro ho
    have hs : s.span.parent = false := ho
    rw [hs, Bool.or_false]
  · intro ho
    have hs : s.span.parent = true := ho
    obtain ⟨start, size, hspan, hfits, hsize, hattached⟩ := h.owner i _ hi ho
    refine ⟨start, size, hspan, hfits, hsize, ?_, ?_⟩
    · rw [hs, Bool.or_true]
    · rintro s' ⟨⟩
      exact hattached

theorem inv_movePublisher (h : Inv w) {p : PublisherObject} (hi : w.objects i = some (.publisher p))
    (stale : TopicPointer) : Inv ((w.put i (some (.publisher .moved))).add (.publisher ⟨p.scope, stale⟩)) := by
  apply inv_move (n := .publisher ⟨p.scope, stale⟩) h hi rfl rfl (fun _ => rfl)
  exact fun ho => h.owner i (.publisher p) hi ho

theorem inv_moveWriter (h : Inv w) {s : WriterObject} (hi : w.objects i = some (.writer s)) :
    Inv ((w.put i (some (.writer s.moved))).add (.writer s)) := by
  apply inv_move h hi rfl rfl (fun _ => rfl)
  exact fun ho => h.owner i _ hi ho

/-- Taking the span of an object needs a span there. -/
theorem takeSpan_step (h : Inv w) {make : SpanObject → Scope} (hstep : w.takeSpan i make = some t)
    (hmake : ∀ s, (make s).spanOf = some s) (hattached : ∀ s, (make s).Attached w.prepared) :
    ((∀ o, w.objects i = some o → o.spanOf ≠ none) → Inv t) ∧
    (Exact t → ∀ o, w.objects i = some o → o.spanOf ≠ none) := by
  obtain ⟨o, hi, rfl⟩ := Option.map_eq_some_iff.mp hstep
  cases hs : o.spanOf with
  | none =>
    refine ⟨fun hg => absurd hs (hg o hi), fun hexact => ?_⟩
    cases hexact.defined
  | some s =>
    refine ⟨fun _ => inv_takeSpan h hmake hattached hi hs, fun _ o' ho' => ?_⟩
    cases hi.symm.trans ho'
    rw [hs]
    exact Option.some_ne_none s

theorem inv_step (h : Inv w) (hg : Guard w e) (hstep : step w e = some t) : Inv t := by
  simp only [step, h.exact.defined, Bool.false_eq_true, if_false] at hstep
  cases e with
  | moveSpan i => exact (takeSpan_step h hstep (fun _ => rfl) (fun _ => trivial)).1 hg
  | wrapSpan i type => exact (takeSpan_step h hstep (fun _ => rfl) (fun _ => rfl)).1 hg
  | moveWriter i =>
    simp only at hstep
    split at hstep
    · rename_i s hi
      exact Option.some.inj hstep ▸ inv_moveWriter h hi
    · cases hstep
  | wrapWriter i =>
    simp only at hstep
    split at hstep
    · rename_i s hi
      exact Option.some.inj hstep ▸ inv_wrapWriter h hi
    · cases hstep
  | movePublisher i stale =>
    simp only at hstep
    split at hstep
    · rename_i p hi
      exact Option.some.inj hstep ▸ inv_movePublisher h hi stale
    · cases hstep
  | commit i size => exact inv_commit h hstep
  | destroy i =>
    obtain ⟨o, hi, rfl⟩ := Option.map_eq_some_iff.mp hstep
    exact inv_destroy h hi (hg o hi)

/-- A step outside the guard leaves a state that is not as it should be. -/
theorem guard_of_exact (h : Inv w) (hstep : step w e = some t) (hexact : Exact t) : Guard w e := by
  simp only [step, h.exact.defined, Bool.false_eq_true, if_false] at hstep
  cases e with
  | moveSpan i => exact (takeSpan_step h hstep (fun _ => rfl) (fun _ => trivial)).2 hexact
  | wrapSpan i type => exact (takeSpan_step h hstep (fun _ => rfl) (fun _ => rfl)).2 hexact
  | moveWriter i => trivial
  | wrapWriter i => trivial
  | movePublisher i stale => trivial
  | commit i size => trivial
  | destroy i =>
    obtain ⟨o, hi, rfl⟩ := Option.map_eq_some_iff.mp hstep
    intro o' ho'
    cases hi.symm.trans ho'
    by_contra hsafe
    have hframe := frame_destroy (w.put i none) o
    cases destroy_unsafe (w := w.put i none) (h.owner i o hi) hsafe with
    | inl hundefined =>
      rw [hexact.defined] at hundefined
      cases hundefined
    | inr hmissing =>
      obtain ⟨ho, htrace⟩ := hmissing
      have howner : w.Owns i := ⟨o, hi, ho⟩
      -- the only owner is gone, so all should be there
      have hnone : ∀ k, ¬ ((w.put i none).destroy o).Owns k := by
        rintro k ⟨x, hx, hxo⟩
        rw [hframe.objects] at hx
        by_cases hk : k = i
        · subst hk
          rw [put_self] at hx
          cases hx
        · rw [put_other hk] at hx
          exact hk (h.single k i ⟨x, hx, hxo⟩ howner)
      apply htrace
      rw [hexact.complete hnone, hframe.expected_eq]
      exact (congrArg (· ++ w.expected) (h.exact.pending i howner)).symm

end Step

section Start

variable {topic : TopicService} {minSize : Nat} {type : UInt64}

theorem inv_reserve (hbounded : topic.buffer.memory.Bounded) (h : reserve topic minSize = some w) : Inv w := by
  cases hspan : topic.buffer.memory.getWriteSpan minSize with
  | error e => simp [reserve, hspan] at h
  | ok r =>
    obtain ⟨span, memory⟩ := r
    simp only [reserve, hspan, Option.some.injEq] at h
    obtain ⟨hmemory, hlive⟩ := Span.live_of_getWriteSpan hbounded hspan
    have hsize : span.size < 0x10000000000000000 := by
      have := hlive.bound
      have := hmemory.size_lt
      omega
    subst h
    have honly : ∀ k x, Function.update (fun _ => none) 0
        (some (Scope.span ⟨some span.start, span.size, 0, true⟩)) k =
        some x → k = 0 ∧ x = .span ⟨some span.start, span.size, 0, true⟩ := by
      intro k x hx
      by_cases hk : k = 0
      · subst hk
        rw [Function.update_self] at hx
        exact ⟨rfl, (Option.some.inj hx).symm⟩
      · rw [Function.update_of_ne hk] at hx
        cases hx
    refine ⟨⟨rfl, fun _ _ => rfl, fun hnone => ?_⟩, ?_, ?_, ?_⟩
    · exact absurd ⟨.span ⟨some span.start, span.size, 0, true⟩, rfl, rfl⟩ (hnone 0)
    · intro k hk
      have hlater : 1 ≤ k := hk
      change Function.update (fun _ => none) 0 (some _) k = none
      exact Function.update_of_ne (by omega) _ _
    · rintro j k ⟨x, hx, -⟩ ⟨y, hy, -⟩
      rw [(honly j x hx).1, (honly k y hy).1]
    · intro k x hx _
      cases (honly k x hx).2
      exact ⟨span.start, span.size, rfl, Nat.zero_le _, hsize, trivial⟩

theorem reserve_object (h : reserve topic minSize = some w) :
    w.made = 1 ∧ ∃ s, w.objects 0 = some (.span s) ∧ s.committed = 0 := by
  cases hspan : topic.buffer.memory.getWriteSpan minSize with
  | error e => simp [reserve, hspan] at h
  | ok r =>
    simp only [reserve, hspan, Option.some.injEq] at h
    subst h
    exact ⟨rfl, ⟨some r.1.start, r.1.size, 0, true⟩, rfl, rfl⟩

/-- The local span `WriteScope` leaves behind is destroyed without effect. -/
theorem writeScope_object (hbounded : topic.buffer.memory.Bounded) (h : writeScope topic minSize type = some w) :
    Inv w ∧ ∃ s, w.objects 1 = some (.writer s) ∧ s.span.committed = 0 := by
  obtain ⟨w₀, hreserve, hrun⟩ := Option.bind_eq_some_iff.mp h
  have hinv₀ := inv_reserve hbounded hreserve
  obtain ⟨hmade, s, hs, hzero⟩ := reserve_object hreserve
  obtain ⟨w₁, hwrap, hrun⟩ := run_cons_some hrun
  obtain ⟨w₂, hdestroy, hrun⟩ := run_cons_some hrun
  cases hrun
  have hthere : Guard w₀ (.wrapSpan 0 type) := by
    intro o ho
    cases hs.symm.trans ho
    exact Option.some_ne_none s
  have hinv₁ : Inv w₁ := inv_step hinv₀ hthere hwrap
  have hw₁ : w₁ = (w₀.put 0 (some (.span s.moved))).add (.writer ⟨s, type, true⟩) := by
    simp only [step, hinv₀.exact.defined, World.takeSpan, hs, Option.map_some, Scope.spanOf, Scope.withSpan] at hwrap
    exact (Option.some.inj hwrap).symm
  have hlocal : w₁.objects 0 = some (.span s.moved) := by
    rw [hw₁]
    exact (put_other (by rw [World.put, hmade]; exact Nat.zero_ne_one) _ _).trans (put_self _ _ _)
  have hscope : w₁.objects 1 = some (.writer ⟨s, type, true⟩) := by
    rw [hw₁, ← hmade]
    exact put_self _ _ _
  have hempty : Guard w₁ (.destroy 0) := by
    intro o ho
    cases hlocal.symm.trans ho
    intro hparent
    cases hparent
  refine ⟨inv_step hinv₁ hempty hdestroy, ⟨s, type, true⟩, ?_, hzero⟩
  simp only [step, hinv₁.exact.defined, hlocal, Option.map_some] at hdestroy
  rw [← Option.some.inj hdestroy, (frame_destroy _ _).objects, put_other Nat.one_ne_zero, hscope]

theorem inv_prepare (hbounded : topic.buffer.memory.Bounded) (h : prepare topic minSize type = some w) : Inv w := by
  obtain ⟨w₀, hscope, hrun⟩ := Option.bind_eq_some_iff.mp h
  obtain ⟨hinv₀, s, hs, hzero⟩ := writeScope_object hbounded hscope
  obtain ⟨w₁, hwrap, hrun⟩ := run_cons_some hrun
  obtain ⟨w₂, hdestroy, hrun⟩ := run_cons_some hrun
  cases hrun
  have hthere : Guard w₀ (.wrapWriter 1) := trivial
  have hinv₁ : Inv w₁ := inv_step hinv₀ hthere hwrap
  have hne : 1 ≠ w₀.made := fun heq => by
    have hnone := hinv₀.fresh 1 (Nat.le_of_eq heq.symm)
    rw [hs] at hnone
    cases hnone
  have htemporary : w₁.objects 1 = some (.writer s.moved) := by
    simp only [step, hinv₀.exact.defined, hs] at hwrap
    rw [← Option.some.inj hwrap]
    exact (put_other hne _ _).trans (put_self _ _ _)
  have hempty : Guard w₁ (.destroy 1) := by
    intro o ho
    cases htemporary.symm.trans ho
    intro hpositive
    rw [show s.moved.span.committed = s.span.committed from rfl, hzero] at hpositive
    cases hpositive
  exact inv_step hinv₁ hempty hdestroy

end Start

section Topic

/-- Destroying a publish scope that was never moved is the destructor of the
topic's model. -/
theorem destroyPublisher_publish (w : World) (start size committed : Nat) (type : UInt64) :
    w.topic.publish ⟨⟨start, size, committed⟩, type⟩ =
      .ok (w.destroyPublisher ⟨some ⟨⟨some start, size, committed, true⟩, type, true⟩, .topic⟩).topic := by
  by_cases hc : 0 < committed
  · rw [destroyPublisher_topic w hc]
    simp only [TopicService.publish, if_pos hc, World.notifyAll, World.destroyWriter, World.destroySpan, if_true]
    obtain ⟨topic, ht, -⟩ := TopicService.notifyAll_buffer
      { w.topic with buffer := (⟨⟨start, size, committed⟩, type⟩ : WriterScope).destroy w.topic.buffer }
    rw [WriterScope.destroy] at ht
    rw [WriterScope.destroy, ht]
  · have hzero : committed = 0 := Nat.eq_zero_of_not_pos hc
    subst hzero
    rw [destroyPublisher_uncommitted w .topic rfl]
    simp [TopicService.publish, WriterScope.destroy, WriterScope.publish, World.destroyWriter, World.destroySpan]

/-- The trace is what happened to the buffer: entries were added and the lock
was given back as often as it says. -/
structure Recorded (entries : Nat) (w : World) : Prop where
  log : w.topic.buffer.log.length = entries + w.trace.count .published
  lock : w.topic.buffer.memory.inUse = decide (w.trace.count .released = 0)

theorem recorded_destroySpan {entries : Nat} (h : Recorded entries w) (s : SpanObject) :
    Recorded entries (w.destroySpan s) := by
  rw [World.destroySpan]
  split
  · refine ⟨?_, ?_⟩
    · simp [h.log]
    · simp
  · exact h

theorem recorded_destroyWriter {entries : Nat} (h : Recorded entries w) (s : WriterObject) :
    Recorded entries (w.destroyWriter s) := by
  apply recorded_destroySpan
  split
  · rename_i hc
    split
    · refine ⟨?_, ?_⟩
      · simp [WriterScope.publish, hc, h.log, Nat.add_assoc]
      · simpa [WriterScope.publish, hc] using h.lock
    · exact ⟨h.log, h.lock⟩
  · exact h

theorem recorded_notifyAll {entries : Nat} (h : Recorded entries w) : Recorded entries w.notifyAll := by
  obtain ⟨topic, ht, hbuffer⟩ := w.topic.notifyAll_buffer
  refine ⟨?_, ?_⟩
  · simp [World.notifyAll, ht, hbuffer, h.log]
  · simp [World.notifyAll, ht, hbuffer, h.lock]

theorem recorded_destroy {entries : Nat} (h : Recorded entries w) (o : Scope) : Recorded entries (w.destroy o) := by
  cases o with
  | span s => exact recorded_destroySpan h s
  | writer s => exact recorded_destroyWriter h s
  | publisher p =>
    simp only [World.destroy]
    unfold World.destroyPublisher
    split
    · exact h
    · exact recorded_destroyWriter h _
    · exact ⟨h.log, h.lock⟩
    · have hwriter := recorded_destroyWriter h
      split
      · dsimp only
        split
        · exact recorded_notifyAll (hwriter _)
        · exact ⟨(hwriter _).log, (hwriter _).lock⟩
      · exact hwriter _

theorem recorded_takeSpan {entries : Nat} (h : Recorded entries w) {make : SpanObject → Scope}
    (hstep : w.takeSpan i make = some t) : Recorded entries t := by
  obtain ⟨o, -, rfl⟩ := Option.map_eq_some_iff.mp hstep
  split
  · exact ⟨h.log, h.lock⟩
  · exact ⟨h.log, h.lock⟩

theorem recorded_commit {entries : Nat} (h : Recorded entries w) {size : Nat} (hstep : w.commit i size = some t) :
    Recorded entries t := by
  unfold World.commit at hstep
  split at hstep
  · cases hstep
  split at hstep
  · split at hstep
    · exact Option.some.inj hstep ▸ h
    · rename_i hcommit
      unfold Span.commit at hcommit
      split at hcommit
      · cases hcommit
      · cases hcommit
        exact Option.some.inj hstep ▸ ⟨h.log, h.lock⟩
  · cases hstep

theorem recorded_step {entries : Nat} {e : Event} (h : Recorded entries w) (hstep : step w e = some t) :
    Recorded entries t := by
  by_cases hundefined : w.undefined = true
  · simp [step, hundefined] at hstep
  simp only [step, if_neg hundefined] at hstep
  cases e with
  | moveSpan i => exact recorded_takeSpan h hstep
  | wrapSpan i type => exact recorded_takeSpan h hstep
  | moveWriter i =>
    simp only at hstep
    split at hstep
    · exact Option.some.inj hstep ▸ ⟨h.log, h.lock⟩
    · cases hstep
  | wrapWriter i =>
    simp only at hstep
    split at hstep
    · exact Option.some.inj hstep ▸ ⟨h.log, h.lock⟩
    · cases hstep
  | movePublisher i stale =>
    simp only at hstep
    split at hstep
    · exact Option.some.inj hstep ▸ ⟨h.log, h.lock⟩
    · cases hstep
  | commit i size => exact recorded_commit h hstep
  | destroy i =>
    obtain ⟨o, -, rfl⟩ := Option.map_eq_some_iff.mp hstep
    exact recorded_destroy (w := w.put i none) ⟨h.log, h.lock⟩ o

theorem recorded_start {topic : TopicService} {minSize : Nat} {type : UInt64}
    (h : writeScope topic minSize type = some w ∨ prepare topic minSize type = some w) :
    Recorded topic.buffer.log.length w := by
  have hreserve : ∀ v, reserve topic minSize = some v → Recorded topic.buffer.log.length v := by
    intro v hv
    cases hspan : topic.buffer.memory.getWriteSpan minSize with
    | error e => simp [reserve, hspan] at hv
    | ok r =>
      simp only [reserve, hspan, Option.some.injEq] at hv
      obtain ⟨-, -, hcase⟩ := CyclicMemoryPool.getWriteSpan_ok hspan
      subst hv
      refine ⟨rfl, ?_⟩
      cases hcase with
      | inl hkeep =>
        simp only [hkeep.2.2]
        rfl
      | inr hrestart =>
        simp only [hrestart.2.2]
        rfl
  have hscope : ∀ v, writeScope topic minSize type = some v → Recorded topic.buffer.log.length v := by
    intro v hv
    obtain ⟨w₀, hw₀, hrun⟩ := Option.bind_eq_some_iff.mp hv
    exact run_invariant (fun _ _ _ h hstep => recorded_step h hstep) (hreserve w₀ hw₀) hrun
  cases h with
  | inl h => exact hscope w h
  | inr h =>
    obtain ⟨w₀, hw₀, hrun⟩ := Option.bind_eq_some_iff.mp h
    exact run_invariant (fun _ _ _ h hstep => recorded_step h hstep) (hscope w₀ hw₀) hrun

end Topic

/-- Through every sequence of moves, commits and destructions one reservation
shows what it should, unless an object goes where it may not. -/
theorem moves_exact {topic : TopicService} (hbounded : topic.buffer.memory.Bounded) {minSize : Nat} {type : UInt64}
    {w₀ w : World} {es : List Event}
    (hstart : writeScope topic minSize type = some w₀ ∨ prepare topic minSize type = some w₀)
    (hrun : run step w₀ es = some w) :
    Recorded topic.buffer.log.length w ∧
    ((∀ v, Visits step w₀ es v → Exact v) ↔ Guarded step Guard w₀ es) := by
  have hinv : Inv w₀ := hstart.elim (fun h => (writeScope_object hbounded h).1) (inv_prepare hbounded)
  refine ⟨run_invariant (fun _ _ _ h hstep => recorded_step h hstep) (recorded_start hstart) hrun, ?_⟩
  refine visits_iff_guarded (fun _ h => h.exact) (fun s e t h hstep => ?_)
    (fun _ _ _ h hg hstep => inv_step h hg hstep)
    hinv hrun
  exact ⟨guard_of_exact h hstep, fun hg => (inv_step h hg hstep).exact⟩

/-- A topic without subscribers, with four slots and a pool of 64 bytes. -/
def quiet : TopicService := .new (.new 4 64 (fun _ => ⟨0, 0, 0⟩) (fun _ => 0))

/-- Committed, moved, and the moved-from scope destroyed first. -/
theorem moves_exact_moved : ∃ w₀ w,
    prepare quiet 8 1 = some w₀ ∧
    run step w₀ [.commit 2 8, .movePublisher 2 .topic, .destroy 2, .destroy 3] = some w ∧
    w.trace = [.published, .released, .notified] ∧
    ((∀ v, Visits step w₀ [.commit 2 8, .movePublisher 2 .topic, .destroy 2, .destroy 3] v → Exact v) ↔
      Guarded step Guard w₀ [.commit 2 8, .movePublisher 2 .topic, .destroy 2, .destroy 3]) := by
  have hrun : ((prepare quiet 8 1).bind fun w₀ =>
      run step w₀ [.commit 2 8, .movePublisher 2 .topic, .destroy 2, .destroy 3]).map World.trace =
        some [.published, .released, .notified] := by
    decide +kernel
  obtain ⟨w, hw, htrace⟩ := Option.map_eq_some_iff.mp hrun
  obtain ⟨w₀, hstart, hw⟩ := Option.bind_eq_some_iff.mp hw
  exact ⟨w₀, w, hstart, hw, htrace,
    (moves_exact (CyclicMemoryPool.new_bounded (by decide) _) (Or.inr hstart) hw).2⟩

/-- A prepared publish scope that was moved, its new `_parent` happening to be
null, publishes without a notification. A writer scope that was moved from
after a commit cannot be destroyed at all. -/
theorem moves_broken :
    (∃ w₀ w, prepare quiet 8 1 = some w₀ ∧
      run step w₀ [.movePublisher 2 .null, .commit 3 8, .destroy 2, .destroy 3] = some w ∧
      w.trace = [.published, .released] ∧ ¬ Exact w) ∧
    ∃ w₀ w, writeScope quiet 8 1 = some w₀ ∧
      run step w₀ [.commit 1 8, .moveWriter 1, .destroy 1] = some w ∧
      w.undefined = true ∧ ¬ Exact w := by
  have hsilent : ((prepare quiet 8 1).bind fun w₀ =>
      run step w₀ [.movePublisher 2 .null, .commit 3 8, .destroy 2, .destroy 3]).map
        (fun w => (w.trace, w.expected)) = some ([.published, .released], [.published, .released, .notified]) := by
    decide +kernel
  have hfault : ((writeScope quiet 8 1).bind fun w₀ =>
      run step w₀ [.commit 1 8, .moveWriter 1, .destroy 1]).map World.undefined = some true := by
    decide +kernel
  constructor
  · obtain ⟨w, hw, hends⟩ := Option.map_eq_some_iff.mp hsilent
    obtain ⟨w₀, hstart, hw⟩ := Option.bind_eq_some_iff.mp hw
    obtain ⟨htrace, hexpected⟩ := Prod.mk.inj hends
    refine ⟨w₀, w, hstart, hw, htrace, fun hexact => ?_⟩
    by_cases howner : ∃ i, w.Owns i
    · obtain ⟨i, hi⟩ := howner
      have hpending := hexact.pending i hi
      rw [htrace] at hpending
      cases hpending
    · have hcomplete := hexact.complete fun i hi => howner ⟨i, hi⟩
      rw [htrace, hexpected] at hcomplete
      cases hcomplete
  · obtain ⟨w, hw, hundefined⟩ := Option.map_eq_some_iff.mp hfault
    obtain ⟨w₀, hstart, hw⟩ := Option.bind_eq_some_iff.mp hw
    refine ⟨w₀, w, hstart, hw, hundefined, fun hexact => ?_⟩
    rw [hexact.defined] at hundefined
    cases hundefined

end ScopeMoves
