import Mathlib.Data.List.Nodup
import ZeroCopyRpc.SharedMemoryClient

/-!
# Which reply a request gets

Any number of threads make requests with distinct correlation ids, and any
replies come in, in any order. There is one dispatcher thread, so between the
promise of a request being set and its entry being removed nothing is looked
up; that is why the address in an entry that is found is a live promise.
-/
namespace SharedMemoryClient

open Transitions

variable {τ κ : Type}

/-- The requests have distinct correlation ids. -/
def Distinct (w : World τ κ) : Event τ κ → Prop
  | .call _ correlationId _ _ => correlationId ∉ w.begun
  | _ => True

/-- The requests whose promise has been set. -/
def World.answered (w : World τ κ) : List κ := w.fulfilled.map Prod.fst

/-- The request and the promise that a thread is in the middle of. -/
def Holds (phase : Phase κ) (id : κ) (promise : Nat) : Prop :=
  match phase with
  | .idle => False
  | .registering correlationId p _ => correlationId = id ∧ p = promise
  | .sending correlationId p _ => correlationId = id ∧ p = promise
  | .waiting correlationId p _ => correlationId = id ∧ p = promise

/-- The handler has set the promise and not yet removed the entry. -/
def Removing (dispatcher : Dispatching κ) (id : κ) : Prop :=
  match dispatcher with
  | .removing buffer _ => buffer.correlationId = id
  | _ => False

structure Inv (w : World τ κ) : Prop where
  entries : ∀ id, (w.messages.map id).isSome ↔
    id ∈ w.registered ∧ (id ∉ w.answered ∨ Removing w.dispatcher id)
  pending : ∀ id c, w.messages.map id = some c → id ∉ w.answered → w.promises c.state = some ⟨id, none⟩
  invoking : ∀ b c, w.dispatcher = .invoking b c → w.messages.map b.correlationId = some c ∧
    b.correlationId ∉ w.answered
  removing : ∀ id, Removing w.dispatcher id → id ∈ w.answered
  sane : w.dispatcher ≠ .dangling ∧ w.dispatcher ≠ .alreadySatisfied
  set : ∀ a id v, w.promises a = some ⟨id, some v⟩ → id ∈ w.answered
  held : ∀ t id a, Holds (w.phase t) id a → id ∈ w.begun ∧ ∃ value, w.promises a = some ⟨id, value⟩
  apart : ∀ t u id a b, Holds (w.phase t) id a → Holds (w.phase u) id b → t = u
  unregistered : ∀ t id a r, w.phase t = .registering id a r → id ∉ w.registered
  registered : ∀ id ∈ w.registered, id ∈ w.begun
  answered : ∀ id ∈ w.answered, id ∈ w.registered
  once : w.answered.Nodup
  own : ∀ f ∈ w.fulfilled, f.1 = f.2

variable {w w' : World τ κ} {t : τ}

theorem inv_start (topics : TopicName → Option Topic) : Inv (start topics : World τ κ) := by
  constructor <;> simp [start, World.answered, Removing, Holds]

variable [DecidableEq τ] [DecidableEq κ]

omit [DecidableEq κ] in
theorem holds_move {phase : Phase κ} {u : τ} {id : κ} {a : Nat}
    (h : Holds (Function.update w.phase t phase u) id a) :
    (u = t ∧ Holds phase id a) ∨ (u ≠ t ∧ Holds (w.phase u) id a) := by
  by_cases hu : u = t
  · rw [hu, Function.update_self] at h
    exact Or.inl ⟨hu, h⟩
  · rw [Function.update_of_ne hu] at h
    exact Or.inr ⟨hu, h⟩

omit [DecidableEq κ] in
/-- A new request makes its promise. -/
theorem inv_call {id : κ} {promise : Nat} {request : Command} (h : Inv w) (hid : id ∉ w.begun)
    (hfree : w.promises promise = none) : Inv (({ w with
      promises := Function.update w.promises promise (some ⟨id, none⟩)
      topics := closeCursor w.topics request
      begun := w.begun ++ [id] } : World τ κ).goto t (.registering id promise request)) := by
  have hother : ∀ {a : Nat} {p : Promise κ}, w.promises a = some p → a ≠ promise := by
    rintro a p ha rfl
    rw [hfree] at ha
    cases ha
  refine ⟨h.entries, ?_, h.invoking, h.removing, h.sane, ?_, ?_, ?_, ?_, ?_, h.answered, h.once, h.own⟩
  · intro id' c hc hout
    have hpending := h.pending id' c hc hout
    exact (Function.update_of_ne (hother hpending) ..).trans hpending
  · intro a id' v ha
    by_cases he : a = promise
    · subst he
      simp only [World.goto, Function.update_self] at ha
      cases ha
    · exact h.set a id' v ((Function.update_of_ne he ..).symm.trans ha)
  · intro u id' a hu
    rcases holds_move hu with ⟨-, rfl, rfl⟩ | ⟨-, hu⟩
    · exact ⟨List.mem_append_right _ List.mem_cons_self, none, Function.update_self ..⟩
    · obtain ⟨hbegun, value, hvalue⟩ := h.held u id' a hu
      exact ⟨List.mem_append_left _ hbegun, value, (Function.update_of_ne (hother hvalue) ..).trans hvalue⟩
  · intro u v id' a b hu hv
    rcases holds_move hu with ⟨rfl, rfl, -⟩ | ⟨-, huold⟩ <;>
      rcases holds_move hv with ⟨rfl, hvnew⟩ | ⟨-, hvold⟩
    · rfl
    · exact absurd (h.held v _ b hvold).1 hid
    · obtain ⟨rfl, -⟩ := hvnew
      exact absurd (h.held u _ a huold).1 hid
    · exact h.apart u v id' a b huold hvold
  · intro u id' a r hu
    by_cases he : u = t
    · subst he
      simp only [World.goto, Function.update_self] at hu
      cases hu
      exact fun hr => hid (h.registered id hr)
    · exact h.unregistered u id' a r ((Function.update_of_ne he ..).symm.trans hu)
  · intro id' hr
    exact List.mem_append_left _ (h.registered id' hr)

omit [DecidableEq κ] in
theorem registering_move {phase : Phase κ} {u : τ} {id : κ} {a : Nat} {r : Command}
    (h : Function.update w.phase t phase u = .registering id a r)
    (hphase : ∀ id a r, phase ≠ .registering id a r) :
    u ≠ t ∧ w.phase u = .registering id a r := by
  by_cases hu : u = t
  · rw [hu, Function.update_self] at h
    exact absurd h (hphase id a r)
  · rw [Function.update_of_ne hu] at h
    exact ⟨hu, h⟩

/-- The request enters its promise and its handler. -/
theorem inv_register {id : κ} {promise : Nat} {request : Command} (h : Inv w)
    (hphase : w.phase t = .registering id promise request) : Inv (({ w with
      messages := w.messages.insertOrUpdate id ⟨promise, handler request⟩
      registered := w.registered ++ [id] } : World τ κ).goto t (.sending id promise request)) := by
  have hout := h.unregistered t id promise request hphase
  have hopen : id ∉ w.answered := fun ha => hout (h.answered id ha)
  have hmine : Holds (w.phase t) id promise := by
    rw [hphase]
    exact ⟨rfl, rfl⟩
  obtain ⟨hbegun, value, hvalue⟩ := h.held t id promise hmine
  have hold : ∀ {u : τ} {id' : κ} {a : Nat},
      Holds (Function.update w.phase t (.sending id promise request) u) id' a →
      Holds (w.phase u) id' a := by
    intro u id' a hu
    rcases holds_move hu with ⟨rfl, rfl, rfl⟩ | ⟨-, hu⟩
    · exact hmine
    · exact hu
  refine ⟨?_, ?_, ?_, h.removing, h.sane, h.set, fun u id' a hu => h.held u id' a (hold hu),
    fun u v id' a b hu hv => h.apart u v id' a b (hold hu) (hold hv), ?_, ?_, ?_, h.once, h.own⟩
  · intro id'
    by_cases he : id' = id
    · subst he
      simp only [World.goto, ConcurrentDictionary.insertOrUpdate, Function.update_self, Option.isSome_some, true_iff]
      exact ⟨List.mem_append_right _ List.mem_cons_self, Or.inl hopen⟩
    · simp only [World.goto, ConcurrentDictionary.insertOrUpdate, Function.update_of_ne he, List.mem_append,
        List.mem_singleton, he, or_false]
      exact h.entries id'
  · intro id' c hc hanswered
    by_cases he : id' = id
    · subst he
      simp only [World.goto, ConcurrentDictionary.insertOrUpdate, Function.update_self, Option.some.injEq] at hc
      subst hc
      cases value with
      | none => exact hvalue
      | some v => exact absurd (h.set promise id' v hvalue) hopen
    · simp only [World.goto, ConcurrentDictionary.insertOrUpdate, Function.update_of_ne he] at hc
      exact h.pending id' c hc hanswered
  · intro b c hd
    obtain ⟨hfound, hanswered⟩ := h.invoking b c hd
    refine ⟨?_, hanswered⟩
    refine (Function.update_of_ne ?_ ..).trans hfound
    rintro rfl
    exact hout ((h.entries _).mp (by rw [hfound]; rfl)).1
  · intro u id' a r hu
    obtain ⟨hne, hu⟩ := registering_move hu (fun _ _ _ he => by cases he)
    have hnot := h.unregistered u id' a r hu
    intro hr
    rcases List.mem_append.mp hr with hr | hr
    · exact hnot hr
    · rw [List.mem_singleton] at hr
      subst hr
      have hholds : Holds (w.phase u) id' a := by
        rw [hu]
        exact ⟨rfl, rfl⟩
      exact hne (h.apart u t id' a promise hholds hmine)
  · intro id' hr
    rcases List.mem_append.mp hr with hr | hr
    · exact h.registered id' hr
    · rw [List.mem_singleton] at hr
      exact hr ▸ hbegun
  · exact fun id' ha => List.mem_append_left _ (h.answered id' ha)

omit [DecidableEq κ] in
theorem inv_send {id : κ} {promise : Nat} {request : Command} (h : Inv w)
    (hphase : w.phase t = .sending id promise request) : Inv (({ w with
      srvQueue := w.srvQueue ++ [(id, request)] } : World τ κ).goto t (.waiting id promise request)) := by
  have hold : ∀ {u : τ} {id' : κ} {a : Nat},
      Holds (Function.update w.phase t (.waiting id promise request) u) id' a →
      Holds (w.phase u) id' a := by
    intro u id' a hu
    rcases holds_move hu with ⟨rfl, rfl, rfl⟩ | ⟨-, hu⟩
    · rw [hphase]
      exact ⟨rfl, rfl⟩
    · exact hu
  refine ⟨h.entries, h.pending, h.invoking, h.removing, h.sane, h.set, fun u id' a hu => h.held u id' a (hold hu),
    fun u v id' a b hu hv => h.apart u v id' a b (hold hu) (hold hv), ?_, h.registered, h.answered, h.once, h.own⟩
  intro u id' a r hu
  exact h.unregistered u id' a r (registering_move hu (fun _ _ _ he => by cases he)).2

omit [DecidableEq κ] in
/-- The caller has its value and returns; its promise is gone. -/
theorem inv_return {id owner : κ} {promise : Nat} {request : Command} {v : Buffer κ} (h : Inv w)
    (hphase : w.phase t = .waiting id promise request) (hvalue : w.promises promise = some ⟨owner, some v⟩) :
    Inv (({ w with
      promises := Function.update w.promises promise none
      topics := complete w.topics v request } : World τ κ).goto t .idle) := by
  have hmine : Holds (w.phase t) id promise := by
    rw [hphase]
    exact ⟨rfl, rfl⟩
  have hold : ∀ {u : τ} {id' : κ} {a : Nat}, Holds (Function.update w.phase t .idle u) id' a →
      u ≠ t ∧ Holds (w.phase u) id' a := by
    intro u id' a hu
    rcases holds_move hu with ⟨-, hf⟩ | hu
    · exact False.elim hf
    · exact hu
  refine ⟨h.entries, ?_, h.invoking, h.removing, h.sane, ?_, ?_, ?_, ?_, h.registered, h.answered, h.once, h.own⟩
  · intro id' c hc hanswered
    have hpending := h.pending id' c hc hanswered
    refine (Function.update_of_ne ?_ ..).trans hpending
    rintro he
    rw [he, hvalue] at hpending
    cases hpending
  · intro a id' v' ha
    by_cases he : a = promise
    · subst he
      simp only [World.goto, Function.update_self] at ha
      cases ha
    · exact h.set a id' v' ((Function.update_of_ne he ..).symm.trans ha)
  · intro u id' a hu
    obtain ⟨hne, huold⟩ := hold hu
    obtain ⟨hbegun, value, ha⟩ := h.held u id' a huold
    refine ⟨hbegun, value, (Function.update_of_ne ?_ ..).trans ha⟩
    rintro rfl
    -- the promise at one address has one owner
    obtain ⟨-, mine, hm⟩ := h.held t id a hmine
    rw [hm] at ha
    cases ha
    exact hne (h.apart u t id a a huold hmine)
  · intro u v' id' a b hu hv
    exact h.apart u v' id' a b (hold hu).2 (hold hv).2
  · intro u id' a r hu
    exact h.unregistered u id' a r (registering_move hu (fun _ _ _ he => by cases he)).2

theorem inv_advance (h : Inv w) (hstep : advance w t = some w') : Inv w' := by
  rw [advance] at hstep
  cases hphase : w.phase t with
  | idle =>
    rw [hphase] at hstep
    cases hstep
  | registering id promise request =>
    rw [hphase] at hstep
    cases hstep
    exact inv_register h hphase
  | sending id promise request =>
    rw [hphase] at hstep
    cases hstep
    exact inv_send h hphase
  | waiting id promise request =>
    simp only [hphase] at hstep
    cases hvalue : w.promises promise with
    | none =>
      simp only [hvalue] at hstep
      cases hstep
    | some p =>
      obtain ⟨owner, value⟩ := p
      cases value with
      | none =>
        simp only [hvalue] at hstep
        cases hstep
      | some v =>
        simp only [hvalue] at hstep
        cases hstep
        exact inv_return h hphase hvalue

section Dispatch

variable {b : Buffer κ} {c : Callback}

omit [DecidableEq τ] [DecidableEq κ] in
/-- While no handler has its entry still to remove, the entries are the open requests. -/
theorem entries_open (h : Inv w) (hremoving : ∀ id, ¬ Removing w.dispatcher id) (id : κ) :
    (w.messages.map id).isSome ↔ id ∈ w.registered ∧ id ∉ w.answered := by
  rw [h.entries id]
  simp only [hremoving id, or_false]

omit [DecidableEq τ] [DecidableEq κ] in
/-- The dispatcher goes on without the handler being called. -/
theorem inv_dispatcher (d : Dispatching κ) (h : Inv w) (hremoving : ∀ id, ¬ Removing w.dispatcher id)
    (hnext : ∀ id, ¬ Removing d id)
    (hinvoking : ∀ b c, d = .invoking b c → w.messages.map b.correlationId = some c)
    (hsane : d ≠ .dangling ∧ d ≠ .alreadySatisfied)
    {topics : TopicName → Option Topic} : Inv ({ w with dispatcher := d, topics := topics } : World τ κ) := by
  have hopen := entries_open h hremoving
  refine ⟨?_, h.pending, ?_, fun id hr => absurd hr (hnext id), hsane, h.set, h.held, h.apart, h.unregistered,
    h.registered, h.answered, h.once, h.own⟩
  · intro id
    rw [hopen id]
    simp only [hnext id, or_false]
    rfl
  · intro b c hd
    have hfound := hinvoking b c hd
    exact ⟨hfound, ((hopen _).mp (by rw [hfound]; rfl)).2⟩

omit [DecidableEq τ] [DecidableEq κ] in
/-- The promise that the handler finds is the one of the reply's request, and it is not set yet. -/
theorem promise_found (h : Inv w) (hd : w.dispatcher = .invoking b c) :
    w.promises c.state = some ⟨b.correlationId, none⟩ := by
  obtain ⟨hfound, hopen⟩ := h.invoking b c hd
  exact h.pending b.correlationId c hfound hopen

omit [DecidableEq τ] [DecidableEq κ] in
/-- The handler sets the promise. -/
theorem inv_set (h : Inv w) (hd : w.dispatcher = .invoking b c) : Inv ({ w with
    promises := Function.update w.promises c.state (some ⟨b.correlationId, some b⟩)
    fulfilled := w.fulfilled ++ [(b.correlationId, b.correlationId)]
    dispatcher := .removing b c.func } : World τ κ) := by
  have hpromise := promise_found h hd
  obtain ⟨hfound, hopen⟩ := h.invoking b c hd
  have hnone : ∀ id, ¬ Removing w.dispatcher id := by
    rw [hd]
    exact fun _ => id
  have hentries := entries_open h hnone
  have hmem : ∀ id, id ∈ (w.fulfilled ++ [(b.correlationId, b.correlationId)]).map Prod.fst ↔
      id ∈ w.answered ∨ id = b.correlationId := by
    intro id
    simp [World.answered]
  have hregistered := ((hentries _).mp (by rw [hfound]; rfl)).1
  refine ⟨?_, ?_, ?_, ?_, ⟨?_, ?_⟩, ?_, ?_, h.apart, h.unregistered, h.registered, ?_, ?_, ?_⟩
  · intro id
    rw [hentries id]
    refine and_congr_right fun _ => ⟨?_, ?_⟩
    · intro hid
      by_cases he : id = b.correlationId
      · exact Or.inr he.symm
      · exact Or.inl (fun ha => ((hmem id).mp ha).elim hid he)
    · rintro (hid | rfl)
      · exact fun ha => hid ((hmem id).mpr (Or.inl ha))
      · exact hopen
  · intro id c' hc hid
    have hpending := h.pending id c' hc (fun ha => hid ((hmem id).mpr (Or.inl ha)))
    refine (Function.update_of_ne ?_ ..).trans hpending
    intro he
    rw [he, hpromise] at hpending
    cases hpending
    exact hid ((hmem _).mpr (Or.inr rfl))
  · intro b' c' he
    cases he
  · rintro id rfl
    exact (hmem _).mpr (Or.inr rfl)
  · exact fun he => by cases he
  · exact fun he => by cases he
  · intro a id v ha
    apply (hmem id).mpr
    by_cases he : a = c.state
    · subst he
      simp only [Function.update_self, Option.some.injEq, Promise.mk.injEq] at ha
      exact Or.inr ha.1.symm
    · exact Or.inl (h.set a id v ((Function.update_of_ne he ..).symm.trans ha))
  · intro t id a ht
    obtain ⟨hbegun, value, ha⟩ := h.held t id a ht
    refine ⟨hbegun, ?_⟩
    by_cases he : a = c.state
    · subst he
      rw [hpromise] at ha
      cases ha
      exact ⟨some b, Function.update_self ..⟩
    · exact ⟨value, (Function.update_of_ne he ..).trans ha⟩
  · intro id hid
    rcases (hmem id).mp hid with hid | rfl
    · exact h.answered id hid
    · exact hregistered
  · rw [World.answered, List.map_append, List.nodup_append]
    refine ⟨h.once, List.nodup_singleton _, ?_⟩
    rintro id hid _ hlast rfl
    rw [List.map_singleton, List.mem_singleton] at hlast
    subst hlast
    exact hopen hid
  · intro f hf
    rcases List.mem_append.mp hf with hf | hf
    · exact h.own f hf
    · rw [List.mem_singleton] at hf
      rw [hf]

omit [DecidableEq τ] in
/-- The handler removes the entry. -/
theorem inv_remove {func : Handler} (d : Dispatching κ) (h : Inv w) (hd : w.dispatcher = .removing b func)
    (hnext : ∀ id, ¬ Removing d id)
    (hinvoking : ∀ b c, d ≠ .invoking b c) (hsane : d ≠ .dangling ∧ d ≠ .alreadySatisfied) : Inv ({ w with
      messages := (w.messages.remove b.correlationId).2
      dispatcher := d } : World τ κ) := by
  have hanswered : b.correlationId ∈ w.answered := by
    apply h.removing
    rw [hd]
    rfl
  refine ⟨?_, ?_, fun b c he => absurd he (hinvoking b c), fun id hr => absurd hr (hnext id), hsane, h.set, h.held,
    h.apart, h.unregistered, h.registered, h.answered, h.once, h.own⟩
  · intro id
    simp only [hnext id, or_false, ConcurrentDictionary.remove]
    by_cases he : id = b.correlationId
    · subst he
      rw [Function.update_self]
      exact ⟨fun hs => absurd hs Bool.false_ne_true, fun hid => absurd hanswered hid.2⟩
    · rw [Function.update_of_ne he, h.entries id, hd]
      simp only [Removing, eq_comm, he, or_false]
      rfl
  · intro id c hc hid
    have hne : id ≠ b.correlationId := by
      rintro rfl
      exact hid hanswered
    exact h.pending id c ((Function.update_of_ne hne ..).symm.trans hc) hid

omit [DecidableEq τ] in
theorem inv_dispatch (h : Inv w) (hstep : dispatch w = some w') : Inv w' := by
  rw [dispatch] at hstep
  cases hd : w.dispatcher with
  | looking b =>
    have hnone : ∀ id, ¬ Removing w.dispatcher id := by
      rw [hd]
      exact fun _ => id
    simp only [hd] at hstep
    by_cases hstop : b.msgType = 0
    · rw [if_pos hstop] at hstep
      cases hstep
      exact inv_dispatcher .exited h hnone (fun _ => id) (fun _ _ he => by cases he) ⟨nofun, nofun⟩
    · rw [if_neg hstop] at hstep
      cases hfound : w.messages.tryGetValue b.correlationId with
      | none =>
        simp only [hfound] at hstep
        cases hstep
        exact inv_dispatcher .receiving h hnone (fun _ => id) (fun _ _ he => by cases he) ⟨nofun, nofun⟩
      | some c =>
        simp only [hfound] at hstep
        cases hstep
        refine inv_dispatcher (.invoking b c) h hnone (fun _ => id) ?_ ⟨nofun, nofun⟩
        rintro b' c' ⟨⟩
        exact hfound
  | invoking b c =>
    simp only [hd, promise_found h hd] at hstep
    cases hstep
    exact inv_set h hd
  | removing b func =>
    simp only [hd] at hstep
    by_cases hack : func = .onUnsubscribed ∧ b.isSuccess = true
    · rw [if_pos hack] at hstep
      cases hstep
      exact inv_remove (.acknowledging b) h hd (fun _ => id) (fun _ _ => nofun) ⟨nofun, nofun⟩
    · rw [if_neg hack] at hstep
      cases hstep
      exact inv_remove .receiving h hd (fun _ => id) (fun _ _ => nofun) ⟨nofun, nofun⟩
  | acknowledging b =>
    have hnone : ∀ id, ¬ Removing w.dispatcher id := by
      rw [hd]
      exact fun _ => id
    simp only [hd] at hstep
    cases htopic : w.topics b.topicName with
    | none =>
      simp only [htopic] at hstep
      cases hstep
      exact inv_dispatcher .nullTopic h hnone (fun _ => id) (fun _ _ he => by cases he) ⟨nofun, nofun⟩
    | some topic =>
      simp only [htopic] at hstep
      cases hstep
      exact inv_dispatcher .receiving h hnone (fun _ => id) (fun _ _ he => by cases he) ⟨nofun, nofun⟩
  | _ =>
    simp only [hd] at hstep
    cases hstep

end Dispatch

theorem inv_step {e : Event τ κ} (h : Inv w) (hdistinct : Distinct w e) (hstep : step w e = some w') : Inv w' := by
  cases e with
  | call t id promise request =>
    simp only [step] at hstep
    cases hphase : w.phase t with
    | idle =>
      cases hfree : w.promises promise with
      | none =>
        simp only [hphase, hfree] at hstep
        cases hstep
        exact inv_call h hdistinct hfree
      | some p =>
        simp only [hphase, hfree] at hstep
        cases hstep
    | _ =>
      simp only [hphase] at hstep
      cases hstep
  | advance t => exact inv_advance h hstep
  | reply b =>
    simp only [step] at hstep
    cases hd : w.dispatcher with
    | receiving =>
      rw [hd] at hstep
      cases hstep
      have hnone : ∀ id, ¬ Removing w.dispatcher id := by
        rw [hd]
        exact fun _ => id
      exact inv_dispatcher (.looking b) h hnone (fun _ => id) (fun _ _ he => by cases he) ⟨nofun, nofun⟩
    | _ =>
      rw [hd] at hstep
      cases hstep
  | dispatch => exact inv_dispatch h hstep

/-- Each promise is set at most once and from a reply with its own correlation
id; no handler runs twice for a request; a handler that is about to run finds
the promise of that request, not set and not gone; and outside of the handler
the entries are the requests that were registered and not answered. -/
structure Matched (w : World τ κ) : Prop where
  once : (w.fulfilled.map Prod.fst).Nodup
  own : ∀ f ∈ w.fulfilled, f.1 = f.2
  handledOnce : (w.fulfilled.map Prod.snd).Nodup
  alive : ∀ b c, w.dispatcher = .invoking b c → w.promises c.state = some ⟨b.correlationId, none⟩
  untouched : w.dispatcher ≠ .dangling ∧ w.dispatcher ≠ .alreadySatisfied
  entries : (∀ b func, w.dispatcher ≠ .removing b func) → ∀ id, (w.messages.map id).isSome ↔
    id ∈ w.registered ∧ id ∉ w.fulfilled.map Prod.fst

omit [DecidableEq τ] [DecidableEq κ] in
theorem matched_of_inv (h : Inv w) : Matched w := by
  refine ⟨h.once, h.own, ?_, fun b c hd => promise_found h hd, h.sane, ?_⟩
  · have hsame : w.fulfilled.map Prod.snd = w.fulfilled.map Prod.fst :=
      List.map_congr_left (fun f hf => (h.own f hf).symm)
    rw [hsame]
    exact h.once
  · intro hnot id
    have hnone : ¬ Removing w.dispatcher id := by
      intro hr
      cases hd : w.dispatcher <;> rw [hd] at hr
      case removing b func => exact hnot b func hd
      all_goals exact hr
    rw [h.entries id]
    simp only [hnone, or_false]
    rfl

/-- Whatever replies come in, in every run of requests with distinct correlation
ids every state is matched. -/
theorem replies_matched {topics : TopicName → Option Topic} {es : List (Event τ κ)}
    (hdistinct : Guarded step Distinct (start topics) es) (hvisit : Visits step (start topics) es w) : Matched w :=
  matched_of_inv (guarded_visits (fun _ _ _ h hg hstep => inv_step h hg hstep) (inv_start topics) hdistinct hvisit)

/-- Two requests under way; the first one is answered twice, and a reply comes in
for a request that nobody made. -/
def answeredTwice : List (Event Nat Nat) :=
  [.call 0 1 100 (.hello 5), .advance 0, .advance 0, .call 1 2 200 (.subscribe [116]), .advance 1,
    .reply ⟨4, 1, 5, 0, [], false, 0⟩, .dispatch, .dispatch, .dispatch,
    .reply ⟨4, 1, 5, 0, [], false, 0⟩, .dispatch, .reply ⟨4, 9, 5, 0, [], false, 0⟩, .dispatch, .advance 0]

theorem replies_matched_answered_twice : ∃ w, run step (start fun _ => none) answeredTwice = some w ∧
    w.fulfilled = [(1, 1)] ∧ w.promises 100 = none ∧ Matched w := by
  have hguard : Guarded step Distinct (start fun _ => none) answeredTwice :=
    guarded_step List.not_mem_nil rfl <| guarded_step trivial rfl <| guarded_step trivial rfl <|
      guarded_step (by decide : 2 ∉ [1]) rfl <| guarded_step trivial rfl <| guarded_step trivial rfl <|
      guarded_step trivial rfl <| guarded_step trivial rfl <| guarded_step trivial rfl <| guarded_step trivial rfl <|
      guarded_step trivial rfl <| guarded_step trivial rfl <| guarded_step trivial rfl <| guarded_step trivial rfl <|
      guarded_nil _ _ _
  exact ⟨_, rfl, rfl, rfl, replies_matched hguard (visits_end rfl)⟩

end SharedMemoryClient
