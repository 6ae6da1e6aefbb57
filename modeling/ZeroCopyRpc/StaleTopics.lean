import ZeroCopyRpc.SharedMemoryServer
import ZeroCopyRpc.TopicClearing

/-!
# The segment that a client keeps

A client maps the segment of a topic at its first subscription and keeps the
mapping as long as it lives. The server maps a segment when it creates the topic;
it takes the name away when it removes a topic that has no subscriptions, and so
does the command that clears a topic. A segment outlives its name wherever it is
mapped, and a topic that is created without a name gets a new one.

There is one server at a time on the channel. Its destructor removes the topics one
by one. An exception in the dispatcher or in a client is an event that cannot happen.
-/
namespace StaleTopics

open Transitions

/-- What the processes share of a topic; `topicName` is the name it was made under. -/
structure Segment where
  topicName : TopicName
  subscribers : Nat → SubscriptionSharedData
  buffer : CyclicBuffer

def Segment.write (g : Segment) (t : TopicService) : Segment :=
  { g with subscribers := t.subscribers, buffer := t.buffer }

/-- A service, with the segment that it has mapped. -/
structure Service where
  object : Nat
  calls : TopicClearing.World

/-- A segment is meant by its place. -/
structure World (κ : Type) where
  segments : List Segment
  names : TopicName → Option Nat
  services : TopicName → Option Service
  -- those of the topics that have no service
  semaphores : TopicName → Semaphores SemaphoreName
  -- what each client has mapped
  topics : κ → TopicName → Option Nat

inductive Event (κ : Type) where
  | createTopic (topicName : TopicName) (messageCount bufferSize : Nat) (running : Nat → Bool)
  | removeTopic (topicName : TopicName)
  | call (topicName : TopicName) (c : TopicClearing.Call)
  | tryRemove (topicName : TopicName)
  | crash
  | getOrCreate (client : κ) (topicName : TopicName)
  -- cursors acquire semaphores and take their names away
  | useSemaphores (topicName : TopicName) (os : Semaphores SemaphoreName)
  | destroyClient (client : κ)

variable {κ : Type} [DecidableEq κ]

def start (semaphores : TopicName → Semaphores SemaphoreName) : World κ :=
  ⟨[], fun _ => none, fun _ => none, semaphores, fun _ _ => none⟩

namespace World

variable (w : World κ)

/-- What the service has done in its segment, the others see. -/
def serve (topicName : TopicName) (s : Service) : World κ :=
  { w with
    segments := w.segments.modify s.object fun g => g.write s.calls.topic
    services := Function.update w.services topicName (some s) }

/-- `TopicService::TopicService`. -/
def construct (topicName : TopicName) (messageCount bufferSize : Nat) (running : Nat → Bool) : Option (World κ) :=
  match w.names topicName with
  | some object => w.segments[object]?.bind fun g =>
    let t : TopicService := ⟨.new 256 .new, .new 256, g.subscribers, g.buffer, w.semaphores topicName, 0⟩
    (t.rebuild running).toOption.map fun t => w.serve topicName ⟨object, ⟨t, none, []⟩⟩
  | none =>
    let t := TopicClearing.construct ⟨0, fun _ => 0⟩ messageCount bufferSize (w.semaphores topicName) 0 running
    t.toOption.map fun t =>
      { w with
        segments := w.segments ++ [⟨topicName, t.subscribers, t.buffer⟩]
        names := Function.update w.names topicName (some w.segments.length)
        services := Function.update w.services topicName (some ⟨w.segments.length, ⟨t, none, []⟩⟩) }

/-- `OnCreateTopic`; the constructor divides by the count. -/
def onCreateTopic (topicName : TopicName) (messageCount bufferSize : Nat)
    (running : Nat → Bool) : Option (World κ) :=
  match w.services topicName with
  | some _ => some w
  | none => if messageCount = 0 then none else w.construct topicName messageCount bufferSize running

/-- The server's side of `RemoveTopic`, with the destructor of the service. -/
def removeSubscription (topicName : TopicName) : World κ :=
  match w.services topicName with
  | none => w
  | some s => { w with
      names := if s.calls.topic.subscriptions.empty then Function.update w.names topicName none else w.names
      services := Function.update w.services topicName none
      semaphores := Function.update w.semaphores topicName s.calls.topic.semaphores }

def getOrCreate (client : κ) (topicName : TopicName) : Option (World κ) :=
  match w.topics client topicName with
  | some _ => some w
  | none => (w.names topicName).map fun object =>
    { w with topics := Function.update w.topics client (Function.update (w.topics client) topicName (some object)) }

def tryRemove (topicName : TopicName) : World κ := { w with names := Function.update w.names topicName none }

def useSemaphores (topicName : TopicName) (os : Semaphores SemaphoreName) : World κ :=
  match w.services topicName with
  | none => { w with semaphores := Function.update w.semaphores topicName os }
  | some s => { w with
      services := Function.update w.services topicName (some { s with
        calls := { s.calls with topic := { s.calls.topic with semaphores := os } } }) }

/-- The segment that the topic's service has mapped, or the one that it would map if it were created. -/
def current (topicName : TopicName) : Option Nat := ((w.services topicName).map Service.object).or (w.names topicName)

end World

def step : Machine (World κ) (Event κ)
  | w, .createTopic topicName messageCount bufferSize running =>
    w.onCreateTopic (setTopicName topicName) messageCount bufferSize running
  | w, .removeTopic topicName => some (w.removeSubscription (setTopicName topicName))
  | w, .call topicName c => (w.services topicName).bind fun s =>
    (TopicClearing.call s.calls c).map fun calls => w.serve topicName { s with calls := calls }
  | w, .tryRemove topicName => some (w.tryRemove topicName)
  | w, .crash => some { w with
      services := fun _ => none
      semaphores := fun topicName => (w.services topicName).elim (w.semaphores topicName) fun s =>
        s.calls.topic.semaphores }
  | w, .getOrCreate client topicName => w.getOrCreate client topicName
  | w, .useSemaphores topicName os => some (w.useSemaphores topicName os)
  | w, .destroyClient client => some { w with topics := Function.update w.topics client fun _ => none }

/-- The events after which a topic is served from another segment. A name that is taken away while
the topic has a service is missed when the service goes. -/
def Abandons (n : TopicName) (w : World κ) : Event κ → Prop
  | .removeTopic topicName => setTopicName topicName = n ∧
    ∃ s, w.services n = some s ∧ (s.calls.topic.subscriptions.empty = true ∨ w.names n = none)
  | .tryRemove topicName => topicName = n ∧ w.services n = none
  | .crash => (w.services n).isSome ∧ w.names n = none
  | _ => False

/-- The segment is one of the topic's. -/
def World.Made (w : World κ) (n : TopicName) (o : Nat) : Prop := (w.segments[o]?).map Segment.topicName = some n

structure Inv (w : World κ) : Prop where
  names : ∀ n o, w.names n = some o → w.Made n o
  services : ∀ n s, w.services n = some s → w.Made n s.object ∧ (w.names n = none ∨ w.names n = some s.object)
  topics : ∀ k n o, w.topics k n = some o → w.Made n o

variable {w w' : World κ} {n m : TopicName} {o : Nat}

omit [DecidableEq κ] in
theorem made_lt (h : w.Made n o) : o < w.segments.length := by
  obtain ⟨g, hg, -⟩ := Option.map_eq_some_iff.mp h
  exact (List.getElem?_eq_some_iff.mp hg).1

omit [DecidableEq κ] in
theorem made_unique (h : w.Made n o) (h' : w.Made m o) : n = m := Option.some.inj (h.symm.trans h')

omit [DecidableEq κ] in
theorem inv_start (semaphores : TopicName → Semaphores SemaphoreName) : Inv (start semaphores : World κ) := by
  constructor <;> simp [start]

/-- What is found in a table after one entry was written. -/
theorem update_found {α β : Type} [DecidableEq α] {f : α → Option β} {a b : α} {v : Option β} {x : β}
    (h : Function.update f a v b = some x) : b = a ∧ v = some x ∨ f b = some x := by
  by_cases hb : b = a
  · subst hb
    rw [Function.update_self] at h
    exact Or.inl ⟨rfl, h⟩
  · rw [Function.update_of_ne hb] at h
    exact Or.inr h

theorem update_none {α β : Type} [DecidableEq α] (f : α → Option β) (a b : α) :
    Function.update f a none b = none ∨ Function.update f a none b = f b := by
  by_cases hb : b = a
  · subst hb
    exact Or.inl (Function.update_self ..)
  · exact Or.inr (Function.update_of_ne hb ..)

section Current

omit [DecidableEq κ] in
theorem current_service {s : Service} (h : w.services n = some s) : w.current n = some s.object := by
  rw [World.current, h, Option.map_some, Option.some_or]

omit [DecidableEq κ] in
theorem current_name (h : w.services n = none) : w.current n = w.names n := by
  rw [World.current, h, Option.map_none, Option.none_or]

omit [DecidableEq κ] in
theorem current_made (h : Inv w) (hcurrent : w.current n = some o) : w.Made n o := by
  cases hs : w.services n with
  | none => exact h.names n o (current_name hs ▸ hcurrent)
  | some s =>
    rw [current_service hs, Option.some.injEq] at hcurrent
    exact hcurrent ▸ (h.services n s hs).1

omit [DecidableEq κ] in
/-- A name leads to the segment that is served. -/
theorem current_of_names (h : Inv w) (hname : w.names n = some o) : w.current n = some o := by
  cases hs : w.services n with
  | none => rw [current_name hs, hname]
  | some s =>
    rcases (h.services n s hs).2 with hnone | hsome
    · rw [hnone] at hname
      cases hname
    · rw [current_service hs, ← hsome, hname]

omit [DecidableEq κ] in
theorem current_congr (hnames : w'.names n = w.names n)
    (hservices : (w'.services n).map Service.object = (w.services n).map Service.object) :
    w'.current n = w.current n := by
  rw [World.current, World.current, hnames, hservices]

end Current

/-- The spec of a step, apart from what it abandons. -/
structure Frame (w w' : World κ) : Prop where
  made : ∀ n o, w.Made n o → w'.Made n o
  names : ∀ n o, w'.names n = some o → w.names n = some o ∨ w'.Made n o
  services : ∀ n s, w'.services n = some s →
    (w.current n = some s.object ∨ w'.Made n s.object) ∧ (w'.names n = none ∨ w'.names n = some s.object)
  topics : ∀ k n o, w'.topics k n = some o → w.topics k n = some o ∨ w.names n = some o
  -- a segment that is not served is not written
  frozen : ∀ n o, w.Made n o → w.current n ≠ some o → w'.segments[o]? = w.segments[o]?

omit [DecidableEq κ] in
theorem inv_frame (h : Inv w) (hf : Frame w w') : Inv w' where
  names n o hname := (hf.names n o hname).elim (fun hold => hf.made n o (h.names n o hold)) id
  services n s hs := by
    obtain ⟨hmade, hnames⟩ := hf.services n s hs
    exact ⟨hmade.elim (fun hold => hf.made n _ (current_made h hold)) id, hnames⟩
  topics k n o htopic := by
    rcases hf.topics k n o htopic with hold | hname
    · exact hf.made n o (h.topics k n o hold)
    · exact hf.made n o (h.names n o hname)

section Frames

omit [DecidableEq κ] in
/-- Names and services may go, the segments are left alone. -/
theorem frame_quiet (h : Inv w) (hsegments : w'.segments = w.segments)
    (hnames : ∀ n, w'.names n = none ∨ w'.names n = w.names n)
    (hservices : ∀ n s, w'.services n = some s → ∃ t, w.services n = some t ∧ t.object = s.object)
    (htopics : ∀ k n o, w'.topics k n = some o → w.topics k n = some o ∨ w.names n = some o) : Frame w w' where
  made n o hmade := by rwa [World.Made, hsegments]
  names n o hname := by
    rcases hnames n with hnone | hsame
    · rw [hnone] at hname
      cases hname
    · exact Or.inl (hsame ▸ hname)
  services n s hs := by
    obtain ⟨t, ht, hobject⟩ := hservices n s hs
    refine ⟨Or.inl (by rw [current_service ht, hobject]), ?_⟩
    rcases hnames n with hnone | hsame
    · exact Or.inl hnone
    · rw [hsame, ← hobject]
      exact (h.services n t ht).2
  topics := htopics
  frozen n o _ _ := by rw [hsegments]

omit [DecidableEq κ] in
/-- Only the segment of the service is written, and its name stays. -/
theorem serve_segment (s : Service) (ho : s.object ≠ o) : (w.serve m s).segments[o]? = w.segments[o]? := by
  simp [World.serve, ho]

omit [DecidableEq κ] in
theorem serve_made (s : Service) : (w.serve m s).Made n o ↔ w.Made n o := by
  by_cases ho : s.object = o
  · simp [World.Made, World.serve, ho, Function.comp_def, Segment.write]
  · rw [World.Made, serve_segment s ho, World.Made]

omit [DecidableEq κ] in
theorem frame_serve (h : Inv w) {s : Service} (hcurrent : w.current m = some s.object)
    (hname : w.names m = none ∨ w.names m = some s.object) : Frame w (w.serve m s) where
  made n o hmade := (serve_made s).mpr hmade
  names n o hold := Or.inl hold
  services n t ht := by
    obtain ⟨rfl, hnew⟩ | hold := update_found ht
    · cases hnew
      exact ⟨Or.inl hcurrent, hname⟩
    · exact ⟨Or.inl (current_service hold), (h.services n t hold).2⟩
  topics k n o hold := Or.inl hold
  frozen n o hmade hidle := by
    refine serve_segment s fun ho => ?_
    subst ho
    have hn : n = m := made_unique hmade (current_made h hcurrent)
    exact hidle (hn ▸ hcurrent)

omit [DecidableEq κ] in
/-- A service that finds its name taken maps what it leads to, any other gets a new segment. -/
theorem construct_some {messageCount bufferSize : Nat} {running : Nat → Bool}
    (h : w.construct m messageCount bufferSize running = some w') :
    (∃ object calls, w.names m = some object ∧ w' = w.serve m ⟨object, calls⟩) ∨
    ∃ g calls, w.names m = none ∧ g.topicName = m ∧ w' = { w with
      segments := w.segments ++ [g]
      names := Function.update w.names m (some w.segments.length)
      services := Function.update w.services m (some ⟨w.segments.length, calls⟩) } := by
  cases hname : w.names m with
  | some object =>
    simp only [World.construct, hname, Option.bind_eq_some_iff, Option.map_eq_some_iff] at h
    obtain ⟨g, -, t, -, rfl⟩ := h
    exact Or.inl ⟨object, _, rfl, rfl⟩
  | none =>
    simp only [World.construct, hname, Option.map_eq_some_iff] at h
    obtain ⟨t, -, rfl⟩ := h
    exact Or.inr ⟨_, _, rfl, rfl, rfl⟩

omit [DecidableEq κ] in
theorem onCreateTopic_some {messageCount bufferSize : Nat} {running : Nat → Bool}
    (h : w.onCreateTopic m messageCount bufferSize running = some w') :
    w' = w ∨ w.services m = none ∧ w.construct m messageCount bufferSize running = some w' := by
  cases hs : w.services m with
  | some s =>
    rw [World.onCreateTopic, hs] at h
    exact Or.inl (Option.some.inj h).symm
  | none =>
    simp only [World.onCreateTopic, hs, Option.ite_none_left_eq_some] at h
    exact Or.inr ⟨rfl, h.2⟩

omit [DecidableEq κ] in
theorem frame_refl (h : Inv w) : Frame w w :=
  frame_quiet h rfl (fun _ => Or.inr rfl) (fun _ s hs => ⟨s, hs, rfl⟩) fun _ _ _ => Or.inl

omit [DecidableEq κ] in
theorem frame_construct (h : Inv w) (hs : w.services m = none) {messageCount bufferSize : Nat} {running : Nat → Bool}
    (hw : w.construct m messageCount bufferSize running = some w') : Frame w w' := by
  obtain ⟨object, calls, hname, rfl⟩ | ⟨g, calls, -, hg, rfl⟩ := construct_some hw
  · exact frame_serve h ((current_name hs).trans hname) (Or.inr hname)
  · have hnew : World.Made { w with
        segments := w.segments ++ [g]
        names := Function.update w.names m (some w.segments.length)
        services := Function.update w.services m (some ⟨w.segments.length, calls⟩) } m w.segments.length := by
      rw [World.Made, List.getElem?_concat_length, Option.map_some, hg]
    constructor
    case made =>
      intro n o hmade
      rwa [World.Made, List.getElem?_append_left (made_lt hmade)]
    case names =>
      intro n o hname
      obtain ⟨rfl, hlast⟩ | hold := update_found hname
      · cases hlast
        exact Or.inr hnew
      · exact Or.inl hold
    case services =>
      intro n s hservice
      obtain ⟨rfl, hlast⟩ | hold := update_found hservice
      · cases hlast
        exact ⟨Or.inr hnew, Or.inr (Function.update_self ..)⟩
      · have hn : n ≠ m := by
          rintro rfl
          rw [hs] at hold
          cases hold
        simp only [Function.update_of_ne hn]
        exact ⟨Or.inl (current_service hold), (h.services n s hold).2⟩
    case topics => exact fun k n o => Or.inl
    case frozen => exact fun n o hmade _ => List.getElem?_append_left (made_lt hmade)

end Frames

theorem step_frame (h : Inv w) {e : Event κ} (hs : step w e = some w') : Frame w w' := by
  cases e with
  | createTopic topicName messageCount bufferSize running =>
    obtain rfl | ⟨hnone, hw⟩ := onCreateTopic_some hs
    · exact frame_refl h
    · exact frame_construct h hnone hw
  | removeTopic topicName =>
    cases hs
    cases hservice : w.services (setTopicName topicName) with
    | none =>
      rw [World.removeSubscription, hservice]
      exact frame_refl h
    | some s =>
      rw [World.removeSubscription, hservice]
      refine frame_quiet h rfl (fun n => ?_) (fun n t ht => ?_) fun _ _ _ => Or.inl
      · by_cases hempty : s.calls.topic.subscriptions.empty = true
        · simp only [hempty, if_true]
          exact update_none ..
        · simp only [hempty, Bool.false_eq_true, if_false, or_true]
      · obtain ⟨-, hnone⟩ | hold := update_found ht
        · cases hnone
        · exact ⟨t, hold, rfl⟩
  | call topicName c =>
    simp only [step, Option.bind_eq_some_iff, Option.map_eq_some_iff] at hs
    obtain ⟨s, hservice, calls, -, rfl⟩ := hs
    have hcurrent : w.current topicName = some s.object := current_service hservice
    exact frame_serve h hcurrent (h.services topicName s hservice).2
  | tryRemove topicName =>
    cases hs
    exact frame_quiet h rfl (fun _ => update_none ..) (fun _ s hservice => ⟨s, hservice, rfl⟩) fun _ _ _ => Or.inl
  | crash =>
    cases hs
    exact frame_quiet h rfl (fun _ => Or.inr rfl) (fun _ _ hservice => by cases hservice) fun _ _ _ => Or.inl
  | getOrCreate client topicName =>
    cases htopic : w.topics client topicName with
    | some object =>
      simp only [step, World.getOrCreate, htopic, Option.some.injEq] at hs
      exact hs ▸ frame_refl h
    | none =>
      simp only [step, World.getOrCreate, htopic, Option.map_eq_some_iff] at hs
      obtain ⟨object, hname, rfl⟩ := hs
      refine frame_quiet h rfl (fun _ => Or.inr rfl) (fun _ s hservice => ⟨s, hservice, rfl⟩) fun k n o hk => ?_
      by_cases hclient : k = client
      · subst hclient
        simp only [Function.update_self] at hk
        obtain ⟨rfl, hsame⟩ | hold := update_found hk
        · exact Or.inr (hname.trans hsame)
        · exact Or.inl hold
      · simp only [Function.update_of_ne hclient] at hk
        exact Or.inl hk
  | useSemaphores topicName os =>
    cases hs
    cases hservice : w.services topicName with
    | none =>
      rw [World.useSemaphores, hservice]
      exact frame_quiet h rfl (fun _ => Or.inr rfl) (fun _ s hold => ⟨s, hold, rfl⟩) fun _ _ _ => Or.inl
    | some s =>
      rw [World.useSemaphores, hservice]
      refine frame_quiet h rfl (fun _ => Or.inr rfl) (fun n t ht => ?_) fun _ _ _ => Or.inl
      obtain ⟨rfl, hnew⟩ | hold := update_found ht
      · cases hnew
        exact ⟨s, hservice, rfl⟩
      · exact ⟨t, hold, rfl⟩
  | destroyClient client =>
    cases hs
    refine frame_quiet h rfl (fun _ => Or.inr rfl) (fun _ s hservice => ⟨s, hservice, rfl⟩) fun k n o hk => ?_
    by_cases hclient : k = client
    · simp [hclient] at hk
    · simp only [Function.update_of_ne hclient] at hk
      exact Or.inl hk

theorem inv_step (h : Inv w) {e : Event κ} (hs : step w e = some w') : Inv w' := inv_frame h (step_frame h hs)

section Abandoned

omit [DecidableEq κ] in
theorem serve_current {s : Service} (h : w.current m = some s.object) (n : TopicName) :
    (w.serve m s).current n = w.current n := by
  by_cases hn : n = m
  · subst hn
    rw [h, current_service (s := s) (Function.update_self ..)]
  · exact current_congr rfl (congrArg _ (Function.update_of_ne hn ..))

omit [DecidableEq κ] in
theorem construct_current (hs : w.services m = none) {messageCount bufferSize : Nat} {running : Nat → Bool}
    (hw : w.construct m messageCount bufferSize running = some w') (hmade : w.Made n o) :
    w'.current n = some o ↔ w.current n = some o := by
  obtain ⟨object, calls, hname, rfl⟩ | ⟨g, calls, hname, -, rfl⟩ := construct_some hw
  · rw [serve_current ((current_name hs).trans hname)]
  · by_cases hn : n = m
    · subst hn
      rw [current_name hs, hname, current_service (s := ⟨w.segments.length, calls⟩) (Function.update_self ..)]
      -- a segment of before is not the new one
      have hlt := made_lt hmade
      simp only [Option.some.injEq, reduceCtorEq, iff_false]
      omega
    · rw [current_congr (Function.update_of_ne hn ..) (congrArg _ (Function.update_of_ne hn ..))]

omit [DecidableEq κ] in
theorem tryRemove_current (topicName : TopicName) : (w.tryRemove topicName).current n = some o ↔
    w.current n = some o ∧ ¬ (topicName = n ∧ w.services n = none) := by
  by_cases hn : n = topicName
  · subst hn
    cases hservice : w.services n with
    | none =>
      have hgone : (w.tryRemove n).services n = none := hservice
      have hnone : (w.tryRemove n).current n = none := by
        rw [current_name hgone]
        exact Function.update_self ..
      simp [hnone]
    | some s =>
      have hsame : (w.tryRemove n).current n = w.current n := by
        rw [current_service hservice]
        exact current_service hservice
      simp [hsame]
  · have hsame : (w.tryRemove topicName).current n = w.current n := current_congr (Function.update_of_ne hn ..) rfl
    simp [hsame, Ne.symm hn]

omit [DecidableEq κ] in
theorem useSemaphores_current (topicName : TopicName) (os : Semaphores SemaphoreName) :
    (w.useSemaphores topicName os).current n = w.current n := by
  cases hservice : w.services topicName with
  | none =>
    rw [World.useSemaphores, hservice]
    rfl
  | some s =>
    rw [World.useSemaphores, hservice]
    by_cases hn : n = topicName
    · subst hn
      exact current_congr rfl (by simp [hservice])
    · exact current_congr rfl (congrArg _ (Function.update_of_ne hn ..))

omit [DecidableEq κ] in
theorem removeSubscription_current (h : Inv w) (topicName : TopicName) :
    (w.removeSubscription (setTopicName topicName)).current n = some o ↔
    w.current n = some o ∧ ¬ Abandons n w (.removeTopic (κ := κ) topicName) := by
  cases hservice : w.services (setTopicName topicName) with
  | none =>
    have habandons : ¬ Abandons n w (.removeTopic (κ := κ) topicName) := by
      rintro ⟨rfl, s, hs, -⟩
      rw [hservice] at hs
      cases hs
    rw [World.removeSubscription, hservice]
    exact (and_iff_left habandons).symm
  | some s =>
    by_cases hn : n = setTopicName topicName
    · subst hn
      have hgone : (w.removeSubscription (setTopicName topicName)).services (setTopicName topicName) = none := by
        rw [World.removeSubscription, hservice]
        exact Function.update_self ..
      have hnames : (w.removeSubscription (setTopicName topicName)).names (setTopicName topicName) =
          if s.calls.topic.subscriptions.empty then none else w.names (setTopicName topicName) := by
        rw [World.removeSubscription, hservice]
        by_cases hempty : s.calls.topic.subscriptions.empty = true <;> simp [hempty]
      rw [current_name hgone, hnames, current_service hservice, Abandons, hservice]
      simp only [true_and, Option.some.injEq, exists_eq_left']
      by_cases hempty : s.calls.topic.subscriptions.empty = true
      · simp [hempty]
      · rcases (h.services _ s hservice).2 with hname | hname <;> simp [hempty, hname]
    · have habandons : ¬ Abandons n w (.removeTopic (κ := κ) topicName) := fun ha => hn ha.1.symm
      rw [current_congr (w := w), and_iff_left habandons]
      · rw [World.removeSubscription, hservice]
        dsimp only
        split
        · exact Function.update_of_ne hn ..
        · rfl
      · rw [World.removeSubscription, hservice]
        exact congrArg _ (Function.update_of_ne hn ..)

/-- A segment of the topic goes on being served just by the steps that do not abandon it. -/
theorem step_current (h : Inv w) {e : Event κ} (hs : step w e = some w') (hmade : w.Made n o) :
    w'.current n = some o ↔ w.current n = some o ∧ ¬ Abandons n w e := by
  cases e with
  | createTopic topicName messageCount bufferSize running =>
    refine Iff.trans ?_ (and_iff_left id).symm
    obtain rfl | ⟨hnone, hw⟩ := onCreateTopic_some hs
    · rfl
    · exact construct_current hnone hw hmade
  | removeTopic topicName =>
    cases hs
    exact removeSubscription_current h topicName
  | call topicName c =>
    refine Iff.trans ?_ (and_iff_left id).symm
    simp only [step, Option.bind_eq_some_iff, Option.map_eq_some_iff] at hs
    obtain ⟨s, hservice, calls, -, rfl⟩ := hs
    have hcurrent : w.current topicName = some s.object := current_service hservice
    rw [serve_current (s := { s with calls := calls }) hcurrent]
  | tryRemove topicName =>
    cases hs
    exact tryRemove_current topicName
  | crash =>
    cases hs
    rw [current_name rfl, Abandons]
    cases hservice : w.services n with
    | none => simp [current_name hservice]
    | some s =>
      rw [current_service hservice]
      rcases (h.services n s hservice).2 with hname | hname <;> simp [hname]
  | getOrCreate client topicName =>
    refine Iff.trans ?_ (and_iff_left id).symm
    cases htopic : w.topics client topicName with
    | some object =>
      simp only [step, World.getOrCreate, htopic, Option.some.injEq] at hs
      rw [hs]
    | none =>
      simp only [step, World.getOrCreate, htopic, Option.map_eq_some_iff] at hs
      obtain ⟨object, -, rfl⟩ := hs
      rfl
  | useSemaphores topicName os =>
    cases hs
    refine Iff.trans ?_ (and_iff_left id).symm
    rw [useSemaphores_current]
  | destroyClient client =>
    cases hs
    exact (and_iff_left id).symm

end Abandoned

section Clients

variable {client : κ}

/-- A client that lives keeps what it has mapped. -/
theorem topics_step {e : Event κ} (hs : step w e = some w') (hlive : e ≠ .destroyClient client)
    (htopic : w.topics client n = some o) : w'.topics client n = some o := by
  cases e with
  | createTopic topicName messageCount bufferSize running =>
    obtain rfl | ⟨-, hw⟩ := onCreateTopic_some hs
    · exact htopic
    · obtain ⟨object, calls, -, rfl⟩ | ⟨g, calls, -, -, rfl⟩ := construct_some hw <;> exact htopic
  | removeTopic topicName =>
    cases hs
    rw [World.removeSubscription]
    split <;> exact htopic
  | call topicName c =>
    simp only [step, Option.bind_eq_some_iff, Option.map_eq_some_iff] at hs
    obtain ⟨s, -, calls, -, rfl⟩ := hs
    exact htopic
  | tryRemove topicName | crash =>
    cases hs
    exact htopic
  | getOrCreate other topicName =>
    cases hother : w.topics other topicName with
    | some object =>
      simp only [step, World.getOrCreate, hother, Option.some.injEq] at hs
      exact hs ▸ htopic
    | none =>
      simp only [step, World.getOrCreate, hother, Option.map_eq_some_iff] at hs
      obtain ⟨object, -, rfl⟩ := hs
      by_cases hclient : client = other
      · subst hclient
        have hn : n ≠ topicName := by
          rintro rfl
          rw [htopic] at hother
          cases hother
        simpa [Function.update_of_ne hn] using htopic
      · simpa [Function.update_of_ne hclient] using htopic
  | useSemaphores topicName os =>
    cases hs
    rw [World.useSemaphores]
    split <;> exact htopic
  | destroyClient other =>
    cases hs
    have hclient : client ≠ other := fun heq => hlive (heq ▸ rfl)
    simpa [Function.update_of_ne hclient] using htopic

theorem topics_run {es : List (Event κ)} (h : run step w es = some w')
    (hlive : ∀ e ∈ es, e ≠ .destroyClient client)
    (htopic : w.topics client n = some o) : w'.topics client n = some o := by
  induction es generalizing w with
  | nil =>
    cases h
    exact htopic
  | cons e es ih =>
    obtain ⟨v, hv, hrest⟩ := run_cons_some h
    exact ih hrest (fun f hf => hlive f (List.mem_cons_of_mem e hf))
      (topics_step hv (hlive e List.mem_cons_self) htopic)

theorem made_step (h : Inv w ∧ w.Made n o) {e : Event κ} (hs : step w e = some w') : Inv w' ∧ w'.Made n o :=
  ⟨inv_step h.1 hs, (step_frame h.1 hs).made n o h.2⟩

theorem inv_run {semaphores : TopicName → Semaphores SemaphoreName} {es : List (Event κ)}
    (h : run step (start semaphores) es = some w) : Inv w :=
  run_invariant (fun _ _ _ hv hs => inv_step hv hs) (inv_start semaphores) h

/-- From its first subscription on, a client reads the segment that the topic is served from if and
only if no step has abandoned it. -/
theorem mapped_current_iff (semaphores : TopicName → Semaphores SemaphoreName)
    (es : List (Event κ)) (w w₁ w₂ : World κ)
    (client : κ) (topicName : TopicName) (fs : List (Event κ)) (h : run step (start semaphores) es = some w)
    (hfirst : w.topics client topicName = none) (hs : step w (.getOrCreate client topicName) = some w₁)
    (hrun : run step w₁ fs = some w₂) (hlive : ∀ e ∈ fs, e ≠ .destroyClient client) :
    w₂.topics client topicName = w₂.current topicName ↔
    Guarded step (fun v e => ¬ Abandons topicName v e) w₁ fs := by
  have hinv : Inv w₁ := inv_step (inv_run h) hs
  simp only [step, World.getOrCreate, hfirst, Option.map_eq_some_iff] at hs
  obtain ⟨o, hname, rfl⟩ := hs
  rw [topics_run (o := o) hrun hlive (by simp), eq_comm]
  refine end_iff_guarded (I := fun v => Inv v ∧ v.Made topicName o)
    (P := fun v => v.current topicName = some o) ?_ ?_ ?_ ⟨hinv, ?_⟩ ?_ hrun
  · exact fun v e v' hv hstep => made_step hv hstep
  · intro v e v' hv hcurrent hstep
    rw [step_current hv.1 hstep hv.2]
    exact and_iff_right hcurrent
  · intro v e v' hv hlost hstep hcurrent
    exact hlost ((step_current hv.1 hstep hv.2).mp hcurrent).1
  · exact hinv.names topicName o hname
  · exact current_of_names hinv hname

/-- A topic without subscriptions is removed and created again. -/
def recreated : List (Event Nat) :=
  [.createTopic [7] 4 64 (fun _ => true), .getOrCreate 0 [7], .removeTopic [7], .createTopic [7] 4 64 (fun _ => true)]

theorem mapped_current_recreated : ∃ w w₁ w₂, run step (start fun _ => .fresh) (recreated.take 1) = some w ∧
    step w (.getOrCreate 0 [7]) = some w₁ ∧ run step w₁ (recreated.drop 2) = some w₂ ∧
    (w₂.topics 0 [7] = w₂.current [7] ↔ Guarded step (fun v e => ¬ Abandons [7] v e) w₁ (recreated.drop 2)) :=
  ⟨_, _, _, rfl, rfl, rfl, mapped_current_iff (fun _ => .fresh) (recreated.take 1) _ _ _ 0 [7]
    (recreated.drop 2) rfl rfl rfl rfl
    (by simp [recreated])⟩

/-- Once it does not, it never does again while the client lives, and nothing that any service
publishes later is written to what it reads. -/
theorem stale_for_ever (semaphores : TopicName → Semaphores SemaphoreName) (es : List (Event κ)) (w w' : World κ)
    (client : κ) (topicName : TopicName) (o : Nat) (fs : List (Event κ))
    (h : run step (start semaphores) es = some w)
    (htopic : w.topics client topicName = some o) (hstale : w.current topicName ≠ some o)
    (hrun : run step w fs = some w') (hlive : ∀ e ∈ fs, e ≠ .destroyClient client) :
    w'.topics client topicName = some o ∧ w'.current topicName ≠ some o ∧ w'.segments[o]? = w.segments[o]? := by
  have hinv := inv_run h
  have hkeep : ∀ (v : World κ) (e : Event κ) (v' : World κ),
      ((Inv v ∧ v.Made topicName o) ∧ v.current topicName ≠ some o ∧ v.segments[o]? = w.segments[o]?) →
      step v e = some v' →
      (Inv v' ∧ v'.Made topicName o) ∧ v'.current topicName ≠ some o ∧ v'.segments[o]? = w.segments[o]? := by
    rintro v e v' ⟨hv, hlost, hsame⟩ hstep
    refine ⟨made_step hv hstep, fun hcurrent => hlost ((step_current hv.1 hstep hv.2).mp hcurrent).1, ?_⟩
    rw [(step_frame hv.1 hstep).frozen topicName o hv.2 hlost, hsame]
  have hend := run_invariant hkeep ⟨⟨hinv, hinv.topics client topicName o htopic⟩, hstale, rfl⟩ hrun
  exact ⟨topics_run hrun hlive htopic, hend.2⟩

theorem stale_recreated : ∃ w w', run step (start fun _ => .fresh) recreated = some w ∧ w.topics 0 [7] = some 0 ∧
    w.current [7] ≠ some 0 ∧ run step w [.call [7] (.subscribe 5 true)] = some w' ∧
    (w'.topics 0 [7] = some 0 ∧ w'.current [7] ≠ some 0 ∧ w'.segments[0]? = w.segments[0]?) :=
  ⟨_, _, rfl, rfl, fun h => absurd (show (1 : Nat) = 0 from Option.some.inj h) (by decide), rfl,
    stale_for_ever (fun _ => .fresh) recreated _ _ 0 [7] 0 [.call [7] (.subscribe 5 true)] rfl rfl
      (fun h => absurd (show (1 : Nat) = 0 from Option.some.inj h) (by decide)) rfl (by simp)⟩

end Clients

end StaleTopics
