import ZeroCopyRpc.SharedMemoryClient

/-!
# Shutting a client down

The application's thread connects, subscribes, destroys cursors and at last
destroys the client, whose destructor goes over a copy of the topics,
unsubscribes the slots that are still open, and erases each topic from the map.
The dispatcher thread takes one reply after the other all the while. The server
answers each request once, in order, and is free in what it answers.

`segment` says which topics have a shared-memory object under the name by which
the constructor of `Topic` opens it.
-/
namespace ClientShutdown

open SharedMemoryClient Transitions

/-- Where the application's thread stands. -/
inductive App where
  | running (cursors : List (TopicName × Nat))
  -- in the destructor's loop, and inside `UnsubscribeAll` with the slots left of its copy
  | erasing (rest : List TopicName)
  | unsubscribing (topicName : TopicName) (slots : List Nat) (rest : List TopicName)
  | joining
  | destroyed
  deriving DecidableEq, Repr

/-- The client, its caller and its queue; `names` are the keys of the topic map,
`answered` counts the requests the server has answered. -/
structure Process (κ : Type) where
  client : World Unit κ
  names : List TopicName
  app : App
  answered : Nat
  clientQueue : List (Buffer κ)

inductive Event (κ : Type) where
  | call (correlationId : κ) (promise : Nat) (request : Command)
  | advance
  | answer (buffer : Buffer κ)
  | receive
  | dispatch
  | destroyClient (topics : List TopicName)
  | unsubscribeAll
  | erase
  | stop (buffer : Buffer κ)
  | join

variable {κ : Type}

/-- The reply to a request, in a buffer that may hold anything else. -/
def replyTo (correlationId : κ) (buffer : Buffer κ) : Command → Buffer κ
  | .hello created => { buffer with msgType := 4, correlationId := correlationId, requestCreated := created }
  | .subscribe _ => { buffer with msgType := 5, correlationId := correlationId }
  | .unsubscribe topicName slothId =>
    { buffer with
      msgType := 7
      correlationId := correlationId
      topicName := setTopicName topicName
      slothId := slothId }

/-- The requests a thread makes where it stands: those of the caller, who may
destroy a cursor once, and those of `UnsubscribeAll`. -/
def App.calls : App → Command → Option App
  | .running cursors, .hello _ => some (.running cursors)
  | .running cursors, .subscribe _ => some (.running cursors)
  | .running cursors, .unsubscribe topicName sloth =>
    if (topicName, sloth) ∈ cursors then some (.running (cursors.erase (topicName, sloth))) else none
  | .unsubscribing current (next :: slots) rest, .unsubscribe topicName sloth =>
    if topicName = current ∧ sloth = next then some (.unsubscribing current slots rest) else none
  | _, _ => none

def App.opened (topicName : TopicName) (sloth : Nat) : App → App
  | .running cursors => .running ((topicName, sloth) :: cursors)
  | app => app

section Machine

variable [DecidableEq κ]

/-- The next step of the application's thread inside a request. A subscription
to a topic without a segment ends in the exception of `Topic`'s constructor. -/
def advanceApp (segment : TopicName → Bool) (w : Process κ) : Option (Process κ) :=
  (SharedMemoryClient.advance w.client ()).map fun client =>
    match w.client.phase () with
    | .waiting _ promise (.subscribe topicName) =>
      let sloth := ((w.client.promises promise).bind Promise.value).elim 0 Buffer.id
      if (w.client.topics topicName).isSome then
        { w with client := client, app := w.app.opened topicName sloth }
      else if segment topicName then
        { w with client := client, app := w.app.opened topicName sloth, names := topicName :: w.names }
      else { w with client := { client with topics := w.client.topics } }
    | _ => { w with client := client }

/-- Between two requests the thread is idle. -/
def Process.idle (w : Process κ) : Bool :=
  match w.client.phase () with
  | .idle => true
  | _ => false

def step (segment : TopicName → Bool) : Machine (Process κ) (Event κ)
  | w, .call correlationId promise request =>
    (w.app.calls request).bind fun app =>
      (SharedMemoryClient.step w.client (.call () correlationId promise request)).map fun client =>
        { w with client := client, app := app }
  | w, .advance => advanceApp segment w
  | w, .answer buffer =>
    (w.client.srvQueue[w.answered]?).map fun request => { w with
      answered := w.answered + 1
      clientQueue := w.clientQueue ++ [replyTo request.1 buffer request.2] }
  | w, .receive =>
    match w.clientQueue with
    | [] => none
    | buffer :: rest =>
      (SharedMemoryClient.step w.client (.reply buffer)).map fun client =>
        { w with client := client, clientQueue := rest }
  | w, .dispatch => (SharedMemoryClient.dispatch w.client).map fun client => { w with client := client }
  | w, .destroyClient topics =>
    match w.app with
    | .running _ => if w.idle ∧ topics.Perm w.names then some { w with app := .erasing topics } else none
    | _ => none
  | w, .unsubscribeAll =>
    match w.app with
    | .erasing (topicName :: rest) => (w.client.topics topicName).map fun topic =>
        { w with app := .unsubscribing topicName topic.openSlots rest }
    | _ => none
  | w, .erase =>
    match w.app with
    | .unsubscribing topicName [] rest =>
      if w.idle then some { w with
        client := { w.client with topics := Function.update w.client.topics topicName none }
        names := w.names.erase topicName
        app := .erasing rest }
      else none
    | _ => none
  | w, .stop buffer =>
    match w.app with
    | .erasing [] =>
      if w.idle then some { w with
        clientQueue := w.clientQueue ++ [{ buffer with msgType := 0 }]
        app := .joining }
      else none
    | _ => none
  | w, .join =>
    match w.app, w.client.dispatcher with
    | .joining, .exited => some { w with app := .destroyed }
    | _, _ => none

def start : Process κ := ⟨SharedMemoryClient.start fun _ => none, [], .running [], 0, []⟩

/-- However the dispatcher thread goes on, no lookup of a topic comes back empty. -/
def Finds (segment : TopicName → Bool) (w : Process κ) : Prop :=
  ∀ es u, (∀ e ∈ es, e = .receive ∨ e = .dispatch) → run (step segment) w es = some u →
    u.client.dispatcher ≠ .nullTopic

end Machine

/-- The dispatcher has set the promise from a success reply about this topic and
has not acknowledged it yet. -/
def InHand (topicName : TopicName) : Dispatching κ → Prop
  | .removing buffer func => func = .onUnsubscribed ∧ buffer.isSuccess = true ∧ buffer.topicName = topicName
  | .acknowledging buffer => buffer.topicName = topicName
  | _ => False

/-- No topic is erased while such a reply is in the dispatcher's hands. -/
def Guard (w : Process κ) : Event κ → Prop
  | .erase => ∀ topicName slots rest, w.app = .unsubscribing topicName slots rest →
      ¬ InHand topicName w.client.dispatcher
  | _ => True

/-- The topic is in the map. -/
def Known (w : Process κ) (topicName : TopicName) : Prop := (w.client.topics topicName).isSome = true

/-- The thread waits for the reply to this request, and its promise is not set. -/
def Waits (w : Process κ) (correlationId : κ) (promise : Nat) (request : Command) : Prop :=
  w.client.phase () = .waiting correlationId promise request ∧
    w.client.promises promise = some ⟨correlationId, none⟩

/-- The dispatcher has no reply whose promise is still to be set. -/
def Resting : Dispatching κ → Prop
  | .looking buffer => buffer.msgType = 0
  | .invoking _ _ => False
  | _ => True

def Exits (queue : List (Buffer κ)) : Prop := ∀ b ∈ queue, b.msgType = 0

/-- At most one request is under way, and the thread waits for it: it is with the
server, or its reply is in the queue, or in the dispatcher's hands. -/
inductive Flight (w : Process κ) : Prop where
  | idle (answered : w.answered = w.client.srvQueue.length) (queue : Exits w.clientQueue)
      (dispatcher : Resting w.client.dispatcher)
  | sent (correlationId : κ) (promise : Nat) (request : Command) (front : List (κ × Command))
      (waits : Waits w correlationId promise request)
      (server : w.client.srvQueue = front ++ [(correlationId, request)])
      (answered : w.answered = front.length) (queue : Exits w.clientQueue) (dispatcher : Resting w.client.dispatcher)
  | queued (correlationId : κ) (promise : Nat) (request : Command) (buffer : Buffer κ) (exits : List (Buffer κ))
      (waits : Waits w correlationId promise request) (answered : w.answered = w.client.srvQueue.length)
      (first : Exits exits) (queue : w.clientQueue = exits ++ [replyTo correlationId buffer request])
      (dispatcher : Resting w.client.dispatcher)
  | looking (correlationId : κ) (promise : Nat) (request : Command) (buffer : Buffer κ)
      (waits : Waits w correlationId promise request) (answered : w.answered = w.client.srvQueue.length)
      (queue : Exits w.clientQueue)
      (dispatcher : w.client.dispatcher = .looking (replyTo correlationId buffer request))
  | invoking (correlationId : κ) (promise : Nat) (request : Command) (buffer : Buffer κ)
      (waits : Waits w correlationId promise request) (answered : w.answered = w.client.srvQueue.length)
      (queue : Exits w.clientQueue)
      (dispatcher : w.client.dispatcher = .invoking (replyTo correlationId buffer request)
        ⟨promise, handler request⟩)

/-- The request a thread is in the middle of. -/
def Within (phase : Phase κ) (correlationId : κ) (promise : Nat) (request : Command) : Prop :=
  phase = .registering correlationId promise request ∨ phase = .sending correlationId promise request ∨
    phase = .waiting correlationId promise request

/-- The topics the thread still has to do with are in the map. -/
def AppKnows (w : Process κ) : App → Prop
  | .running cursors => ∀ c ∈ cursors, Known w c.1
  | .erasing rest => rest.Nodup ∧ ∀ n ∈ rest, Known w n
  | .unsubscribing topicName _ rest => (topicName :: rest).Nodup ∧ ∀ n ∈ topicName :: rest, Known w n
  | .joining => True
  | .destroyed => True

/-- The topic of a reply in the dispatcher's hands is in the map. -/
def Hand (w : Process κ) : Dispatching κ → Prop
  | .removing buffer func => func = .onUnsubscribed → buffer.isSuccess = true → Known w buffer.topicName
  | .acknowledging buffer => Known w buffer.topicName
  | .nullTopic => False
  | _ => True

structure Inv (w : Process κ) : Prop where
  fits : ∀ n, Known w n → setTopicName n = n
  keys : w.names.Nodup ∧ ∀ n, n ∈ w.names ↔ Known w n
  app : AppKnows w w.app
  request : ∀ id p n sloth, Within (w.client.phase ()) id p (.unsubscribe n sloth) → Known w n
  promise : ∀ id p r, (w.client.phase () = .registering id p r ∨ w.client.phase () = .sending id p r) →
    w.client.promises p = some ⟨id, none⟩
  entry : ∀ id p r c, (w.client.phase () = .sending id p r ∨ w.client.phase () = .waiting id p r) →
    w.client.messages.map id = some c → c = ⟨p, handler r⟩
  flight : Flight w
  hand : Hand w w.client.dispatcher

theorem inv_start : Inv (start : Process κ) where
  fits := fun _ h => by cases h
  keys := ⟨List.nodup_nil, fun _ => ⟨(fun h => by cases h), (fun h => by cases h)⟩⟩
  app := fun _ h => by cases h
  request := fun _ _ _ _ h => by rcases h with h | h | h <;> cases h
  promise := fun _ _ _ h => by rcases h with h | h <;> cases h
  entry := fun _ _ _ _ h => by rcases h with h | h <;> cases h
  flight := .idle rfl (fun _ h => by cases h) trivial
  hand := trivial

variable {w t : Process κ} {segment : TopicName → Bool}

theorem AppKnows.of_known {app : App} (h : AppKnows w app) (hknown : ∀ n, Known w n → Known t n) :
    AppKnows t app := by
  cases app with
  | running cursors => exact fun c hc => hknown c.1 (h c hc)
  | erasing rest => exact ⟨h.1, fun n hn => hknown n (h.2 n hn)⟩
  | unsubscribing topicName slots rest => exact ⟨h.1, fun n hn => hknown n (h.2 n hn)⟩
  | joining => trivial
  | destroyed => trivial

theorem Hand.of_known {d : Dispatching κ} (h : Hand w d) (hknown : ∀ n, Known w n → Known t n) : Hand t d := by
  cases d with
  | removing buffer func => exact fun hfunc hsuccess => hknown _ (h hfunc hsuccess)
  | acknowledging buffer => exact hknown _ h
  | nullTopic => exact h
  | _ => trivial

/-- What stays when the topics of the map stay. -/
theorem Inv.carry (h : Inv w) (hnames : t.names = w.names)
    (htopics : ∀ n, (t.client.topics n).isSome = (w.client.topics n).isSome) (happ : AppKnows w t.app)
    (hrequest : ∀ id p n sloth, Within (t.client.phase ()) id p (.unsubscribe n sloth) → Known w n)
    (hpromise : ∀ id p r, (t.client.phase () = .registering id p r ∨ t.client.phase () = .sending id p r) →
      t.client.promises p = some ⟨id, none⟩)
    (hentry : ∀ id p r c, (t.client.phase () = .sending id p r ∨ t.client.phase () = .waiting id p r) →
      t.client.messages.map id = some c → c = ⟨p, handler r⟩)
    (hflight : Flight t) (hhand : Hand w t.client.dispatcher) : Inv t := by
  have hknown : ∀ n, Known t n ↔ Known w n := fun n => by rw [Known, Known, htopics n]
  exact {
    fits := fun n hn => h.fits n ((hknown n).mp hn)
    keys := ⟨hnames ▸ h.keys.1, fun n => by rw [hnames, h.keys.2 n, hknown n]⟩
    app := happ.of_known fun n hn => (hknown n).mpr hn
    request := fun id p n sloth hw => (hknown n).mpr (hrequest id p n sloth hw)
    promise := hpromise
    entry := hentry
    flight := hflight
    hand := hhand.of_known fun n hn => (hknown n).mpr hn }

/-- Outside of a wait nothing is under way. -/
theorem Flight.not_waiting (h : Flight w) (hphase : ∀ id p r, ¬ Waits w id p r) :
    w.answered = w.client.srvQueue.length ∧ Exits w.clientQueue ∧ Resting w.client.dispatcher := by
  cases h with
  | idle answered queue dispatcher => exact ⟨answered, queue, dispatcher⟩
  | sent id p r _ waits => exact absurd waits (hphase id p r)
  | queued id p r _ _ waits => exact absurd waits (hphase id p r)
  | looking id p r _ waits => exact absurd waits (hphase id p r)
  | invoking id p r _ waits => exact absurd waits (hphase id p r)

/-- While the thread is elsewhere nothing is under way. -/
theorem Flight.elsewhere (h : Flight w) (hphase : ∀ id p r, w.client.phase () ≠ .waiting id p r) :
    w.answered = w.client.srvQueue.length ∧ Exits w.clientQueue ∧ Resting w.client.dispatcher :=
  h.not_waiting fun id p r hw => hphase id p r hw.1

theorem replyTo_type (id : κ) (buffer : Buffer κ) (request : Command) :
    (replyTo id buffer request).msgType ≠ 0 := by
  cases request <;> exact fun h => by cases h

/-- A dispatcher without a reply moves on, and what is under way stays. -/
theorem Flight.rest (h : Flight w) (hrest : Resting w.client.dispatcher) {client : World Unit κ}
    (hphase : client.phase = w.client.phase) (hpromises : client.promises = w.client.promises)
    (hserver : client.srvQueue = w.client.srvQueue) (hresting : Resting client.dispatcher) :
    Flight { w with client := client } := by
  have hwaits : ∀ id p r, Waits w id p r → Waits { w with client := client } id p r := by
    rintro id p r ⟨hp, hnone⟩
    exact ⟨by rw [hphase, hp], by rw [hpromises, hnone]⟩
  cases h with
  | idle answered queue => exact .idle (by rw [answered, hserver]) queue hresting
  | sent id p r front waits server answered queue =>
    exact .sent id p r front (hwaits id p r waits) (by rw [hserver, server]) answered queue hresting
  | queued id p r b exits waits answered first queue =>
    exact .queued id p r b exits (hwaits id p r waits) (by rw [answered, hserver]) first queue hresting
  | looking id p r b waits answered queue dispatcher =>
    rw [dispatcher] at hrest
    exact absurd hrest (replyTo_type id b r)
  | invoking id p r b waits answered queue dispatcher =>
    rw [dispatcher] at hrest
    exact hrest.elim

theorem goto_phase (c : World Unit κ) (phase : Phase κ) : (c.goto () phase).phase () = phase := by
  simp [World.goto]

/-- Closing a cursor changes a topic of the map, but not which topics are there. -/
theorem closeCursor_keys (topics : TopicName → Option Topic) (request : Command) (n : TopicName) :
    (closeCursor topics request n).isSome = (topics n).isSome := by
  cases request with
  | hello created => rfl
  | subscribe topicName => rfl
  | unsubscribe topicName sloth =>
    rw [closeCursor]
    cases htopic : topics topicName with
    | none => rfl
    | some topic =>
      by_cases hn : n = topicName
      · subst hn
        simp only [Function.update_self, htopic, Option.isSome_some]
      · simp only [Function.update_of_ne hn]

theorem openCursor_keys (topics : TopicName → Option Topic) (topicName : TopicName) (sloth : Nat) (n : TopicName) :
    (openCursor topics topicName sloth n).isSome = true ↔ n = topicName ∨ (topics n).isSome = true := by
  rw [openCursor]
  by_cases hn : n = topicName
  · subst hn
    simp only [Function.update_self, Option.isSome_some, true_or]
  · simp only [Function.update_of_ne hn, hn, false_or]

/-- Where the thread stands after a call, its topics are those it had. -/
theorem calls_known {app : App} {request : Command} (h : AppKnows w w.app) (hcalls : w.app.calls request = some app) :
    AppKnows w app ∧ ∀ n sloth, request = .unsubscribe n sloth → Known w n := by
  cases happ : w.app with
  | running cursors =>
    rw [happ] at h hcalls
    cases request with
    | hello created =>
      cases hcalls
      exact ⟨h, fun _ _ he => by cases he⟩
    | subscribe topicName =>
      cases hcalls
      exact ⟨h, fun _ _ he => by cases he⟩
    | unsubscribe topicName sloth =>
      simp only [App.calls] at hcalls
      split at hcalls
      · rename_i hmem
        cases hcalls
        refine ⟨fun c hc => h c (List.mem_of_mem_erase hc), ?_⟩
        rintro n s ⟨⟩
        exact h (topicName, sloth) hmem
      · cases hcalls
  | unsubscribing current slots rest =>
    rw [happ] at h hcalls
    cases slots with
    | nil => cases request <;> cases hcalls
    | cons next slots =>
      cases request with
      | hello created => cases hcalls
      | subscribe topicName => cases hcalls
      | unsubscribe topicName sloth =>
        simp only [App.calls] at hcalls
        split at hcalls
        · rename_i heq
          cases hcalls
          refine ⟨h, ?_⟩
          rintro n s ⟨⟩
          rw [heq.1]
          exact h.2 current List.mem_cons_self
        · cases hcalls
  | erasing rest =>
    rw [happ] at hcalls
    cases request <;> cases hcalls
  | joining =>
    rw [happ] at hcalls
    cases request <;> cases hcalls
  | destroyed =>
    rw [happ] at hcalls
    cases request <;> cases hcalls

theorem inv_send (h : Inv w) {id : κ} {promise : Nat} {request : Command}
    (hphase : w.client.phase () = .sending id promise request) :
    Inv { w with
      client := ({ w.client with
        srvQueue := w.client.srvQueue ++ [(id, request)] } : World Unit κ).goto ()
          (.waiting id promise request) } := by
  have helsewhere : ∀ i p r, w.client.phase () ≠ .waiting i p r := by
    rw [hphase]
    rintro i p r ⟨⟩
  obtain ⟨hanswered, hqueue, hresting⟩ := h.flight.elsewhere helsewhere
  have hnext : (Function.update w.client.phase () (.waiting id promise request)) () =
      .waiting id promise request := Function.update_self _ _ _
  have hpromise := h.promise id promise request (Or.inr hphase)
  refine h.carry rfl (fun _ => rfl) h.app ?_ ?_ ?_
    (.sent id promise request w.client.srvQueue ⟨hnext, hpromise⟩ rfl hanswered hqueue hresting) h.hand
  · intro i p n sloth hw
    simp only [World.goto, Within, hnext] at hw
    rcases hw with hw | hw | hw
    · cases hw
    · cases hw
    · cases hw
      exact h.request id promise n sloth (Or.inr (Or.inl hphase))
  · intro i p r hw
    simp only [World.goto, hnext] at hw
    rcases hw with hw | hw <;> cases hw
  · intro i p r c hw hc
    simp only [World.goto, hnext] at hw
    rcases hw with hw | hw
    · cases hw
    · cases hw
      exact h.entry id promise request c (Or.inl hphase) hc

/-- The thread is back from a request. -/
theorem inv_return (h : Inv w) {id owner : κ} {promise : Nat} {request : Command} {value : Buffer κ}
    (hphase : w.client.phase () = .waiting id promise request)
    (hset : w.client.promises promise = some ⟨owner, some value⟩)
    (hclient : t.client.phase () = .idle) (hdispatcher : t.client.dispatcher = w.client.dispatcher)
    (hserver : t.client.srvQueue = w.client.srvQueue) (hanswered : t.answered = w.answered)
    (hqueue : t.clientQueue = w.clientQueue) (happ : AppKnows t t.app) (hknown : ∀ n, Known w n → Known t n)
    (hfits : ∀ n, Known t n → setTopicName n = n)
    (hkeys : t.names.Nodup ∧ ∀ n, n ∈ t.names ↔ Known t n) : Inv t := by
  have hnowait : ∀ i p r, ¬ Waits w i p r := by
    rintro i p r ⟨hw, hnone⟩
    rw [hphase] at hw
    cases hw
    rw [hset] at hnone
    cases hnone
  obtain ⟨hcount, hexits, hresting⟩ := h.flight.not_waiting hnowait
  refine ⟨hfits, hkeys, happ, ?_, ?_, ?_, .idle ?_ ?_ ?_, ?_⟩
  · intro i p n sloth hw
    simp only [Within, hclient] at hw
    rcases hw with hw | hw | hw <;> cases hw
  · intro i p r hw
    simp only [hclient] at hw
    rcases hw with hw | hw <;> cases hw
  · intro i p r c hw
    simp only [hclient] at hw
    rcases hw with hw | hw <;> cases hw
  · rw [hanswered, hserver, hcount]
  · rw [hqueue]
    exact hexits
  · rw [hdispatcher]
    exact hresting
  · rw [hdispatcher]
    exact h.hand.of_known hknown

/-- A cursor that was opened is on a topic of the map. -/
theorem opened_known {app : App} (h : AppKnows t app) {topicName : TopicName} {sloth : Nat}
    (hknown : Known t topicName) :
    AppKnows t (app.opened topicName sloth) := by
  cases app with
  | running cursors =>
    intro c hc
    cases List.mem_cons.mp hc with
    | inl heq => rw [heq]; exact hknown
    | inr hc => exact h c hc
  | erasing rest => exact h
  | unsubscribing current slots rest => exact h
  | joining => trivial
  | destroyed => trivial

section Steps

variable [DecidableEq κ]

theorem inv_call (h : Inv w) {id : κ} {promise : Nat} {request : Command}
    (hstep : step segment w (.call id promise request) = some t) : Inv t := by
  obtain ⟨app, hcalls, hstep⟩ := Option.bind_eq_some_iff.mp hstep
  obtain ⟨client, hclient, rfl⟩ := Option.map_eq_some_iff.mp hstep
  obtain ⟨happ, hrequest⟩ := calls_known h.app hcalls
  simp only [SharedMemoryClient.step] at hclient
  split at hclient
  · rename_i hphase hfree
    cases hclient
    have helsewhere : ∀ i p r, w.client.phase () ≠ .waiting i p r := by
      rw [hphase]
      rintro i p r ⟨⟩
    obtain ⟨hanswered, hqueue, hresting⟩ := h.flight.elsewhere helsewhere
    have hnext : (Function.update w.client.phase () (.registering id promise request)) () =
        .registering id promise request := Function.update_self _ _ _
    refine h.carry rfl (closeCursor_keys w.client.topics request) happ ?_ ?_ ?_
      (.idle hanswered hqueue hresting) h.hand
    · intro i p n sloth hw
      simp only [World.goto, Within, hnext] at hw
      rcases hw with hw | hw | hw
      · cases hw
        exact hrequest n sloth rfl
      · cases hw
      · cases hw
    · intro i p r hw
      simp only [World.goto, hnext] at hw
      rcases hw with hw | hw
      · cases hw
        exact Function.update_self _ _ _
      · cases hw
    · intro i p r c hw
      simp only [World.goto, hnext] at hw
      rcases hw with hw | hw <;> cases hw
  · cases hclient

theorem inv_register (h : Inv w) {id : κ} {promise : Nat} {request : Command}
    (hphase : w.client.phase () = .registering id promise request) :
    Inv { w with
      client := ({ w.client with
        messages := w.client.messages.insertOrUpdate id ⟨promise, handler request⟩
        registered := w.client.registered ++ [id] } : World Unit κ).goto () (.sending id promise request) } := by
  have helsewhere : ∀ i p r, w.client.phase () ≠ .waiting i p r := by
    rw [hphase]
    rintro i p r ⟨⟩
  obtain ⟨hanswered, hqueue, hresting⟩ := h.flight.elsewhere helsewhere
  have hnext : (Function.update w.client.phase () (.sending id promise request)) () =
      .sending id promise request := Function.update_self _ _ _
  refine h.carry rfl (fun _ => rfl) h.app ?_ ?_ ?_ (.idle hanswered hqueue hresting) h.hand
  · intro i p n sloth hw
    simp only [World.goto, Within, hnext] at hw
    rcases hw with hw | hw | hw
    · cases hw
    · cases hw
      exact h.request id promise n sloth (Or.inl hphase)
    · cases hw
  · intro i p r hw
    simp only [World.goto, hnext] at hw
    rcases hw with hw | hw
    · cases hw
    · cases hw
      exact h.promise id promise request (Or.inl hphase)
  · intro i p r c hw hc
    simp only [World.goto, hnext] at hw
    rcases hw with hw | hw
    · cases hw
      have hentry : Function.update w.client.messages.map id (some ⟨promise, handler request⟩) id = some c := hc
      rw [Function.update_self] at hentry
      exact (Option.some.inj hentry).symm
    · cases hw

theorem inv_advance (hsegment : ∀ n, segment n = true → setTopicName n = n) (h : Inv w)
    (hstep : step segment w .advance = some t) : Inv t := by
  obtain ⟨client, hadvance, rfl⟩ := Option.map_eq_some_iff.mp hstep
  cases hphase : w.client.phase () with
  | idle => simp [SharedMemoryClient.advance, hphase] at hadvance
  | registering id promise request =>
    simp only [SharedMemoryClient.advance, hphase] at hadvance
    cases hadvance
    exact inv_register h hphase
  | sending id promise request =>
    simp only [SharedMemoryClient.advance, hphase] at hadvance
    cases hadvance
    exact inv_send h hphase
  | waiting id promise request =>
    simp only [SharedMemoryClient.advance, hphase] at hadvance
    split at hadvance
    · rename_i owner value hset
      cases hadvance
      cases request with
      | hello created =>
        exact inv_return h hphase hset (goto_phase _ _) rfl rfl rfl rfl h.app (fun _ hn => hn) h.fits h.keys
      | unsubscribe topicName sloth =>
        exact inv_return h hphase hset (goto_phase _ _) rfl rfl rfl rfl h.app (fun _ hn => hn) h.fits h.keys
      | subscribe topicName =>
        have hopen : ∀ n, (openCursor w.client.topics topicName value.id n).isSome = true ↔
            n = topicName ∨ Known w n := openCursor_keys w.client.topics topicName value.id
        dsimp only
        split
        · rename_i hthere
          refine inv_return h hphase hset (goto_phase _ _) rfl rfl rfl rfl ?_ ?_ ?_ ?_
          · change AppKnows _ (w.app.opened topicName _)
            apply opened_known
            · exact h.app.of_known fun n hn => (hopen n).mpr (Or.inr hn)
            · exact (hopen topicName).mpr (Or.inl rfl)
          · exact fun n hn => (hopen n).mpr (Or.inr hn)
          · intro n hn
            cases (hopen n).mp hn with
            | inl heq => exact heq ▸ h.fits topicName hthere
            | inr hn => exact h.fits n hn
          · refine ⟨h.keys.1, fun n => (h.keys.2 n).trans ⟨fun hn => (hopen n).mpr (Or.inr hn), fun hn => ?_⟩⟩
            cases (hopen n).mp hn with
            | inl heq => exact heq ▸ hthere
            | inr hn => exact hn
        · rename_i habsent
          split
          · rename_i hopens
            refine inv_return h hphase hset (goto_phase _ _) rfl rfl rfl rfl ?_ ?_ ?_ ?_
            · change AppKnows _ (w.app.opened topicName _)
              apply opened_known
              · exact h.app.of_known fun n hn => (hopen n).mpr (Or.inr hn)
              · exact (hopen topicName).mpr (Or.inl rfl)
            · exact fun n hn => (hopen n).mpr (Or.inr hn)
            · intro n hn
              cases (hopen n).mp hn with
              | inl heq => exact heq ▸ hsegment topicName hopens
              | inr hn => exact h.fits n hn
            · refine ⟨List.nodup_cons.mpr ⟨fun hmem => habsent ((h.keys.2 topicName).mp hmem), h.keys.1⟩,
                fun n => ?_⟩
              rw [List.mem_cons, h.keys.2 n]
              exact (hopen n).symm
          · exact inv_return h hphase hset (by simp [World.goto]) rfl rfl rfl rfl h.app (fun _ hn => hn) h.fits h.keys
    · cases hadvance

theorem inv_answer (h : Inv w) {buffer : Buffer κ} (hstep : step segment w (.answer buffer) = some t) : Inv t := by
  obtain ⟨request, hrequest, rfl⟩ := Option.map_eq_some_iff.mp hstep
  have hlt : w.answered < w.client.srvQueue.length := (List.getElem?_eq_some_iff.mp hrequest).1
  refine h.carry rfl (fun _ => rfl) h.app h.request h.promise h.entry ?_ h.hand
  cases h.flight with
  | sent id p r front waits server answered queue dispatcher =>
    have heq : request = (id, r) := by
      rw [server, answered, List.getElem?_concat_length] at hrequest
      exact (Option.some.inj hrequest).symm
    subst heq
    refine .queued id p r buffer w.clientQueue waits ?_ queue rfl dispatcher
    rw [server, answered, List.length_append, List.length_singleton]
  | idle answered => omega
  | queued id p r b exits waits answered => omega
  | looking id p r b waits answered => omega
  | invoking id p r b waits answered => omega

theorem inv_receive (h : Inv w) (hstep : step segment w .receive = some t) : Inv t := by
  simp only [step] at hstep
  split at hstep
  · cases hstep
  rename_i buffer rest hqueue
  obtain ⟨client, hclient, rfl⟩ := Option.map_eq_some_iff.mp hstep
  simp only [SharedMemoryClient.step] at hclient
  split at hclient
  · rename_i hreceiving
    cases hclient
    refine h.carry rfl (fun _ => rfl) h.app h.request h.promise h.entry ?_ trivial
    have hexits : Exits w.clientQueue → buffer.msgType = 0 ∧ Exits rest := by
      rw [hqueue]
      exact fun he => ⟨he buffer List.mem_cons_self, fun b hb => he b (List.mem_cons_of_mem _ hb)⟩
    cases h.flight with
    | idle answered queue => exact .idle answered (hexits queue).2 (hexits queue).1
    | sent id p r front waits server answered queue =>
      exact .sent id p r front waits server answered (hexits queue).2 (hexits queue).1
    | queued id p r b exits waits answered first queue =>
      rw [hqueue] at queue
      cases exits with
      | nil =>
        obtain ⟨rfl, rfl⟩ := List.cons.inj queue
        exact .looking id p r b waits answered (fun _ hb => by cases hb) rfl
      | cons exit exits =>
        obtain ⟨rfl, rfl⟩ := List.cons.inj queue
        exact .queued id p r b exits waits answered (fun x hx => first x (List.mem_cons_of_mem _ hx)) rfl
          (first buffer List.mem_cons_self)
    | looking id p r b waits answered queue dispatcher =>
      rw [hreceiving] at dispatcher
      cases dispatcher
    | invoking id p r b waits answered queue dispatcher =>
      rw [hreceiving] at dispatcher
      cases dispatcher
  · cases hclient

/-- The handler sets the promise of the request the thread waits for. -/
theorem inv_set (h : Inv w) {buffer : Buffer κ} {callback : Callback}
    (hd : w.client.dispatcher = .invoking buffer callback) {client : World Unit κ}
    (hdispatch : SharedMemoryClient.dispatch w.client = some client) : Inv { w with client := client } := by
  cases h.flight with
  | invoking id p r b waits answered queue dispatcher =>
    cases hd.symm.trans dispatcher
    obtain ⟨hphase, hpromise⟩ := waits
    simp only [SharedMemoryClient.dispatch, hd, hpromise] at hdispatch
    cases hdispatch
    refine h.carry rfl (fun _ => rfl) h.app h.request ?_ h.entry (.idle answered queue trivial) ?_
    · intro i q s hw
      simp only [hphase] at hw
      rcases hw with hw | hw <;> cases hw
    · -- the reply names the topic of the request, which fits the field
      intro hfunc _
      cases r with
      | hello created => cases hfunc
      | subscribe topicName => cases hfunc
      | unsubscribe topicName sloth =>
        have hknown : Known w topicName := h.request id p topicName sloth (Or.inr (Or.inr hphase))
        have hname : (replyTo id b (.unsubscribe topicName sloth)).topicName = topicName := h.fits topicName hknown
        rw [hname]
        exact hknown
  | idle answered queue dispatcher =>
    rw [hd] at dispatcher
    exact dispatcher.elim
  | sent id p r front waits server answered queue dispatcher =>
    rw [hd] at dispatcher
    exact dispatcher.elim
  | queued id p r b exits waits answered first queue dispatcher =>
    rw [hd] at dispatcher
    exact dispatcher.elim
  | looking id p r b waits answered queue dispatcher =>
    cases hd.symm.trans dispatcher

/-- The reply's entry is that of the request the thread waits for. -/
theorem inv_look (h : Inv w) {buffer : Buffer κ} (hd : w.client.dispatcher = .looking buffer)
    (htype : buffer.msgType ≠ 0) {client : World Unit κ}
    (hdispatch : SharedMemoryClient.dispatch w.client = some client) : Inv { w with client := client } := by
  simp only [SharedMemoryClient.dispatch, hd, if_neg htype] at hdispatch
  cases h.flight with
  | looking id p r b waits answered queue dispatcher =>
    cases hd.symm.trans dispatcher
    have hid : (replyTo id b r).correlationId = id := by cases r <;> rfl
    rw [hid] at hdispatch
    cases hfound : w.client.messages.tryGetValue id with
    | none =>
      simp only [hfound] at hdispatch
      cases hdispatch
      exact h.carry rfl (fun _ => rfl) h.app h.request h.promise h.entry (.idle answered queue trivial) trivial
    | some callback =>
      simp only [hfound] at hdispatch
      cases hdispatch
      have hcallback : callback = ⟨p, handler r⟩ := h.entry id p r callback (Or.inr waits.1) hfound
      subst hcallback
      exact h.carry rfl (fun _ => rfl) h.app h.request h.promise h.entry
        (.invoking id p r b waits answered queue rfl) trivial
  | idle answered queue dispatcher =>
    rw [hd] at dispatcher
    exact absurd dispatcher htype
  | sent id p r front waits server answered queue dispatcher =>
    rw [hd] at dispatcher
    exact absurd dispatcher htype
  | queued id p r b exits waits answered first queue dispatcher =>
    rw [hd] at dispatcher
    exact absurd dispatcher htype
  | invoking id p r b waits answered queue dispatcher =>
    cases hd.symm.trans dispatcher

theorem inv_dispatch (h : Inv w) (hstep : step segment w .dispatch = some t) : Inv t := by
  obtain ⟨client, hdispatch, rfl⟩ := Option.map_eq_some_iff.mp hstep
  have hhand := h.hand
  cases hd : w.client.dispatcher with
  | looking buffer =>
    by_cases htype : buffer.msgType = 0
    · have hresting : Resting w.client.dispatcher := by rw [hd]; exact htype
      simp only [SharedMemoryClient.dispatch, hd, if_pos htype] at hdispatch
      cases hdispatch
      exact h.carry rfl (fun _ => rfl) h.app h.request h.promise h.entry
        (h.flight.rest hresting rfl rfl rfl trivial) trivial
    · exact inv_look h hd htype hdispatch
  | invoking buffer callback => exact inv_set h hd hdispatch
  | removing buffer func =>
    have hresting : Resting w.client.dispatcher := by rw [hd]; trivial
    rw [hd] at hhand
    simp only [SharedMemoryClient.dispatch, hd] at hdispatch
    cases hdispatch
    refine h.carry rfl (fun _ => rfl) h.app h.request h.promise ?_ (h.flight.rest hresting rfl rfl rfl ?_) ?_
    · intro id p r c hw hc
      refine h.entry id p r c hw ?_
      have hremoved : Function.update w.client.messages.map buffer.correlationId none id = some c := hc
      by_cases hid : id = buffer.correlationId
      · rw [hid, Function.update_self] at hremoved
        cases hremoved
      · rwa [Function.update_of_ne hid] at hremoved
    · dsimp only
      split <;> trivial
    · dsimp only
      split
      · rename_i hack
        exact hhand hack.1 hack.2
      · trivial
  | acknowledging buffer =>
    have hresting : Resting w.client.dispatcher := by rw [hd]; trivial
    rw [hd] at hhand
    obtain ⟨topic, htopic⟩ := Option.isSome_iff_exists.mp hhand
    simp only [SharedMemoryClient.dispatch, hd, htopic] at hdispatch
    cases hdispatch
    refine h.carry rfl (fun n => ?_) h.app h.request h.promise h.entry
      (h.flight.rest hresting rfl rfl rfl trivial) trivial
    by_cases hn : n = buffer.topicName
    · subst hn
      simp only [Function.update_self, htopic, Option.isSome_some]
    · simp only [Function.update_of_ne hn]
  | _ =>
    simp only [SharedMemoryClient.dispatch, hd] at hdispatch
    cases hdispatch

omit [DecidableEq κ] in
theorem idle_phase (h : w.idle = true) : w.client.phase () = .idle := by
  unfold Process.idle at h
  split at h
  · assumption
  · cases h

omit [DecidableEq κ] in
theorem idle_flight (h : Inv w) (hidle : w.idle = true) :
    w.answered = w.client.srvQueue.length ∧ Exits w.clientQueue ∧ Resting w.client.dispatcher := by
  apply h.flight.elsewhere
  rw [idle_phase hidle]
  rintro id p r ⟨⟩

theorem inv_destroyClient (h : Inv w) {topics : List TopicName}
    (hstep : step segment w (.destroyClient topics) = some t) :
    Inv t := by
  simp only [step] at hstep
  split at hstep
  · split at hstep
    · rename_i hperm
      cases hstep
      obtain ⟨hidle, hperm⟩ := hperm
      obtain ⟨hanswered, hqueue, hresting⟩ := idle_flight h hidle
      refine h.carry rfl (fun _ => rfl) ⟨hperm.nodup_iff.mpr h.keys.1, fun n hn => ?_⟩ h.request h.promise h.entry
        (.idle hanswered hqueue hresting) h.hand
      exact (h.keys.2 n).mp (hperm.mem_iff.mp hn)
    · cases hstep
  · cases hstep

omit [DecidableEq κ] in
theorem Flight.same (h : Flight w) (app : App) : Flight { w with app := app } := by
  cases h with
  | idle answered queue dispatcher => exact .idle answered queue dispatcher
  | sent id p r front waits server answered queue dispatcher =>
    exact .sent id p r front waits server answered queue dispatcher
  | queued id p r b exits waits answered first queue dispatcher =>
    exact .queued id p r b exits waits answered first queue dispatcher
  | looking id p r b waits answered queue dispatcher => exact .looking id p r b waits answered queue dispatcher
  | invoking id p r b waits answered queue dispatcher => exact .invoking id p r b waits answered queue dispatcher

theorem inv_unsubscribeAll (h : Inv w) (hstep : step segment w .unsubscribeAll = some t) : Inv t := by
  simp only [step] at hstep
  split at hstep
  · rename_i topicName rest happ
    obtain ⟨topic, -, rfl⟩ := Option.map_eq_some_iff.mp hstep
    have hknown := h.app
    rw [happ] at hknown
    exact h.carry rfl (fun _ => rfl) hknown h.request h.promise h.entry (h.flight.same _) h.hand
  · cases hstep

/-- A topic goes while no reply in the dispatcher's hands names it. -/
theorem inv_erase (h : Inv w) (hguard : Guard w .erase) (hstep : step segment w .erase = some t) : Inv t := by
  simp only [step] at hstep
  split at hstep
  · rename_i topicName rest happ
    split at hstep
    · rename_i hidle
      cases hstep
      have hphase := idle_phase hidle
      obtain ⟨hanswered, hqueue, hresting⟩ := idle_flight h hidle
      have hfree := hguard topicName [] rest happ
      have hrest := h.app
      rw [happ] at hrest
      obtain ⟨hnodup, hrest⟩ := hrest
      obtain ⟨hnot, hnodup⟩ := List.nodup_cons.mp hnodup
      have hknown : ∀ n, (Function.update w.client.topics topicName none n).isSome = true ↔
          n ≠ topicName ∧ Known w n := by
        intro n
        by_cases hn : n = topicName
        · subst hn
          simp
        · simp only [Function.update_of_ne hn, ne_eq, hn, not_false_iff, true_and]
          rfl
      refine ⟨?_, ?_, ?_, ?_, ?_, ?_, .idle hanswered hqueue hresting, ?_⟩
      · exact fun n hn => h.fits n ((hknown n).mp hn).2
      · refine ⟨h.keys.1.erase topicName, fun n => ?_⟩
        rw [h.keys.1.mem_erase_iff, h.keys.2 n]
        exact (hknown n).symm
      · refine ⟨hnodup, fun n hn => (hknown n).mpr ⟨?_, hrest n (List.mem_cons_of_mem _ hn)⟩⟩
        rintro rfl
        exact hnot hn
      · intro id p n sloth hw
        simp only [Within, hphase] at hw
        rcases hw with hw | hw | hw <;> cases hw
      · intro id p r hw
        simp only [hphase] at hw
        rcases hw with hw | hw <;> cases hw
      · intro id p r c hw
        simp only [hphase] at hw
        rcases hw with hw | hw <;> cases hw
      · have hhand := h.hand
        simp only
        cases hd : w.client.dispatcher with
        | removing buffer func =>
          rw [hd] at hhand hfree
          exact fun hfunc hsuccess =>
            (hknown _).mpr ⟨fun hname => hfree ⟨hfunc, hsuccess, hname⟩, hhand hfunc hsuccess⟩
        | acknowledging buffer =>
          rw [hd] at hhand hfree
          exact (hknown _).mpr ⟨hfree, hhand⟩
        | nullTopic =>
          rw [hd] at hhand
          exact hhand
        | _ => trivial
    · cases hstep
  · cases hstep

theorem inv_stop (h : Inv w) {buffer : Buffer κ} (hstep : step segment w (.stop buffer) = some t) : Inv t := by
  simp only [step] at hstep
  split at hstep
  · split at hstep
    · rename_i hidle
      cases hstep
      obtain ⟨hanswered, hqueue, hresting⟩ := idle_flight h hidle
      refine h.carry rfl (fun _ => rfl) trivial h.request h.promise h.entry (.idle hanswered ?_ hresting) h.hand
      intro b hb
      cases List.mem_append.mp hb with
      | inl hold => exact hqueue b hold
      | inr hexit =>
        rw [List.mem_singleton.mp hexit]
    · cases hstep
  · cases hstep

theorem inv_join (h : Inv w) (hstep : step segment w .join = some t) : Inv t := by
  simp only [step] at hstep
  split at hstep
  · cases hstep
    exact h.carry rfl (fun _ => rfl) trivial h.request h.promise h.entry (h.flight.same _) h.hand
  · cases hstep

theorem inv_step (hsegment : ∀ n, segment n = true → setTopicName n = n) {e : Event κ}
    (h : Inv w) (hguard : Guard w e)
    (hstep : step segment w e = some t) : Inv t := by
  cases e with
  | call id promise request => exact inv_call h hstep
  | advance => exact inv_advance hsegment h hstep
  | answer buffer => exact inv_answer h hstep
  | receive => exact inv_receive h hstep
  | dispatch => exact inv_dispatch h hstep
  | destroyClient topics => exact inv_destroyClient h hstep
  | unsubscribeAll => exact inv_unsubscribeAll h hstep
  | erase => exact inv_erase h hguard hstep
  | stop buffer => exact inv_stop h hstep
  | join => exact inv_join h hstep

/-- The dispatcher alone never finds a topic missing from such a state. -/
theorem finds_of_inv (h : Inv w) : Finds segment w := by
  intro es u hes hrun hnull
  have hinv : Inv u := by
    refine guarded_invariant (fun _ _ _ h hg hstep => ?_) h (G := fun _ e => e = .receive ∨ e = .dispatch) ?_ hrun
    · cases hg with
      | inl he => exact inv_receive h (he ▸ hstep)
      | inr he => exact inv_dispatch h (he ▸ hstep)
    · rintro pre e suf v rfl -
      exact hes e (by simp)
  have hhand := hinv.hand
  rw [hnull] at hhand
  exact hhand

theorem Finds.dispatch (h : Finds segment w) (hstep : step segment w .dispatch = some t) : Finds segment t := by
  intro es u hes hrun
  refine h (.dispatch :: es) u (fun e he => ?_) (by rw [run_cons, hstep]; exact hrun)
  cases List.mem_cons.mp he with
  | inl heq => exact Or.inr heq
  | inr he => exact hes e he

theorem not_finds_acknowledging (buffer : Buffer κ) (hd : w.client.dispatcher = .acknowledging buffer)
    (hnone : w.client.topics buffer.topicName = none) : ¬ Finds segment w := by
  intro hfinds
  have hlook : step segment w .dispatch = some { w with client := { w.client with dispatcher := .nullTopic } } := by
    simp only [step, SharedMemoryClient.dispatch, hd, hnone, Option.map_some]
  exact hfinds.dispatch hlook [] _ (fun _ he => by cases he) rfl rfl

/-- With a success reply in its hands, the dispatcher runs into the missing topic. -/
theorem not_finds (topicName : TopicName) (hhand : InHand topicName w.client.dispatcher)
    (hnone : w.client.topics topicName = none) : ¬ Finds segment w := by
  cases hd : w.client.dispatcher with
  | removing buffer func =>
    rw [hd] at hhand
    obtain ⟨hfunc, hsuccess, rfl⟩ := hhand
    intro hfinds
    have hremove : step segment w .dispatch = some { w with client := { w.client with
        messages := (w.client.messages.remove buffer.correlationId).2
        dispatcher := .acknowledging buffer } } := by
      simp only [step, SharedMemoryClient.dispatch, hd, hfunc, hsuccess, and_self, if_true, Option.map_some]
    refine not_finds_acknowledging buffer ?_ ?_ (hfinds.dispatch hremove)
    · rfl
    · exact hnone
  | acknowledging buffer =>
    rw [hd] at hhand
    have hname : buffer.topicName = topicName := hhand
    exact not_finds_acknowledging buffer hd (by rw [hname, hnone])
  | _ =>
    rw [hd] at hhand
    exact hhand.elim

theorem guard_of_finds {e : Event κ} (hstep : step segment w e = some t) (hfinds : Finds segment t) : Guard w e := by
  cases e with
  | erase =>
    intro topicName slots rest happ hhand
    simp only [step, happ] at hstep
    cases slots with
    | nil =>
      simp only at hstep
      split at hstep
      · cases hstep
        refine not_finds topicName ?_ ?_ hfinds
        · exact hhand
        · exact Function.update_self _ _ _
      · cases hstep
    | cons next slots => cases hstep
  | _ => trivial

omit [DecidableEq κ] in
theorem setTopicName_fits {n : TopicName} (hlength : n.length < 255) (hzero : ∀ b ∈ n, b ≠ 0) :
    setTopicName n = n := by
  rw [setTopicName, List.takeWhile_eq_self_iff.mpr (by simpa using hzero), List.take_of_length_le (by omega)]

/-- In every interleaving of the two threads the lookup for a success reply
finds its topic, unless a topic is erased while the dispatcher still has such a
reply to acknowledge. The name of a segment has the topic's name in it, so a
topic with a segment has a name that a message can carry. -/
theorem lookups_find (hsegment : ∀ n, segment n = true → n.length < 255 ∧ ∀ b ∈ n, b ≠ 0)
    {es : List (Event κ)} {u : Process κ}
    (hrun : run (step segment) start es = some u) :
    (∀ v, Visits (step segment) start es v → Finds segment v) ↔ Guarded (step segment) Guard start es := by
  have hfits : ∀ n, segment n = true → setTopicName n = n := fun n hn =>
    setTopicName_fits (hsegment n hn).1 (hsegment n hn).2
  refine visits_iff_guarded (fun _ h => finds_of_inv h) (fun s e t h hstep => ?_)
    (fun _ _ _ h hg hstep => inv_step hfits h hg hstep) inv_start hrun
  exact ⟨guard_of_finds hstep, fun hg => finds_of_inv (inv_step hfits h hg hstep)⟩

end Steps

/-- One topic, one cursor that is still open, and a reply that says success. -/
def oneTopic : List (Event Nat) :=
  [.call 1 100 (.subscribe [116]), .advance, .advance, .answer ⟨0, 0, 0, 3, [], true, 0⟩,
    .receive, .dispatch, .dispatch, .advance, .dispatch, .destroyClient [[116]], .unsubscribeAll,
    .call 2 200 (.unsubscribe [116] 3), .advance, .advance, .answer ⟨0, 0, 0, 3, [], true, 0⟩, .receive,
    .dispatch, .dispatch, .advance]

/-- The destructor's thread waits until the reply is acknowledged, or goes on as
soon as the promise is set. -/
def patient : List (Event Nat) := oneTopic ++ [.dispatch, .dispatch, .erase]

def hasty : List (Event Nat) := oneTopic ++ [.erase, .dispatch, .dispatch]

theorem lookups_find_patient : ∃ u, run (step fun n => n == [116]) start patient = some u ∧ u.names = [] ∧
    ((∀ v, Visits (step fun n => n == [116]) start patient v → Finds (fun n => n == [116]) v) ↔
      Guarded (step fun n => n == [116]) Guard start patient) := by
  have hrun : (run (step fun n => n == [116]) start patient).map Process.names = some [] := by decide +kernel
  obtain ⟨u, hu, hnames⟩ := Option.map_eq_some_iff.mp hrun
  refine ⟨u, hu, hnames, lookups_find (fun n hn => ?_) hu⟩
  rw [beq_iff_eq.mp hn]
  refine ⟨by decide, fun b hb => ?_⟩
  rw [List.mem_singleton.mp hb]
  decide

/-- The last reply sets the promise, the destructor erases the topic, and the
lookup that follows returns a null pointer, which is dereferenced. -/
theorem lookup_missing : ∃ u, run (step fun n => n == [116]) start hasty = some u ∧
    u.client.dispatcher = .nullTopic := by
  have hrun : (run (step fun n => n == [116]) start hasty).map
      (fun u => match u.client.dispatcher with | .nullTopic => true | _ => false) = some true := by decide +kernel
  obtain ⟨u, hu, hnull⟩ := Option.map_eq_some_iff.mp hrun
  refine ⟨u, hu, ?_⟩
  split at hnull
  · assumption
  · cases hnull

end ClientShutdown
