import ZeroCopyRpc.SharedMemoryServer
import ZeroCopyRpc.Transitions

/-!
# The client's requests and its dispatcher thread

A request makes its envelope and a promise on the caller's stack, enters the
promise's address and a handler under the correlation id, sends the envelope
and waits. The dispatcher thread takes one reply after the other, looks its
correlation id up, and the handler sets the promise and then removes the entry.
The caller may return as soon as the promise is set, and its stack is used again.

`begun`, `registered` and `fulfilled` are history variables: the correlation
ids of the requests, of the entries made, and of each promise that was set
together with the reply it was set from. No step of the code reads them.
-/

/-- A map behind a lock; each operation is one step. -/
structure ConcurrentDictionary (κ ν : Type) where
  map : κ → Option ν

namespace ConcurrentDictionary

variable {κ ν : Type} [DecidableEq κ]

def insertOrUpdate (d : ConcurrentDictionary κ ν) (key : κ) (value : ν) : ConcurrentDictionary κ ν :=
  ⟨Function.update d.map key (some value)⟩

def tryGetValue (d : ConcurrentDictionary κ ν) (key : κ) : Option ν := d.map key

def remove (d : ConcurrentDictionary κ ν) (key : κ) : Bool × ConcurrentDictionary κ ν :=
  ((d.map key).isSome, ⟨Function.update d.map key none⟩)

end ConcurrentDictionary

namespace SharedMemoryClient

open Transitions

/-- The handler that a request binds. -/
inductive Handler where
  | onHelloReceived | onSubscribed | onUnsubscribed
  deriving DecidableEq, Repr

/-- `State` is the address of a promise. -/
structure Callback where
  state : Nat
  func : Handler
  deriving DecidableEq, Repr

/-- A received buffer, as the dispatcher and each of the handlers read it. -/
structure Buffer (κ : Type) where
  msgType : Nat
  correlationId : κ
  requestCreated : Nat
  id : Nat
  topicName : TopicName
  isSuccess : Bool
  slothId : Nat

/-- The promise of a request, and the copy of the reply it has been set to. -/
structure Promise (κ : Type) where
  owner : κ
  value : Option (Buffer κ)

structure Topic where
  openCursorServerCount : Nat
  openCursorClientCount : Nat
  openSlots : List Nat
  deriving DecidableEq, Repr

/-- Where a thread stands inside `Connect`, `Subscribe` or `InvokeUnsubscribe`. -/
inductive Phase (κ : Type) where
  | idle
  | registering (correlationId : κ) (promise : Nat) (request : Command)
  | sending (correlationId : κ) (promise : Nat) (request : Command)
  | waiting (correlationId : κ) (promise : Nat) (request : Command)

/-- Where the dispatcher thread stands. -/
inductive Dispatching (κ : Type) where
  | receiving
  | looking (buffer : Buffer κ)
  | invoking (buffer : Buffer κ) (callback : Callback)
  | removing (buffer : Buffer κ) (func : Handler)
  | acknowledging (buffer : Buffer κ)
  | exited
  -- a promise that is gone is touched; a promise is set again; a topic is not there
  | dangling | alreadySatisfied | nullTopic

structure World (τ κ : Type) where
  messages : ConcurrentDictionary κ Callback
  promises : Nat → Option (Promise κ)
  topics : TopicName → Option Topic
  srvQueue : List (κ × Command)
  phase : τ → Phase κ
  dispatcher : Dispatching κ
  begun : List κ
  registered : List κ
  fulfilled : List (κ × κ)

inductive Event (τ κ : Type) where
  | call (thread : τ) (correlationId : κ) (promise : Nat) (request : Command)
  | advance (thread : τ)
  | reply (buffer : Buffer κ)
  | dispatch

def handler : Command → Handler
  | .hello _ => .onHelloReceived
  | .subscribe _ => .onSubscribed
  | .unsubscribe _ _ => .onUnsubscribed

variable {τ κ : Type} [DecidableEq τ] [DecidableEq κ]

def World.goto (w : World τ κ) (t : τ) (phase : Phase κ) : World τ κ :=
  { w with phase := Function.update w.phase t phase }

/-- `GetOrCreate` and the constructor of the cursor. -/
def openCursor (topics : TopicName → Option Topic) (topicName : TopicName) (sloth : Nat) :
    TopicName → Option Topic :=
  let topic := (topics topicName).getD ⟨0, 0, []⟩
  Function.update topics topicName (some {
    openCursorServerCount := (topic.openCursorServerCount + 1) % 256
    openCursorClientCount := (topic.openCursorClientCount + 1) % 256
    openSlots := topic.openSlots ++ [sloth] })

/-- What `Topic::Unsubscribe` does before it makes the request. -/
def closeCursor (topics : TopicName → Option Topic) : Command → TopicName → Option Topic
  | .unsubscribe topicName sloth => match topics topicName with
    | none => topics
    | some topic => Function.update topics topicName (some { topic with
        openCursorClientCount := (topic.openCursorClientCount + 255) % 256
        openSlots := topic.openSlots.filter (· ≠ sloth) })
  | _ => topics

/-- What the caller does with the value of its promise. -/
def complete (topics : TopicName → Option Topic) (value : Buffer κ) : Command → TopicName → Option Topic
  | .subscribe topicName => openCursor topics topicName value.id
  | _ => topics

/-- The next step of a request. -/
def advance (w : World τ κ) (t : τ) : Option (World τ κ) :=
  match w.phase t with
  | .idle => none
  | .registering correlationId promise request =>
    some ({ w with
      messages := w.messages.insertOrUpdate correlationId ⟨promise, handler request⟩
      registered := w.registered ++ [correlationId] }.goto t (.sending correlationId promise request))
  | .sending correlationId promise request =>
    some ({ w with srvQueue := w.srvQueue ++ [(correlationId, request)] }.goto t
      (.waiting correlationId promise request))
  | .waiting _ promise request =>
    match w.promises promise with
    | some ⟨_, some value⟩ =>
      some ({ w with
        promises := Function.update w.promises promise none
        topics := complete w.topics value request }.goto t .idle)
    | _ => none

/-- The next step of the dispatcher thread with a reply in its hands. -/
def dispatch (w : World τ κ) : Option (World τ κ) :=
  match w.dispatcher with
  | .looking buffer =>
    if buffer.msgType = 0 then some { w with dispatcher := .exited }
    else match w.messages.tryGetValue buffer.correlationId with
      | none => some { w with dispatcher := .receiving }
      | some callback => some { w with dispatcher := .invoking buffer callback }
  | .invoking buffer callback =>
    match w.promises callback.state with
    | none => some { w with dispatcher := .dangling }
    | some ⟨_, some _⟩ => some { w with dispatcher := .alreadySatisfied }
    | some ⟨owner, none⟩ => some { w with
        promises := Function.update w.promises callback.state (some ⟨owner, some buffer⟩)
        fulfilled := w.fulfilled ++ [(owner, buffer.correlationId)]
        dispatcher := .removing buffer callback.func }
  | .removing buffer func =>
    some { w with
      messages := (w.messages.remove buffer.correlationId).2
      dispatcher := if func = .onUnsubscribed ∧ buffer.isSuccess = true then .acknowledging buffer else .receiving }
  | .acknowledging buffer =>
    match w.topics buffer.topicName with
    | none => some { w with dispatcher := .nullTopic }
    | some topic => some { w with
        topics := Function.update w.topics buffer.topicName (some { topic with
          openCursorServerCount := (topic.openCursorServerCount + 255) % 256 })
        dispatcher := .receiving }
  | _ => none

/-- A call makes its promise at an address that no live promise has. -/
def step : Machine (World τ κ) (Event τ κ)
  | w, .call t correlationId promise request =>
    match w.phase t, w.promises promise with
    | .idle, none =>
      some ({ w with
        promises := Function.update w.promises promise (some ⟨correlationId, none⟩)
        topics := closeCursor w.topics request
        begun := w.begun ++ [correlationId] }.goto t (.registering correlationId promise request))
    | _, _ => none
  | w, .advance t => advance w t
  | w, .reply buffer => match w.dispatcher with
    | .receiving => some { w with dispatcher := .looking buffer }
    | _ => none
  | w, .dispatch => dispatch w

def start (topics : TopicName → Option Topic) : World τ κ where
  messages := ⟨fun _ => none⟩
  promises := fun _ => none
  topics := topics
  srvQueue := []
  phase := fun _ => .idle
  dispatcher := .receiving
  begun := []
  registered := []
  fulfilled := []

end SharedMemoryClient
