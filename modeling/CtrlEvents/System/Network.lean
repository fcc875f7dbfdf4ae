import CtrlEvents.System.Logging
import CtrlEvents.System.Routing

namespace CtrlEvents

def Sender.toTransmitter : Sender → Transmitter
  | transmitter t => .topic t.topicName
  | enqueuer q => .queue q.queueName

inductive Message
  | text (msg : TextMessage)
  | other

/-- How `receive` of a `cms::MessageConsumer` ends: after the timeout, with a message, with an
exception of ActiveMQ, or with another one of CMS. -/
inductive Reception
  | nothing
  | message (m : Message)
  | broken (reason : Str)
  | failed (reason : Str)

def Reception.receiveEvent (L : Libraries) (C : Cms) (calls : ℕ) :
    Reception → Outcome Exn (Option Event)
  | nothing => pure none
  | message (.text msg) => do return some (← Event.createEvent L C calls msg)
  | message .other => .threw (.runtimeError (lit "Unexpected JMS Message type"))
  | broken reason => .threw (.runtimeError reason)
  | failed reason => .threw (.cmsException reason)

/-- How a session makes a message and takes what an event writes into it, and how it takes the
stamps and sends the message. -/
structure Session where
  makes : Except Str Unit
  sends : Except Str Unit

def Session.working : Session := ⟨.ok (), .ok ()⟩

/-- `Transmitter::publishEvent` over a session: the message that is sent. -/
def Transmitter.publishEvent (L : Libraries) (transmitter : Transmitter) (event : Event)
    (names : List Str) (pubtime : Int64) (session : Session) : Except Exn TextMessage := do
  let _ ← session.makes.mapError .cmsException
  let message ← event.publish L names transmitter pubtime
  let _ ← session.sends.mapError .cmsException
  return message

structure Posting where
  destination : Transmitter
  message : Message

structure Network where
  registry : ℕ → EventSystem
  appender : ℕ → EventAppender
  sent : List Posting

namespace Network

instance : EmptyCollection Network := ⟨⟨fun _ ↦ ∅, fun _ ↦ .new, []⟩⟩

abbrev Run := Action Network Posting Exn

def send (posting : Posting) : Run Unit := do
  modify fun s ↦ { s with sent := s.sent ++ [posting] }
  Action.emit posting

def onRegistry {α : Type} (process : ℕ) (carry : EventSystem.Effect → Run Unit)
    (x : EventSystem.Run α) : Run α :=
  Action.handle (·.registry process)
    (fun s r ↦ { s with registry := Function.update s.registry process r }) carry x

def onAppender {α : Type} (i : ℕ) (carry : EventAppender.Effect → Run Unit)
    (x : EventAppender.Run α) : Run α :=
  Action.handle (·.appender i)
    (fun s a ↦ { s with appender := Function.update s.appender i a }) carry x

variable (L : Libraries)

/-- The order in which the names of the custom properties are listed, and the times at which a
message is stamped. -/
structure Stamps where
  names : List Str
  pubtime : Int64
  timestamp : Int64

def transmit (transmitter : Transmitter) (event : Event) (stamps : Stamps) (session : Session) :
    Run Unit := do
  let message ← transmitter.publishEvent L event stamps.names stamps.pubtime session
  send ⟨transmitter, .text { message with timestamp := stamps.timestamp }⟩

def publishEvent (process : ℕ) (destinationName : Str) (event : Event) (stamps : Stamps)
    (session : Session) : Run Unit :=
  onRegistry process
    (fun
      | .publish sender event => transmit L sender.toTransmitter event stamps session
      | .receive .. => return)
    (EventSystem.publishEvent destinationName event (.ok ()))

inductive Answer
  | nothing
  | message (i : ℕ)
  | broken (reason : Str)
  | failed (reason : Str)

def receive : Answer → Run Reception
  | .nothing => return .nothing
  | .message i => do
    match (← get).sent[i]? with
    | some posting => return .message posting.message
    | none => return .nothing
  | .broken reason => return .broken reason
  | .failed reason => return .failed reason

/-- `EventSystem::receiveEvent` up to the message. What the receiver makes of it changes nothing. -/
def receiveEvent (process : ℕ) (destinationName : Str) (timeout : Int64) (answer : Answer) :
    Run Reception := do
  let _ ← onRegistry process (fun _ ↦ return)
    (EventSystem.receiveEvent destinationName timeout (.ok none))
  receive answer

/-- A call on an appender. The publication of an `append` is given with it, and a message that was
published is sent. -/
def log (i : ℕ) (call : EventAppender.Call) (stamps : Stamps) : Run Unit :=
  onAppender i
    (fun
      | .publish t event .sent => transmit L (.topic t.topicName) event stamps .working
      | _ => return)
    (EventAppender.exec call)

inductive Call
  | create (process : ℕ) (call : EventSystem.Call) (h : call.sender.isSome ∨ call.listener.isSome)
  | publishEvent (process : ℕ) (destinationName : Str) (event : Event) (stamps : Stamps)
      (session : Session)
  | receiveEvent (process : ℕ) (destinationName : Str) (timeout : Int64) (answer : Answer)
  | log (i : ℕ) (call : EventAppender.Call) (stamps : Stamps)
  | foreign (posting : Posting)

def exec : Call → Run Reception
  | .create process call _ => do
    let _ ← onRegistry process (fun _ ↦ return) (EventSystem.exec call)
    return .nothing
  | .publishEvent process name event stamps session => do
    publishEvent L process name event stamps session
    return .nothing
  | .receiveEvent process name timeout answer => receiveEvent process name timeout answer
  | .log i call stamps => do
    log L i call stamps
    return .nothing
  | .foreign posting => do
    send posting
    return .nothing

end Network

end CtrlEvents
