import CtrlEvents.Library.Action
import CtrlEvents.System.Endpoints

namespace CtrlEvents

/-- The lists of endpoints that all `EventSystem` objects share. -/
structure EventSystem where
  transmitters : List EventTransmitter
  enqueuers : List EventEnqueuer
  receivers : List EventReceiver
  dequeuers : List EventDequeuer
  deriving DecidableEq

namespace EventSystem

instance : EmptyCollection EventSystem := ⟨⟨[], [], [], []⟩⟩

inductive Effect
  | publish (sender : Sender) (event : Event)
  | receive (listener : Listener) (timeout : Int64)

abbrev Run := Action EventSystem Effect Exn

def getTransmitter (s : EventSystem) (name : Str) : Option Sender :=
  match s.transmitters.find? (·.topicName = name) with
  | some t => some (.transmitter t)
  | none => (s.enqueuers.find? (·.queueName = name)).map .enqueuer

def getReceiver (s : EventSystem) (name : Str) : Option Listener :=
  match s.receivers.find? (·.topicName = name) with
  | some r => some (.receiver r)
  | none => (s.dequeuers.find? (·.queueName = name)).map .dequeuer

/-- The body that the `create` functions share: nothing may be registered, then the endpoint
connects, then it is listed. -/
def create {δ : Type} (registered : EventSystem → Option δ) (text : Str)
    (connection : Except Exn Unit) (list : EventSystem → EventSystem) : Run Unit := do
  match registered (← get) with
  | some _ => throw (.runtimeError text)
  | none => do
    let _ ← connection
    modify list

def createTransmitter (hostName topicName : Str) (hostPort : Int32) (connection : Connection) :
    Run Unit :=
  create (·.getTransmitter topicName)
    (lit "topic " ++ topicName ++ lit " is already registered with EventSystem")
    connection.initTransmitter
    fun s ↦ { s with transmitters := s.transmitters ++ [⟨hostName, topicName, hostPort⟩] }

def createEnqueuer (hostName queueName : Str) (hostPort : Int32) (connection : Connection) :
    Run Unit :=
  create (·.getTransmitter queueName)
    (lit "queue " ++ queueName ++ lit " is already registered with EventSystem")
    connection.initTransmitter
    fun s ↦ { s with enqueuers := s.enqueuers ++ [⟨hostName, queueName, hostPort⟩] }

def createReceiver (hostName topicName : Str) (hostPort : Int32) (connection : Connection) :
    Run Unit :=
  create (·.getReceiver topicName)
    (lit "topic " ++ topicName ++ lit " is already registered with EventSystem")
    connection.initReceiver
    fun s ↦ { s with receivers := s.receivers ++ [⟨hostName, topicName, [], hostPort⟩] }

def createDequeuer (hostName queueName : Str) (hostPort : Int32) (connection : Connection) :
    Run Unit :=
  create (·.getReceiver queueName)
    (lit "queue " ++ queueName ++ lit " is already registered with EventSystem")
    connection.initReceiver
    fun s ↦ { s with dequeuers := s.dequeuers ++ [⟨hostName, queueName, [], hostPort⟩] }

/-- `createReceiver` with a selector, whose text lacks a space. -/
def createSelectingReceiver (hostName topicName selector : Str) (hostPort : Int32)
    (connection : Connection) : Run Unit :=
  create (·.getReceiver topicName)
    (lit "topic" ++ topicName ++ lit " is already registered with EventSystem")
    connection.initReceiver
    fun s ↦ { s with receivers := s.receivers ++ [⟨hostName, topicName, selector, hostPort⟩] }

def createSelectingDequeuer (hostName queueName selector : Str) (hostPort : Int32)
    (connection : Connection) : Run Unit :=
  create (·.getReceiver queueName)
    (lit "queue" ++ queueName ++ lit " is already registered with EventSystem")
    connection.initReceiver
    fun s ↦ { s with dequeuers := s.dequeuers ++ [⟨hostName, queueName, selector, hostPort⟩] }

def notRegistered (destinationName : Str) : Exn := .runtimeError
  (lit "destination " ++ destinationName ++ lit " is not registered with EventSystem")

/-- `publishEvent`, given how the transmitter's `publishEvent` ends. -/
def publishEvent (destinationName : Str) (event : Event) (outcome : Except Exn Unit) :
    Run Unit := do
  match (← get).getTransmitter destinationName with
  | none => throw (notRegistered destinationName)
  | some transmitter => do
    Action.emit (.publish transmitter event)
    outcome

def receiveEvent (destinationName : Str) (timeout : Int64) (outcome : Except Exn (Option Event)) :
    Run (Option Event) := do
  match (← get).getReceiver destinationName with
  | none => throw (notRegistered destinationName)
  | some receiver => do
    Action.emit (.receive receiver timeout)
    outcome

/-- A call on the event system, with the outcome of what the endpoint does in it. -/
inductive Call
  | createTransmitter (hostName topicName : Str) (hostPort : Int32) (connection : Connection)
  | createEnqueuer (hostName queueName : Str) (hostPort : Int32) (connection : Connection)
  | createReceiver (hostName topicName : Str) (hostPort : Int32) (connection : Connection)
  | createDequeuer (hostName queueName : Str) (hostPort : Int32) (connection : Connection)
  | createSelectingReceiver (hostName topicName selector : Str) (hostPort : Int32)
      (connection : Connection)
  | createSelectingDequeuer (hostName queueName selector : Str) (hostPort : Int32)
      (connection : Connection)
  | publishEvent (destinationName : Str) (event : Event) (outcome : Except Exn Unit)
  | receiveEvent (destinationName : Str) (timeout : Int64) (outcome : Except Exn (Option Event))

/-- A call returns an event at most; `none` stands also for no result. -/
def exec : Call → Run (Option Event)
  | .createTransmitter host topic port c => do createTransmitter host topic port c; return none
  | .createEnqueuer host queue port c => do createEnqueuer host queue port c; return none
  | .createReceiver host topic port c => do createReceiver host topic port c; return none
  | .createDequeuer host queue port c => do createDequeuer host queue port c; return none
  | .createSelectingReceiver host topic selector port c => do
    createSelectingReceiver host topic selector port c
    return none
  | .createSelectingDequeuer host queue selector port c => do
    createSelectingDequeuer host queue selector port c
    return none
  | .publishEvent name event outcome => do publishEvent name event outcome; return none
  | .receiveEvent name timeout outcome => receiveEvent name timeout outcome

end EventSystem

end CtrlEvents
