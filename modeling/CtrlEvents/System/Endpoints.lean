import CtrlEvents.Events.Wire

namespace CtrlEvents

inductive Connection
  | connected
  | refused (reason : Str)
  | trouble (reason : Str)
  deriving DecidableEq

namespace Connection

/-- The errors of `Transmitter::init` and `Receiver::init`, which differ in their last text. -/
def init (troubleText : Str) : Connection → Except Exn Unit
  | connected => .ok ()
  | refused reason => .error (.runtimeError
      (lit "Failed to connect to broker: " ++ reason ++ lit " (is broker running?)"))
  | trouble reason => .error (.runtimeError (troubleText ++ reason))

def initTransmitter : Connection → Except Exn Unit := init (lit "Trouble creating Transmitter: ")

def initReceiver : Connection → Except Exn Unit := init (lit "Trouble creating Receiver: ")

end Connection

structure EventTransmitter where
  hostName : Str
  topicName : Str
  hostPort : Int32
  deriving DecidableEq

structure EventEnqueuer where
  hostName : Str
  queueName : Str
  hostPort : Int32
  deriving DecidableEq

/-- An empty selector selects every message. -/
structure EventReceiver where
  hostName : Str
  topicName : Str
  selector : Str
  hostPort : Int32
  deriving DecidableEq

structure EventDequeuer where
  hostName : Str
  queueName : Str
  selector : Str
  hostPort : Int32
  deriving DecidableEq

inductive Sender
  | transmitter (t : EventTransmitter)
  | enqueuer (q : EventEnqueuer)
  deriving DecidableEq

inductive Listener
  | receiver (r : EventReceiver)
  | dequeuer (q : EventDequeuer)
  deriving DecidableEq

def Sender.getDestinationName : Sender → Str
  | transmitter t => t.topicName
  | enqueuer q => q.queueName

def Listener.getDestinationName : Listener → Str
  | receiver r => r.topicName
  | dequeuer q => q.queueName

end CtrlEvents
