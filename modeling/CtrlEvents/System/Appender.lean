import CtrlEvents.Events.Construction
import CtrlEvents.Library.Action
import CtrlEvents.System.Endpoints

namespace CtrlEvents

structure LoggingEvent where
  loggerName : Str
  level : Int32
  message : Str
  timeStamp : Int64
  threadName : Str
  fileName : Str
  className : Str
  methodName : Str
  lineNumber : Int32

namespace LogEvent

def MESSAGE : Str := lit "message"

def TIMESTAMP : Str := lit "timestamp"

def THREADNAME : Str := lit "threadname"

def FILENAME : Str := lit "filename"

def CLASSNAME : Str := lit "classname"

def METHODNAME : Str := lit "methodname"

def LINENUMBER : Str := lit "linenumber"

def LOCATION : Str := lit "location"

def LOGGING_TOPIC : Str := lit "Logging"

end LogEvent

/-- How a publication ends: the session or the producer breaks with an exception of CMS, and the
event may not be marshallable. -/
inductive Publication
  | sent
  | unmarshallable (msg : Str)
  | broken (msg : Str)
  deriving DecidableEq

def Publication.outcome : Publication → Except Exn Unit
  | sent => .ok ()
  | unmarshallable msg => .error (.runtimeError msg)
  | broken msg => .error (.cmsException msg)

structure EventAppender where
  transmitter : Option EventTransmitter
  broker : Str
  port : Int32
  topic : Str
  runid : Str

namespace EventAppender

inductive Effect
  | connect (broker topic : Str) (port : Int32)
  | publish (transmitter : EventTransmitter) (event : Event) (publication : Publication)

abbrev Run := Action EventAppender Effect Exn

def DEFAULTHOSTPORT : Int32 := 61616

def new : EventAppender := ⟨none, [], DEFAULTHOSTPORT, LogEvent.LOGGING_TOPIC, []⟩

/-- `StringHelper::equalsIgnoreCase`, against an upper case and a lower case text. -/
def equalsIgnoreCase : Str → Str → Str → Bool
  | [], [], _ => true
  | c :: s, u :: upper, l :: lower => (c = u || c = l) && equalsIgnoreCase s upper lower
  | _, _, _ => false

def isSpace (c : Char) : Bool := c = ' ' || (9 ≤ c.toNat && c.toNat ≤ 13)

/-- `strtol` in base ten: the digits after spaces and a sign, up to the first character that is
none, as the nearest number that a `long` holds. -/
def strtol (s : Str) : ℤ :=
  match s.dropWhile isSpace with
  | '-' :: s => max (-2 ^ 63) (-digits s)
  | '+' :: s => min (2 ^ 63 - 1) (digits s)
  | s => min (2 ^ 63 - 1) (digits s)
where
  digits (s : Str) : ℕ := (s.takeWhile Char.isDigit).foldl (fun n c ↦ 10 * n + (c.toNat - 48)) 0

def atoi (s : Str) : Int32 := .ofInt (strtol s)

example : strtol (lit "\t61616/tcp") = 61616 ∧ strtol (lit "9223372036854775808") = 2 ^ 63 - 1 := by
  decide +kernel

/-- `setOption`; an option that is none of these goes to the `AppenderSkeleton`. -/
def setOption (option value : Str) : Run Unit :=
  if equalsIgnoreCase option (lit "BROKER") (lit "broker") then
    modify fun a ↦ { a with broker := value }
  else if equalsIgnoreCase option (lit "PORT") (lit "port") then
    modify fun a ↦ { a with port := atoi value }
  else if equalsIgnoreCase option (lit "TOPIC") (lit "topic") then
    modify fun a ↦ { a with topic := value }
  else if equalsIgnoreCase option (lit "RUNID") (lit "runid") then
    modify fun a ↦ { a with runid := value }
  else return

def newTransmitter (connection : Connection) : Run EventTransmitter := do
  let a ← get
  Action.emit (.connect a.broker a.topic a.port)
  let _ ← connection.initTransmitter
  return ⟨a.broker, a.topic, a.port⟩

def activateOptions (connection : Connection) : Run Unit := do
  if (← get).broker = [] then return
  try
    let transmitter ← newTransmitter connection
    modify fun a ↦ { a with transmitter := some transmitter }
  catch
    | .runtimeError _ => modify fun a ↦ { a with transmitter := none }
    | e => throw e

/-- `getTransmitter`. The `Exception` that it catches is log4cxx's. -/
def getTransmitter (connection : Connection) : Run (Option EventTransmitter) := do
  match (← get).transmitter with
  | some transmitter => return some transmitter
  | none => do
    try
      let transmitter ← newTransmitter connection
      modify fun a ↦ { a with transmitter := some transmitter }
    catch
      | .log4cxxException _ => pure ()
      | e => throw e
    return (← get).transmitter

def logProperties (event : LoggingEvent) : Except Exn PropertySet := do
  let logProp ← (∅ : PropertySet).set Event.TYPE (.string EventTypes.LOG)
  let logProp ← logProp.set Event.LOGGER (.string event.loggerName)
  let logProp ← logProp.set Event.LEVEL (.int event.level)
  let logProp ← logProp.set LogEvent.MESSAGE (.string event.message)
  let logProp ← logProp.set LogEvent.TIMESTAMP (.longLong event.timeStamp)
  let logProp ← logProp.set LogEvent.THREADNAME (.string event.threadName)
  let loc ← (∅ : PropertySet).set LogEvent.FILENAME (.string event.fileName)
  let loc ← loc.set LogEvent.CLASSNAME (.string event.className)
  let loc ← loc.set LogEvent.METHODNAME (.string event.methodName)
  let loc ← loc.set LogEvent.LINENUMBER (.int event.lineNumber)
  logProp.setSet LogEvent.LOCATION loc

/-- The event that `append` makes, from a new location id. -/
def logEvent (event : LoggingEvent) (originator : LocationId) (now : Int64) (runid : Str) :
    Except Exn Event := do
  let logProp ← logProperties event
  let e ← Event.constructLog now originator logProp
  if runid = [] then return e else e.setRunId runid

/-- `append`. The `Exception` that it catches is log4cxx's, too. -/
def append (event : LoggingEvent) (originator : LocationId) (now : Int64) (connection : Connection)
    (publication : Publication) : Run Unit := do
  let e ← logEvent event originator now (← get).runid
  match ← getTransmitter connection with
  | none => return
  | some transmitter =>
    try
      Action.emit (.publish transmitter e publication)
      publication.outcome
    catch
      | .log4cxxException _ => modify fun a ↦ { a with transmitter := none }
      | e => throw e

inductive Call
  | setOption (option value : Str)
  | activateOptions (connection : Connection)
  | append (event : LoggingEvent) (originator : LocationId) (now : Int64) (connection : Connection)
      (publication : Publication)

def exec : Call → Run Unit
  | .setOption option value => setOption option value
  | .activateOptions connection => activateOptions connection
  | .append event originator now connection publication =>
    append event originator now connection publication

end EventAppender

end CtrlEvents
