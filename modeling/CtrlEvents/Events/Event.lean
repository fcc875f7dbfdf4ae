import CtrlEvents.Library.Fallible
import CtrlEvents.Payload.PropertySet

namespace CtrlEvents

structure LocationId where
  hostname : Str
  pid : Int32
  localID : Int32
  deriving DecidableEq

namespace EventTypes

def EVENT : Str := lit "_E"

def LOG : Str := lit "_L"

def STATUS : Str := lit "_S"

def COMMAND : Str := lit "_C"

end EventTypes

inductive EventClass
  | event
  | status
  | command
  | log
  deriving DecidableEq

structure Event where
  type : EventClass
  psp : PropertySet
  keywords : Finset Str

namespace Event

def TYPE : Str := lit "TYPE"

def EVENTTIME : Str := lit "EVENTTIME"

def RUNID : Str := lit "RUNID"

def STATUS : Str := lit "STATUS"

def TOPIC : Str := lit "TOPIC"

def QUEUE : Str := lit "QUEUE"

def PUBTIME : Str := lit "PUBTIME"

def UNINITIALIZED : Str := lit "uninitialized"

def ORIG_HOSTNAME : Str := lit "ORIG_HOSTNAME"

def ORIG_PROCESSID : Str := lit "ORIG_PROCESSID"

def ORIG_LOCALID : Str := lit "ORIG_LOCALID"

def DEST_HOSTNAME : Str := lit "DEST_HOSTNAME"

def DEST_PROCESSID : Str := lit "DEST_PROCESSID"

def DEST_LOCALID : Str := lit "DEST_LOCALID"

def LEVEL : Str := lit "LEVEL"

def LOGGER : Str := lit "LOGGER"

/-- The keywords of `Event::_init`. -/
def reserved : Finset Str := {TYPE, EVENTTIME, STATUS, TOPIC, PUBTIME}

end Event

/-- A header field that a subclass of `Event` adds, by the type that it is written and read as. -/
inductive Field
  | text (name : Str)
  | number (name : Str)
  deriving DecidableEq

namespace Field

def name : Field → Str
  | text name => name
  | number name => name

def originator : List Field :=
  [text Event.ORIG_HOSTNAME, number Event.ORIG_PROCESSID, number Event.ORIG_LOCALID]

def destination : List Field :=
  [text Event.DEST_HOSTNAME, number Event.DEST_PROCESSID, number Event.DEST_LOCALID]

end Field

/-- The header fields of a class, in the order in which its `populateHeader` writes them and its
constructor from a message reads them. -/
def EventClass.fields : EventClass → List Field
  | event => []
  | status => Field.originator
  | command => Field.originator ++ Field.destination
  | log => Field.originator ++ [.number Event.LEVEL, .text Event.LOGGER]

/-- The keywords of the `_init` of the subclasses. -/
def EventClass.keywords (type : EventClass) : Finset Str := (type.fields.map Field.name).toFinset

def PropertySet.setDefault (ps : PropertySet) (name : Str) (v : Value) : Except Exn PropertySet :=
  if ps.exists' name then .ok ps else ps.set name v

namespace Event

/-- `Event::_constructor`, at the time `now`. The constructors without a run id or without a
filterable set pass an empty one. -/
def construct (now : Int64) (runId : Str) (ps filterable : PropertySet) : Except Exn Event := do
  let psp ← ps.setDefault STATUS (.string (lit "unknown"))
  let psp ← psp.setDefault EVENTTIME (.longLong now)
  let keywords := if runId = [] then reserved else insert RUNID reserved
  let psp ← if runId = [] then pure psp else psp.set RUNID (.string runId)
  let psp ← psp.setDefault TYPE (.string EventTypes.EVENT)
  let psp ← psp.set TOPIC (.string UNINITIALIZED)
  let psp ← psp.set PUBTIME (.longLong 0)
  if 0 < filterable.nameCount then
    return ⟨.event, ← psp.combine filterable, keywords ∪ filterable.keys⟩
  else
    return ⟨.event, psp, keywords⟩

/-- What the constructors of a subclass do to the event that `Event::_constructor` has made: the
keywords of the class, and properties of its own. -/
def extend (e : Event) (type : EventClass) (fields : List (Str × Value)) : Except Exn Event := do
  let psp ← fields.foldlM (fun psp v ↦ psp.set v.1 v.2) e.psp
  return ⟨type, psp, e.keywords ∪ type.keywords⟩

def constructStatus (now : Int64) (runId : Str) (originator : LocationId)
    (ps filterable : PropertySet) : Except Exn Event := do
  let e ← construct now runId ps filterable
  e.extend .status [(ORIG_HOSTNAME, .string originator.hostname),
    (ORIG_PROCESSID, .int originator.pid), (ORIG_LOCALID, .int originator.localID),
    (TYPE, .string EventTypes.STATUS)]

def constructCommand (now : Int64) (runId : Str) (originator destination : LocationId)
    (ps filterable : PropertySet) : Except Exn Event := do
  let e ← construct now runId ps filterable
  e.extend .command [(ORIG_HOSTNAME, .string originator.hostname),
    (ORIG_PROCESSID, .int originator.pid), (ORIG_LOCALID, .int originator.localID),
    (DEST_HOSTNAME, .string destination.hostname), (DEST_PROCESSID, .int destination.pid),
    (DEST_LOCALID, .int destination.localID), (TYPE, .string EventTypes.COMMAND)]

def constructLog (now : Int64) (originator : LocationId) (ps : PropertySet) : Except Exn Event := do
  let e ← constructStatus now [] originator ps ∅
  e.extend .log [(TYPE, .string EventTypes.LOG)]

/-- `Event::Event()`: the keywords, and nothing under them. -/
def new : Event := ⟨.event, ∅, reserved⟩

def newStatus : Event := ⟨.status, new.psp, new.keywords ∪ EventClass.status.keywords⟩

def newCommand : Event := ⟨.command, new.psp, new.keywords ∪ EventClass.command.keywords⟩

def newLog : Event := ⟨.log, newStatus.psp, newStatus.keywords ∪ EventClass.log.keywords⟩

def getFilterablePropertyNames (e : Event) : List Str := e.keywords.sort (· ≤ ·)

/-- The loop of `Event::getCustomPropertyNames`, which erases keywords from the list in place. -/
def eraseKeywords (keywords : Finset Str) (names : List Str) (i : ℕ) : List Str :=
  if h : i < names.length then
    if names[i] ∈ keywords then eraseKeywords keywords (names.eraseIdx i) i
    else eraseKeywords keywords names (i + 1)
  else names
termination_by names.length - i
decreasing_by
  · rw [List.length_eraseIdx_of_lt h]
    omega
  · omega

def getCustomPropertyNames (e : Event) : List Str := eraseKeywords e.keywords e.psp.names 0

def getCustomPropertySet (e : Event) : PropertySet :=
  e.getFilterablePropertyNames.foldl (fun psp keyword ↦ psp.remove keyword) e.psp

def getPropertySet (e : Event) : PropertySet := e.psp

def getEventTime (e : Event) : Except Exn Int64 := e.psp.get Value.toLongLong? EVENTTIME

def getPubTime (e : Event) : Except Exn Int64 := e.psp.get Value.toLongLong? PUBTIME

def getRunId (e : Event) : Except Exn Str :=
  if e.psp.exists' RUNID then e.psp.get Value.toString? RUNID
  else throw (.runtimeError (lit "property RUNID not found"))

def getStatus (e : Event) : Except Exn Str := e.psp.get Value.toString? STATUS

def getTopic (e : Event) : Except Exn Str := e.psp.get Value.toString? TOPIC

def getLocation (e : Event) (hostname pid localID : Str) : Except Exn LocationId := do
  return ⟨← e.psp.get Value.toString? hostname, ← e.psp.get Value.toInt? pid,
    ← e.psp.get Value.toInt? localID⟩

def getOriginator (e : Event) : Except Exn LocationId :=
  e.getLocation ORIG_HOSTNAME ORIG_PROCESSID ORIG_LOCALID

def getDestination (e : Event) : Except Exn LocationId :=
  e.getLocation DEST_HOSTNAME DEST_PROCESSID DEST_LOCALID

def getLevel (e : Event) : Except Exn Int32 := e.psp.get Value.toInt? LEVEL

def getLogger (e : Event) : Except Exn Str := e.psp.get Value.toString? LOGGER

def setProperty (e : Event) (name : Str) (v : Value) : Except Exn Event := do
  return { e with psp := ← e.psp.set name v }

def setEventTime (e : Event) (nsecs : Int64) : Except Exn Event :=
  e.setProperty EVENTTIME (.longLong nsecs)

def updateEventTime (e : Event) (now : Int64) : Except Exn Event :=
  e.setProperty EVENTTIME (.longLong now)

def setRunId (e : Event) (runId : Str) : Except Exn Event :=
  { e with keywords := insert RUNID e.keywords }.setProperty RUNID (.string runId)

def setStatus (e : Event) (status : Str) : Except Exn Event :=
  e.setProperty STATUS (.string status)

def setTopic (e : Event) (topic : Str) : Except Exn Event := e.setProperty TOPIC (.string topic)

def setPubTime (e : Event) (t : Int64) : Except Exn Event := e.setProperty PUBTIME (.longLong t)

end Event

end CtrlEvents
