import CtrlEvents.Events.Event
import CtrlEvents.Events.Message
import CtrlEvents.Payload.Codec

namespace CtrlEvents

namespace Event

def headerValue (psp : PropertySet) (name : Str) : Except Exn CmsValue := do
  match ← psp.typeOf name with
  | .value .bool => return .boolean (← psp.get Value.toBool? name)
  | .value .short => return .short (← psp.get Value.toShort? name)
  | .value .int => return .integer (← psp.get Value.toInt? name)
  | .value .long => return .long (← psp.get Value.toLong? name)
  | .value .longLong => return .long (← psp.get Value.toLongLong? name)
  | .value .double => return .double (← psp.get Value.toDouble? name)
  | .value .float => return .float (← psp.get Value.toFloat? name)
  | .value .string => return .string (← psp.get Value.toString? name)
  | _ => throw (.runtimeError
      (lit "Data type represented in " ++ name ++ lit " is not permitted in event header"))

end Event

namespace Field

def write (psp : PropertySet) (msg : TextMessage) : Field → Except Exn TextMessage
  | text name => do return msg.set name (.string (← psp.get Value.toString? name))
  | number name => do return msg.set name (.integer (← psp.get Value.toInt? name))

def read (C : Cms) (msg : TextMessage) (psp : PropertySet) : Field → Except Exn PropertySet
  | text name => do psp.set name (.string (← msg.getStringProperty C name))
  | number name => do psp.set name (.int (← msg.getIntProperty C name))

end Field

/-- `EventTransmitter` and `EventEnqueuer`, to a topic and to a queue. -/
inductive Transmitter
  | topic (name : Str)
  | queue (name : Str)
  deriving DecidableEq

namespace Transmitter

def getDestinationPropertyName : Transmitter → Str
  | topic _ => Event.TOPIC
  | queue _ => Event.QUEUE

def destinationName : Transmitter → Str
  | topic name => name
  | queue name => name

end Transmitter

namespace Event

variable (L : Libraries) (C : Cms)

/-- `Event::populateHeader`. -/
def writeKeywords (e : Event) (msg : TextMessage) : Except Exn TextMessage :=
  e.getFilterablePropertyNames.foldlM
    (fun msg name ↦ do return msg.set name (← headerValue e.psp name)) msg

def populateHeader (e : Event) (msg : TextMessage) : Except Exn TextMessage := do
  let msg ← e.writeKeywords msg
  e.type.fields.foldlM (fun msg field ↦ field.write e.psp msg) msg

/-- `Event::marshall(cms::TextMessage*)`, given the order in which the names of the custom
properties are listed. -/
def marshall (e : Event) (names : List Str) (msg : TextMessage) : Except Exn TextMessage := do
  let msg ← e.populateHeader msg
  let payload ← L.marshall e.getCustomPropertySet names
  return { msg with text := payload }

/-- The message that `Transmitter::publishEvent` sends, at a time and over a working session. -/
def publish (e : Event) (names : List Str) (transmitter : Transmitter) (pubtime : Int64) :
    Except Exn TextMessage := do
  let message ← e.marshall L names .new
  let message := message.set transmitter.getDestinationPropertyName
    (.string transmitter.destinationName)
  return message.set PUBTIME (.long pubtime)

def readProperty (msg : TextMessage) (psp : PropertySet) (name : Str) : Except Exn PropertySet :=
  match msg.properties.lookup name with
  | some v => do psp.set name (← v.toValue name)
  | none => .ok psp

def readProperties (msg : TextMessage) (psp : PropertySet) : Except Exn PropertySet := do
  let psp ← psp.set EVENTTIME (.longLong msg.timestamp)
  msg.names.foldlM (readProperty msg) psp

def assemble (type : EventClass) (msg : TextMessage) (psp : PropertySet) : Except Exn Event := do
  let psp ← readProperties msg psp
  let psp ← type.fields.foldlM (Field.read C msg) psp
  return ⟨type, psp, msg.properties.keys ∪ type.keywords⟩

/-- The constructor of a class from a message, within a bound on the nested calls of the
decoder. -/
def ofMessage (type : EventClass) (calls : ℕ) (msg : TextMessage) : Outcome Exn Event := do
  let psp ← L.unmarshall calls msg.text
  assemble C type msg psp

def createEvent (calls : ℕ) (msg : TextMessage) : Outcome Exn Event := do
  let type ← msg.getStringProperty C TYPE
  if type = EventTypes.LOG then ofMessage L C .log calls msg
  else if type = EventTypes.STATUS then ofMessage L C .status calls msg
  else if type = EventTypes.COMMAND then ofMessage L C .command calls msg
  else ofMessage L C .event calls msg

end Event

end CtrlEvents
