import CtrlEvents.Payload.PropertySet
import Mathlib.Data.Finmap

namespace CtrlEvents

inductive CmsValue
  | null
  | boolean (b : Bool)
  | byte (b : UInt8)
  | char (c : UInt8)
  | short (n : Int16)
  | integer (n : Int32)
  | long (n : Int64)
  | double (x : BitVec 64)
  | float (x : BitVec 32)
  | string (s : Str)
  | byteArray (bytes : List UInt8)
  | unknown
  deriving DecidableEq

/-- `cms::TextMessage`. The timestamp is the broker's. -/
structure TextMessage where
  properties : Finmap fun _ : Str ↦ CmsValue
  text : Str
  timestamp : Int64

/-- How CMS converts properties that are read as another type than they were set as. -/
structure Cms where
  toText : CmsValue → Option Str
  toNumber : CmsValue → Option Int32
  toText_string : ∀ s, toText (.string s) = some s
  toNumber_integer : ∀ n, toNumber (.integer n) = some n

def Cms.strict : Cms where
  toText
    | .string s => some s
    | _ => none
  toNumber
    | .integer n => some n
    | _ => none
  toText_string _ := rfl
  toNumber_integer _ := rfl

namespace TextMessage

def new : TextMessage := ⟨∅, [], 0⟩

def set (msg : TextMessage) (name : Str) (v : CmsValue) : TextMessage :=
  { msg with properties := msg.properties.insert name v }

def names (msg : TextMessage) : List Str := msg.properties.keys.sort (· ≤ ·)

def getStringProperty (msg : TextMessage) (C : Cms) (name : Str) : Except Exn Str :=
  match msg.properties.lookup name >>= C.toText with
  | some s => .ok s
  | none => .error (.cmsException name)

def getIntProperty (msg : TextMessage) (C : Cms) (name : Str) : Except Exn Int32 :=
  match msg.properties.lookup name >>= C.toNumber with
  | some n => .ok n
  | none => .error (.cmsException name)

@[simp]
theorem lookup_set (msg : TextMessage) (name n : Str) (v : CmsValue) :
    (msg.set name v).properties.lookup n =
      if n = name then some v else msg.properties.lookup n := by
  rw [set]
  split
  · next h => rw [h, Finmap.lookup_insert]
  · next h => rw [Finmap.lookup_insert_of_ne _ h]

theorem mem_names {msg : TextMessage} {n : Str} :
    n ∈ msg.names ↔ ∃ v, msg.properties.lookup n = some v := by
  rw [names, Finset.mem_sort, Finmap.mem_keys, ← Finmap.lookup_isSome, Option.isSome_iff_exists]

theorem set_of_lookup {msg : TextMessage} {name : Str} {v : CmsValue}
    (h : msg.properties.lookup name = some v) : msg.set name v = msg := by
  have hp : msg.properties.insert name v = msg.properties := by
    refine Finmap.ext_lookup fun n ↦ ?_
    by_cases hn : n = name
    · rw [hn, Finmap.lookup_insert, h]
    · rw [Finmap.lookup_insert_of_ne _ hn]
  rw [set, hp]

theorem getStringProperty_eq {msg : TextMessage} {C : Cms} {name s : Str}
    (h : msg.properties.lookup name = some (.string s)) :
    msg.getStringProperty C name = .ok s := by
  simp [getStringProperty, h, C.toText_string]

theorem getIntProperty_eq {msg : TextMessage} {C : Cms} {name : Str} {n : Int32}
    (h : msg.properties.lookup name = some (.integer n)) : msg.getIntProperty C name = .ok n := by
  simp [getIntProperty, h, C.toNumber_integer]

end TextMessage

namespace Value

/-- The type switch of `Event::populateHeader`, over values. -/
def toCms : Value → Option CmsValue
  | bool b => some (.boolean b)
  | short n => some (.short n)
  | int n => some (.integer n)
  | long n => some (.long n)
  | longLong n => some (.long n)
  | double x => some (.double x)
  | float x => some (.float x)
  | string s => some (.string s)
  | _ => none

def widen : Value → Value
  | long n => longLong n
  | v => v

end Value

/-- The type switch of `Event::Event(cms::TextMessage*)`, over values. -/
def CmsValue.toValue (name : Str) : CmsValue → Except Exn Value
  | null => .ok (.long 0)
  | boolean b => .ok (.bool b)
  | byte b => .ok (.byte b)
  | char c => .ok (.byte c)
  | short n => .ok (.short n)
  | integer n => .ok (.int n)
  | long n => .ok (.longLong n)
  | double x => .ok (.double x)
  | float x => .ok (.float x)
  | string s => .ok (.string s)
  | byteArray _ | unknown => .error (.runtimeError
      (lit "Data type represented by " ++ name ++ lit " is not permitted supported"))

theorem Value.toValue_toCms {v : Value} {c : CmsValue} (h : v.toCms = some c) (name : Str) :
    c.toValue name = .ok v.widen := by
  cases v <;> cases h <;> rfl

theorem Value.toCms_widen (v : Value) : v.widen.toCms = v.toCms := by
  cases v <;> rfl

end CtrlEvents
