import CtrlEvents.Library.Outcome
import CtrlEvents.Library.Ptree
import CtrlEvents.Payload.PropertySet

namespace CtrlEvents

abbrev Tree := Ptree Str Str

structure Translator (α : Type) (Regular : α → Prop) where
  put : α → Str
  get : Str → Option α
  get_put : ∀ a, Regular a → get (put a) = some a

def Finite32 (x : BitVec 32) : Prop := x.extractLsb' 23 8 ≠ BitVec.allOnes 8

def Finite64 (x : BitVec 64) : Prop := x.extractLsb' 52 11 ≠ BitVec.allOnes 11

/-- What the payload codec relies on and does not define: boost's translators and its JSON
writer and parser, and the leap seconds of `daf_base`. -/
structure Libraries where
  bool : Translator Bool fun _ ↦ True
  int : Translator Int32 fun _ ↦ True
  long : Translator Int64 fun _ ↦ True
  longLong : Translator Int64 fun _ ↦ True
  float : Translator (BitVec 32) Finite32
  double : Translator (BitVec 64) Finite64
  writeJson : Tree → Option Str
  readJson : Str → Option Tree
  read_write : ∀ t : Tree, t.Exclusive → t.data = [] →
    ∃ text, writeJson t = some text ∧ readJson text = some t
  utcToTai : Int64 → Except Exn Int64

def tagWords : List Str :=
  [lit "string", lit "bool", lit "long", lit "long long", lit "int",
    lit "float", lit "double", lit "datetime"]

namespace Ptree

def getValue {α : Type} (get : Str → Option α) (item : Tree) : Except Exn α :=
  match get item.data with
  | some a => .ok a
  | none => .error (.ptreeBadData item.data)

def getChildOf (t : Tree) (label : Str) : Except Exn Tree :=
  match t.getChild (treePath label) with
  | some s => .ok s
  | none => .error (.ptreeBadPath label)

end Ptree

namespace Libraries

variable (L : Libraries)

def putValue : Value → Str
  | .bool b => L.bool.put b
  | .int n => L.int.put n
  | .long n => L.long.put n
  | .longLong n => L.longLong.put n
  | .float x => L.float.put x
  | .double x => L.double.put x
  | .string s => s
  | .dateTime t => L.longLong.put t.nsecs
  | _ => []

/-- `Event::add`: one entry for each value, all under the tag of their type. With assertions off,
`put_child` takes an empty last part of a name for a key. -/
def add (kind : Kind) (name tag : Str) (ps : PropertySet) (child : Tree) : Except Exn Tree := do
  let vec ← ps.getArray kind name
  let children : Tree := .node [] (vec.map fun v ↦ (tag, .node (L.putValue v) []))
  return Ptree.putChild (segments name) children child

def marshallName (ps : PropertySet) (child : Tree) (name : Str) : Except Exn Tree := do
  match ← ps.typeOf name with
  | .value .bool => L.add .bool name (lit "bool") ps child
  | .value .long => L.add .long name (lit "long") ps child
  | .value .longLong => L.add .longLong name (lit "long long") ps child
  | .value .int => L.add .int name (lit "int") ps child
  | .value .float => L.add .float name (lit "float") ps child
  | .value .double => L.add .double name (lit "double") ps child
  | .value .string => L.add .string name (lit "string") ps child
  | .value .dateTime =>
    let vec ← ps.getArray .dateTime name
    return vec.foldl (fun child v ↦ Ptree.putChild (segments name)
      (.node [] [(lit "datetime", .node (L.putValue v) [])]) child) child
  | _ => throw (.runtimeError (lit "Couldn't marshall " ++ name))

def marshallTree (ps : PropertySet) (names : List Str) : Except Exn Tree :=
  names.foldlM (L.marshallName ps) (.node [] [])

/-- `Event::marshall`, given the order in which `paramNames(false)` lists the names. -/
def marshall (ps : PropertySet) (names : List Str) : Except Exn Str := do
  let child ← L.marshallTree ps names
  match L.writeJson child with
  | some payload => return payload
  | none => throw .jsonParserError

def itemValue (typeInfo : Str) (item : Tree) : Option (Except Exn Value) :=
  if typeInfo = lit "string" then some (.string <$> item.getValue some)
  else if typeInfo = lit "bool" then some (.bool <$> item.getValue L.bool.get)
  else if typeInfo = lit "long" then some (.long <$> item.getValue L.long.get)
  else if typeInfo = lit "long long" then some (.longLong <$> item.getValue L.longLong.get)
  else if typeInfo = lit "int" then some (.int <$> item.getValue L.int.get)
  else if typeInfo = lit "float" then some (.float <$> item.getValue L.float.get)
  else if typeInfo = lit "double" then some (.double <$> item.getValue L.double.get)
  else if typeInfo = lit "datetime" then some do
    let value ← item.getValue L.longLong.get
    return .dateTime ⟨← L.utcToTai value⟩
  else none

/-- `Event::addDataItem`; no set comes back where the source returns false. -/
def addDataItem (typeInfo : Str) (item : Tree) (key : Str) (ps : PropertySet) :
    Except Exn (Option PropertySet) :=
  match L.itemValue typeInfo item with
  | some value => do return some (← ps.add key (← value))
  | none => .ok none

/-- The loop over the items of one label, in `Event::parsePropertySet` and in
`Event::unmarshall`: at the first item that is no data, the nested set is added and the loop
ends. -/
def addItems (nested : Outcome Exn PropertySet) (label : Str) :
    List (Str × Tree) → PropertySet → Outcome Exn PropertySet
  | [], psp => pure psp
  | (typeInfo, item) :: items, psp => do
    match ← L.addDataItem typeInfo item label psp with
    | some psp => addItems nested label items psp
    | none => psp.addSet label (← nested)

/-- The body of the loop in `Event::parsePropertySet`. The items of a label and the node of the
nested call are both looked up by the label. -/
def parseLabel (parse : Tree → Outcome Exn PropertySet) (child : Tree) (psp : PropertySet)
    (v : Str × Tree) : Outcome Exn PropertySet := do
  let node ← child.getChildOf v.1
  L.addItems (parse node) v.1 node.children psp

def parsePropertySet : ℕ → Tree → Outcome Exn PropertySet
  | 0, _ => .deep
  | calls + 1, child => child.children.foldlM (L.parseLabel (parsePropertySet calls) child) ∅

def parseTopLabel (parse : Tree → Outcome Exn PropertySet) (psp : PropertySet) (v : Str × Tree) :
    Outcome Exn PropertySet :=
  L.addItems (parse v.2) v.1 v.2.children psp

def parseTop (calls : ℕ) (pt : Tree) : Outcome Exn PropertySet :=
  pt.children.foldlM (L.parseTopLabel (L.parsePropertySet calls)) ∅

def unmarshall (calls : ℕ) (text : Str) : Outcome Exn PropertySet :=
  match L.readJson text with
  | some pt => L.parseTop calls pt
  | none => .threw .jsonParserError

end Libraries

end CtrlEvents
