import Mathlib.Data.List.Basic

namespace CtrlEvents

abbrev Str := List Char

/-- A string literal of the source. -/
@[irreducible] def lit (s : String) : Str := s.toList

theorem lit_inj {s t : String} : lit s = lit t ↔ s = t := by
  unfold lit
  exact String.toList_inj

/-- The exceptions that leave this package: those of `lsst::pex::exceptions`, of boost's property
trees, of CMS and of log4cxx. -/
inductive Exn
  | runtimeError (msg : Str)
  | notFoundError (msg : Str)
  | typeError (msg : Str)
  | invalidParameterError (msg : Str)
  | ptreeBadPath (path : Str)
  | ptreeBadData (data : Str)
  | jsonParserError
  | cmsException (msg : Str)
  | log4cxxException (msg : Str)
  deriving DecidableEq

structure DateTime where
  nsecs : Int64
  deriving DecidableEq

/-- The C++ types of property values; every type this package never names is an `other`. -/
inductive Kind
  | bool
  | short
  | int
  | long
  | longLong
  | float
  | double
  | string
  | dateTime
  | byte
  | other (type : ℕ)
  deriving DecidableEq

/-- A property value. Floating-point numbers are their IEEE bit patterns. -/
inductive Value
  | bool (b : Bool)
  | short (n : Int16)
  | int (n : Int32)
  | long (n : Int64)
  | longLong (n : Int64)
  | float (x : BitVec 32)
  | double (x : BitVec 64)
  | string (s : Str)
  | dateTime (t : DateTime)
  | byte (b : UInt8)
  | other (type value : ℕ)
  deriving DecidableEq

namespace Value

def kind : Value → Kind
  | bool _ => .bool
  | short _ => .short
  | int _ => .int
  | long _ => .long
  | longLong _ => .longLong
  | float _ => .float
  | double _ => .double
  | string _ => .string
  | dateTime _ => .dateTime
  | byte _ => .byte
  | other type _ => .other type

/-! `boost::any_cast` to the types that the package asks for. -/

def toBool? : Value → Option Bool
  | bool b => some b
  | _ => none

def toShort? : Value → Option Int16
  | short n => some n
  | _ => none

def toInt? : Value → Option Int32
  | int n => some n
  | _ => none

def toLong? : Value → Option Int64
  | long n => some n
  | _ => none

def toLongLong? : Value → Option Int64
  | longLong n => some n
  | _ => none

def toFloat? : Value → Option (BitVec 32)
  | float x => some x
  | _ => none

def toDouble? : Value → Option (BitVec 64)
  | double x => some x
  | _ => none

def toString? : Value → Option Str
  | string s => some s
  | _ => none

end Value

/-- What a property name holds unless it holds nested sets: values of one type, at least one. -/
@[ext]
structure Leaf where
  values : List Value
  nonempty : values ≠ []
  uniform : ∀ v ∈ values, ∀ w ∈ values, v.kind = w.kind

namespace Leaf

def single (v : Value) : Leaf where
  values := [v]
  nonempty := List.cons_ne_nil v []
  uniform := by simp

def back (l : Leaf) : Value := l.values.getLast l.nonempty

def kind (l : Leaf) : Kind := l.back.kind

theorem back_mem (l : Leaf) : l.back ∈ l.values := List.getLast_mem l.nonempty

theorem kind_eq (l : Leaf) {v : Value} (h : v ∈ l.values) : v.kind = l.kind :=
  l.uniform v h l.back l.back_mem

def append (l l' : Leaf) : Option Leaf :=
  if h : l'.kind = l.kind then
    some {
      values := l.values ++ l'.values
      nonempty := by simp [l.nonempty]
      uniform := by
        have hk : ∀ v ∈ l.values ++ l'.values, v.kind = l.kind := by
          intro v hv
          rcases List.mem_append.1 hv with hv | hv
          · exact l.kind_eq hv
          · exact (l'.kind_eq hv).trans h
        exact fun v hv w hw ↦ (hk v hv).trans (hk w hw).symm }
  else none

theorem append_values {l l' r : Leaf} (h : l.append l' = some r) :
    r.values = l.values ++ l'.values := by
  unfold append at h
  split at h <;> cases h
  rfl

theorem append_isSome {l l' : Leaf} : (l.append l').isSome ↔ l'.kind = l.kind := by
  unfold append
  split <;> simp_all

theorem back_append {l l' r : Leaf} (h : l.append l' = some r) : r.back = l'.back := by
  simp only [back, append_values h]
  exact List.getLast_append_of_right_ne_nil _ _ l'.nonempty

end Leaf

/-! Dotted names. -/

def segments (name : Str) : List Str := name.splitOn '.'

def dotted (p : List Str) : Str := ['.'].intercalate p

/-- The path by which boost looks a node up: an empty last part leads no further. -/
def treePath (name : Str) : List Str :=
  if (segments name).getLast? = some [] then (segments name).dropLast else segments name

def Plain (n : Str) : Prop := n ≠ [] ∧ '.' ∉ n

instance (n : Str) : Decidable (Plain n) := inferInstanceAs (Decidable (_ ∧ _))

theorem segments_dotted {p : List Str} (hp : p ≠ []) (h : ∀ n ∈ p, '.' ∉ n) :
    segments (dotted p) = p :=
  List.splitOn_intercalate '.' h hp

theorem dotted_segments (name : Str) : dotted (segments name) = name :=
  List.intercalate_splitOn '.'

theorem segments_of_notMem {n : Str} (h : '.' ∉ n) : segments n = [n] := by
  have hd : dotted [n] = n := by simp [dotted, List.intercalate]
  rw [← hd]
  exact (segments_dotted (List.cons_ne_nil n []) (by simpa [hd] using h)).trans (by rw [hd])

theorem segments_ne_nil (name : Str) : segments name ≠ [] := by
  simp [segments]

theorem segments_dotless (name : Str) : ∀ n ∈ segments name, '.' ∉ n := by
  rw [segments]
  induction name with
  | nil => simp
  | cons c name ih =>
    rw [List.splitOn_cons_eq_if_modifyHead]
    split
    · exact List.forall_mem_cons.2 ⟨List.not_mem_nil, ih⟩
    · next hc =>
      obtain ⟨n, rest, hsplit⟩ := List.exists_cons_of_ne_nil (List.splitOn_ne_nil '.' name)
      rw [hsplit, List.forall_mem_cons] at ih
      rw [hsplit, List.modifyHead_cons, List.forall_mem_cons, List.mem_cons, not_or]
      exact ⟨⟨fun h ↦ hc (by simp [← h]), ih.1⟩, ih.2⟩

theorem treePath_dotted {p : List Str} (hp : p ≠ []) (h : ∀ n ∈ p, Plain n) :
    treePath (dotted p) = p := by
  rw [treePath, segments_dotted hp fun n hn ↦ (h n hn).2, if_neg]
  intro hl
  exact (h [] (List.mem_of_getLast? hl)).1 rfl

theorem dotted_inj {p q : List Str} (hp : p ≠ []) (hq : q ≠ []) (h : ∀ n ∈ p, '.' ∉ n)
    (h' : ∀ n ∈ q, '.' ∉ n) (he : dotted p = dotted q) : p = q := by
  rw [← segments_dotted hp h, he, segments_dotted hq h']

theorem treePath_eq_nil {name : Str} : treePath name = [] ↔ name = [] := by
  constructor
  · intro h
    rw [← dotted_segments name]
    unfold treePath at h
    split at h
    · next hl =>
      cases hs : segments name with
      | nil => rfl
      | cons a l =>
        rw [hs] at h hl
        cases l with
        | nil =>
          cases hl
          rfl
        | cons b l => simp at h
    · exact absurd h (segments_ne_nil name)
  · rintro rfl
    rfl

end CtrlEvents
