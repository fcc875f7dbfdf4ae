import CtrlEvents.Library.JsonText
import CtrlEvents.Payload.Codec
import Mathlib.Algebra.Ring.Int.Defs

namespace CtrlEvents.Textual

def readNat (s : Str) : Option ℕ :=
  if s ≠ [] ∧ s.all Char.isDigit then some (Nat.ofDigitChars 10 s 0) else none

def showInt (n : ℤ) : Str :=
  if n < 0 then '-' :: Nat.toDigits 10 n.natAbs else Nat.toDigits 10 n.natAbs

def readInt : Str → Option ℤ
  | '-' :: s => (readNat s).map fun n ↦ -n
  | s => (readNat s).map fun n ↦ n

theorem readNat_toDigits (n : ℕ) : readNat (Nat.toDigits 10 n) = some n := by
  have hd : (Nat.toDigits 10 n).all Char.isDigit :=
    List.all_eq_true.2 fun c hc ↦ Nat.isDigit_of_mem_toDigits (by omega) (by omega) hc
  rw [readNat, if_pos ⟨Nat.toDigits_ne_nil, hd⟩, Nat.ofDigitChars_toDigits (by omega) (by omega)]

theorem readInt_of_digit {c : Char} {s : Str} (hc : c.isDigit) :
    readInt (c :: s) = (readNat (c :: s)).map fun n ↦ (n : ℤ) := by
  unfold readInt
  split
  · next h =>
    cases h
    exact absurd hc (by decide)
  · rfl

theorem readInt_showInt (n : ℤ) : readInt (showInt n) = some n := by
  unfold showInt
  split
  · next hn =>
    have hneg : -(n.natAbs : ℤ) = n := by omega
    rw [readInt, readNat_toDigits]
    exact congrArg some hneg
  · next hn =>
    have hread := readNat_toDigits n.natAbs
    cases hs : Nat.toDigits 10 n.natAbs with
    | nil => exact absurd hs Nat.toDigits_ne_nil
    | cons c s =>
      have hc : c.isDigit := by
        apply Nat.isDigit_of_mem_toDigits (b := 10) (n := n.natAbs) (by omega) (by omega)
        rw [hs]
        exact List.mem_cons_self
      have hpos : (n.natAbs : ℤ) = n := by omega
      rw [readInt_of_digit hc, ← hs, hread]
      exact congrArg some hpos

def boolean : Translator Bool fun _ ↦ True where
  put b := if b then lit "true" else lit "false"
  get s :=
    if s = lit "true" ∨ s = ['1'] then some true
    else if s = lit "false" ∨ s = ['0'] then some false
    else none
  get_put b _ := by cases b <;> decide +kernel

def int32 : Translator Int32 fun _ ↦ True where
  put n := showInt n.toInt
  get s := (readInt s).bind fun n ↦ if -2 ^ 31 ≤ n ∧ n < 2 ^ 31 then some (.ofInt n) else none
  get_put n _ := by
    rw [readInt_showInt, Option.bind_some, if_pos ⟨n.le_toInt, n.toInt_lt⟩, Int32.ofInt_toInt]

def int64 : Translator Int64 fun _ ↦ True where
  put n := showInt n.toInt
  get s := (readInt s).bind fun n ↦ if -2 ^ 63 ≤ n ∧ n < 2 ^ 63 then some (.ofInt n) else none
  get_put n _ := by
    rw [readInt_showInt, Option.bind_some, if_pos ⟨n.le_toInt, n.toInt_lt⟩, Int64.ofInt_toInt]

/-- Floating-point numbers as the numbers that their bits spell. -/
def bits (w : ℕ) (Regular : BitVec w → Prop) : Translator (BitVec w) Regular where
  put x := Nat.toDigits 10 x.toNat
  get s := (readNat s).map (BitVec.ofNat w)
  get_put x _ := by
    rw [readNat_toDigits, Option.map_some, BitVec.ofNat_toNat, BitVec.setWidth_eq]

/-- Libraries that fit in one page: decimal numbers, JSON text without white space, and the
leap seconds of the year 2016. -/
def libraries : Libraries where
  bool := boolean
  int := int32
  long := int64
  longLong := int64
  float := bits 32 Finite32
  double := bits 64 Finite64
  writeJson t := if t.data = [] then some (JsonText.write t) else none
  readJson := JsonText.read
  read_write t ht hd := ⟨JsonText.write t, if_pos hd, JsonText.read_write ht hd⟩
  utcToTai n := .ok (n + 36000000000)

theorem utcToTai_ne (n : Int64) : libraries.utcToTai n ≠ .ok n := by
  intro h
  injection h with h
  simp at h

example : libraries.readJson ['{', '"', 'a', '"', ':', '[', '1', ']', '}'] =
    some (.node [] [(['a'], .node [] [([], .node ['1'] [])])]) := rfl

end CtrlEvents.Textual
