import CtrlEvents.Library.Ptree

namespace CtrlEvents.JsonText

abbrev Tree := Ptree (List Char) (List Char)

def quoteChar (c : Char) : List Char :=
  if c = '"' ∨ c = '\\' then ['\\', c] else [c]

def quote (s : List Char) : List Char := '"' :: s.flatMap quoteChar ++ ['"']

mutual

/-- A childless node is written as a string, a node whose keys are all empty as an array, and
every other node as an object. -/
def value : Tree → List Char
  | .node data [] => quote data
  | .node _ ((k, t) :: cs) =>
    if k = [] ∧ cs.all (fun c ↦ c.1.isEmpty) then '[' :: (value t ++ moreElements cs)
    else '{' :: (quote k ++ ':' :: (value t ++ moreMembers cs))

def moreElements : List (List Char × Tree) → List Char
  | [] => [']']
  | (_, t) :: cs => ',' :: (value t ++ moreElements cs)

def moreMembers : List (List Char × Tree) → List Char
  | [] => ['}']
  | (k, t) :: cs => ',' :: (quote k ++ ':' :: (value t ++ moreMembers cs))

end

def write : Tree → List Char
  | .node _ [] => ['{', '}']
  | .node _ ((k, t) :: cs) => '{' :: (quote k ++ ':' :: (value t ++ moreMembers cs))

def readString : List Char → Option (List Char × List Char)
  | [] => none
  | '"' :: s => some ([], s)
  | '\\' :: c :: s => (readString s).map fun r ↦ (c :: r.1, r.2)
  | c :: s => (readString s).map fun r ↦ (c :: r.1, r.2)

mutual

def readValue : ℕ → List Char → Option (Tree × List Char)
  | 0, _ => none
  | _ + 1, '"' :: s => (readString s).map fun r ↦ (.node r.1 [], r.2)
  | _ + 1, '{' :: '}' :: s => some (.node [] [], s)
  | n + 1, '{' :: s => (readMember n s).map fun r ↦ (.node [] r.1, r.2)
  | _ + 1, '[' :: ']' :: s => some (.node [] [], s)
  | n + 1, '[' :: s => (readElement n s).map fun r ↦ (.node [] r.1, r.2)
  | _ + 1, s =>
    let token := s.takeWhile fun c ↦ c ∉ [',', ']', '}']
    if token = [] then none else some (.node token [], s.drop token.length)

def readElement : ℕ → List Char → Option (List (List Char × Tree) × List Char)
  | 0, _ => none
  | n + 1, s => do
    let (t, s) ← readValue n s
    match s with
    | ']' :: s => some ([([], t)], s)
    | ',' :: s =>
      let (cs, s) ← readElement n s
      some (([], t) :: cs, s)
    | _ => none

def readMember : ℕ → List Char → Option (List (List Char × Tree) × List Char)
  | n + 1, '"' :: s => do
    let (k, s) ← readString s
    match s with
    | ':' :: s =>
      let (t, s) ← readValue n s
      match s with
      | '}' :: s => some ([(k, t)], s)
      | ',' :: s =>
        let (cs, s) ← readMember n s
        some ((k, t) :: cs, s)
      | _ => none
    | _ => none
  | _, _ => none

end

def read (s : List Char) : Option Tree :=
  match readValue s.length s with
  | some (t, []) => some t
  | _ => none

theorem readString_quote (s rest : List Char) :
    readString (s.flatMap quoteChar ++ '"' :: rest) = some (s, rest) := by
  induction s with
  | nil => rfl
  | cons c s ih =>
    rw [List.flatMap_cons, List.append_assoc]
    by_cases h : c = '"' ∨ c = '\\'
    · simp only [quoteChar, h, if_true, List.cons_append, List.nil_append]
      simp [readString, ih]
    · rw [not_or] at h
      simp only [quoteChar, h.1, h.2, or_self, if_false, List.cons_append, List.nil_append]
      rw [readString, ih]
      · rfl
      · exact h.1
      · rintro _ _ hc
        exact absurd hc h.2

theorem value_head (t : Tree) : ∃ c s, value t = c :: s ∧ c ≠ ']' := by
  obtain ⟨data, children⟩ := t
  cases children with
  | nil => exact ⟨'"', _, by rw [value, quote]; rfl, by decide⟩
  | cons c cs =>
    obtain ⟨k, t⟩ := c
    rw [value]
    split
    · exact ⟨'[', _, rfl, by decide⟩
    · exact ⟨'{', _, rfl, by decide⟩

def Readable (t : Tree) : Prop :=
  ∀ n rest, (value t).length ≤ n → readValue n (value t ++ rest) = some (t, rest)

theorem readElement_value (t : Tree) (cs : List (List Char × Tree)) (ht : Readable t)
    (hcs : ∀ k s, (k, s) ∈ cs → k = [] ∧ Readable s) (n : ℕ) (rest : List Char)
    (hn : (value t ++ moreElements cs).length ≤ n) :
    readElement n (value t ++ (moreElements cs ++ rest)) = some (([], t) :: cs, rest) := by
  induction cs generalizing t n with
  | nil =>
    rw [moreElements, List.length_append, List.length_singleton] at hn
    obtain _ | n := n
    · omega
    · rw [readElement, ht n _ (by omega)]
      simp [moreElements]
  | cons c cs ih =>
    obtain ⟨k, s⟩ := c
    obtain ⟨rfl, hs⟩ := hcs k s (by simp)
    rw [moreElements, List.length_append, List.length_cons] at hn
    obtain _ | n := n
    · omega
    · have hrec := ih s hs (fun k s h ↦ hcs k s (by simp [h])) n (by omega)
      rw [readElement, ht n _ (by omega)]
      simp [moreElements, hrec]

theorem readMember_cons (n : ℕ) (k : List Char) (s : List Char) :
    readMember (n + 1) (quote k ++ ':' :: s) = (readValue n s).bind fun r ↦
      match r.2 with
      | '}' :: s => some ([(k, r.1)], s)
      | ',' :: s => (readMember n s).map fun q ↦ ((k, r.1) :: q.1, q.2)
      | _ => none := by
  simp only [quote, List.cons_append, List.append_assoc, List.nil_append]
  rw [readMember, readString_quote]
  simp only [Option.bind_eq_bind, Option.bind_some]
  congr 1
  funext ⟨t, s⟩
  dsimp only
  split
  · rfl
  · rw [Option.map_eq_bind]
    rfl
  · rfl

theorem readMember_value (k : List Char) (t : Tree) (cs : List (List Char × Tree))
    (ht : Readable t) (hcs : ∀ k s, (k, s) ∈ cs → Readable s) (n : ℕ) (rest : List Char)
    (hn : (quote k ++ ':' :: (value t ++ moreMembers cs)).length ≤ n) :
    readMember n (quote k ++ ':' :: (value t ++ (moreMembers cs ++ rest))) =
      some ((k, t) :: cs, rest) := by
  induction cs generalizing k t n with
  | nil =>
    rw [List.length_append, List.length_cons, List.length_append] at hn
    obtain _ | n := n
    · omega
    · rw [readMember_cons, ht n _ (by omega)]
      simp [moreMembers]
  | cons c cs ih =>
    obtain ⟨k', s⟩ := c
    rw [List.length_append, List.length_cons, List.length_append, moreMembers,
      List.length_cons] at hn
    obtain _ | n := n
    · omega
    · have hrec := ih k' s (hcs k' s (by simp)) (fun k s h ↦ hcs k s (by simp [h])) n (by omega)
      rw [readMember_cons, ht n _ (by omega)]
      simp [moreMembers, hrec]

theorem readValue_object (n : ℕ) (k : List Char) (s : List Char) :
    readValue (n + 1) ('{' :: (quote k ++ s)) =
      (readMember n (quote k ++ s)).map fun r ↦ (.node [] r.1, r.2) := by
  rw [quote, List.cons_append, List.cons_append, readValue]
  intro _ h
  cases h

theorem readValue_array (n : ℕ) (t : Tree) (s : List Char) :
    readValue (n + 1) ('[' :: (value t ++ s)) =
      (readElement n (value t ++ s)).map fun r ↦ (.node [] r.1, r.2) := by
  obtain ⟨c, v, hv, hc⟩ := value_head t
  rw [hv, List.cons_append, readValue]
  intro _ h
  cases h
  exact hc rfl

theorem readable_of_exclusive {t : Tree} (h : t.Exclusive) : Readable t := by
  induction h with
  | @node data children hd hc ih =>
    intro n rest hn
    cases children with
    | nil =>
      rw [value, quote] at hn ⊢
      obtain _ | n := n
      · simp at hn
      · simp only [List.cons_append, List.append_assoc, List.nil_append]
        rw [readValue, readString_quote]
        rfl
    | cons c cs =>
      obtain ⟨k, t⟩ := c
      have hdata : data = [] := hd.resolve_right (by simp)
      have ht := ih k t (by simp)
      have hcs : ∀ k s, (k, s) ∈ cs → Readable s := fun k s h ↦ ih k s (by simp [h])
      rw [value] at hn ⊢
      obtain _ | n := n
      · split at hn <;> simp at hn
      · by_cases hk : k = [] ∧ cs.all fun c ↦ c.1.isEmpty
        · rw [if_pos hk] at hn ⊢
          rw [List.cons_append, List.append_assoc, readValue_array,
            readElement_value t cs ht _ n rest (by simpa using hn)]
          · simp [hk.1, hdata]
          · intro k' s h
            exact ⟨by simpa using List.all_eq_true.1 hk.2 _ h, hcs k' s h⟩
        · rw [if_neg hk] at hn ⊢
          rw [List.cons_append, List.append_assoc, List.cons_append, List.append_assoc,
            readValue_object, readMember_value k t cs ht hcs n rest (by simpa using hn)]
          simp [hdata]

/-- Reading undoes writing on every tree whose root holds no data. -/
theorem read_write {t : Tree} (h : t.Exclusive) (hd : t.data = []) : read (write t) = some t := by
  cases h with
  | @node data children _ hc =>
    cases hd
    cases children with
    | nil => rfl
    | cons c cs =>
      obtain ⟨k, t⟩ := c
      have ht := readable_of_exclusive (hc k t (by simp))
      have hcs : ∀ k s, (k, s) ∈ cs → Readable s := fun k s h ↦
        readable_of_exclusive (hc k s (by simp [h]))
      rw [read, write, List.length_cons, readValue_object]
      have hm := readMember_value k t cs ht hcs _ [] le_rfl
      rw [List.append_nil] at hm
      rw [hm]
      rfl

end CtrlEvents.JsonText
