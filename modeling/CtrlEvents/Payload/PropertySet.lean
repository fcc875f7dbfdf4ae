import CtrlEvents.Library.Fallible
import CtrlEvents.Library.NestedMap
import CtrlEvents.Payload.Values
import Mathlib.Data.List.Lex
import Mathlib.Data.Char

namespace CtrlEvents

/-- A hierarchical `lsst::daf::base::PropertySet`. It is a value, so `deepCopy` is the set itself;
the order in which its hash table lists names is not part of it. -/
abbrev PropertySet := NestedMap Str Leaf

abbrev Entry := Slot Str Leaf

inductive TypeId
  | value (kind : Kind)
  | propertySet
  deriving DecidableEq

/-- Entries of one type can be appended to each other. -/
def Slot.append : Entry → Entry → Option Entry
  | .leaf l, .leaf l' => (l.append l').map .leaf
  | .maps earlier last, .maps earlier' last' => some (.maps (earlier ++ last :: earlier') last')
  | _, _ => none

namespace PropertySet

variable {α : Type}

def find (ps : PropertySet) (name : Str) : Option Entry := NestedMap.follow (segments name) ps

def exists' (ps : PropertySet) (name : Str) : Bool := (ps.find name).isSome

def typeOf (ps : PropertySet) (name : Str) : Except Exn TypeId :=
  match ps.find name with
  | some (.leaf l) => .ok (.value l.kind)
  | some (.maps _ _) => .ok .propertySet
  | none => .error (.notFoundError (name ++ lit " not found"))

def get (ps : PropertySet) (cast : Value → Option α) (name : Str) : Except Exn α :=
  match ps.find name with
  | some (.leaf l) =>
    match cast l.back with
    | some a => .ok a
    | none => .error (.typeError name)
  | some (.maps _ _) => .error (.typeError name)
  | none => .error (.notFoundError (name ++ lit " not found"))

def getArray (ps : PropertySet) (kind : Kind) (name : Str) : Except Exn (List Value) :=
  match ps.find name with
  | some (.leaf l) => if l.kind = kind then .ok l.values else .error (.typeError name)
  | some (.maps _ _) => .error (.typeError name)
  | none => .error (.notFoundError (name ++ lit " not found"))

def setAt (ps : PropertySet) (p : List Str) (e : Entry) : Except Exn PropertySet :=
  match NestedMap.put p e ps with
  | some ps => .ok ps
  | none => .error (.invalidParameterError (dotted p))

def addAt (ps : PropertySet) (p : List Str) (e : Entry) : Except Exn PropertySet :=
  match NestedMap.follow p ps with
  | none => ps.setAt p e
  | some e' =>
    match e'.append e with
    | some e'' => ps.setAt p e''
    | none => .error (.typeError (dotted p ++ lit " has mismatched type"))

def set (ps : PropertySet) (name : Str) (v : Value) : Except Exn PropertySet :=
  ps.setAt (segments name) (.leaf (.single v))

def setSet (ps : PropertySet) (name : Str) (sub : PropertySet) : Except Exn PropertySet :=
  ps.setAt (segments name) (.maps [] sub)

def add (ps : PropertySet) (name : Str) (v : Value) : Except Exn PropertySet :=
  ps.addAt (segments name) (.leaf (.single v))

def addSet (ps : PropertySet) (name : Str) (sub : PropertySet) : Except Exn PropertySet :=
  ps.addAt (segments name) (.maps [] sub)

/-- Append every value list of another set to this one. -/
def combine (ps source : PropertySet) : Except Exn PropertySet :=
  source.leaves.foldlM (fun ps x ↦ ps.addAt x.1 (.leaf x.2)) ps

def remove (ps : PropertySet) (name : Str) : PropertySet := NestedMap.remove (segments name) ps

instance : IsTrans Str (· ≤ ·) := ⟨fun _ _ _ ↦ le_trans⟩

instance : Std.Antisymm (α := Str) (· ≤ ·) := ⟨fun _ _ ↦ le_antisymm⟩

instance : Std.Total (α := Str) (· ≤ ·) := ⟨le_total⟩

def names (ps : PropertySet) : List Str := ps.keys.sort (· ≤ ·)

def nameCount (ps : PropertySet) : ℕ := ps.keys.card

/-- The names of a hierarchical set have no dots, since every operation splits a name at them. -/
def Dotless (ps : PropertySet) : Prop := ∀ n ∈ ps.keys, '.' ∉ n

/-- No name has a dot, however deep it lies. -/
def Addressed (ps : PropertySet) : Prop := ∀ p l, ps.leafAt p = some l → ∀ n ∈ p, '.' ∉ n

theorem addressed_of_plain {ps : PropertySet}
    (h : ∀ p l, ps.leafAt p = some l → ∀ n ∈ p, Plain n) : ps.Addressed := fun p l hl n hn ↦
  (h p l hl n hn).2

/-- `paramNames(false)` in whatever order: each dotted leaf name once. -/
def Lists (ps : PropertySet) (names : List Str) : Prop :=
  names.Nodup ∧ ∀ name, name ∈ names ↔ ∃ p l, ps.leafAt p = some l ∧ name = dotted p

def nest (a b : Str) (l : Leaf) : PropertySet :=
  (∅ : PropertySet).insert a (.maps [] ((∅ : PropertySet).insert b (.leaf l)))

theorem lookup_nest (a b k : Str) (l : Leaf) : (nest a b l).lookup k =
    if k = a then some (.maps [] ((∅ : PropertySet).insert b (.leaf l))) else none := by
  rw [nest, NestedMap.lookup_insert, NestedMap.lookup_empty]

theorem leafAt_nest {a b : Str} {l l' : Leaf} {p : List Str} :
    (nest a b l).leafAt p = some l' ↔ p = [a, b] ∧ l = l' := by
  cases p with
  | nil => simp
  | cons k p =>
    have hk := lookup_nest a b k l
    by_cases hka : k = a
    · rw [if_pos hka] at hk
      rw [NestedMap.leafAt_cons_maps hk]
      cases p with
      | nil => simp
      | cons j p =>
        have hj : ((∅ : PropertySet).insert b (.leaf l)).lookup j =
            if j = b then some (.leaf l) else none := by
          rw [NestedMap.lookup_insert, NestedMap.lookup_empty]
        by_cases hjb : j = b
        · rw [if_pos hjb] at hj
          rw [NestedMap.leafAt_cons_leaf hj]
          by_cases hp : p = [] <;> simp [hka, hjb, hp]
        · rw [if_neg hjb] at hj
          simp [NestedMap.leafAt_cons_none hj, hjb]
    · rw [if_neg hka] at hk
      simp [NestedMap.leafAt_cons_none hk, hka]

theorem tidy_nest (a b : Str) (l : Leaf) : (nest a b l).Tidy := by
  have hmaps : ∀ n earlier last, (nest a b l).lookup n = some (.maps earlier last) →
      earlier = [] ∧ last = (∅ : PropertySet).insert b (.leaf l) := by
    intro n earlier last h
    rw [lookup_nest] at h
    split at h
    · cases h
      exact ⟨rfl, rfl⟩
    · cases h
  have hleaf : ∀ n earlier last, ((∅ : PropertySet).insert b (.leaf l)).lookup n ≠
      some (.maps earlier last) := by
    intro n earlier last h
    rw [NestedMap.lookup_insert, NestedMap.lookup_empty] at h
    split at h <;> cases h
  refine .intro (fun n e s h ↦ (hmaps n e s h).1) (fun n e s h ↦ ?_) fun n e s h ↦ ?_
  · rw [(hmaps n e s h).2, NestedMap.keys_insert]
    exact Finset.insert_nonempty b _
  · rw [(hmaps n e s h).2]
    exact .intro (fun n e s h ↦ absurd h (hleaf n e s)) (fun n e s h ↦ absurd h (hleaf n e s))
      fun n e s h ↦ absurd h (hleaf n e s)

theorem lists_nest (a b : Str) (l : Leaf) : (nest a b l).Lists [dotted [a, b]] := by
  refine ⟨List.nodup_singleton _, fun name ↦ ?_⟩
  rw [List.mem_singleton]
  refine ⟨fun h ↦ ⟨[a, b], l, leafAt_nest.2 ⟨rfl, rfl⟩, h⟩, fun h ↦ ?_⟩
  obtain ⟨p, l', hl, rfl⟩ := h
  rw [(leafAt_nest.1 hl).1]

theorem dotless_empty : (∅ : PropertySet).Dotless := fun n hn ↦ absurd hn (Finset.notMem_empty n)

theorem lists_empty : (∅ : PropertySet).Lists [] := by
  refine ⟨List.nodup_nil, fun name ↦ ⟨nofun, fun h ↦ ?_⟩⟩
  obtain ⟨p, l, hl, -⟩ := h
  simp [NestedMap.leafAt_empty] at hl

theorem Lists.insert_leaf {ps : PropertySet} {names : List Str} {n : Str} (h : ps.Lists names)
    (hp : ∀ p l, ps.leafAt p = some l → ∀ k ∈ p, '.' ∉ k) (hn : '.' ∉ n) (hnew : n ∉ ps.keys)
    (l : Leaf) : Lists (ps.insert n (.leaf l)) (n :: names) := by
  have hd : dotted [n] = n := by simp [dotted, List.intercalate]
  refine ⟨List.nodup_cons.2 ⟨fun hmem ↦ ?_, h.1⟩, fun name ↦ ?_⟩
  · obtain ⟨p, l', hl, he⟩ := (h.2 n).1 hmem
    have hpn : p = [n] := dotted_inj (NestedMap.ne_nil_of_leafAt hl) (List.cons_ne_nil n [])
      (hp p l' hl) (by simpa using hn) (he.symm.trans hd.symm)
    rw [hpn] at hl
    exact hnew (NestedMap.mem_keys_of_leafAt hl)
  · rw [List.mem_cons, h.2]
    refine ⟨fun hname ↦ ?_, fun hname ↦ ?_⟩
    · rcases hname with rfl | ⟨p, l', hl, rfl⟩
      · exact ⟨[name], l, by rw [NestedMap.leafAt_insert_leaf, if_pos rfl, if_pos rfl], hd.symm⟩
      · obtain _ | ⟨k, p⟩ := p
        · simp at hl
        · refine ⟨k :: p, l', ?_, rfl⟩
          rw [NestedMap.leafAt_insert_leaf, if_neg, hl]
          rintro rfl
          exact hnew (NestedMap.mem_keys_of_leafAt hl)
    · obtain ⟨p, l', hl, rfl⟩ := hname
      rcases NestedMap.leafAt_insert_leaf_cases hl with ⟨rfl, -⟩ | hl
      · exact .inl hd
      · exact .inr ⟨p, l', hl, rfl⟩

theorem lists_single {n : Str} (hn : '.' ∉ n) (l : Leaf) :
    PropertySet.Lists ((∅ : PropertySet).insert n (.leaf l)) [n] := by
  apply lists_empty.insert_leaf _ hn (Finset.notMem_empty n)
  simp [NestedMap.leafAt_empty]

section Plain

variable {n : Str} (hn : '.' ∉ n) {ps : PropertySet}

include hn

theorem find_plain : ps.find n = ps.lookup n := by
  rw [find, segments_of_notMem hn, NestedMap.follow_singleton]

theorem exists_plain : ps.exists' n ↔ n ∈ ps.keys := by
  rw [exists', find_plain hn, NestedMap.mem_keys, Option.isSome_iff_exists]

theorem set_plain (v : Value) : ps.set n v = .ok (ps.insert n (.leaf (.single v))) := by
  rw [set, segments_of_notMem hn, setAt, NestedMap.put_singleton]

theorem setSet_plain (sub : PropertySet) : ps.setSet n sub = .ok (ps.insert n (.maps [] sub)) := by
  rw [setSet, segments_of_notMem hn, setAt, NestedMap.put_singleton]

theorem remove_plain : ps.remove n = ps.erase n := by
  rw [remove, segments_of_notMem hn, NestedMap.remove_singleton]

theorem get_eq_ok {cast : Value → Option α} {a : α} :
    ps.get cast n = .ok a ↔ ∃ l, ps.lookup n = some (.leaf l) ∧ cast l.back = some a := by
  rw [get, find_plain hn]
  cases ps.lookup n with
  | none => simp
  | some e =>
    cases e with
    | maps _ _ => simp
    | leaf l => cases h : cast l.back <;> simp [h]

end Plain

theorem setAt_keys {n : Str} {p : List Str} {e : Entry} {ps ps' : PropertySet}
    (h : ps.setAt (n :: p) e = .ok ps') : ps'.keys = Insert.insert n ps.keys := by
  unfold setAt at h
  split at h
  · next hp =>
    cases h
    exact NestedMap.put_keys hp
  · cases h

theorem addAt_keys {n : Str} {p : List Str} {e : Entry} {ps ps' : PropertySet}
    (h : ps.addAt (n :: p) e = .ok ps') : ps'.keys = Insert.insert n ps.keys := by
  unfold addAt at h
  split at h
  · exact setAt_keys h
  · split at h
    · exact setAt_keys h
    · cases h

theorem foldlM_addAt_keys {xs : List (List Str × Leaf)} {ps ps' : PropertySet}
    (hne : ∀ x ∈ xs, x.1 ≠ [])
    (h : xs.foldlM (fun ps x ↦ ps.addAt x.1 (.leaf x.2)) ps = .ok ps') :
    ∀ n, n ∈ ps'.keys ↔ n ∈ ps.keys ∨ ∃ p l, (n :: p, l) ∈ xs := by
  induction xs generalizing ps with
  | nil =>
    cases h
    simp
  | cons x xs ih =>
    obtain ⟨_ | ⟨k, q⟩, l⟩ := x
    · exact absurd rfl (hne _ List.mem_cons_self)
    · rw [List.foldlM_cons, Fallible.bind_eq_ok] at h
      obtain ⟨ps₁, hs, h⟩ := h
      intro n
      rw [ih (fun x hx ↦ hne x (by simp [hx])) h, addAt_keys hs, Finset.mem_insert]
      constructor
      · rintro ((rfl | h) | ⟨p, l', h⟩)
        · exact .inr ⟨q, l, by simp⟩
        · exact .inl h
        · exact .inr ⟨p, l', by simp [h]⟩
      · rintro (h | ⟨p, l', h⟩)
        · exact .inl (.inr h)
        · rcases List.mem_cons.1 h with h | h
          · cases h
            exact .inl (.inl rfl)
          · exact .inr ⟨p, l', h⟩

theorem combine_keys {source ps ps' : PropertySet} (h : ps.combine source = .ok ps') (n : Str) :
    n ∈ ps'.keys ↔ n ∈ ps.keys ∨ ∃ p l, source.leafAt (n :: p) = some l := by
  rw [foldlM_addAt_keys _ h]
  · simp only [NestedMap.mem_leaves]
  · rintro ⟨p, l⟩ hx rfl
    rw [NestedMap.mem_leaves] at hx
    cases hx

theorem addAt_lookup_of_ne {n k : Str} {p : List Str} {e : Entry} {ps ps' : PropertySet}
    (hk : k ≠ n) (h : ps.addAt (n :: p) e = .ok ps') : ps'.lookup k = ps.lookup k := by
  have hset : ∀ {e : Entry}, ps.setAt (n :: p) e = .ok ps' → ps'.lookup k = ps.lookup k := by
    intro e h
    unfold setAt at h
    split at h
    · next hp =>
      cases h
      exact NestedMap.put_lookup_of_ne hp hk
    · cases h
  unfold addAt at h
  split at h
  · exact hset h
  · split at h
    · exact hset h
    · cases h

theorem combine_lookup {source ps ps' : PropertySet} {k : Str} (hk : k ∉ source.keys)
    (h : ps.combine source = .ok ps') : ps'.lookup k = ps.lookup k := by
  have hne : ∀ x ∈ source.leaves, ∃ n p, x.1 = n :: p ∧ k ≠ n := by
    intro x hx
    obtain ⟨_ | ⟨n, p⟩, l⟩ := x
    · rw [NestedMap.mem_leaves] at hx
      cases hx
    · refine ⟨n, p, rfl, fun hn ↦ hk ?_⟩
      rw [hn]
      exact NestedMap.mem_keys_of_leafAt (NestedMap.mem_leaves.1 hx)
  refine Fallible.keep_of_foldlM (p := fun ps₁ ↦ ps₁.lookup k = ps.lookup k)
    (fun x hx ps₁ ps₂ h₁ hstep ↦ ?_) rfl h
  obtain ⟨n, p, hp, hn⟩ := hne x hx
  rw [hp] at hstep
  exact (addAt_lookup_of_ne hn hstep).trans h₁

/-- The values under a name; a name of nested sets has none. -/
def values (ps : PropertySet) (n : Str) : List Value :=
  match ps.lookup n with
  | some (.leaf l) => l.values
  | _ => []

theorem values_leaf {ps : PropertySet} {n : Str} {l : Leaf} (h : ps.lookup n = some (.leaf l)) :
    ps.values n = l.values := by
  rw [values, h]

theorem values_eq_nil {ps : PropertySet} {n : Str} (h : ∀ l, ps.lookup n ≠ some (.leaf l)) :
    ps.values n = [] := by
  unfold values
  split
  · next l hl => exact absurd hl (h l)
  · rfl

theorem values_congr {ps ps' : PropertySet} {n : Str} (h : ps'.lookup n = ps.lookup n) :
    ps'.values n = ps.values n := by
  rw [values, h, values]

theorem get_eq_ok_iff_last {ps : PropertySet} {n : Str} (hn : '.' ∉ n) {cast : Value → Option α}
    {a : α} : ps.get cast n = .ok a ↔ ∃ v, (ps.values n).getLast? = some v ∧ cast v = some a := by
  rw [get_eq_ok hn]
  constructor
  · intro h
    obtain ⟨l, hl, hv⟩ := h
    exact ⟨l.back, by rw [values_leaf hl, List.getLast?_eq_getLast_of_ne_nil l.nonempty]; rfl, hv⟩
  · intro h
    obtain ⟨v, hlast, hv⟩ := h
    by_cases hleaf : ∃ l, ps.lookup n = some (.leaf l)
    · obtain ⟨l, hl⟩ := hleaf
      rw [values_leaf hl, List.getLast?_eq_getLast_of_ne_nil l.nonempty] at hlast
      cases hlast
      exact ⟨l, hl, hv⟩
    · rw [values_eq_nil fun l hl ↦ hleaf ⟨l, hl⟩] at hlast
      cases hlast

theorem setAt_below {n k : Str} {p : List Str} {e : Entry} {ps ps' : PropertySet}
    (h : ps.setAt (n :: k :: p) e = .ok ps') : ps'.values n = ps.values n := by
  rw [setAt, NestedMap.put] at h
  have hmaps : ∀ {earlier last}, ps'.lookup n = some (.maps earlier last) → ps'.values n = [] :=
    fun hl ↦ values_eq_nil fun l hl' ↦ by simp [hl] at hl'
  cases hn : ps.lookup n with
  | none =>
    have hnil : ps.values n = [] := values_eq_nil fun l hl ↦ by simp [hn] at hl
    rw [hn] at h
    cases hp : NestedMap.put (k :: p) e ∅ with
    | none => simp [hp] at h
    | some sub =>
      simp only [hp, Option.map_some] at h
      cases h
      rw [hnil]
      exact hmaps (NestedMap.lookup_insert_self ..)
  | some s =>
    rw [hn] at h
    cases s with
    | leaf l => cases h
    | maps earlier last =>
      have hnil : ps.values n = [] := values_eq_nil fun l hl ↦ by simp [hn] at hl
      cases hp : NestedMap.put (k :: p) e last with
      | none => simp [hp] at h
      | some sub =>
        simp only [hp, Option.map_some] at h
        cases h
        rw [hnil]
        exact hmaps (NestedMap.lookup_insert_self ..)

theorem addAt_values {p : List Str} {l : Leaf} {ps ps' : PropertySet}
    (h : ps.addAt p (.leaf l) = .ok ps') (n : Str) :
    ps'.values n = ps.values n ++ if p = [n] then l.values else [] := by
  obtain _ | ⟨k, p⟩ := p
  · cases h
  by_cases hk : n = k
  · subst hk
    obtain _ | ⟨k, p⟩ := p
    · rw [if_pos rfl]
      rw [addAt, NestedMap.follow_singleton] at h
      cases hn : ps.lookup n with
      | none =>
        rw [hn] at h
        cases h
        have hnil : ps.values n = [] := values_eq_nil fun l hl ↦ by simp [hn] at hl
        rw [values_leaf (NestedMap.lookup_insert_self ..), hnil]
        rfl
      | some s =>
        cases s with
        | maps earlier last => simp [hn, Slot.append] at h
        | leaf l₀ =>
          cases hr : l₀.append l with
          | none => simp [hn, Slot.append, hr] at h
          | some r =>
            simp only [hn, Slot.append, hr, Option.map_some] at h
            cases h
            rw [values_leaf (NestedMap.lookup_insert_self ..), values_leaf hn,
              Leaf.append_values hr]
    · rw [if_neg (by simp), List.append_nil]
      unfold addAt at h
      split at h
      · exact setAt_below h
      · split at h
        · exact setAt_below h
        · cases h
  · rw [if_neg (by simp [Ne.symm hk]), List.append_nil]
    exact values_congr (addAt_lookup_of_ne hk h)

theorem foldlM_addAt_values {xs : List (List Str × Leaf)} {ps ps' : PropertySet}
    (h : xs.foldlM (fun ps x ↦ ps.addAt x.1 (.leaf x.2)) ps = .ok ps') (n : Str) :
    ps'.values n = ps.values n ++ xs.flatMap fun x ↦ if x.1 = [n] then x.2.values else [] := by
  induction xs generalizing ps with
  | nil =>
    cases h
    simp
  | cons x xs ih =>
    rw [List.foldlM_cons, Fallible.bind_eq_ok] at h
    obtain ⟨ps₁, hx, h⟩ := h
    rw [ih h, addAt_values hx, List.flatMap_cons, List.append_assoc]

theorem leaves_values (source : PropertySet) (n : Str) :
    (source.leaves.flatMap fun x ↦ if x.1 = [n] then x.2.values else []) = source.values n := by
  have hmem : ∀ l, ([n], l) ∈ source.leaves ↔ source.lookup n = some (.leaf l) := fun l ↦
    NestedMap.mem_leaves.trans NestedMap.leafAt_singleton
  have hnone : ∀ xs : List (List Str × Leaf), (∀ x ∈ xs, x.1 ≠ [n]) →
      (xs.flatMap fun x ↦ if x.1 = [n] then x.2.values else []) = [] := fun xs hxs ↦
    List.flatMap_eq_nil_iff.2 fun x hx ↦ if_neg (hxs x hx)
  by_cases hleaf : ∃ l, source.lookup n = some (.leaf l)
  · obtain ⟨l, hl⟩ := hleaf
    obtain ⟨pre, post, hxs⟩ := List.append_of_mem ((hmem l).2 hl)
    have honly : ∀ x ∈ source.leaves, x.1 = [n] → x = ([n], l) := by
      rintro ⟨p, l'⟩ hx rfl
      have hl' := (hmem l').1 hx
      rw [hl] at hl'
      cases hl'
      rfl
    have hnd := NestedMap.nodup_leaves source
    rw [hxs, List.nodup_middle, List.nodup_cons, List.mem_append, not_or] at hnd
    have hpre : ∀ x ∈ pre, x.1 ≠ [n] := fun x hx he ↦ hnd.1.1 (by
      rwa [honly x (by simp [hxs, hx]) he] at hx)
    have hpost : ∀ x ∈ post, x.1 ≠ [n] := fun x hx he ↦ hnd.1.2 (by
      rwa [honly x (by simp [hxs, hx]) he] at hx)
    rw [hxs, List.flatMap_append, List.flatMap_cons, hnone pre hpre, hnone post hpost, if_pos rfl,
      values_leaf hl, List.nil_append, List.append_nil]
  · rw [values_eq_nil fun l hl ↦ hleaf ⟨l, hl⟩]
    refine hnone _ ?_
    rintro ⟨p, l⟩ hx rfl
    exact hleaf ⟨l, (hmem l).1 hx⟩

/-- Combining appends: under each name, the values of the other set come after those that are
there. -/
theorem combine_values {source ps ps' : PropertySet} (h : ps.combine source = .ok ps') (n : Str) :
    ps'.values n = ps.values n ++ source.values n := by
  rw [foldlM_addAt_values h, leaves_values]

theorem combine_single {ps : PropertySet} {n : Str} (hn : ps.lookup n = none) (l : Leaf) :
    ps.combine ((∅ : PropertySet).insert n (.leaf l)) = .ok (ps.insert n (.leaf l)) := by
  have hadd : ps.addAt [n] (.leaf l) = .ok (ps.insert n (.leaf l)) := by
    simp [addAt, setAt, hn]
  rw [combine, NestedMap.leaves_single, List.foldlM_cons, hadd]
  rfl

end PropertySet

end CtrlEvents
