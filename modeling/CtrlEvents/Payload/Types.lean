import CtrlEvents.Payload.PropertySet
import Mathlib.Data.List.Infix

namespace CtrlEvents

/-- What the paths of a set lead to: values of a type, a set, or nothing. The empty path leads
to the set itself. -/
abbrev Types := List Str → Option TypeId

namespace Types

def empty : Types := fun p ↦ if p = [] then some .propertySet else none

def values (kind : Kind) : Types := fun p ↦ if p = [] then some (.value kind) else none

/-- All paths that begin with this one lead where the other types say, and those on the way to it
to sets. -/
def put (Γ : Types) (p : List Str) (E : Types) : Types := fun q ↦
  if p <+: q then E (q.drop p.length) else if q <+: p then some .propertySet else Γ q

/-- No values are in the way of a path, and what it leads to, if anything, has the same type. -/
def Joins (Γ : Types) (p : List Str) (E : Types) : Prop :=
  (∀ q, q <+: p → q ≠ p → ∀ kind, Γ q ≠ some (.value kind)) ∧ (Γ p = none ∨ Γ p = E [])

theorem put_self (Γ : Types) (p : List Str) (E : Types) : Γ.put p E p = E [] := by
  rw [put, if_pos List.prefix_rfl, List.drop_length]

theorem put_put (Γ : Types) (p : List Str) (E E' : Types) : (Γ.put p E).put p E' = Γ.put p E' := by
  funext q
  unfold put
  split_ifs <;> rfl

theorem joins_put (Γ : Types) (p : List Str) {E E' : Types} (h : E [] = E' []) :
    (Γ.put p E).Joins p E' := by
  refine ⟨fun q hq hne kind ↦ ?_, .inr ((put_self Γ p E).trans h)⟩
  have hpq : ¬ p <+: q := fun hpq ↦ hne (hq.eq_of_length_le hpq.length_le)
  rw [put, if_neg hpq, if_pos hq]
  exact fun h ↦ by cases h

theorem eq_of_joins_put {Γ : Types} {p : List Str} {E E' : Types} {τ : TypeId}
    (h : (Γ.put p E).Joins p E') (hE : E [] = some τ) : E' [] = some τ := by
  have hself := put_self Γ p E
  rcases h.2 with hnone | hsome
  · rw [hself, hE] at hnone
    cases hnone
  · rw [← hsome, hself, hE]

theorem put_nil (Γ : Types) (n : Str) (p : List Str) (E : Types) :
    Γ.put (n :: p) E [] = some .propertySet := by
  rw [put, if_neg (by simp), if_pos List.nil_prefix]

theorem put_cons_cons (Γ : Types) (n : Str) (p q : List Str) (E : Types) :
    Γ.put (n :: p) E (n :: q) = put (fun q ↦ Γ (n :: q)) p E q := by
  simp only [put, List.cons_prefix_cons, true_and, List.length_cons, List.drop_succ_cons]

theorem put_of_ne {n k : Str} (h : k ≠ n) (Γ : Types) (p q : List Str) (E : Types) :
    Γ.put (n :: p) E (k :: q) = Γ (k :: q) := by
  simp only [put, List.cons_prefix_cons, h, Ne.symm h, false_and, if_false]

theorem joins_of_none {Γ : Types} {n : Str} (hset : Γ [] = some .propertySet) (hn : Γ [n] = none)
    (E : Types) : Γ.Joins [n] E := by
  refine ⟨fun q hq hne kind ↦ ?_, .inl hn⟩
  obtain _ | ⟨k, q⟩ := q
  · rw [hset]
    exact fun h ↦ by cases h
  · rw [List.cons_prefix_cons, List.prefix_nil] at hq
    obtain ⟨rfl, rfl⟩ := hq
    exact absurd rfl hne

theorem put_congr {Γ Γ' : Types} (h : ∀ q, q ≠ [] → Γ q = Γ' q) (n : Str) (p : List Str)
    (E : Types) : Γ.put (n :: p) E = Γ'.put (n :: p) E := by
  funext q
  unfold put
  split_ifs with _ hq
  · rfl
  · rfl
  · exact h q fun hnil ↦ hq (hnil ▸ List.nil_prefix)

end Types

def Slot.typeId : Entry → TypeId
  | .leaf l => .value l.kind
  | .maps _ _ => .propertySet

namespace PropertySet

def types (ps : PropertySet) : Types
  | [] => some .propertySet
  | n :: p => (NestedMap.follow (n :: p) ps).map Slot.typeId

end PropertySet

def Slot.types : Entry → Types
  | .leaf l => Types.values l.kind
  | .maps _ last => PropertySet.types last

theorem Slot.types_nil (e : Entry) : e.types [] = some e.typeId := by
  cases e <;> rfl

theorem Slot.append_types {e e' e'' : Entry} (h : e'.append e = some e'') :
    e''.types = e.types := by
  cases e' with
  | leaf l' =>
    cases e with
    | leaf l =>
      obtain ⟨l'', hl, rfl⟩ := Option.map_eq_some_iff.1 h
      rw [Slot.types, Slot.types, Leaf.kind, Leaf.back_append hl, Leaf.kind]
    | maps earlier last => cases h
  | maps earlier' last' =>
    cases e with
    | leaf l => cases h
    | maps earlier last =>
      cases h
      rfl

theorem Slot.append_isSome {e e' : Entry} : (e'.append e).isSome ↔ e'.typeId = e.typeId := by
  cases e' with
  | leaf l' =>
    cases e with
    | leaf l =>
      rw [Slot.append, Option.isSome_map, Leaf.append_isSome, Slot.typeId, Slot.typeId,
        TypeId.value.injEq]
      exact eq_comm
    | maps earlier last => simp [Slot.append, Slot.typeId]
  | maps earlier' last' =>
    cases e with
    | leaf l => simp [Slot.append, Slot.typeId]
    | maps earlier last => simp [Slot.append, Slot.typeId]

namespace PropertySet

theorem types_empty : (∅ : PropertySet).types = Types.empty := by
  funext p
  obtain _ | ⟨n, _ | ⟨k, p⟩⟩ := p
  · rfl
  · simp [types, Types.empty]
  · simp [types, Types.empty, NestedMap.follow]

theorem types_cons (ps : PropertySet) (n : Str) (p : List Str) :
    ps.types (n :: p) = (ps.lookup n).bind fun e ↦ e.types p := by
  rw [types]
  cases p with
  | nil =>
    rw [NestedMap.follow_singleton]
    cases ps.lookup n with
    | none => rfl
    | some e => exact e.types_nil.symm
  | cons k p =>
    rw [NestedMap.follow]
    cases ps.lookup n with
    | none => rfl
    | some e => cases e <;> rfl

theorem types_insert_maps (ps : PropertySet) (n : Str) (earlier : List PropertySet)
    (sub : PropertySet) (p : List Str) :
    types (ps.insert n (.maps earlier sub)) (n :: p) = sub.types p := by
  rw [types_cons, NestedMap.lookup_insert_self]
  rfl

theorem types_put {p : List Str} {e : Entry} {ps ps' : PropertySet}
    (h : NestedMap.put p e ps = some ps') : ps'.types = ps.types.put p e.types := by
  induction p generalizing ps ps' with
  | nil => cases h
  | cons n p ih =>
    funext q
    obtain _ | ⟨k, q⟩ := q
    · exact (ps.types.put_nil n p e.types).symm
    by_cases hk : k = n
    swap
    · rw [Types.put_of_ne hk, types_cons, NestedMap.put_lookup_of_ne h hk, types_cons]
    subst hk
    rw [Types.put_cons_cons]
    obtain _ | ⟨j, p⟩ := p
    · cases h
      rw [types_cons, NestedMap.lookup_insert_self, Types.put, if_pos (List.nil_prefix)]
      rfl
    simp only [NestedMap.put] at h
    split at h
    · next hnone =>
      obtain ⟨sub, hput, rfl⟩ := Option.map_eq_some_iff.1 h
      have hempty : ∀ q, q ≠ [] → Types.empty q = ps.types (k :: q) := by
        intro q hq
        rw [types_cons, hnone, Types.empty, if_neg hq]
        rfl
      rw [types_insert_maps, ih hput, types_empty, Types.put_congr hempty]
    · next earlier last hlast =>
      obtain ⟨sub, hput, rfl⟩ := Option.map_eq_some_iff.1 h
      have hsame : (fun q ↦ ps.types (k :: q)) = types last := by
        funext q
        rw [types_cons, hlast]
        rfl
      rw [types_insert_maps, ih hput, hsame]
    · cases h

theorem put_isSome_types {p : List Str} (hp : p ≠ []) (e : Entry) (ps : PropertySet) :
    (NestedMap.put p e ps).isSome ↔
      ∀ q, q <+: p → q ≠ p → ∀ kind, ps.types q ≠ some (.value kind) := by
  induction p generalizing ps with
  | nil => exact absurd rfl hp
  | cons n p ih =>
    have hsplit : (∀ q, q <+: n :: p → q ≠ n :: p → ∀ kind, ps.types q ≠ some (.value kind)) ↔
        ∀ q, q <+: p → q ≠ p → ∀ kind, ps.types (n :: q) ≠ some (.value kind) := by
      refine ⟨fun h q hq hne ↦ h (n :: q) (List.cons_prefix_cons.2 ⟨rfl, hq⟩) (by simpa using hne),
        fun h q hq hne kind ↦ ?_⟩
      obtain _ | ⟨k, q⟩ := q
      · exact fun h ↦ by cases h
      · rw [List.cons_prefix_cons] at hq
        obtain ⟨rfl, hq⟩ := hq
        exact h q hq (fun he ↦ hne (he ▸ rfl)) kind
    rw [hsplit]
    obtain _ | ⟨j, p⟩ := p
    · refine iff_of_true rfl fun q hq hne ↦ absurd (List.prefix_nil.1 hq) hne
    have hne := List.cons_ne_nil j p
    rw [NestedMap.put]
    simp only [types_cons]
    cases ps.lookup n with
    | none =>
      rw [Option.isSome_map]
      refine iff_of_true ((ih hne ∅).2 fun q _ _ kind ↦ ?_) fun q _ _ kind ↦ ?_
      · rw [types_empty, Types.empty]
        split_ifs <;> simp
      · simp
    | some e' =>
      cases e' with
      | leaf l =>
        refine iff_of_false (by simp) fun h ↦ ?_
        exact h [] List.nil_prefix (by simp) l.kind rfl
      | maps earlier last =>
        rw [Option.isSome_map]
        exact ih hne last

/-- An entry is added exactly where its type joins what its path leads to, and the types of a set
that it is added to are all that its own depend on. -/
theorem addAt_types_iff {p : List Str} (hp : p ≠ []) (e : Entry) (ps : PropertySet) (Γ : Types) :
    (∃ ps', ps.addAt p e = .ok ps' ∧ ps'.types = Γ) ↔
      ps.types.Joins p e.types ∧ Γ = ps.types.put p e.types := by
  have hset : ∀ e', (∃ ps', ps.setAt p e' = .ok ps' ∧ ps'.types = Γ) ↔
      (∀ q, q <+: p → q ≠ p → ∀ kind, ps.types q ≠ some (.value kind)) ∧
        Γ = ps.types.put p e'.types := by
    intro e'
    rw [← put_isSome_types hp e', setAt]
    cases hput : NestedMap.put p e' ps with
    | none => simp
    | some ps' => simp [types_put hput, eq_comm]
  have htypes : ps.types p = (NestedMap.follow p ps).map Slot.typeId := by
    cases p with
    | nil => exact absurd rfl hp
    | cons n p => rfl
  rw [Types.Joins, htypes, e.types_nil, addAt]
  cases hfollow : NestedMap.follow p ps with
  | none => simp [hset]
  | some e' =>
    have happend : (e'.append e).isSome ↔ e'.typeId = e.typeId := Slot.append_isSome
    cases h : e'.append e with
    | none =>
      rw [h] at happend
      have hne : e'.typeId ≠ e.typeId := fun he ↦ by simpa using happend.2 he
      simp [h, hne]
    | some e'' =>
      have heq : e'.typeId = e.typeId := happend.1 (by rw [h]; rfl)
      simp only [h, hset, Slot.append_types h, heq, Option.map_some, or_true, and_true]

end PropertySet

end CtrlEvents
