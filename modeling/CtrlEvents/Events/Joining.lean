import CtrlEvents.Events.Construction
import CtrlEvents.Library.Layout

namespace CtrlEvents

open Fallible Layout

namespace PropertySet

variable {ps ps' source : PropertySet} {p q : List Str} {l : Leaf}

/-- Values can be appended under a path: no other values are in the way, and what is there is
values of the same type. -/
def Joins (ps : PropertySet) (p : List Str) (l : Leaf) : Prop :=
  ∃ s, NestedMap.reach p ps = some s ∧ ∀ e, s = some e → ∃ l', e = .leaf l' ∧ l'.kind = l.kind

theorem setAt_ok_iff {e : Entry} :
    (∃ ps', ps.setAt p e = .ok ps') ↔ (NestedMap.reach p ps).isSome := by
  rw [← NestedMap.put_isSome_iff p e ps, setAt]
  cases NestedMap.put p e ps <;> simp

theorem append_leaf_isSome {e : Entry} :
    (e.append (.leaf l)).isSome ↔ ∃ l', e = .leaf l' ∧ l'.kind = l.kind := by
  cases e with
  | maps earlier last => simp [Slot.append]
  | leaf l' =>
    rw [Slot.append, Option.isSome_map, Leaf.append_isSome]
    constructor
    · intro h
      exact ⟨l', rfl, h.symm⟩
    · rintro ⟨_, he, h⟩
      cases he
      exact h.symm

theorem addAt_ok_iff : (∃ ps', ps.addAt p (.leaf l) = .ok ps') ↔ ps.Joins p l := by
  rw [addAt, NestedMap.follow_eq_join]
  cases hr : NestedMap.reach p ps with
  | none => simp [setAt_ok_iff, hr, Joins]
  | some s =>
    cases s with
    | none => simp [setAt_ok_iff, hr, Joins]
    | some e =>
      have hjoins : ps.Joins p l ↔ (e.append (.leaf l)).isSome := by
        rw [append_leaf_isSome]
        simp [Joins, hr]
      rw [hjoins]
      dsimp only [Option.join_some]
      cases e.append (.leaf l) with
      | none => simp
      | some e' => simp [setAt_ok_iff, hr]

theorem reach_addAt {e : Entry} (h : ps.addAt p e = .ok ps') (ha : Apart p q) :
    NestedMap.reach q ps' = NestedMap.reach q ps := by
  have hset : ∀ {e : Entry}, ps.setAt p e = .ok ps' →
      NestedMap.reach q ps' = NestedMap.reach q ps := by
    intro e h
    unfold setAt at h
    split at h
    · next hput =>
      cases h
      exact NestedMap.reach_put hput ha.1 ha.2
    · cases h
  unfold addAt at h
  split at h
  · exact hset h
  · split at h
    · exact hset h
    · cases h

/-- Over paths that are no parts of each other, every entry finds the set as it was at first. -/
theorem foldlM_addAt_ok_iff {xs : List (List Str × Leaf)}
    (hapart : xs.Pairwise fun x y ↦ Apart x.1 y.1) :
    (∃ ps', xs.foldlM (fun ps x ↦ ps.addAt x.1 (.leaf x.2)) ps = .ok ps') ↔
      ∀ x ∈ xs, ps.Joins x.1 x.2 := by
  induction xs generalizing ps with
  | nil => exact iff_of_true ⟨ps, rfl⟩ nofun
  | cons x xs ih =>
    rw [List.pairwise_cons] at hapart
    have hframe : ∀ {ps₁}, ps.addAt x.1 (.leaf x.2) = .ok ps₁ →
        ∀ y ∈ xs, ps₁.Joins y.1 y.2 ↔ ps.Joins y.1 y.2 := by
      intro ps₁ h y hy
      rw [Joins, Joins, reach_addAt h (hapart.1 y hy)]
    rw [List.forall_mem_cons, ← addAt_ok_iff]
    constructor
    · rintro ⟨ps', h⟩
      rw [List.foldlM_cons, bind_eq_ok] at h
      obtain ⟨ps₁, h₁, h⟩ := h
      refine ⟨⟨ps₁, h₁⟩, fun y hy ↦ (hframe h₁ y hy).1 ?_⟩
      exact (ih hapart.2).1 ⟨ps', h⟩ y hy
    · rintro ⟨⟨ps₁, h₁⟩, hall⟩
      have hrest : ∀ y ∈ xs, ps₁.Joins y.1 y.2 := fun y hy ↦ (hframe h₁ y hy).2 (hall y hy)
      obtain ⟨ps', h⟩ := (ih hapart.2).2 hrest
      exact ⟨ps', by rw [List.foldlM_cons, h₁, ok_bind, h]⟩

theorem leaves_apart (source : PropertySet) : source.leaves.Pairwise fun x y ↦ Apart x.1 y.1 := by
  refine (NestedMap.nodup_leaves source).imp_of_mem fun {x y} hx hy hxy ↦ ?_
  have hlx := NestedMap.mem_leaves.1 hx
  have hly := NestedMap.mem_leaves.1 hy
  have hne : x.1 ≠ y.1 := by
    intro he
    rw [he] at hlx
    exact hxy (Prod.ext he (Option.some.inj (hlx.symm.trans hly)))
  exact ⟨fun h ↦ hne (NestedMap.leafAt_prefix hlx hly h),
    fun h ↦ hne (NestedMap.leafAt_prefix hly hlx h).symm⟩

theorem combine_ok_iff : (∃ ps', ps.combine source = .ok ps') ↔
    ∀ p l, source.leafAt p = some l → ps.Joins p l := by
  rw [combine, foldlM_addAt_ok_iff (leaves_apart source)]
  simp only [Prod.forall, NestedMap.mem_leaves]

end PropertySet

namespace Event

variable {now : Int64} {runId : Str} {ps filterable : PropertySet}

theorem construct_ok_iff : (∃ e, construct now runId ps filterable = .ok e) ↔
    ∀ p l, filterable.leafAt p = some l → PropertySet.Joins (fill now runId ps) p l := by
  rw [← PropertySet.combine_ok_iff, construct_eq]
  cases PropertySet.combine (fill now runId ps) filterable <;> simp [Except.map]

theorem extend_ok_iff {x : Except Exn Event} {type : EventClass} (pre : List (Str × Value))
    {v : Value} (hpre : pre.map Prod.fst ⊆ type.fields.map Field.name) :
    (∃ e, (x >>= fun e ↦ e.extend type (pre ++ [(TYPE, v)])) = .ok e) ↔ ∃ e, x = .ok e := by
  cases x with
  | error y => simp
  | ok e => exact iff_of_true ⟨_, extend_eq (plain_fields hpre) e⟩ ⟨e, rfl⟩

/-- Constructing an event of any class returns exactly if every value list of the filterable set can
be appended to what the constructor has made of the other set; a log event has none. -/
theorem constructors_return_iff (originator destination : LocationId) :
    ((∃ e, construct now runId ps filterable = .ok e) ↔
      ∀ p l, filterable.leafAt p = some l → PropertySet.Joins (fill now runId ps) p l) ∧
    ((∃ e, constructStatus now runId originator ps filterable = .ok e) ↔
      ∃ e, construct now runId ps filterable = .ok e) ∧
    ((∃ e, constructCommand now runId originator destination ps filterable = .ok e) ↔
      ∃ e, construct now runId ps filterable = .ok e) ∧
    ∃ e, constructLog now originator ps = .ok e :=
  ⟨construct_ok_iff,
    extend_ok_iff [_, _, _] (List.Subset.refl _),
    extend_ok_iff [_, _, _, _, _, _] (List.Subset.refl _),
    constructLog_total now originator ps⟩

end Event

end CtrlEvents
