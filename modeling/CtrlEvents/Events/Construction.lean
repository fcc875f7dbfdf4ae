import CtrlEvents.Events.Event

namespace CtrlEvents

open Fallible

namespace PropertySet

def fillIn (ps : PropertySet) (name : Str) (v : Value) : PropertySet :=
  if name ∈ ps.keys then ps else ps.insert name (.leaf (.single v))

theorem setDefault_plain {n : Str} (hn : '.' ∉ n) (ps : PropertySet) (v : Value) :
    ps.setDefault n v = .ok (ps.fillIn n v) := by
  rw [setDefault, fillIn]
  split
  · next h => rw [if_pos ((exists_plain hn).1 h)]
  · next h => rw [if_neg fun hk ↦ h ((exists_plain hn).2 hk), set_plain hn]

@[simp]
theorem keys_fillIn (ps : PropertySet) (n : Str) (v : Value) :
    (ps.fillIn n v).keys = insert n ps.keys := by
  rw [fillIn]
  split
  · next h => rw [Finset.insert_eq_of_mem h]
  · exact NestedMap.keys_insert ..

theorem lookup_fillIn {ps : PropertySet} {n k : Str} (hk : k ≠ n) (v : Value) :
    (ps.fillIn n v).lookup k = ps.lookup k := by
  rw [fillIn]
  split
  · rfl
  · exact NestedMap.lookup_insert_of_ne hk _ _

theorem lookup_fillIn_of_mem {ps : PropertySet} {k : Str} (hk : k ∈ ps.keys) (n : Str) (v : Value) :
    (ps.fillIn n v).lookup k = ps.lookup k := by
  by_cases hn : k = n
  · rw [fillIn, if_pos (hn ▸ hk)]
  · exact lookup_fillIn hn v

theorem combine_empty {ps filterable : PropertySet} (h : filterable.keys = ∅) :
    ps.combine filterable = .ok ps := by
  have hnil : filterable.leaves = [] := by
    refine List.eq_nil_iff_forall_not_mem.2 fun x hx ↦ ?_
    obtain ⟨_ | ⟨n, p⟩, l⟩ := x
    · rw [NestedMap.mem_leaves] at hx
      cases hx
    · rw [NestedMap.mem_leaves] at hx
      have hn := NestedMap.mem_keys_of_leafAt hx
      rw [h] at hn
      exact Finset.notMem_empty n hn
  rw [combine, hnil]
  rfl

end PropertySet

def EventClass.typeName : EventClass → Str
  | event => EventTypes.EVENT
  | status => EventTypes.STATUS
  | command => EventTypes.COMMAND
  | log => EventTypes.LOG

namespace Event

/-- The set that a constructor makes of the one that it is given, before it adds the filterable
one. -/
def fill (now : Int64) (runId : Str) (ps : PropertySet) : PropertySet :=
  let psp := (ps.fillIn STATUS (.string (lit "unknown"))).fillIn EVENTTIME (.longLong now)
  let psp := if runId = [] then psp
    else NestedMap.insert RUNID (.leaf (.single (.string runId))) psp
  let psp := PropertySet.fillIn psp TYPE (.string EventTypes.EVENT)
  let psp := NestedMap.insert TOPIC (.leaf (.single (.string UNINITIALIZED))) psp
  NestedMap.insert PUBTIME (.leaf (.single (.longLong 0))) psp

def ownKeywords (runId : Str) : Finset Str := if runId = [] then reserved else insert RUNID reserved

theorem combine_or_skip (psp filterable : PropertySet) (keywords : Finset Str) :
    (if 0 < filterable.nameCount then do
      return ⟨.event, ← psp.combine filterable, keywords ∪ filterable.keys⟩
    else return ⟨.event, psp, keywords⟩ : Except Exn Event) =
      (psp.combine filterable).map fun psp ↦ ⟨.event, psp, keywords ∪ filterable.keys⟩ := by
  split
  · cases psp.combine filterable <;> rfl
  · next hcount =>
    have hkeys : filterable.keys = ∅ := by
      rw [← Finset.card_eq_zero]
      exact Nat.eq_zero_of_not_pos hcount
    rw [PropertySet.combine_empty hkeys, hkeys, Finset.union_empty]
    rfl

theorem construct_eq (now : Int64) (runId : Str) (ps filterable : PropertySet) :
    construct now runId ps filterable = (PropertySet.combine (fill now runId ps) filterable).map
      fun psp ↦ ⟨.event, psp, ownKeywords runId ∪ filterable.keys⟩ := by
  have hstatus : '.' ∉ STATUS := by decide +kernel
  have htime : '.' ∉ EVENTTIME := by decide +kernel
  have hrun : '.' ∉ RUNID := by decide +kernel
  have htype : '.' ∉ TYPE := by decide +kernel
  have htopic : '.' ∉ TOPIC := by decide +kernel
  have hpub : '.' ∉ PUBTIME := by decide +kernel
  by_cases hr : runId = []
  · simp only [construct, PropertySet.setDefault_plain hstatus, PropertySet.setDefault_plain htime,
      PropertySet.setDefault_plain htype, PropertySet.set_plain htopic, PropertySet.set_plain hpub,
      ok_bind, combine_or_skip, hr, if_true, ownKeywords, fill]
    rfl
  · simp only [construct, PropertySet.setDefault_plain hstatus, PropertySet.setDefault_plain htime,
      PropertySet.set_plain hrun, PropertySet.setDefault_plain htype, PropertySet.set_plain htopic,
      PropertySet.set_plain hpub, ok_bind, combine_or_skip, hr, if_false, ownKeywords, fill]

theorem keys_fill (now : Int64) (runId : Str) (ps : PropertySet) :
    (fill now runId ps).keys = ps.keys ∪ ownKeywords runId := by
  ext n
  by_cases hr : runId = []
  · simp only [fill, ownKeywords, reserved, hr, if_true, PropertySet.keys_fillIn,
      NestedMap.keys_insert, Finset.mem_union, Finset.mem_insert, Finset.mem_singleton]
    tauto
  · simp only [fill, ownKeywords, reserved, hr, if_false, PropertySet.keys_fillIn,
      NestedMap.keys_insert, Finset.mem_union, Finset.mem_insert, Finset.mem_singleton]
    tauto

theorem lookup_fill {now : Int64} {runId : Str} {ps : PropertySet} {n : Str}
    (hn : n ∉ ownKeywords runId) : (fill now runId ps).lookup n = ps.lookup n := by
  by_cases hr : runId = []
  · simp only [ownKeywords, hr, if_true, reserved, Finset.mem_insert, Finset.mem_singleton,
      not_or] at hn
    simp [fill, hr, NestedMap.lookup_insert, PropertySet.lookup_fillIn, hn]
  · simp only [ownKeywords, hr, if_false, reserved, Finset.mem_insert, Finset.mem_singleton,
      not_or] at hn
    simp [fill, hr, NestedMap.lookup_insert, PropertySet.lookup_fillIn, hn]

theorem lookup_fill_of_mem {now : Int64} {runId : Str} {ps : PropertySet} {n : Str}
    (hk : n ∈ ps.keys) (hn : n ∉ [RUNID, TOPIC, PUBTIME]) :
    (fill now runId ps).lookup n = ps.lookup n := by
  simp only [List.mem_cons, List.not_mem_nil, or_false, not_or] at hn
  obtain ⟨hrun, htopic, hpub⟩ := hn
  have hstatus := PropertySet.lookup_fillIn_of_mem hk STATUS (.string (lit "unknown"))
  have htime := PropertySet.lookup_fillIn_of_mem (k := n)
    (show n ∈ (ps.fillIn STATUS (.string (lit "unknown"))).keys by simp [hk])
    EVENTTIME (.longLong now)
  rw [fill, NestedMap.lookup_insert_of_ne hpub, NestedMap.lookup_insert_of_ne htopic,
    PropertySet.lookup_fillIn_of_mem]
  · split
    · exact htime.trans hstatus
    · rw [NestedMap.lookup_insert_of_ne hrun]
      exact htime.trans hstatus
  · split <;> simp [hk]

theorem lookup_fill_type {now : Int64} {runId : Str} {ps : PropertySet} (h : TYPE ∉ ps.keys) :
    (fill now runId ps).lookup TYPE = some (.leaf (.single (.string EventTypes.EVENT))) := by
  have hstatus : TYPE ≠ STATUS := by decide +kernel
  have htime : TYPE ≠ EVENTTIME := by decide +kernel
  have hrun : TYPE ≠ RUNID := by decide +kernel
  have htopic : TYPE ≠ TOPIC := by decide +kernel
  have hpub : TYPE ≠ PUBTIME := by decide +kernel
  rw [fill, NestedMap.lookup_insert_of_ne hpub, NestedMap.lookup_insert_of_ne htopic,
    PropertySet.fillIn, if_neg, NestedMap.lookup_insert_self]
  split <;> simp [hstatus, htime, hrun, h]

theorem construct_empty (now : Int64) (runId : Str) (ps : PropertySet) :
    construct now runId ps ∅ = .ok ⟨.event, fill now runId ps, ownKeywords runId⟩ := by
  rw [construct_eq, PropertySet.combine_empty rfl, NestedMap.keys_empty, Finset.union_empty]
  rfl

theorem construct_single {now : Int64} {runId : Str} {ps : PropertySet} {n : Str}
    (hn : n ∉ ps.keys) (hr : n ∉ ownKeywords runId) (l : Leaf) :
    construct now runId ps ((∅ : PropertySet).insert n (.leaf l)) =
      .ok ⟨.event, (fill now runId ps).insert n (.leaf l), ownKeywords runId ∪ {n}⟩ := by
  have hnone : (fill now runId ps).lookup n = none := by
    rw [NestedMap.lookup_eq_none, keys_fill, Finset.mem_union, not_or]
    exact ⟨hn, hr⟩
  rw [construct_eq, PropertySet.combine_single hnone]
  rfl

theorem extend_eq {type : EventClass} {fields : List (Str × Value)}
    (hplain : ∀ v ∈ fields, '.' ∉ v.1) (e : Event) : e.extend type fields =
      .ok ⟨type, fields.foldl (fun psp v ↦ psp.insert v.1 (.leaf (.single v.2))) e.psp,
        e.keywords ∪ type.keywords⟩ := by
  have hfold : ∀ psp : PropertySet, fields.foldlM (fun psp v ↦ psp.set v.1 v.2) psp =
      .ok (fields.foldl (fun psp v ↦ psp.insert v.1 (.leaf (.single v.2))) psp) := by
    induction fields with
    | nil => exact fun psp ↦ rfl
    | cons v fields ih =>
      intro psp
      rw [List.foldlM_cons, PropertySet.set_plain (hplain v List.mem_cons_self), ok_bind]
      exact ih (fun w hw ↦ hplain w (List.mem_cons_of_mem v hw)) _
  rw [extend, hfold]
  rfl

structure Formed (e : Event) : Prop where
  plain : ∀ n ∈ e.keywords, '.' ∉ n
  typed : e.type.keywords ⊆ e.keywords

theorem mem_typeKeywords {type : EventClass} {n : Str} :
    n ∈ type.keywords ↔ ∃ f ∈ type.fields, f.name = n := by
  rw [EventClass.keywords, List.mem_toFinset, List.mem_map]

theorem plain_typeKeywords (type : EventClass) : ∀ n ∈ type.keywords, '.' ∉ n := by
  cases type <;> decide +kernel

theorem plain_ownKeywords (runId : Str) : ∀ n ∈ ownKeywords runId, '.' ∉ n := by
  unfold ownKeywords
  split <;> decide +kernel

theorem reserved_subset (runId : Str) : reserved ⊆ ownKeywords runId := by
  unfold ownKeywords
  split
  · exact subset_rfl
  · exact Finset.subset_insert _ _

theorem construct_ok {now : Int64} {runId : Str} {ps filterable : PropertySet} {e : Event}
    (h : construct now runId ps filterable = .ok e) : e.type = .event ∧
      e.keywords = ownKeywords runId ∪ filterable.keys ∧
      PropertySet.combine (fill now runId ps) filterable = .ok e.psp := by
  rw [construct_eq] at h
  cases hc : PropertySet.combine (fill now runId ps) filterable with
  | error x =>
    rw [hc] at h
    cases h
  | ok psp =>
    rw [hc] at h
    cases h
    exact ⟨rfl, rfl, rfl⟩

theorem extend_ok {type : EventClass} {fields : List (Str × Value)} {e e' : Event}
    (hplain : ∀ v ∈ fields, '.' ∉ v.1) (h : e.extend type fields = .ok e') : e'.type = type ∧
      e'.keywords = e.keywords ∪ type.keywords ∧
      e'.psp = fields.foldl (fun psp v ↦ psp.insert v.1 (.leaf (.single v.2))) e.psp := by
  rw [extend_eq hplain] at h
  cases h
  exact ⟨rfl, rfl, rfl⟩

theorem extend_type {type : EventClass} {fields : List (Str × Value)} {e e' : Event}
    (h : e.extend type fields = .ok e') : e'.type = type := by
  obtain ⟨psp, -, h⟩ := bind_eq_ok.1 h
  cases h
  rfl

theorem constructStatus_type {now : Int64} {runId : Str} {originator : LocationId}
    {ps filterable : PropertySet} {e : Event}
    (h : constructStatus now runId originator ps filterable = .ok e) : e.type = .status := by
  obtain ⟨e₀, -, h⟩ := bind_eq_ok.1 h
  exact extend_type h

/-- Every event that a constructor makes from property sets. -/
inductive Built (filterable : PropertySet) : Event → Prop
  | event {now : Int64} {runId : Str} {ps : PropertySet} {e : Event}
      (h : construct now runId ps filterable = .ok e) : Built filterable e
  | status {now : Int64} {runId : Str} {originator : LocationId} {ps : PropertySet} {e : Event}
      (h : constructStatus now runId originator ps filterable = .ok e) : Built filterable e
  | command {now : Int64} {runId : Str} {originator destination : LocationId} {ps : PropertySet}
      {e : Event} (h : constructCommand now runId originator destination ps filterable = .ok e) :
      Built filterable e
  | log {now : Int64} {originator : LocationId} {ps : PropertySet} {e : Event}
      (hf : filterable = ∅) (h : constructLog now originator ps = .ok e) : Built filterable e

variable {filterable : PropertySet} {e e' : Event}

theorem construct_formed {now : Int64} {runId : Str} {ps : PropertySet}
    (hf : ∀ n ∈ filterable.keys, '.' ∉ n) (h : construct now runId ps filterable = .ok e) :
    e.Formed ∧ reserved ⊆ e.keywords := by
  obtain ⟨htype, hkeys, -⟩ := construct_ok h
  rw [hkeys]
  refine ⟨⟨fun n hn ↦ ?_, ?_⟩, (reserved_subset runId).trans Finset.subset_union_left⟩
  · rcases Finset.mem_union.1 (hkeys ▸ hn) with hn | hn
    · exact plain_ownKeywords runId n hn
    · exact hf n hn
  · rw [htype]
    exact Finset.empty_subset _

theorem extend_formed {type : EventClass} {fields : List (Str × Value)} (he : e.Formed)
    (hr : reserved ⊆ e.keywords) (hplain : ∀ v ∈ fields, '.' ∉ v.1)
    (h : e.extend type fields = .ok e') : e'.Formed ∧ reserved ⊆ e'.keywords := by
  obtain ⟨htype, hkeys, -⟩ := extend_ok hplain h
  refine ⟨⟨fun n hn ↦ ?_, ?_⟩, ?_⟩
  · rcases Finset.mem_union.1 (hkeys ▸ hn) with hn | hn
    · exact he.plain n hn
    · exact plain_typeKeywords type n hn
  · rw [htype, hkeys]
    exact Finset.subset_union_right
  · rw [hkeys]
    exact hr.trans Finset.subset_union_left

theorem plain_type : '.' ∉ TYPE := by decide +kernel

theorem plain_fields {type : EventClass} {pre : List (Str × Value)} {v : Value}
    (hn : pre.map Prod.fst ⊆ type.fields.map Field.name) :
    ∀ w ∈ pre ++ [(TYPE, v)], '.' ∉ w.1 := by
  intro w hw
  rcases List.mem_append.1 hw with hw | hw
  · refine plain_typeKeywords type w.1 ?_
    rw [EventClass.keywords, List.mem_toFinset]
    exact hn (List.mem_map_of_mem hw)
  · rw [List.mem_singleton.1 hw]
    exact plain_type

theorem constructLog_total (now : Int64) (originator : LocationId) (ps : PropertySet) :
    ∃ e, constructLog now originator ps = .ok e := by
  have horig : [(ORIG_HOSTNAME, Value.string originator.hostname),
      (ORIG_PROCESSID, .int originator.pid), (ORIG_LOCALID, .int originator.localID)].map Prod.fst ⊆
      EventClass.status.fields.map Field.name := List.Subset.refl _
  have hnone : ([] : List (Str × Value)).map Prod.fst ⊆ EventClass.log.fields.map Field.name :=
    List.nil_subset _
  obtain ⟨e, he⟩ : ∃ e, constructStatus now [] originator ps ∅ = .ok e := by
    rw [constructStatus, construct_empty, ok_bind]
    exact ⟨_, extend_eq (plain_fields horig) _⟩
  rw [constructLog, he, ok_bind]
  exact ⟨_, extend_eq (plain_fields hnone) e⟩

/-- What holds of the events of `Event::_constructor`, and is kept where a subclass sets properties
of its own and then its type, holds of every event that a constructor makes. -/
theorem Built.rule {motive : Event → Prop} (hb : Built filterable e)
    (hconstruct : ∀ {now runId ps e}, construct now runId ps filterable = .ok e → motive e)
    (hextend : ∀ {e₀ type e} pre, motive e₀ → pre.map Prod.fst ⊆ type.fields.map Field.name →
      e₀.extend type (pre ++ [(TYPE, .string type.typeName)]) = .ok e → motive e) : motive e := by
  have hstatus : ∀ {now runId originator ps e},
      constructStatus now runId originator ps filterable = .ok e → motive e := by
    intro now runId originator ps e h
    obtain ⟨e₀, h₀, h⟩ := bind_eq_ok.1 h
    exact hextend [_, _, _] (hconstruct h₀) (List.Subset.refl _) h
  cases hb with
  | event h => exact hconstruct h
  | status h => exact hstatus h
  | command h =>
    obtain ⟨e₀, h₀, h⟩ := bind_eq_ok.1 h
    exact hextend [_, _, _, _, _, _] (hconstruct h₀) (List.Subset.refl _) h
  | log hempty h =>
    obtain ⟨e₀, h₀, h⟩ := bind_eq_ok.1 h
    exact hextend [] (hstatus (hempty ▸ h₀)) (List.nil_subset _) h

theorem Built.formed (hf : ∀ n ∈ filterable.keys, '.' ∉ n) (hb : Built filterable e) :
    e.Formed ∧ reserved ⊆ e.keywords := by
  refine hb.rule (construct_formed hf) fun pre he hpre h ↦ ?_
  exact extend_formed he.1 he.2 (plain_fields hpre) h

theorem Built.typed (hb : Built filterable e) : e.type = .event ∨
    e.psp.lookup TYPE = some (.leaf (.single (.string e.type.typeName))) := by
  refine hb.rule (motive := fun e ↦ e.type = .event ∨
    e.psp.lookup TYPE = some (.leaf (.single (.string e.type.typeName))))
    (fun h ↦ .inl (construct_ok h).1) fun pre he hpre h ↦ .inr ?_
  obtain ⟨htype, -, hpsp⟩ := extend_ok (plain_fields hpre) h
  rw [hpsp, htype, List.foldl_append, List.foldl_cons, List.foldl_nil]
  exact NestedMap.lookup_insert_self ..

end Event

end CtrlEvents
