import CtrlEvents.Events.Header

namespace CtrlEvents.Event

open Fallible

/-- What the constructor's comments promise of the fields that it fills in itself: they are the
constructor's, whatever it was passed under their names. -/
structure ReservedKept (runId : Str) (e : Event) : Prop where
  topic : e.getTopic = .ok UNINITIALIZED
  pubTime : e.getPubTime = .ok 0
  runId_eq : e.getRunId = if runId = [] then
    .error (.runtimeError (lit "property RUNID not found")) else .ok runId
  filterable : RUNID ∈ e.getFilterablePropertyNames ↔ runId ≠ []

def EndsWith (filterable : PropertySet) (name : Str) (v : Value) : Prop :=
  ∀ w, (filterable.values name).getLast? = some w → w = v

structure Undisputed (runId : Str) (ps filterable : PropertySet) : Prop where
  topic : EndsWith filterable TOPIC (.string UNINITIALIZED)
  pubTime : EndsWith filterable PUBTIME (.longLong 0)
  runId_eq : runId ≠ [] → EndsWith filterable RUNID (.string runId)
  absent : runId = [] → RUNID ∉ ps.keys ∧ RUNID ∉ filterable.keys

variable {now : Int64} {runId : Str} {ps filterable : PropertySet} {e : Event}

theorem lookup_fill_topic : (fill now runId ps).lookup TOPIC =
    some (.leaf (.single (.string UNINITIALIZED))) := by
  have hpub : TOPIC ≠ PUBTIME := by decide +kernel
  rw [fill, NestedMap.lookup_insert_of_ne hpub, NestedMap.lookup_insert_self]

theorem lookup_fill_pubTime : (fill now runId ps).lookup PUBTIME =
    some (.leaf (.single (.longLong 0))) := by
  rw [fill, NestedMap.lookup_insert_self]

theorem lookup_fill_runId (hr : runId ≠ []) : (fill now runId ps).lookup RUNID =
    some (.leaf (.single (.string runId))) := by
  have htype : RUNID ≠ TYPE := by decide +kernel
  have htopic : RUNID ≠ TOPIC := by decide +kernel
  have hpub : RUNID ≠ PUBTIME := by decide +kernel
  rw [fill, NestedMap.lookup_insert_of_ne hpub, NestedMap.lookup_insert_of_ne htopic,
    PropertySet.lookup_fillIn htype, if_neg hr, NestedMap.lookup_insert_self]

theorem values_construct (h : construct now runId ps filterable = .ok e) (n : Str) :
    e.psp.values n = (fill now runId ps).values n ++ filterable.values n :=
  PropertySet.combine_values (construct_ok h).2.2 n

theorem get_construct (h : construct now runId ps filterable = .ok e) {n : Str} (hn : '.' ∉ n)
    {v : Value} (hv : (fill now runId ps).lookup n = some (.leaf (.single v))) {α : Type}
    {cast : Value → Option α} {a : α} (hcast : ∀ w, cast w = some a ↔ w = v) :
    e.psp.get cast n = .ok a ↔ EndsWith filterable n v := by
  simp only [PropertySet.get_eq_ok_iff_last hn, hcast, values_construct h,
    PropertySet.values_leaf hv, List.getLast?_append, EndsWith]
  cases (filterable.values n).getLast? with
  | none => exact iff_of_true ⟨v, rfl, rfl⟩ nofun
  | some w => simp

theorem toString?_eq {s : Str} (w : Value) : w.toString? = some s ↔ w = .string s := by
  cases w <;> simp [Value.toString?]

theorem toLongLong?_eq {n : Int64} (w : Value) : w.toLongLong? = some n ↔ w = .longLong n := by
  cases w <;> simp [Value.toLongLong?]

theorem getTopic_iff (h : construct now runId ps filterable = .ok e) :
    e.getTopic = .ok UNINITIALIZED ↔ EndsWith filterable TOPIC (.string UNINITIALIZED) :=
  get_construct h (by decide +kernel) lookup_fill_topic toString?_eq

theorem getPubTime_iff (h : construct now runId ps filterable = .ok e) :
    e.getPubTime = .ok 0 ↔ EndsWith filterable PUBTIME (.longLong 0) :=
  get_construct h (by decide +kernel) lookup_fill_pubTime toLongLong?_eq

theorem plain_runId : '.' ∉ RUNID := by decide +kernel

theorem mem_filterable_runId (h : construct now runId ps filterable = .ok e) :
    RUNID ∈ e.getFilterablePropertyNames ↔ runId ≠ [] ∨ RUNID ∈ filterable.keys := by
  obtain ⟨-, hkeys, -⟩ := construct_ok h
  have hown : RUNID ∈ ownKeywords runId ↔ runId ≠ [] := by
    have hreserved : RUNID ∉ reserved := by decide +kernel
    unfold ownKeywords
    split <;> simp_all
  rw [mem_filterable, hkeys, Finset.mem_union, hown]

theorem getRunId_iff (h : construct now runId ps filterable = .ok e) (hr : runId ≠ []) :
    e.getRunId = .ok runId ↔ EndsWith filterable RUNID (.string runId) := by
  have hmem : RUNID ∈ e.psp.keys := by
    obtain ⟨-, -, hpsp⟩ := construct_ok h
    rw [PropertySet.combine_keys hpsp, NestedMap.mem_keys]
    exact .inl ⟨_, lookup_fill_runId hr⟩
  rw [getRunId, if_pos ((PropertySet.exists_plain plain_runId).2 hmem)]
  exact get_construct h plain_runId (lookup_fill_runId hr) toString?_eq

theorem getRunId_missing_iff (h : construct now [] ps filterable = .ok e) :
    e.getRunId = .error (.runtimeError (lit "property RUNID not found")) ↔
      RUNID ∉ ps.keys ∧ ∀ p l, filterable.leafAt (RUNID :: p) ≠ some l := by
  obtain ⟨-, -, hpsp⟩ := construct_ok h
  have hown : RUNID ∉ ownKeywords [] := by decide +kernel
  have hmem : RUNID ∈ e.psp.keys ↔
      RUNID ∈ ps.keys ∨ ∃ p l, filterable.leafAt (RUNID :: p) = some l := by
    rw [PropertySet.combine_keys hpsp, keys_fill, Finset.mem_union, or_iff_left hown]
  have hmissing : e.getRunId = .error (.runtimeError (lit "property RUNID not found")) ↔
      RUNID ∉ e.psp.keys := by
    rw [← PropertySet.exists_plain plain_runId, getRunId]
    split
    · next hexists =>
      refine iff_of_false (fun hget ↦ ?_) (not_not_intro hexists)
      rw [PropertySet.get] at hget
      split at hget
      · split at hget <;> cases hget
      · cases hget
      · cases hget
    · next hexists => exact iff_of_true rfl hexists
  simp only [hmissing, hmem, not_or, not_exists, ne_eq]

/-- The reserved fields are the constructor's own exactly if the filterable set does not end with
another value under their names, and no set brings a run id where none is passed. -/
theorem reserved_kept_iff (h : construct now runId ps filterable = .ok e) :
    ReservedKept runId e ↔ Undisputed runId ps filterable := by
  have hfilterable := mem_filterable_runId h
  constructor
  · intro hkept
    refine ⟨(getTopic_iff h).1 hkept.topic, (getPubTime_iff h).1 hkept.pubTime, fun hr ↦ ?_,
      fun hr ↦ ?_⟩
    · refine (getRunId_iff h hr).1 ?_
      rw [hkept.runId_eq, if_neg hr]
    · subst hr
      have hmissing := (getRunId_missing_iff h).1 (hkept.runId_eq.trans (if_pos rfl))
      refine ⟨hmissing.1, fun hmem ↦ ?_⟩
      exact hkept.filterable.1 (hfilterable.2 (.inr hmem)) rfl
  · intro hset
    refine ⟨(getTopic_iff h).2 hset.topic, (getPubTime_iff h).2 hset.pubTime, ?_, ?_⟩
    · by_cases hr : runId = []
      · subst hr
        obtain ⟨hps, hf⟩ := hset.absent rfl
        rw [if_pos rfl, getRunId_missing_iff h]
        exact ⟨hps, fun p l hl ↦ hf (NestedMap.mem_keys_of_leafAt hl)⟩
      · rw [if_neg hr]
        exact (getRunId_iff h hr).2 (hset.runId_eq hr)
    · rw [hfilterable, or_iff_left_of_imp]
      exact fun hmem hr ↦ (hset.absent hr).2 hmem

theorem reserved_kept_iff_sample :
    let ps : PropertySet := (∅ : PropertySet).insert RUNID (.leaf (.single (.string (lit "old"))))
    let filterable : PropertySet :=
      (∅ : PropertySet).insert (lit "FOO") (.leaf (.single (.int 7)))
    ∃ e, construct 5 (lit "run") ps filterable = .ok e ∧ ReservedKept (lit "run") e := by
  intro ps filterable
  have he : construct 5 (lit "run") ps filterable = .ok _ :=
    construct_single (by decide +kernel) (by decide +kernel) (.single (.int 7))
  have hnone : ∀ n ∈ [TOPIC, PUBTIME, RUNID], filterable.values n = [] := by decide +kernel
  have hends : ∀ n ∈ [TOPIC, PUBTIME, RUNID], ∀ v, EndsWith filterable n v := by
    intro n hn v w hw
    rw [hnone n hn] at hw
    cases hw
  refine ⟨_, he, (reserved_kept_iff he).2 ⟨?_, ?_, fun _ ↦ ?_, fun hr ↦ ?_⟩⟩
  · exact hends _ (by simp) _
  · exact hends _ (by simp) _
  · exact hends _ (by simp) _
  · exact absurd hr (by decide +kernel)

/-- A run id in the set that an event is made from is not ignored. -/
theorem runId_not_ignored : ¬ ∀ (now : Int64) (runId : Str) (ps filterable : PropertySet)
    (e : Event), construct now runId ps filterable = .ok e → ReservedKept runId e := by
  intro hall
  let ps : PropertySet := (∅ : PropertySet).insert RUNID (.leaf (.single (.string (lit "old"))))
  have he := construct_empty 5 [] ps
  have hkept := hall 5 [] ps ∅ _ he
  have hmissing := (getRunId_missing_iff he).1 (hkept.runId_eq.trans (if_pos rfl))
  exact hmissing.1 (by simp [ps])

end CtrlEvents.Event
