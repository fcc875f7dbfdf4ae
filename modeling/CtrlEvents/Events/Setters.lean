import CtrlEvents.Events.Dispatch

namespace CtrlEvents.Event

open Fallible Outcome

namespace Setter

def name : Setter → Str
  | setEventTime _ => EVENTTIME
  | updateEventTime _ => EVENTTIME
  | setRunId _ => RUNID
  | setStatus _ => STATUS
  | setTopic _ => TOPIC
  | setPubTime _ => PUBTIME

def value : Setter → Value
  | setEventTime nsecs => .longLong nsecs
  | updateEventTime now => .longLong now
  | setRunId runId => .string runId
  | setStatus status => .string status
  | setTopic topic => .string topic
  | setPubTime t => .longLong t

/-- The keyword that a setter adds; only the run id is not a keyword of every event. -/
def keywords : Setter → Finset Str
  | setRunId _ => {RUNID}
  | _ => ∅

def apply (e : Event) (setter : Setter) : Event :=
  ⟨e.type, e.psp.insert setter.name (.leaf (.single setter.value)), setter.keywords ∪ e.keywords⟩

theorem name_mem (setter : Setter) : setter.name ∈ [EVENTTIME, RUNID, STATUS, TOPIC, PUBTIME] := by
  cases setter <;> simp [name]

theorem plain_name (setter : Setter) : '.' ∉ setter.name := by
  have hplain : ∀ n ∈ [EVENTTIME, RUNID, STATUS, TOPIC, PUBTIME], '.' ∉ n := by
    simp [EVENTTIME, RUNID, STATUS, TOPIC, PUBTIME, lit]
  exact hplain _ setter.name_mem

theorem name_ne_type (setter : Setter) : setter.name ≠ TYPE := by
  have hne : ∀ n ∈ [EVENTTIME, RUNID, STATUS, TOPIC, PUBTIME], n ≠ TYPE := by
    simp [EVENTTIME, RUNID, STATUS, TOPIC, PUBTIME, TYPE, lit]
  exact hne _ setter.name_mem

theorem toCms_value (setter : Setter) : setter.value.toCms.isSome := by
  cases setter <;> rfl

theorem widen_value (setter : Setter) : setter.value.widen = setter.value := by
  cases setter <;> rfl

theorem keywords_subset (setter : Setter) : setter.keywords ⊆ {setter.name} := by
  cases setter <;> simp [keywords, name]

theorem name_mem_keywords (setter : Setter) {e : Event} (hr : reserved ⊆ e.keywords) :
    setter.name ∈ setter.keywords ∪ e.keywords := by
  have hmem : ∀ {n}, n ∈ reserved → n ∈ setter.keywords ∪ e.keywords := fun hn ↦
    Finset.mem_union_right _ (hr hn)
  cases setter with
  | setRunId runId => exact Finset.mem_union_left _ (Finset.mem_singleton_self RUNID)
  | _ => exact hmem (by simp [name, reserved])

/-- A setter never fails. -/
theorem call_eq (setter : Setter) (e : Event) : setter.call e = .ok (apply e setter) := by
  have hset : ∀ {e : Event} {n : Str} {v : Value}, '.' ∉ n → e.setProperty n v =
      .ok ⟨e.type, e.psp.insert n (.leaf (.single v)), e.keywords⟩ := by
    intro e n v hn
    rw [setProperty, PropertySet.set_plain hn]
    rfl
  have hplain := setter.plain_name
  cases setter with
  | setRunId runId => exact hset hplain
  | _ =>
    refine (hset hplain).trans ?_
    simp only [apply, keywords, Finset.empty_union]
    rfl

theorem foldlM_call (setters : List Setter) (e : Event) :
    setters.foldlM (fun e setter ↦ setter.call e) e = .ok (setters.foldl apply e) := by
  induction setters generalizing e with
  | nil => rfl
  | cons setter setters ih =>
    rw [List.foldlM_cons, call_eq, ok_bind, ih]
    rfl

/-- The value that setters have last put under a name. -/
def lastSet (setters : List Setter) (n : Str) : Option Value :=
  (setters.filterMap fun setter ↦ if setter.name = n then some setter.value else none).getLast?

theorem lastSet_snoc (setters : List Setter) (setter : Setter) (n : Str) :
    lastSet (setters ++ [setter]) n =
      if setter.name = n then some setter.value else lastSet setters n := by
  rw [lastSet, List.filterMap_append, List.getLast?_append]
  by_cases h : setter.name = n <;> simp [lastSet, h]

theorem exists_of_lastSet {setters : List Setter} {n : Str} {v : Value}
    (h : lastSet setters n = some v) : ∃ setter ∈ setters, setter.name = n ∧ setter.value = v := by
  obtain ⟨setter, hmem, hset⟩ := List.mem_filterMap.1 (List.mem_of_getLast? h)
  split at hset
  · next hn =>
    cases hset
    exact ⟨setter, hmem, hn, rfl⟩
  · cases hset

variable {e : Event} (setters : List Setter)

theorem type_foldl : (setters.foldl apply e).type = e.type := by
  induction setters using List.reverseRecOn with
  | nil => rfl
  | append_singleton setters setter ih =>
    rw [List.foldl_append, List.foldl_cons, List.foldl_nil, apply, ih]

/-- After a run of setters every name holds what was put under it last. -/
theorem lookup_foldl (n : Str) : (setters.foldl apply e).psp.lookup n =
    ((lastSet setters n).map fun v ↦ .leaf (.single v)).or (e.psp.lookup n) := by
  induction setters using List.reverseRecOn with
  | nil => rfl
  | append_singleton setters setter ih =>
    rw [List.foldl_append, List.foldl_cons, List.foldl_nil, apply, NestedMap.lookup_insert, ih,
      lastSet_snoc]
    by_cases h : setter.name = n
    · simp [h]
    · rw [if_neg (Ne.symm h), if_neg h]

theorem mem_keywords_foldl (n : Str) : n ∈ (setters.foldl apply e).keywords ↔
    n ∈ e.keywords ∨ ∃ setter ∈ setters, n ∈ setter.keywords := by
  induction setters using List.reverseRecOn with
  | nil => simp
  | append_singleton setters setter ih =>
    rw [List.foldl_append, List.foldl_cons, List.foldl_nil, apply, Finset.mem_union, ih]
    simp only [List.mem_append, List.mem_singleton, or_and_right, exists_or, exists_eq_left]
    rw [or_comm, or_assoc]

theorem formed_foldl (he : e.Formed) : (setters.foldl apply e).Formed := by
  refine ⟨fun n hn ↦ ?_, fun n hn ↦ ?_⟩
  · rcases (mem_keywords_foldl setters n).1 hn with hn | ⟨setter, -, hn⟩
    · exact he.plain n hn
    · rw [Finset.mem_singleton.1 (setter.keywords_subset hn)]
      exact setter.plain_name
  · rw [type_foldl] at hn
    exact (mem_keywords_foldl setters n).2 (.inl (he.typed hn))

theorem subset_foldl : e.keywords ⊆ (setters.foldl apply e).keywords := fun n hn ↦
  (mem_keywords_foldl setters n).2 (.inl hn)

theorem lastSet_ne_none {setters : List Setter} {setter : Setter} (h : setter ∈ setters) :
    ∃ v, lastSet setters setter.name = some v := by
  refine Option.ne_none_iff_exists'.1 fun hnone ↦ ?_
  rw [lastSet, List.getLast?_eq_none_iff, List.filterMap_eq_nil_iff] at hnone
  simpa using hnone setter h

theorem name_mem_foldl (hr : reserved ⊆ e.keywords) {setter : Setter} (h : setter ∈ setters) :
    setter.name ∈ (setters.foldl apply e).keywords := by
  rcases Finset.mem_union.1 (setter.name_mem_keywords hr) with hk | hk
  · exact (mem_keywords_foldl setters _).2 (.inr ⟨setter, h, hk⟩)
  · exact subset_foldl setters hk

/-- Setters touch no custom property but a run id. -/
theorem custom_foldl (he : e.Formed) (hr : reserved ⊆ e.keywords)
    (hrun : RUNID ∉ e.getCustomPropertySet.keys) :
    (setters.foldl apply e).getCustomPropertySet = e.getCustomPropertySet := by
  refine getCustomPropertySet_congr he.plain (formed_foldl setters he).plain
    (subset_foldl setters) (fun k hk hmem ↦ ?_) fun k hk ↦ ?_
  · rcases (mem_keywords_foldl setters k).1 hmem with hmem | ⟨setter, -, hmem⟩
    · exact ((mem_names_getCustomPropertySet he.plain).1 (PropertySet.mem_names.2 hk)).2 hmem
    · cases setter with
      | setRunId runId => exact hrun (Finset.mem_singleton.1 hmem ▸ hk)
      | _ => exact absurd hmem (Finset.notMem_empty k)
  · have hlast : lastSet setters k = none := by
      refine Option.eq_none_iff_forall_ne_some.2 fun v hv ↦ ?_
      obtain ⟨setter, hmem, rfl, -⟩ := exists_of_lastSet hv
      exact hk (name_mem_foldl setters hr hmem)
    rw [lookup_foldl, hlast]
    rfl

theorem name_ne_field (setter : Setter) {type : EventClass} {f : Field} (hf : f ∈ type.fields) :
    f.name ≠ setter.name := by
  have hne : ∀ g ∈ type.fields, ∀ n ∈ [EVENTTIME, RUNID, STATUS, TOPIC, PUBTIME], g.name ≠ n := by
    cases type <;> simp [EventClass.fields, Field.originator, Field.destination, Field.name,
      ORIG_HOSTNAME, ORIG_PROCESSID, ORIG_LOCALID, DEST_HOSTNAME, DEST_PROCESSID, DEST_LOCALID,
      LEVEL, LOGGER, EVENTTIME, RUNID, STATUS, TOPIC, PUBTIME, lit]
  exact hne f hf _ setter.name_mem

/-- Setters keep an event publishable. -/
theorem publishable_foldl (hp : e.Publishable) : (setters.foldl apply e).Publishable := by
  have hheader : ∀ n, headerOf (setters.foldl apply e).psp n =
      ((lastSet setters n).map Value.toCms).getD (headerOf e.psp n) := by
    intro n
    rw [headerOf, lookup_foldl]
    cases lastSet setters n <;> rfl
  refine ⟨fun n hn ↦ ?_, fun f hf ↦ ?_⟩
  · rw [hheader]
    cases hv : lastSet setters n with
    | some v =>
      obtain ⟨setter, -, -, rfl⟩ := exists_of_lastSet hv
      exact setter.toCms_value
    | none =>
      rcases (mem_keywords_foldl setters n).1 hn with hn | ⟨setter, hmem, hn⟩
      · exact hp.header n hn
      · cases Finset.mem_singleton.1 (setter.keywords_subset hn)
        obtain ⟨v, hv'⟩ := lastSet_ne_none hmem
        cases hv.symm.trans hv'
  · rw [type_foldl] at hf
    have hnone : lastSet setters f.name = none := by
      refine Option.eq_none_iff_forall_ne_some.2 fun v hv ↦ ?_
      obtain ⟨setter, -, hn, -⟩ := exists_of_lastSet hv
      exact setter.name_ne_field hf hn.symm
    rw [hheader, hnone]
    exact hp.fits f hf

end Setter

variable (L : Libraries) (C : Cms) {filterable payload : PropertySet} {e e' : Event}
  {names : List Str} {transmitter : Transmitter} {pubtime : Int64} {msg : TextMessage}

/-- What setters have left is what arrives: under every name that was set the value that was set
last, and the event's own value under the others; but the destination and the time of publication
are the transmitter's, whatever was set. -/
theorem settings_arrive (hf : filterable.Dotless) (hb : Built filterable e)
    (setters : List Setter) (hcalls : setters.foldlM (fun e setter ↦ setter.call e) e = .ok e')
    (h : e'.publish L names transmitter pubtime = .ok msg)
    (hdecode : Settles (L.unmarshall · msg.text) (ret payload)) {type : EventClass}
    (htype : type.fields ⊆ e.type.fields) (timestamp : Int64) :
    ∃ e'', Settles (ofMessage L C type · { msg with timestamp := timestamp }) (ret e'') ∧
      (∀ n v, Setter.lastSet setters n = some v → n ∉ transmitter.stamped →
        e''.psp.get some n = .ok v) ∧
      (∀ n ∈ e.keywords, Setter.lastSet setters n = none → n ∉ transmitter.stamped →
        ∃ v, e.psp.get some n = .ok v ∧ e''.psp.get some n = .ok v.widen) ∧
      e''.getPubTime = .ok pubtime ∧
      e''.psp.get Value.toString? transmitter.getDestinationPropertyName =
        .ok transmitter.destinationName := by
  obtain ⟨he, hr⟩ := hb.formed hf
  cases (Setter.foldlM_call setters e).symm.trans hcalls
  have he' := Setter.formed_foldl setters he
  have hr' := hr.trans (Setter.subset_foldl setters)
  have htype' : type.fields ⊆ (setters.foldl Setter.apply e).type.fields := by
    rwa [Setter.type_foldl]
  obtain ⟨e'', hsettles, hd⟩ := ofMessage_delivered L C he' hr' h htype' timestamp hdecode
  refine ⟨e'', hsettles, fun n v hv hs ↦ ?_, fun n hn hnone hs ↦ ?_,
    (hd.headerKept he' hr').pubTime, (hd.headerKept he' hr').destination⟩
  · obtain ⟨setter, hmem, rfl, rfl⟩ := Setter.exists_of_lastSet hv
    obtain ⟨w, hw, -, hl⟩ := hd.header _ (Setter.name_mem_foldl setters hr hmem) hs
    have hset : (setters.foldl Setter.apply e).psp.get some setter.name = .ok setter.value := by
      refine (PropertySet.get_eq_ok setter.plain_name).2 ⟨.single setter.value, ?_, rfl⟩
      rw [Setter.lookup_foldl, hv]
      rfl
    cases hset.symm.trans hw
    rw [setter.widen_value] at hl
    exact get_single setter.plain_name hl rfl
  · obtain ⟨w, hw, -, hl⟩ := hd.header n (Setter.subset_foldl setters hn) hs
    have hkept : (setters.foldl Setter.apply e).psp.lookup n = e.psp.lookup n := by
      rw [Setter.lookup_foldl, hnone]
      rfl
    rw [PropertySet.get_eq_ok (he.plain n hn), hkept] at hw
    exact ⟨w, (PropertySet.get_eq_ok (he.plain n hn)).2 hw, get_single (he.plain n hn) hl rfl⟩

theorem settings_arrive_sample :
    let ps : PropertySet := (∅ : PropertySet).insert (lit "FOO") (.leaf (.single (.int 7)))
    let setters := [Setter.setRunId (lit "run"), .setStatus (lit "busy"), .setTopic (lit "old"),
      .setStatus (lit "done")]
    ∃ e e' msg e'', construct 5 [] ps ∅ = .ok e ∧
      setters.foldlM (fun e setter ↦ setter.call e) e = .ok e' ∧
      e'.publish Textual.libraries [lit "FOO"] (.topic (lit "news")) 9 = .ok msg ∧
      Settles (ofMessage Textual.libraries .strict .event · { msg with timestamp := 10 })
        (ret e'') ∧
      e''.psp.get some STATUS = .ok (.string (lit "done")) ∧
      e''.psp.get Value.toString? TOPIC = .ok (lit "news") := by
  intro ps setters
  obtain ⟨e, he, hformed, hpub, hcustom, -⟩ := construct_one notMem_foo.1 (notMem_foo.2 [])
    (v := .int 7) 5
  have hr := (construct_formed PropertySet.dotless_empty he).2
  have hrun : RUNID ∉ e.getCustomPropertySet.keys := by
    rw [hcustom]
    simp [RUNID, lit]
  have hset : (setters.foldl Setter.apply e).getCustomPropertySet = ps :=
    (Setter.custom_foldl setters hformed hr hrun).trans hcustom
  obtain ⟨msg, hmsg, hdecode⟩ := publish_single Textual.libraries
    (Setter.formed_foldl setters hformed) (Setter.publishable_foldl setters hpub) hset
    (by simp [Plain, lit]) trivial (.topic (lit "news")) 9
  have hfields : EventClass.event.fields ⊆ e.type.fields := List.nil_subset _
  obtain ⟨e'', hsettles, hlast, -, -, hdest⟩ := settings_arrive Textual.libraries .strict
    PropertySet.dotless_empty (.event he) setters (Setter.foldlM_call setters e) hmsg hdecode
    hfields 10
  refine ⟨e, _, msg, e'', he, Setter.foldlM_call setters e, hmsg, hsettles, ?_, hdest⟩
  refine hlast STATUS _ ?_ (Transmitter.notMem_stamped ?_ _)
  · simp [setters, Setter.lastSet, Setter.name, Setter.value, RUNID, STATUS, TOPIC, lit]
  · simp [STATUS, PUBTIME, TOPIC, QUEUE, lit]

end CtrlEvents.Event
