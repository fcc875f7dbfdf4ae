import CtrlEvents.Events.Keywords
import CtrlEvents.Payload.RoundTrip

namespace CtrlEvents

open Fallible Outcome

namespace Event

variable (L : Libraries) (C : Cms) {filterable payload : PropertySet} {e e' : Event}
  {names : List Str} {transmitter : Transmitter} {pubtime : Int64} {msg : TextMessage}

theorem publish_payload (he : e.Formed) (hp : e.Publishable)
    (hpayload : Payload e.getCustomPropertySet) (hn : e.getCustomPropertySet.Lists names)
    (htags : ∀ p l, e.getCustomPropertySet.leafAt p = some l → ∀ n ∈ p.tail, n ∉ tagWords)
    (transmitter : Transmitter) (pubtime : Int64) :
    ∃ msg, e.publish L names transmitter pubtime = .ok msg ∧
      Settles (L.unmarshall · msg.text) (ret e.getCustomPropertySet) := by
  obtain ⟨text, htext, hsettles⟩ := hpayload.unmarshall_clear L hn (hpayload.clear hn htags)
  obtain ⟨msg, hmsg⟩ := publish_total L he hp htext transmitter pubtime
  obtain ⟨-, ht, -⟩ := publish_ok L he hmsg
  have heq : msg.text = text := by
    rw [htext] at ht
    injection ht with ht
    exact ht.symm
  exact ⟨msg, hmsg, heq ▸ hsettles⟩

theorem publish_single (he : e.Formed) (hp : e.Publishable) {n : Str} {v : Value}
    (hcustom : e.getCustomPropertySet = (∅ : PropertySet).insert n (.leaf (.single v)))
    (hn : Plain n) (hv : v.Sendable) (transmitter : Transmitter) (pubtime : Int64) :
    ∃ msg, e.publish L [n] transmitter pubtime = .ok msg ∧
      Settles (L.unmarshall · msg.text)
        (ret ((∅ : PropertySet).insert n (.leaf (.single v)))) := by
  rw [← hcustom]
  refine publish_payload L he hp ?_ ?_ ?_ transmitter pubtime <;> rw [hcustom]
  · exact payload_single hn hv
  · exact PropertySet.lists_single hn.2 _
  · exact untagged_single

/-- An event of one property beside the header can be published. -/
theorem construct_one {n : Str} {v : Value} {runId : Str} (hn : '.' ∉ n)
    (hown : n ∉ ownKeywords runId) (now : Int64) :
    let ps : PropertySet := (∅ : PropertySet).insert n (.leaf (.single v))
    ∃ e, construct now runId ps ∅ = .ok e ∧ e.Formed ∧ e.Publishable ∧
      e.getCustomPropertySet = ps ∧ e.getCustomPropertySet.Lists [n] := by
  intro ps
  have he := construct_empty now runId ps
  have hnone : ∀ k ∈ ps.keys, k ∉ ownKeywords runId := by simpa [ps] using hown
  have hformed := (construct_formed PropertySet.dotless_empty he).1
  have hcustom : getCustomPropertySet ⟨.event, fill now runId ps, ownKeywords runId⟩ = ps :=
    getCustomPropertySet_eq hformed.plain hnone fun k hk ↦ lookup_fill hk
  refine ⟨_, he, hformed, publishable_fill (fun k hk hmem ↦ absurd hk (hnone k hmem)) now, hcustom,
    ?_⟩
  rw [hcustom]
  exact PropertySet.lists_single hn _

theorem constructStatus_one {n : Str} {v : Value} {runId : Str} (hn : '.' ∉ n)
    (hown : n ∉ ownKeywords runId) (hfield : n ∉ EventClass.status.keywords) (now : Int64)
    (originator : LocationId) :
    let ps : PropertySet := (∅ : PropertySet).insert n (.leaf (.single v))
    ∃ e, constructStatus now runId originator ps ∅ = .ok e ∧ e.type = .status ∧ e.Formed ∧
      e.Publishable ∧ e.getCustomPropertySet = ps := by
  intro ps
  obtain ⟨e₀, he₀, hformed, hpub, hcustom, -⟩ := construct_one hn hown (v := v) now
  have hr := (construct_formed PropertySet.dotless_empty he₀).2
  let fields : List (Str × Value) := [(ORIG_HOSTNAME, .string originator.hostname),
    (ORIG_PROCESSID, .int originator.pid), (ORIG_LOCALID, .int originator.localID),
    (TYPE, .string EventTypes.STATUS)]
  have horig : (fields.take 3).map Prod.fst ⊆ EventClass.status.fields.map Field.name :=
    List.Subset.refl _
  have hplain : ∀ v ∈ fields, '.' ∉ v.1 := plain_fields horig
  obtain ⟨e, he⟩ : ∃ e, e₀.extend .status fields = .ok e := ⟨_, extend_eq hplain e₀⟩
  obtain ⟨htype, hkeys, hpsp⟩ := extend_ok hplain he
  have hfields : ∀ k ∈ fields.map Prod.fst, k ∈ e.keywords := by
    simp [fields, hkeys, hr (show TYPE ∈ reserved by simp [reserved]), EventClass.keywords,
      EventClass.fields, Field.originator, Field.name]
  have hfits : ∀ f ∈ e.type.fields, ∃ c, headerOf e.psp f.name = some c ∧ f.Fits c := by
    rw [htype, hpsp]
    simp [EventClass.fields, Field.originator, Field.name, Field.Fits, headerOf, fields,
      NestedMap.lookup_insert, ORIG_HOSTNAME, ORIG_PROCESSID, ORIG_LOCALID, TYPE, lit, Leaf.single,
      Leaf.back, Value.toCms]
  refine ⟨e, ?_, htype, (extend_formed hformed hr hplain he).1, ⟨fun k hk ↦ ?_, hfits⟩, ?_⟩
  · rw [constructStatus, he₀, ok_bind]
    exact he
  · rcases Finset.mem_union.1 (hkeys ▸ hk) with hk | hk
    · rw [hpsp]
      exact headerOf_foldl_insert (by simp [fields, Value.toCms]) (hpub.header k hk)
    · obtain ⟨f, hf, rfl⟩ := mem_typeKeywords.1 hk
      obtain ⟨c, hc, -⟩ := hfits f (htype ▸ hf)
      rw [hc]
      rfl
  · refine (custom_extend hformed hr hplain he hfields ?_).trans hcustom
    rw [hcustom]
    simpa [ps] using hfield

theorem notMem_foo : '.' ∉ lit "FOO" ∧ ∀ runId, lit "FOO" ∉ ownKeywords runId := by
  refine ⟨by simp [lit], fun runId ↦ ?_⟩
  unfold ownKeywords
  split <;> simp [reserved, TYPE, EVENTTIME, STATUS, TOPIC, PUBTIME, RUNID, lit]

theorem ofMessage_delivered (he : e.Formed) (hr : reserved ⊆ e.keywords)
    (h : e.publish L names transmitter pubtime = .ok msg) {type : EventClass}
    (htype : type.fields ⊆ e.type.fields) (timestamp : Int64)
    (hdecode : Settles (L.unmarshall · msg.text) (ret payload)) :
    ∃ e', Settles (ofMessage L C type · { msg with timestamp := timestamp }) (ret e') ∧
      Delivered e transmitter pubtime payload type e' := by
  obtain ⟨e', he', hd⟩ := delivered L C he hr h htype timestamp payload
  refine ⟨e', hdecode.bind ?_, hd⟩
  rw [he']
  exact settles_const _

/-- What the rebuilt event holds under the keywords of the sender: the sender's values, but for
the stamps of the publication. -/
structure HeaderKept (e : Event) (transmitter : Transmitter) (pubtime : Int64) (e' : Event) :
    Prop where
  filterable : ∀ n, n ∈ e'.getFilterablePropertyNames ↔
    n = transmitter.getDestinationPropertyName ∨ n ∈ e.getFilterablePropertyNames
  values : ∀ n ∈ e.getFilterablePropertyNames, n ≠ PUBTIME →
    n ≠ transmitter.getDestinationPropertyName → ∃ v : Value, e.psp.get some n = .ok v ∧
      v.toCms.isSome ∧ e'.psp.get some n = .ok v.widen
  eventTime : ∃ v : Value, e.psp.get some EVENTTIME = .ok v ∧
    e'.psp.get some EVENTTIME = .ok v.widen
  pubTime : e'.getPubTime = .ok pubtime
  destination : e'.psp.get Value.toString? transmitter.getDestinationPropertyName =
    .ok transmitter.destinationName
  unshadowed : ∀ n ∈ e'.getFilterablePropertyNames, ∃ v : Value, v.toCms.isSome ∧
    e'.psp.lookup n = some (.leaf (.single v))

theorem get_single {psp : PropertySet} {n : Str} (hn : '.' ∉ n) {v : Value}
    (h : psp.lookup n = some (.leaf (.single v))) {α : Type} {cast : Value → Option α} {a : α}
    (ha : cast v = some a) : psp.get cast n = .ok a :=
  (PropertySet.get_eq_ok hn).2 ⟨_, h, ha⟩

theorem Delivered.headerKept {type : EventClass} (he : e.Formed) (hr : reserved ⊆ e.keywords)
    (hd : Delivered e transmitter pubtime payload type e') :
    HeaderKept e transmitter pubtime e' := by
  have hstamped : ∀ n, n ≠ PUBTIME → n ≠ transmitter.getDestinationPropertyName →
      n ∉ transmitter.stamped := by
    intro n hp hdest
    rw [Transmitter.stamped, Finset.mem_insert, Finset.mem_singleton, not_or]
    exact ⟨hp, hdest⟩
  have hvalue : ∀ n ∈ e.keywords, n ∉ transmitter.stamped → ∃ v : Value,
      e.psp.get some n = .ok v ∧ v.toCms.isSome ∧ e'.psp.get some n = .ok v.widen := by
    intro n hn hs
    obtain ⟨v, hv, hc, hl⟩ := hd.header n hn hs
    exact ⟨v, hv, hc, get_single (he.plain n hn) hl rfl⟩
  refine ⟨fun n ↦ ?_, fun n hn hp hdest ↦ ?_, ?_, ?_, ?_, fun n hn ↦ ?_⟩
  · rw [mem_filterable, mem_filterable, hd.keywords, Finset.mem_insert]
  · exact hvalue n (mem_filterable.1 hn) (hstamped n hp hdest)
  · obtain ⟨v, hv, -, hl⟩ := hvalue EVENTTIME (hr (by decide +kernel))
      (Transmitter.notMem_stamped (by decide +kernel) transmitter)
    exact ⟨v, hv, hl⟩
  · exact get_single (by decide +kernel) hd.pubTime rfl
  · exact get_single transmitter.plain_destination hd.destination rfl
  · rw [mem_filterable, hd.keywords, Finset.mem_insert] at hn
    by_cases hp : n = PUBTIME
    · exact ⟨.longLong pubtime, rfl, hp ▸ hd.pubTime⟩
    · by_cases hdest : n = transmitter.getDestinationPropertyName
      · exact ⟨.string transmitter.destinationName, rfl, hdest ▸ hd.destination⟩
      · obtain ⟨v, -, hc, hl⟩ := hd.header n (hn.resolve_left hdest) (hstamped n hp hdest)
        exact ⟨v.widen, by rw [Value.toCms_widen, hc], hl⟩

theorem dotless_single {n : Str} (hn : '.' ∉ n) (l : Leaf) :
    PropertySet.Dotless ((∅ : PropertySet).insert n (.leaf l)) := by
  simpa [PropertySet.Dotless] using hn

theorem publish_filterable_sample (l : Leaf) (hl : l.back.toCms.isSome) :
    let ps : PropertySet := (∅ : PropertySet).insert (lit "FOO") (.leaf (.single (.int 7)))
    let filterable : PropertySet := (∅ : PropertySet).insert (lit "BAR") (.leaf l)
    ∃ e msg, construct 5 (lit "run") ps filterable = .ok e ∧
      e.publish Textual.libraries [lit "FOO"] (.queue (lit "orders")) 9 = .ok msg ∧
      Settles (Textual.libraries.unmarshall · msg.text) (ret ps) ∧
      e.getCustomPropertySet = ps ∧ lit "BAR" ∈ e.keywords ∧
      e.psp.lookup (lit "BAR") = some (.leaf l) := by
  intro ps filterable
  have he : construct 5 (lit "run") ps filterable = .ok _ :=
    construct_single (by decide +kernel) (by decide +kernel) l
  have hdotless : filterable.Dotless := dotless_single (by decide +kernel) l
  have hformed := ((Built.event he).formed hdotless).1
  have hcustom : getCustomPropertySet ⟨.event,
      (fill 5 (lit "run") ps).insert (lit "BAR") (.leaf l),
      ownKeywords (lit "run") ∪ {lit "BAR"}⟩ = ps := by
    have hkeys : ∀ k ∈ ps.keys, k ∉ ownKeywords (lit "run") ∪ {lit "BAR"} := by decide +kernel
    refine getCustomPropertySet_eq hformed.plain hkeys fun k hk ↦ ?_
    simp only [Finset.mem_union, Finset.mem_singleton, not_or] at hk
    rw [NestedMap.lookup_insert_of_ne hk.2, lookup_fill hk.1]
  have hwritable : Writable (ownKeywords (lit "run")) ps := by
    have hnone : ∀ n ∈ ownKeywords (lit "run"), n ∉ ps.keys := by decide +kernel
    exact fun n hn hk ↦ absurd hk (hnone n hn)
  have hpub : Publishable ⟨.event, (fill 5 (lit "run") ps).insert (lit "BAR") (.leaf l),
      ownKeywords (lit "run") ∪ {lit "BAR"}⟩ := by
    refine ⟨fun n hn ↦ ?_, nofun⟩
    rw [headerOf, NestedMap.lookup_insert]
    by_cases hbar : n = lit "BAR"
    · rw [if_pos hbar]
      exact hl
    · rw [if_neg hbar]
      have hown : n ∈ ownKeywords (lit "run") :=
        (Finset.mem_union.1 hn).resolve_right fun h ↦ hbar (Finset.mem_singleton.1 h)
      exact (publishable_fill hwritable 5).header n hown
  obtain ⟨msg, hmsg, hdecode⟩ := publish_single Textual.libraries hformed hpub hcustom
    (by decide +kernel) trivial (.queue (lit "orders")) 9
  exact ⟨_, msg, he, hmsg, hdecode, hcustom, by simp, NestedMap.lookup_insert_self ..⟩

/-- Publishing an event and rebuilding it from the message keeps its header, whatever the broker's
timestamp and whatever the payload holds. -/
theorem header_returns (hf : filterable.Dotless) (hb : Built filterable e)
    (h : e.publish L names transmitter pubtime = .ok msg)
    (hdecode : Settles (L.unmarshall · msg.text) (ret payload)) (timestamp : Int64) :
    ∃ e', Settles (ofMessage L C .event · { msg with timestamp := timestamp }) (ret e') ∧
      HeaderKept e transmitter pubtime e' := by
  obtain ⟨he, hr⟩ := hb.formed hf
  have hfields : EventClass.event.fields ⊆ e.type.fields := List.nil_subset _
  obtain ⟨e', hsettles, hd⟩ := ofMessage_delivered L C he hr h hfields timestamp hdecode
  exact ⟨e', hsettles, hd.headerKept he hr⟩

theorem header_returns_sample :
    let ps : PropertySet := (∅ : PropertySet).insert (lit "FOO") (.leaf (.single (.int 7)))
    let filterable : PropertySet :=
      (∅ : PropertySet).insert (lit "BAR") (.leaf (.single (.long 8)))
    ∃ e msg e', construct 5 (lit "run") ps filterable = .ok e ∧
      e.publish Textual.libraries [lit "FOO"] (.queue (lit "orders")) 9 = .ok msg ∧
      Settles (ofMessage Textual.libraries .strict .event · { msg with timestamp := 10 }) (ret e') ∧
      HeaderKept e (.queue (lit "orders")) 9 e' := by
  intro ps filterable
  obtain ⟨e, msg, he, hmsg, hdecode, -⟩ := publish_filterable_sample (.single (.long 8)) rfl
  have hdotless : filterable.Dotless := dotless_single (by decide +kernel) _
  obtain ⟨e', hsettles, hkept⟩ := header_returns Textual.libraries .strict hdotless (.event he) hmsg
    hdecode 10
  exact ⟨e, msg, e', he, hmsg, hsettles, hkept⟩

end Event

end CtrlEvents
