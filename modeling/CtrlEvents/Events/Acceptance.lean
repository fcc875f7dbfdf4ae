import CtrlEvents.Events.Dispatch
import CtrlEvents.Events.Fields
import CtrlEvents.Payload.Decoded
import CtrlEvents.Payload.Losses

namespace CtrlEvents.Event

open Fallible Outcome

variable (L : Libraries) (C : Cms) {type : EventClass} {payload : PropertySet} {e e' : Event}
  {msg : TextMessage}

/-- An event that a message stands for: every property has a type that an event can hold, every
field of the class can be read, and where both write under one name the field is last. -/
structure Accepted (msg : TextMessage) (payload : PropertySet) (type : EventClass) (e : Event) :
    Prop where
  type_eq : e.type = type
  keywords : e.keywords = msg.properties.keys
  field : ∀ f ∈ type.fields, ∃ w, f.received C msg = .ok w ∧
    e.psp.lookup f.name = some (.leaf (.single w))
  property : ∀ n c, msg.properties.lookup n = some c → ∃ w, c.toValue n = .ok w ∧
    ((∀ f ∈ type.fields, f.name ≠ n) → e.psp.lookup n = some (.leaf (.single w)))
  eventTime : msg.properties.lookup EVENTTIME = none →
    e.psp.lookup EVENTTIME = some (.leaf (.single (.longLong msg.timestamp)))
  rest : ∀ n, msg.properties.lookup n = none → n ≠ EVENTTIME → e.psp.lookup n = payload.lookup n

theorem keys_of_received (h : ∀ f ∈ type.fields, ∃ w, f.received C msg = .ok w) :
    msg.properties.keys ∪ type.keywords = msg.properties.keys := by
  refine Finset.union_eq_left.2 fun n hn ↦ ?_
  obtain ⟨f, hf, rfl⟩ := mem_typeKeywords.1 hn
  obtain ⟨w, hw⟩ := h f hf
  obtain ⟨c, hc⟩ := Field.property_of_received C hw
  rw [Finmap.mem_keys, ← Finmap.lookup_isSome, hc]
  rfl

theorem Accepted.unique (h : Accepted C msg payload type e) (h' : Accepted C msg payload type e') :
    e = e' := by
  have hpsp : e.psp = e'.psp := by
    refine NestedMap.ext fun n ↦ ?_
    by_cases hfield : ∃ f ∈ type.fields, f.name = n
    · obtain ⟨f, hf, rfl⟩ := hfield
      obtain ⟨w, hw, hl⟩ := h.field f hf
      obtain ⟨w', hw', hl'⟩ := h'.field f hf
      rw [hl, hl', Except.ok.inj (hw.symm.trans hw')]
    · have hne : ∀ f ∈ type.fields, f.name ≠ n := fun f hf hn ↦ hfield ⟨f, hf, hn⟩
      cases hc : msg.properties.lookup n with
      | some c =>
        obtain ⟨w, hw, hl⟩ := h.property n c hc
        obtain ⟨w', hw', hl'⟩ := h'.property n c hc
        rw [hl hne, hl' hne, Except.ok.inj (hw.symm.trans hw')]
      | none =>
        by_cases htime : n = EVENTTIME
        · subst htime
          rw [h.eventTime hc, h'.eventTime hc]
        · rw [h.rest n hc htime, h'.rest n hc htime]
  obtain ⟨_, _, _⟩ := e
  obtain ⟨_, _, _⟩ := e'
  cases h.type_eq.trans h'.type_eq.symm
  cases h.keywords.trans h'.keywords.symm
  cases hpsp
  rfl

theorem Accepted.of_assemble (hplain : ∀ n ∈ msg.names, '.' ∉ n)
    (h : assemble C type msg payload = .ok e) : Accepted C msg payload type e := by
  obtain ⟨psp, hpsp, h⟩ := bind_eq_ok.1 h
  obtain ⟨psp', hfields, h⟩ := bind_eq_ok.1 h
  cases h
  obtain ⟨hin, hout⟩ := readProperties_ok hplain hpsp
  have hnames : ∀ f ∈ type.fields, '.' ∉ f.name := fun f hf ↦
    plain_typeKeywords type _ (mem_typeKeywords.2 ⟨f, hf, rfl⟩)
  have hread := Field.foldlM_read_ok C hnames hfields
  have hfield : ∀ f ∈ type.fields, ∃ w, f.received C msg = .ok w ∧
      psp'.lookup f.name = some (.leaf (.single w)) := by
    intro f hf
    rcases hread f.name with ⟨hne, -⟩ | ⟨g, hg, hname, w, hw, hl⟩
    · exact absurd rfl (hne f hf)
    · cases Field.eq_of_name hg hf hname
      exact ⟨w, hw, hl⟩
  have hkept : ∀ n, (∀ f ∈ type.fields, f.name ≠ n) → psp'.lookup n = psp.lookup n := by
    intro n hne
    rcases hread n with ⟨-, hl⟩ | ⟨g, hg, hname, -⟩
    · exact hl
    · exact absurd hname (hne g hg)
  have hnone : ∀ n, msg.properties.lookup n = none → ∀ f ∈ type.fields, f.name ≠ n := by
    rintro n hn f hf rfl
    obtain ⟨w, hw, -⟩ := hfield f hf
    obtain ⟨c, hc⟩ := Field.property_of_received C hw
    rw [hn] at hc
    cases hc
  refine ⟨rfl, ?_, hfield, fun n c hc ↦ ?_, fun hn ↦ ?_, fun n hn htime ↦ ?_⟩
  · refine keys_of_received C fun f hf ↦ ?_
    obtain ⟨w, hw, -⟩ := hfield f hf
    exact ⟨w, hw⟩
  · obtain ⟨w, hw, hl⟩ := hin n c hc
    exact ⟨w, hw, fun hne ↦ (hkept n hne).trans hl⟩
  · exact (hkept _ (hnone _ hn)).trans ((hout _ hn).trans (if_pos rfl))
  · exact (hkept _ (hnone _ hn)).trans ((hout _ hn).trans (if_neg htime))

theorem assemble_accepted (hplain : ∀ n ∈ msg.names, '.' ∉ n)
    (htyped : ∀ n c, msg.properties.lookup n = some c → ∃ w, c.toValue n = .ok w)
    (hfields : ∀ f ∈ type.fields, ∃ w, f.received C msg = .ok w) (payload : PropertySet) :
    ∃ e, assemble C type msg payload = .ok e ∧ Accepted C msg payload type e := by
  obtain ⟨psp, hpsp⟩ := readProperties_total hplain htyped payload
  obtain ⟨psp', hread⟩ := Field.foldlM_received C (fun f hf ↦
    plain_typeKeywords type _ (mem_typeKeywords.2 ⟨f, hf, rfl⟩)) hfields psp
  have hall : assemble C type msg payload =
      .ok ⟨type, psp', msg.properties.keys ∪ type.keywords⟩ := by
    rw [assemble, hpsp, ok_bind, hread, ok_bind, Fallible.pure_eq]
  exact ⟨_, hall, .of_assemble C hplain hall⟩

theorem Accepted.assemble (hplain : ∀ n ∈ msg.names, '.' ∉ n)
    (h : Accepted C msg payload type e) : assemble C type msg payload = .ok e := by
  obtain ⟨e', hall, h'⟩ := assemble_accepted C hplain (fun n c hc ↦ by
    obtain ⟨w, hw, -⟩ := h.property n c hc
    exact ⟨w, hw⟩) (fun f hf ↦ by
    obtain ⟨w, hw, -⟩ := h.field f hf
    exact ⟨w, hw⟩) payload
  rw [hall, h'.unique C h]

theorem accepted_of_createEvent (hplain : ∀ n ∈ msg.names, '.' ∉ n) {calls : ℕ}
    (h : createEvent L C calls msg = ret e) : ∃ type payload,
      msg.getStringProperty C TYPE = .ok type ∧ L.unmarshall calls msg.text = ret payload ∧
        Accepted C msg payload (dispatch type) e := by
  cases htype : msg.getStringProperty C TYPE with
  | error x =>
    rw [createEvent_error L C htype] at h
    cases h
  | ok type =>
    rw [createEvent_eq L C htype] at h
    obtain ⟨payload, hpayload, h⟩ := bind_eq_ret.1 h
    exact ⟨type, payload, rfl, hpayload, .of_assemble C hplain (liftM_eq_ret.1 h)⟩

theorem Accepted.createEvent (hplain : ∀ n ∈ msg.names, '.' ∉ n) {type : Str}
    (htype : msg.getStringProperty C TYPE = .ok type)
    (hpayload : Settles (L.unmarshall · msg.text) (ret payload))
    (h : Accepted C msg payload (dispatch type) e) : Settles (createEvent L C · msg) (ret e) := by
  simp only [createEvent_eq L C htype]
  refine hpayload.bind ?_
  rw [h.assemble C hplain]
  exact settles_const _

/-- A message, whoever sent it, is made into an event exactly if its type can be read, its text
decodes, and it stands for an event of the class that its type is taken for; and into this event. -/
theorem createEvent_accepts_iff (hplain : ∀ n ∈ msg.names, '.' ∉ n) :
    Settles (createEvent L C · msg) (ret e) ↔ ∃ type payload,
      msg.getStringProperty C TYPE = .ok type ∧ Settles (L.unmarshall · msg.text) (ret payload) ∧
        Accepted C msg payload (dispatch type) e := by
  constructor
  · rintro ⟨calls, h⟩
    obtain ⟨type, payload, htype, hpayload, ha⟩ :=
      accepted_of_createEvent L C hplain (h calls le_rfl)
    refine ⟨type, payload, htype, ⟨calls, fun m hm ↦ ?_⟩, ha⟩
    have hle := L.unmarshall_mono msg.text hm
    exact (eq_of_le hle (by simp [hpayload])).trans hpayload
  · rintro ⟨type, payload, htype, hpayload, ha⟩
    exact ha.createEvent L C hplain htype hpayload

def foreign (text : Str) : TextMessage :=
  { (TextMessage.new.set TYPE (.string EventTypes.EVENT)).set (lit "BAR") (.byte 3) with
    text := text, timestamp := 10 }

theorem lookup_foreign (text n : Str) : (foreign text).properties.lookup n =
    if n = lit "BAR" then some (.byte 3)
    else if n = TYPE then some (.string EventTypes.EVENT) else none := by
  have hlookup : (foreign text).properties.lookup n = ((TextMessage.new.set TYPE
      (.string EventTypes.EVENT)).set (lit "BAR") (.byte 3)).properties.lookup n := rfl
  rw [hlookup, TextMessage.lookup_set, TextMessage.lookup_set]
  rfl

theorem plain_foreign (text : Str) : ∀ n ∈ (foreign text).names, '.' ∉ n := by
  intro n hn
  obtain ⟨c, hc⟩ := TextMessage.mem_names.1 hn
  rw [lookup_foreign] at hc
  split at hc
  · next h =>
    rw [h]
    simp [lit]
  · split at hc
    · next h => exact h ▸ plain_type
    · cases hc

theorem foreign_accepted : ∃ text payload e,
    (foreign text).getStringProperty .strict TYPE = .ok EventTypes.EVENT ∧
      Settles (Textual.libraries.unmarshall · text) (ret payload) ∧
      Accepted .strict (foreign text) payload (dispatch EventTypes.EVENT) e := by
  have hfoo : Payload ((∅ : PropertySet).insert (lit "FOO") (.leaf (.single (.int 7)))) :=
    payload_single (by simp [Plain, lit]) trivial
  have hn := PropertySet.lists_single (n := lit "FOO") (by simp [lit]) (.single (.int 7))
  obtain ⟨text, -, hpayload⟩ := hfoo.unmarshall_clear Textual.libraries hn
    (hfoo.clear hn untagged_single)
  have htype : (foreign text).getStringProperty .strict TYPE = .ok EventTypes.EVENT := by
    refine TextMessage.getStringProperty_eq ?_
    have hne : TYPE ≠ lit "BAR" := by simp [TYPE, lit]
    rw [lookup_foreign, if_neg hne, if_pos rfl]
  have htyped : ∀ n c, (foreign text).properties.lookup n = some c →
      ∃ w, c.toValue n = .ok w := by
    intro n c hc
    rw [lookup_foreign] at hc
    split at hc
    · cases hc
      exact ⟨_, rfl⟩
    · split at hc
      · cases hc
        exact ⟨_, rfl⟩
      · cases hc
  have hdispatch : dispatch EventTypes.EVENT = .event := dispatch_typeName .event
  rw [hdispatch]
  have hfields : ∀ f ∈ EventClass.event.fields, ∃ w,
      f.received .strict (foreign text) = .ok w := List.forall_mem_nil _
  obtain ⟨e, -, ha⟩ := assemble_accepted .strict (plain_foreign text) htyped hfields _
  exact ⟨text, _, e, htype, hpayload, ha⟩

theorem createEvent_accepts_iff_sample : ∃ text e,
    Settles (createEvent Textual.libraries .strict · (foreign text)) (ret e) ∧
      lit "BAR" ∈ e.keywords ∧ e.psp.lookup (lit "BAR") = some (.leaf (.single (.byte 3))) := by
  obtain ⟨text, payload, e, htype, hpayload, ha⟩ := foreign_accepted
  have hbar : (foreign text).properties.lookup (lit "BAR") = some (.byte 3) := by
    rw [lookup_foreign, if_pos rfl]
  refine ⟨text, e, (createEvent_accepts_iff Textual.libraries .strict (plain_foreign text)).2
    ⟨_, payload, htype, hpayload, ha⟩, ?_, ?_⟩
  · rw [ha.keywords, Finmap.mem_keys, ← Finmap.lookup_isSome, hbar]
    rfl
  · obtain ⟨w, hw, hl⟩ := ha.property _ _ hbar
    cases hw
    refine hl fun f hf ↦ ?_
    have hdispatch : dispatch EventTypes.EVENT = .event := dispatch_typeName .event
    rw [hdispatch] at hf
    cases hf

theorem Accepted.formed (hplain : ∀ n ∈ msg.names, '.' ∉ n) (h : Accepted C msg payload type e) :
    e.Formed := by
  have hmem : ∀ n, n ∈ e.keywords ↔ n ∈ msg.names := fun n ↦ by
    rw [h.keywords, TextMessage.names, Finset.mem_sort]
  refine ⟨fun n hn ↦ hplain n ((hmem n).1 hn), fun n hn ↦ ?_⟩
  rw [h.type_eq] at hn
  obtain ⟨f, hf, rfl⟩ := mem_typeKeywords.1 hn
  obtain ⟨w, hw, -⟩ := h.field f hf
  exact (hmem _).2 (TextMessage.mem_names.2 (Field.property_of_received C hw))

theorem toCms_of_received {f : Field} {w : Value} (h : f.received C msg = .ok w) :
    ∃ c, w.toCms = some c ∧ f.Fits c := by
  cases f with
  | text name =>
    rw [Field.received] at h
    cases hs : msg.getStringProperty C name with
    | error x =>
      rw [hs] at h
      cases h
    | ok s =>
      rw [hs] at h
      cases h
      exact ⟨.string s, rfl, s, rfl⟩
  | number name =>
    rw [Field.received] at h
    cases hn : msg.getIntProperty C name with
    | error x =>
      rw [hn] at h
      cases h
    | ok n =>
      rw [hn] at h
      cases h
      exact ⟨.integer n, rfl, n, rfl⟩

theorem toCms_toValue {c : CmsValue} {n : Str} {w : Value} (h : c.toValue n = .ok w) :
    w.toCms.isSome ↔ ∀ b, c ≠ .byte b ∧ c ≠ .char b := by
  cases c <;> cases h <;> simp [Value.toCms]

/-- The header of an event that a message has become can be written again just if none of its
properties is a byte, but for those that the fields of its class have been read from. -/
theorem Accepted.publishable_iff (h : Accepted C msg payload type e) : e.Publishable ↔
    ∀ n c, msg.properties.lookup n = some c →
      (∃ f ∈ type.fields, f.name = n) ∨ ∀ b, c ≠ .byte b ∧ c ≠ .char b := by
  have hmem : ∀ n, n ∈ e.keywords ↔ ∃ c, msg.properties.lookup n = some c := fun n ↦ by
    rw [h.keywords, Finmap.mem_keys, ← Finmap.lookup_isSome, Option.isSome_iff_exists]
  have hheader : ∀ {n w}, e.psp.lookup n = some (.leaf (.single w)) →
      headerOf e.psp n = w.toCms := by
    intro n w hl
    rw [headerOf, hl]
    rfl
  constructor
  · intro hp n c hc
    by_cases hf : ∃ f ∈ type.fields, f.name = n
    · exact .inl hf
    · obtain ⟨w, hw, hl⟩ := h.property n c hc
      have hsome := hp.header n ((hmem n).2 ⟨c, hc⟩)
      rw [hheader (hl fun f hfield hname ↦ hf ⟨f, hfield, hname⟩)] at hsome
      exact .inr ((toCms_toValue hw).1 hsome)
  · intro hall
    have hfits : ∀ f ∈ type.fields, ∃ c, headerOf e.psp f.name = some c ∧ f.Fits c := by
      intro f hf
      obtain ⟨w, hw, hl⟩ := h.field f hf
      rw [hheader hl]
      exact toCms_of_received C hw
    refine ⟨fun n hn ↦ ?_, fun f hf ↦ hfits f (h.type_eq ▸ hf)⟩
    obtain ⟨c, hc⟩ := (hmem n).1 hn
    by_cases hf : ∃ f ∈ type.fields, f.name = n
    · obtain ⟨f, hf, rfl⟩ := hf
      obtain ⟨c, hc, -⟩ := hfits f hf
      rw [hc]
      rfl
    · obtain ⟨w, hw, hl⟩ := h.property n c hc
      rw [hheader (hl fun f hfield hname ↦ hf ⟨f, hfield, hname⟩)]
      exact (toCms_toValue hw).2 ((hall n c hc).resolve_left hf)

theorem Accepted.marshallable (hplain : ∀ n ∈ msg.names, '.' ∉ n)
    (h : Accepted C msg payload type e) (hpayload : payload.Marshallable) :
    e.getCustomPropertySet.Marshallable := by
  have hcustom : ∀ p l, e.getCustomPropertySet.leafAt p = some l →
      (p = [EVENTTIME] ∧ l = .single (.longLong msg.timestamp)) ∨ payload.leafAt p = some l := by
    intro p l hl
    obtain _ | ⟨n, p⟩ := p
    · cases hl
    rw [NestedMap.leafAt_cons, lookup_getCustomPropertySet (h.formed C hplain).plain] at hl
    split at hl
    · cases hl
    · next hn =>
      have hnone : msg.properties.lookup n = none := by
        rwa [h.keywords, Finmap.mem_keys, ← Finmap.lookup_eq_none] at hn
      by_cases htime : n = EVENTTIME
      · subst htime
        rw [h.eventTime hnone, Option.bind_some, NestedMap.slotLeafAt] at hl
        split at hl
        · next hp =>
          cases hl
          exact .inl ⟨by rw [hp], rfl⟩
        · cases hl
      · rw [h.rest n hnone htime, ← NestedMap.leafAt_cons] at hl
        exact .inr hl
  refine ⟨fun p l hl n hn ↦ ?_, fun p l hl ↦ ?_⟩
  · rcases hcustom p l hl with ⟨rfl, -⟩ | hl
    · exact List.mem_singleton.1 hn ▸ plain_eventTime
    · exact hpayload.addressed p l hl n hn
  · rcases hcustom p l hl with ⟨-, rfl⟩ | hl
    · rfl
    · exact hpayload.tagged p l hl

variable {names : List Str} {transmitter : Transmitter} {pubtime : Int64}

/-- Whoever sent the message, the event that it became can be published again, to any topic or
queue, exactly if no property of it is a byte that no field of the class has been read from. -/
theorem relayed_iff (hplain : ∀ n ∈ msg.names, '.' ∉ n)
    (h : Settles (createEvent L C · msg) (ret e)) (hn : e.getCustomPropertySet.Lists names) :
    (∃ msg', e.publish L names transmitter pubtime = .ok msg') ↔
      ∀ n c, msg.properties.lookup n = some c →
        (∃ f ∈ e.type.fields, f.name = n) ∨ ∀ b, c ≠ .byte b ∧ c ≠ .char b := by
  obtain ⟨calls, h⟩ := h
  obtain ⟨type, payload, -, hpayload, ha⟩ := accepted_of_createEvent L C hplain (h calls le_rfl)
  have he := ha.formed C hplain
  have hcustom := ha.marshallable C hplain (L.unmarshall_marshallable hpayload)
  rw [ha.type_eq, ← ha.publishable_iff]
  constructor
  · rintro ⟨msg', hmsg⟩
    exact (publish_ok L he hmsg).1
  · intro hp
    obtain ⟨text, t, htext, -⟩ := L.marshall_reads hn hcustom.addressed hcustom.tagged
    exact publish_total L he hp htext transmitter pubtime

theorem relayed_iff_sample : ∃ text e names,
    Settles (createEvent Textual.libraries .strict · (foreign text)) (ret e) ∧
      e.getCustomPropertySet.Lists names ∧
      ¬ ∃ msg', e.publish Textual.libraries names (.topic (lit "news")) 9 = .ok msg' := by
  obtain ⟨text, payload, e, htype, hpayload, ha⟩ := foreign_accepted
  have hsettles := ha.createEvent Textual.libraries .strict (plain_foreign text) htype hpayload
  obtain ⟨calls, hcalls⟩ := hpayload
  have hcustom := ha.marshallable .strict (plain_foreign text)
    (Textual.libraries.unmarshall_marshallable (hcalls calls le_rfl))
  obtain ⟨names, hn⟩ := PropertySet.exists_lists hcustom.addressed
  refine ⟨text, e, names, hsettles, hn, fun hpublished ↦ ?_⟩
  have hall := (relayed_iff Textual.libraries .strict (plain_foreign text) hsettles hn).1 hpublished
  have hdispatch : dispatch EventTypes.EVENT = .event := dispatch_typeName .event
  rcases hall (lit "BAR") (.byte 3) (by rw [lookup_foreign, if_pos rfl]) with ⟨f, hf, -⟩ | hbyte
  · rw [ha.type_eq, hdispatch] at hf
    cases hf
  · exact (hbyte 3).1 rfl

end CtrlEvents.Event
