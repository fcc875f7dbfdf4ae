import CtrlEvents.Events.Header

namespace CtrlEvents

open Fallible

namespace Event

variable {msg : TextMessage} {psp psp' : PropertySet} (C : Cms)

theorem readProperty_eq {n : Str} (hn : '.' ∉ n) {v : CmsValue}
    (hv : msg.properties.lookup n = some v) (psp : PropertySet) : readProperty msg psp n =
      ((v.toValue n).map fun w ↦ .leaf (.single w)).map (NestedMap.insert n · psp) := by
  rw [readProperty, hv]
  dsimp only
  cases hw : v.toValue n with
  | error e => rfl
  | ok w => exact PropertySet.set_plain hn w

def entryOf (msg : TextMessage) (n : Str) : Except Exn Entry :=
  match msg.properties.lookup n with
  | some v => (v.toValue n).map fun w ↦ .leaf (.single w)
  | none => .error (.cmsException n)

theorem entryOf_eq {n : Str} {v : CmsValue} (hv : msg.properties.lookup n = some v) :
    entryOf msg n = (v.toValue n).map fun w ↦ .leaf (.single w) := by
  rw [entryOf, hv]

theorem readProperty_step (hplain : ∀ n ∈ msg.names, '.' ∉ n) (n : Str) (hn : n ∈ msg.names)
    (psp : PropertySet) :
    readProperty msg psp n = (entryOf msg n).map (NestedMap.insert n · psp) := by
  obtain ⟨v, hv⟩ := TextMessage.mem_names.1 hn
  rw [readProperty_eq (hplain n hn) hv, entryOf_eq hv]

theorem plain_eventTime : '.' ∉ EVENTTIME := by decide +kernel

theorem readProperties_ok (hplain : ∀ n ∈ msg.names, '.' ∉ n)
    (h : readProperties msg psp = .ok psp') :
    (∀ n v, msg.properties.lookup n = some v →
      ∃ w, v.toValue n = .ok w ∧ psp'.lookup n = some (.leaf (.single w))) ∧
    ∀ n, msg.properties.lookup n = none → psp'.lookup n =
      if n = EVENTTIME then some (.leaf (.single (.longLong msg.timestamp)))
      else psp.lookup n := by
  rw [readProperties, PropertySet.set_plain plain_eventTime, ok_bind] at h
  obtain ⟨hin, hout⟩ := get_of_foldlM (fun psp n (e : Entry) ↦ NestedMap.insert n e psp)
    (fun psp n ↦ NestedMap.lookup n psp) (fun psp n e k ↦ NestedMap.lookup_insert n k e psp)
    (readProperty_step hplain) h
  refine ⟨fun n v hv ↦ ?_, fun n hn ↦ ?_⟩
  · obtain ⟨e, he, hl⟩ := hin n (TextMessage.mem_names.2 ⟨v, hv⟩)
    rw [entryOf_eq hv] at he
    cases hw : v.toValue n with
    | error x =>
      rw [hw] at he
      cases he
    | ok w =>
      rw [hw] at he
      cases he
      exact ⟨w, rfl, hl⟩
  · rw [hout n, NestedMap.lookup_insert]
    intro hmem
    obtain ⟨v, hv⟩ := TextMessage.mem_names.1 hmem
    rw [hv] at hn
    cases hn

theorem readProperties_total (hplain : ∀ n ∈ msg.names, '.' ∉ n)
    (htyped : ∀ n c, msg.properties.lookup n = some c → ∃ w, c.toValue n = .ok w)
    (psp : PropertySet) : ∃ psp', readProperties msg psp = .ok psp' := by
  rw [readProperties, PropertySet.set_plain plain_eventTime, ok_bind]
  refine foldlM_total (fun psp n (e : Entry) ↦ NestedMap.insert n e psp)
    (readProperty_step hplain) (fun n hn ↦ ?_) _
  obtain ⟨c, hc⟩ := TextMessage.mem_names.1 hn
  obtain ⟨w, hw⟩ := htyped n c hc
  exact ⟨.leaf (.single w), by rw [entryOf_eq hc, hw]; rfl⟩

theorem foldlM_read {fields : List Field} (hplain : ∀ f ∈ fields, '.' ∉ f.name)
    (hfits : ∀ f ∈ fields, ∃ c w, msg.properties.lookup f.name = some c ∧ f.Fits c ∧
      c.toValue f.name = .ok w ∧ psp.lookup f.name = some (.leaf (.single w))) :
    fields.foldlM (Field.read C msg) psp = .ok psp := by
  induction fields with
  | nil => rfl
  | cons f fields ih =>
    obtain ⟨c, w, hc, hfit, hw, hl⟩ := hfits f List.mem_cons_self
    have hread : Field.read C msg psp f = .ok psp := by
      have hset : psp.set f.name w = .ok psp := by
        rw [PropertySet.set_plain (hplain f List.mem_cons_self), NestedMap.insert_of_lookup hl]
      cases f with
      | text name =>
        obtain ⟨s, rfl⟩ := hfit
        cases hw
        have hget : msg.getStringProperty C name = .ok s := TextMessage.getStringProperty_eq hc
        rw [Field.read, hget]
        exact hset
      | number name =>
        obtain ⟨n, rfl⟩ := hfit
        cases hw
        have hget : msg.getIntProperty C name = .ok n := TextMessage.getIntProperty_eq hc
        rw [Field.read, hget]
        exact hset
    rw [List.foldlM_cons, hread]
    exact ih (fun g hg ↦ hplain g (by simp [hg])) fun g hg ↦ hfits g (by simp [hg])

/-- An event as it is rebuilt from the properties of a message and the set in its text. -/
structure Rebuilt (msg : TextMessage) (psp : PropertySet) (type : EventClass) (e : Event) :
    Prop where
  type_eq : e.type = type
  keywords : ∀ n, n ∈ e.keywords ↔ ∃ c, msg.properties.lookup n = some c
  header : ∀ n v c, msg.properties.lookup n = some c → Value.toCms v = some c →
    e.psp.lookup n = some (.leaf (.single v.widen))
  payload : ∀ n, msg.properties.lookup n = none → n ≠ EVENTTIME → e.psp.lookup n = psp.lookup n

theorem assemble_total {type : EventClass} (hplain : ∀ n ∈ msg.names, '.' ∉ n)
    (htyped : ∀ n c, msg.properties.lookup n = some c → ∃ v, Value.toCms v = some c)
    (hfits : ∀ f ∈ type.fields, ∃ c, msg.properties.lookup f.name = some c ∧ f.Fits c)
    (psp : PropertySet) : ∃ e, assemble C type msg psp = .ok e ∧ Rebuilt msg psp type e := by
  have hvalue : ∀ n c, msg.properties.lookup n = some c →
      ∃ v, Value.toCms v = some c ∧ c.toValue n = .ok v.widen := by
    intro n c hc
    obtain ⟨v, hv⟩ := htyped n c hc
    exact ⟨v, hv, v.toValue_toCms hv n⟩
  obtain ⟨psp', hpsp⟩ := readProperties_total hplain (fun n c hc ↦ by
    obtain ⟨v, -, hw⟩ := hvalue n c hc
    exact ⟨_, hw⟩) psp
  obtain ⟨hin, hout⟩ := readProperties_ok hplain hpsp
  have hname : ∀ n c, msg.properties.lookup n = some c → n ∈ msg.names := fun n c hc ↦
    TextMessage.mem_names.2 ⟨c, hc⟩
  have hfields : type.fields.foldlM (Field.read C msg) psp' = .ok psp' := by
    refine foldlM_read C (fun f hf ↦ ?_) fun f hf ↦ ?_
    · obtain ⟨c, hc, -⟩ := hfits f hf
      exact hplain _ (hname _ _ hc)
    · obtain ⟨c, hc, hfit⟩ := hfits f hf
      obtain ⟨w, hw, hl⟩ := hin _ _ hc
      exact ⟨c, w, hc, hfit, hw, hl⟩
  have hkeys : ∀ n, n ∈ msg.properties.keys ↔ ∃ c, msg.properties.lookup n = some c := fun n ↦ by
    rw [← TextMessage.mem_names, TextMessage.names, Finset.mem_sort]
  refine ⟨⟨type, psp', msg.properties.keys ∪ type.keywords⟩, ?_, rfl, fun n ↦ ?_, ?_, ?_⟩
  · rw [assemble, hpsp, ok_bind, hfields, ok_bind, pure_eq]
  · rw [Finset.mem_union, hkeys, or_iff_left_of_imp]
    intro hn
    obtain ⟨f, hf, rfl⟩ := mem_typeKeywords.1 hn
    obtain ⟨c, hc, -⟩ := hfits f hf
    exact ⟨c, hc⟩
  · intro n v c hc hv
    obtain ⟨w, hw, hl⟩ := hin n c hc
    rw [v.toValue_toCms hv n] at hw
    cases hw
    exact hl
  · intro n hn hne
    rw [hout n hn, if_neg hne]

end Event

namespace Transmitter

/-- The properties that publishing sets, over those of the header. -/
def stamped (transmitter : Transmitter) : Finset Str :=
  {Event.PUBTIME, transmitter.getDestinationPropertyName}

theorem destination_mem (transmitter : Transmitter) :
    transmitter.getDestinationPropertyName ∈ [Event.TOPIC, Event.QUEUE] := by
  cases transmitter <;> simp [getDestinationPropertyName]

theorem plain_destination (transmitter : Transmitter) :
    '.' ∉ transmitter.getDestinationPropertyName := by
  have h : ∀ n ∈ [Event.TOPIC, Event.QUEUE], '.' ∉ n := by decide +kernel
  exact h _ transmitter.destination_mem

theorem destination_ne_pubTime (transmitter : Transmitter) :
    transmitter.getDestinationPropertyName ≠ Event.PUBTIME := by
  have h : ∀ n ∈ [Event.TOPIC, Event.QUEUE], n ≠ Event.PUBTIME := by decide +kernel
  exact h _ transmitter.destination_mem

theorem notMem_stamped {n : Str} (hn : n ∉ [Event.PUBTIME, Event.TOPIC, Event.QUEUE])
    (transmitter : Transmitter) : n ∉ transmitter.stamped := by
  rw [List.mem_cons, not_or] at hn
  rw [stamped, Finset.mem_insert, Finset.mem_singleton, not_or]
  exact ⟨hn.1, fun h ↦ hn.2 (h ▸ transmitter.destination_mem)⟩

theorem field_ne_stamp {type : EventClass} {f : Field} (hf : f ∈ type.fields) :
    f.name ∉ [Event.PUBTIME, Event.TOPIC, Event.QUEUE] := by
  revert f
  cases type <;> decide +kernel

theorem field_notMem_stamped {type : EventClass} {f : Field} (hf : f ∈ type.fields)
    (transmitter : Transmitter) : f.name ∉ transmitter.stamped :=
  notMem_stamped (field_ne_stamp hf) transmitter

end Transmitter

namespace Event

variable {e e' : Event} {names : List Str} {transmitter : Transmitter} {pubtime : Int64}
  {msg : TextMessage} (L : Libraries) (C : Cms)

/-- The event that arrives, over what the payload of the message holds. -/
structure Delivered (e : Event) (transmitter : Transmitter) (pubtime : Int64)
    (payload : PropertySet) (type : EventClass) (e' : Event) : Prop where
  type_eq : e'.type = type
  keywords : e'.keywords = insert transmitter.getDestinationPropertyName e.keywords
  header : ∀ n ∈ e.keywords, n ∉ transmitter.stamped → ∃ v : Value, e.psp.get some n = .ok v ∧
    v.toCms.isSome ∧ e'.psp.lookup n = some (.leaf (.single v.widen))
  pubTime : e'.psp.lookup PUBTIME = some (.leaf (.single (.longLong pubtime)))
  destination : e'.psp.lookup transmitter.getDestinationPropertyName =
    some (.leaf (.single (.string transmitter.destinationName)))
  payload : ∀ n, n ∉ e'.keywords → e'.psp.lookup n = payload.lookup n

theorem mem_published (he : e.Formed) (hr : reserved ⊆ e.keywords)
    (h : e.publish L names transmitter pubtime = .ok msg) (n : Str) :
    (∃ c, msg.properties.lookup n = some c) ↔
      n ∈ insert transmitter.getDestinationPropertyName e.keywords := by
  obtain ⟨hp, -, hlook⟩ := publish_ok L he h
  rw [hlook, Finset.mem_insert]
  have hpub : PUBTIME ∈ e.keywords := hr (by decide +kernel)
  by_cases hn : n = PUBTIME
  · simp [hn, hpub]
  · by_cases hd : n = transmitter.getDestinationPropertyName
    · simp [hd, transmitter.destination_ne_pubTime]
    · by_cases hk : n ∈ e.keywords
      · simpa [hn, hd, hk] using Option.isSome_iff_exists.1 (hp.header n hk)
      · simp [hn, hd, hk]

theorem published_stamps (he : e.Formed) (h : e.publish L names transmitter pubtime = .ok msg) :
    msg.properties.lookup PUBTIME = some (.long pubtime) ∧
      msg.properties.lookup transmitter.getDestinationPropertyName =
        some (.string transmitter.destinationName) := by
  obtain ⟨-, -, hlook⟩ := publish_ok L he h
  simp [hlook, transmitter.destination_ne_pubTime]

theorem published_header (he : e.Formed) (h : e.publish L names transmitter pubtime = .ok msg)
    {n : Str} (hn : n ∈ e.keywords) (hs : n ∉ transmitter.stamped) :
    msg.properties.lookup n = headerOf e.psp n := by
  obtain ⟨-, -, hlook⟩ := publish_ok L he h
  rw [Transmitter.stamped, Finset.mem_insert, Finset.mem_singleton, not_or] at hs
  rw [hlook, if_neg hs.1, if_neg hs.2, if_pos hn]

theorem published_typed (he : e.Formed) (h : e.publish L names transmitter pubtime = .ok msg)
    {n : Str} {c : CmsValue} (hc : msg.properties.lookup n = some c) :
    ∃ v : Value, v.toCms = some c := by
  obtain ⟨-, -, hlook⟩ := publish_ok L he h
  rw [hlook] at hc
  split at hc
  · exact ⟨.long pubtime, hc⟩
  · split at hc
    · exact ⟨.string transmitter.destinationName, hc⟩
    · split at hc
      · obtain ⟨l, -, hl⟩ := headerOf_eq.1 hc
        exact ⟨l.back, hl⟩
      · cases hc

/-- A published message can be taken apart, over any payload, as a class that has no fields but
those of the sender's. -/
theorem delivered (he : e.Formed) (hr : reserved ⊆ e.keywords)
    (h : e.publish L names transmitter pubtime = .ok msg) {type : EventClass}
    (htype : type.fields ⊆ e.type.fields) (timestamp : Int64) (payload : PropertySet) :
    ∃ e', assemble C type { msg with timestamp := timestamp } payload = .ok e' ∧
      Delivered e transmitter pubtime payload type e' := by
  have hmem := mem_published L he hr h
  have hp := (publish_ok L he h).1
  have hplain : ∀ n ∈ ({ msg with timestamp := timestamp } : TextMessage).names, '.' ∉ n := by
    intro n hn
    rcases Finset.mem_insert.1 ((hmem n).1 (TextMessage.mem_names.1 hn)) with rfl | hk
    · exact transmitter.plain_destination
    · exact he.plain n hk
  have hfits : ∀ f ∈ type.fields, ∃ c, msg.properties.lookup f.name = some c ∧ f.Fits c := by
    intro f hf
    obtain ⟨c, hc, hfit⟩ := hp.fits f (htype hf)
    refine ⟨c, ?_, hfit⟩
    rw [published_header L he h (he.field (htype hf)) (transmitter.field_notMem_stamped hf), hc]
  obtain ⟨e', he', hb⟩ := assemble_total C hplain
    (fun n c hc ↦ published_typed L he h hc) hfits payload
  have hkeywords : e'.keywords = insert transmitter.getDestinationPropertyName e.keywords := by
    ext n
    rw [hb.keywords, hmem]
  have hstamps := published_stamps L he h
  refine ⟨e', he', hb.type_eq, hkeywords, fun n hn hs ↦ ?_, ?_, ?_, fun n hn ↦ ?_⟩
  · obtain ⟨c, hc⟩ := Option.isSome_iff_exists.1 (hp.header n hn)
    obtain ⟨l, hl, hv⟩ := headerOf_eq.1 hc
    refine ⟨l.back, (PropertySet.get_eq_ok (he.plain n hn)).2 ⟨l, hl, rfl⟩, ?_, ?_⟩
    · rw [hv]
      rfl
    · exact hb.header n _ c ((published_header L he h hn hs).trans hc) hv
  · exact hb.header PUBTIME (.longLong pubtime) _ hstamps.1 rfl
  · exact hb.header _ (.string transmitter.destinationName) _ hstamps.2 rfl
  · have hnone : msg.properties.lookup n = none := by
      rw [Option.eq_none_iff_forall_ne_some]
      intro c hc
      exact hn (hkeywords ▸ (hmem n).1 ⟨c, hc⟩)
    refine hb.payload n hnone fun htime ↦ hn ?_
    rw [hkeywords, htime]
    exact Finset.mem_insert_of_mem (hr (by decide +kernel))

end Event

end CtrlEvents
