import CtrlEvents.Events.Dispatch
import CtrlEvents.Events.Fields
import CtrlEvents.Payload.Rereading

namespace CtrlEvents

open Fallible Outcome

namespace Event

def held (e : Event) (name : Str) : List Value := e.psp.values name

variable (L : Libraries) (C : Cms) {filterable payload : PropertySet} {e e' : Event}
  {type : EventClass} {names : List Str} {transmitter : Transmitter} {pubtime : Int64}
  {msg : TextMessage} {n : Str}

/-- The header has the field, as something that reads as of its type. -/
def Offers (e : Event) (f : Field) : Prop :=
  f.name ∈ e.keywords ∧ ∃ c w, headerOf e.psp f.name = some c ∧ f.convert C c = some w

theorem plain_published (he : e.Formed) (hr : reserved ⊆ e.keywords)
    (h : e.publish L names transmitter pubtime = .ok msg) (timestamp : Int64) :
    ∀ m ∈ TextMessage.names { msg with timestamp := timestamp }, '.' ∉ m := by
  intro m hm
  rcases Finset.mem_insert.1 ((mem_published L he hr h m).1 (TextMessage.mem_names.1 hm)) with
    rfl | hk
  · exact transmitter.plain_destination
  · exact he.plain m hk

theorem received_iff_offers (he : e.Formed) (hr : reserved ⊆ e.keywords)
    (h : e.publish L names transmitter pubtime = .ok msg) {f : Field} (hf : f ∈ type.fields) :
    (∃ w, f.received C msg = .ok w) ↔ Offers C e f := by
  have hs := transmitter.field_notMem_stamped hf
  constructor
  · rintro ⟨w, hw⟩
    obtain ⟨c, hc⟩ := Field.property_of_received C hw
    have hk : f.name ∈ e.keywords := by
      refine (Finset.mem_insert.1 ((mem_published L he hr h _).1 ⟨c, hc⟩)).resolve_left fun hd ↦ ?_
      exact hs (by simp [Transmitter.stamped, hd])
    rw [published_header L he h hk hs] at hc
    have hprop := (published_header L he h hk hs).trans hc
    exact ⟨hk, c, w, hc, (Field.received_eq_ok C hprop).1 hw⟩
  · rintro ⟨hk, c, w, hc, hw⟩
    exact ⟨w, (Field.received_eq_ok C ((published_header L he h hk hs).trans hc)).2 hw⟩

theorem rebuilt_iff (he : e.Formed) (hr : reserved ⊆ e.keywords)
    (hp : e.getCustomPropertySet.Addressed) (hlists : e.getCustomPropertySet.Lists names)
    (h : e.publish L names transmitter pubtime = .ok msg) (timestamp : Int64) :
    (∃ e', Settles (ofMessage L C type · { msg with timestamp := timestamp }) (ret e')) ↔
      L.RereadsAll e.getCustomPropertySet names ∧ ∀ f ∈ type.fields, Offers C e f := by
  have hnames : ∀ f ∈ type.fields, '.' ∉ f.name := fun f hf ↦
    plain_typeKeywords type _ (mem_typeKeywords.2 ⟨f, hf, rfl⟩)
  have hreceived : ∀ f : Field, f.received C { msg with timestamp := timestamp } =
      f.received C msg := fun f ↦ by cases f <;> rfl
  rw [← PropertySet.readable_iff hlists hp (publish_ok L he h).2.1, ← settles_iff_readable]
  constructor
  · rintro ⟨e', calls, he'⟩
    obtain ⟨payload, hpayload, ha⟩ := Outcome.bind_eq_ret.1 (he' calls le_rfl)
    have htext : L.unmarshall calls msg.text = ret payload := hpayload
    refine ⟨⟨payload, calls, fun m hm ↦ ?_⟩, fun f hf ↦ ?_⟩
    · exact (eq_of_le (L.unmarshall_mono msg.text hm) (by simp [htext])).trans htext
    · obtain ⟨psp, -, ha⟩ := bind_eq_ok.1 (liftM_eq_ret.1 ha)
      obtain ⟨psp', hread, -⟩ := bind_eq_ok.1 ha
      rw [← received_iff_offers L C he hr h hf]
      rcases Field.foldlM_read_ok C hnames hread f.name with ⟨hne, -⟩ | ⟨g, hg, hname, w, hw, -⟩
      · exact absurd rfl (hne f hf)
      · rw [Field.eq_of_name hg hf hname, hreceived] at hw
        exact ⟨w, hw⟩
  · rintro ⟨⟨payload, hpayload⟩, hoffers⟩
    have hplain := plain_published L he hr h timestamp
    obtain ⟨psp, hpsp⟩ := readProperties_total hplain (fun n c hc ↦ by
      obtain ⟨v, hv⟩ := published_typed L he h hc
      exact ⟨_, v.toValue_toCms hv n⟩) payload
    have hfields : ∀ f ∈ type.fields, ∃ w,
        f.received C { msg with timestamp := timestamp } = .ok w := by
      intro f hf
      rw [hreceived]
      exact (received_iff_offers L C he hr h hf).2 (hoffers f hf)
    obtain ⟨psp', hread⟩ := Field.foldlM_received C hnames hfields psp
    have hall : assemble C type { msg with timestamp := timestamp } payload =
        .ok ⟨type, psp', msg.properties.keys ∪ type.keywords⟩ := by
      rw [assemble, hpsp, ok_bind, hread]
      rfl
    refine ⟨⟨type, psp', msg.properties.keys ∪ type.keywords⟩, hpayload.bind ?_⟩
    rw [hall]
    exact settles_const _

theorem rebuilt_single (he : e.Formed) (hr : reserved ⊆ e.keywords)
    (h : e.publish L names transmitter pubtime = .ok msg) {timestamp : Int64}
    (ha : assemble C type { msg with timestamp := timestamp } payload = .ok e')
    (hn : n ∈ e.keywords) (hs : n ∉ transmitter.stamped) :
    ∃ l w, e.psp.lookup n = some (.leaf l) ∧ e'.psp.lookup n = some (.leaf (.single w)) ∧
      (w = l.back.widen ↔ ∀ f ∈ type.fields, f.name = n → f.Takes l.back) := by
  obtain ⟨c, hc⟩ := Option.isSome_iff_exists.1 ((publish_ok L he h).1.header n hn)
  obtain ⟨l, hl, hv⟩ := headerOf_eq.1 hc
  have hprop : msg.properties.lookup n = some c := (published_header L he h hn hs).trans hc
  have hplain := plain_published L he hr h timestamp
  obtain ⟨psp, hpsp, ha⟩ := bind_eq_ok.1 ha
  obtain ⟨psp', hfields, ha⟩ := bind_eq_ok.1 ha
  cases ha
  have hlook : psp.lookup n = some (.leaf (.single l.back.widen)) := by
    obtain ⟨w, hw, hlook⟩ := (readProperties_ok hplain hpsp).1 n c hprop
    rw [Value.toValue_toCms hv] at hw
    cases hw
    exact hlook
  have hnames : ∀ f ∈ type.fields, '.' ∉ f.name := fun f hf ↦
    plain_typeKeywords type _ (mem_typeKeywords.2 ⟨f, hf, rfl⟩)
  rcases Field.foldlM_read_ok C hnames hfields n with ⟨hne, hkept⟩ | ⟨f, hf, rfl, w, hw, hread⟩
  · exact ⟨l, l.back.widen, hl, hkept.trans hlook, iff_of_true rfl fun f hf hname ↦
      absurd hname (hne f hf)⟩
  · refine ⟨l, w, hl, hread, ?_⟩
    rw [Field.convert_iff C hv ((Field.received_eq_ok C hprop).1 hw)]
    constructor
    · intro htakes g hg hname
      rwa [Field.eq_of_name hg hf hname]
    · exact fun htakes ↦ htakes f hf rfl

theorem held_iff_of_assemble (he : e.Formed) (hr : reserved ⊆ e.keywords)
    (h : e.publish L names transmitter pubtime = .ok msg) {timestamp : Int64}
    (ha : assemble C type { msg with timestamp := timestamp } payload = .ok e')
    (hn : n ∈ e.keywords) (hs : n ∉ transmitter.stamped) :
    e'.held n = (e.held n).map Value.widen ↔
      ∃ v, e.held n = [v] ∧ ∀ f ∈ type.fields, f.name = n → f.Takes v := by
  obtain ⟨l, w, hl, hw, hiff⟩ := rebuilt_single L C he hr h ha hn hs
  rw [held, held, PropertySet.values_leaf hl, PropertySet.values_leaf hw]
  have hback : ∀ v, l.values = [v] → l.back = v := fun v hv ↦ by
    simp only [Leaf.back, hv, List.getLast_singleton]
  constructor
  · intro heq
    obtain ⟨v, hv, hwv⟩ := List.map_eq_singleton_iff.1 heq.symm
    refine ⟨v, hv, ?_⟩
    rw [← hback v hv] at hwv ⊢
    exact hiff.1 hwv.symm
  · intro hone
    obtain ⟨v, hv, htakes⟩ := hone
    rw [← hback v hv] at htakes
    rw [hv, hiff.2 htakes, hback v hv]
    rfl

/-- A filterable name arrives with all that the sender held under it exactly if the event can be
rebuilt, and that is one value, of the type that the receiving class reads it as. -/
theorem held_kept_iff (hf : filterable.Dotless) (hb : Built filterable e)
    (hp : e.getCustomPropertySet.Addressed) (hlists : e.getCustomPropertySet.Lists names)
    (h : e.publish L names transmitter pubtime = .ok msg) (timestamp : Int64)
    (hn : n ∈ e.getFilterablePropertyNames) (hpub : n ≠ PUBTIME)
    (hdest : n ≠ transmitter.getDestinationPropertyName) :
    (∃ e', Settles (ofMessage L C type · { msg with timestamp := timestamp }) (ret e') ∧
        e'.held n = (e.held n).map Value.widen) ↔
      L.RereadsAll e.getCustomPropertySet names ∧ (∀ f ∈ type.fields, Offers C e f) ∧
        ∃ v, e.held n = [v] ∧ ∀ f ∈ type.fields, f.name = n → f.Takes v := by
  obtain ⟨he, hr⟩ := hb.formed hf
  rw [mem_filterable] at hn
  have hs : n ∉ transmitter.stamped := by
    rw [Transmitter.stamped, Finset.mem_insert, Finset.mem_singleton, not_or]
    exact ⟨hpub, hdest⟩
  have hkept : ∀ e', Settles (ofMessage L C type · { msg with timestamp := timestamp }) (ret e') →
      (e'.held n = (e.held n).map Value.widen ↔
        ∃ v, e.held n = [v] ∧ ∀ f ∈ type.fields, f.name = n → f.Takes v) := by
    rintro e' ⟨calls, he'⟩
    obtain ⟨payload, -, ha⟩ := Outcome.bind_eq_ret.1 (he' calls le_rfl)
    exact held_iff_of_assemble L C he hr h (liftM_eq_ret.1 ha) hn hs
  constructor
  · rintro ⟨e', hrebuilt, hheld⟩
    obtain ⟨hread, hoffers⟩ := (rebuilt_iff L C he hr hp hlists h timestamp).1 ⟨e', hrebuilt⟩
    exact ⟨hread, hoffers, (hkept e' hrebuilt).1 hheld⟩
  · rintro ⟨hread, hoffers, hone⟩
    obtain ⟨e', hrebuilt⟩ := (rebuilt_iff L C he hr hp hlists h timestamp).2 ⟨hread, hoffers⟩
    exact ⟨e', hrebuilt, (hkept e' hrebuilt).2 hone⟩

theorem held_kept_iff_sample :
    let ps : PropertySet := (∅ : PropertySet).insert (lit "FOO") (.leaf (.single (.int 7)))
    let filterable : PropertySet :=
      (∅ : PropertySet).insert (lit "BAR") (.leaf (.single (.long 8)))
    ∃ e msg e', construct 5 (lit "run") ps filterable = .ok e ∧
      e.publish Textual.libraries [lit "FOO"] (.queue (lit "orders")) 9 = .ok msg ∧
      Settles (ofMessage Textual.libraries .strict .event · { msg with timestamp := 10 }) (ret e') ∧
      e'.held (lit "BAR") = (e.held (lit "BAR")).map Value.widen := by
  intro ps filterable
  obtain ⟨e, msg, he, hmsg, -, hcustom, hbar, hl⟩ :=
    publish_filterable_sample (.single (.long 8)) rfl
  have hdotless : filterable.Dotless := dotless_single (by decide +kernel) _
  have hpayload : Payload e.getCustomPropertySet :=
    hcustom ▸ payload_single (by decide +kernel) trivial
  have hnames : e.getCustomPropertySet.Lists [lit "FOO"] :=
    hcustom ▸ PropertySet.lists_single (by decide +kernel) _
  have hread : Textual.libraries.RereadsAll e.getCustomPropertySet [lit "FOO"] :=
    hpayload.rereadsAll hnames (hpayload.clear hnames (hcustom ▸ untagged_single))
  have hoffers : ∀ f ∈ EventClass.event.fields, Offers .strict e f := List.forall_mem_nil _
  have htakes : ∀ f ∈ EventClass.event.fields, f.name = lit "BAR" → f.Takes (.long 8) :=
    List.forall_mem_nil _
  obtain ⟨e', hsettles, hheld⟩ := (held_kept_iff Textual.libraries .strict hdotless (.event he)
    hpayload.addressed hnames hmsg 10 (mem_filterable.2 hbar) (by decide +kernel)
    (by decide +kernel)).2 ⟨hread, hoffers, .long 8, PropertySet.values_leaf hl, htakes⟩
  exact ⟨e, msg, e', he, hmsg, hsettles, hheld⟩

def twoInts : Leaf := ⟨[.int 1, .int 2], by simp, by simp [Value.kind]⟩

/-- Of two values under a filterable name, the first one is lost without an exception. -/
theorem twoInts_truncated :
    let ps : PropertySet := (∅ : PropertySet).insert (lit "FOO") (.leaf (.single (.int 7)))
    let filterable : PropertySet := (∅ : PropertySet).insert (lit "BAR") (.leaf twoInts)
    ∃ e msg e', construct 5 (lit "run") ps filterable = .ok e ∧
      e.publish Textual.libraries [lit "FOO"] (.queue (lit "orders")) 9 = .ok msg ∧
      Settles (createEvent Textual.libraries .strict · { msg with timestamp := 10 }) (ret e') ∧
      lit "BAR" ∈ e.getFilterablePropertyNames ∧ lit "BAR" ∉ [PUBTIME, TOPIC, QUEUE] ∧
      e'.held (lit "BAR") ≠ (e.held (lit "BAR")).map Value.widen := by
  intro ps filterable
  obtain ⟨e, msg, he, hmsg, hdecode, -, hbar, hl⟩ := publish_filterable_sample twoInts rfl
  have hdotless : filterable.Dotless := dotless_single (by decide +kernel) _
  obtain ⟨hformed, hr⟩ := (Built.event he).formed hdotless
  have hfields : EventClass.event.fields ⊆ e.type.fields := List.nil_subset _
  obtain ⟨e', hsettles, hd⟩ := ofMessage_delivered Textual.libraries .strict hformed hr hmsg
    hfields 10 hdecode
  have hplain : msg.getStringProperty .strict TYPE = .ok EventTypes.EVENT := by
    rw [getStringProperty_published Textual.libraries .strict hformed hr hmsg, typeText, headerOf,
      lookup_type (by decide +kernel) (by decide +kernel) he]
    rfl
  have hplain' : TextMessage.getStringProperty { msg with timestamp := 10 } .strict TYPE =
      .ok EventTypes.EVENT := hplain
  have hnames : lit "BAR" ∉ [PUBTIME, TOPIC, QUEUE] := by decide +kernel
  refine ⟨e, msg, e', he, hmsg, ?_, mem_filterable.2 hbar, hnames, ?_⟩
  · have hdispatch : dispatch EventTypes.EVENT = .event := dispatch_typeName .event
    simpa only [createEvent_eq _ _ hplain', hdispatch] using hsettles
  · obtain ⟨v, -, -, hl'⟩ := hd.header _ hbar (Transmitter.notMem_stamped hnames _)
    rw [held, held, PropertySet.values_leaf hl, PropertySet.values_leaf hl']
    simp [twoInts, Leaf.single]

end Event

end CtrlEvents
