import CtrlEvents.Events.HeaderCodec

namespace CtrlEvents

open Fallible Outcome

namespace Event

variable (L : Libraries) (C : Cms) {ps filterable payload : PropertySet} {e e' : Event}
  {names : List Str} {transmitter : Transmitter} {pubtime : Int64} {msg : TextMessage}

/-- The class that `EventFactory::createEvent` takes a type for. -/
def dispatch (type : Str) : EventClass :=
  if type = EventTypes.LOG then .log
  else if type = EventTypes.STATUS then .status
  else if type = EventTypes.COMMAND then .command
  else .event

theorem dispatch_typeName (type : EventClass) : dispatch type.typeName = type := by
  cases type <;> decide +kernel

theorem dispatch_eq_event {type : Str} : dispatch type = .event ↔
    type ∉ [EventTypes.LOG, EventTypes.STATUS, EventTypes.COMMAND] := by
  simp only [dispatch, List.mem_cons, List.not_mem_nil, or_false, not_or]
  split_ifs <;> simp_all

theorem createEvent_eq {type : Str} (h : msg.getStringProperty C TYPE = .ok type) (calls : ℕ) :
    createEvent L C calls msg = ofMessage L C (dispatch type) calls msg := by
  rw [createEvent, h, liftM_ok, ret_bind, dispatch]
  split_ifs <;> rfl

theorem createEvent_error {x : Exn} (h : msg.getStringProperty C TYPE = .error x) (calls : ℕ) :
    createEvent L C calls msg = threw x := by
  rw [createEvent, h, liftM_error, threw_bind]

theorem type_of_ofMessage {type : EventClass} {calls : ℕ}
    (h : ofMessage L C type calls msg = ret e) : e.type = type := by
  obtain ⟨psp, -, h⟩ := Outcome.bind_eq_ret.1 h
  obtain ⟨psp₁, -, h⟩ := bind_eq_ok.1 (liftM_eq_ret.1 h)
  obtain ⟨psp₂, -, h⟩ := bind_eq_ok.1 h
  cases h
  rfl

def typeText (e : Event) : Option Str := headerOf e.psp TYPE >>= C.toText

theorem getStringProperty_published (he : e.Formed) (hr : reserved ⊆ e.keywords)
    (h : e.publish L names transmitter pubtime = .ok msg) :
    msg.getStringProperty C TYPE = (e.typeText C).elim (.error (.cmsException TYPE)) .ok := by
  have hheader := published_header L he h (n := TYPE) (hr (by decide +kernel))
    (transmitter.notMem_stamped (by decide +kernel))
  rw [TextMessage.getStringProperty, hheader, typeText]
  cases headerOf e.psp TYPE >>= C.toText <;> rfl

theorem lookup_type {now : Int64} {runId : Str} (hps : TYPE ∉ ps.keys)
    (hfilterable : TYPE ∉ filterable.keys) (h : construct now runId ps filterable = .ok e) :
    e.psp.lookup TYPE = some (.leaf (.single (.string EventTypes.EVENT))) := by
  obtain ⟨-, -, hpsp⟩ := construct_ok h
  rw [PropertySet.combine_lookup hfilterable hpsp]
  exact lookup_fill_type hps

theorem publish_sample (type : Str) :
    let foo : PropertySet := (∅ : PropertySet).insert (lit "FOO") (.leaf (.single (.int 7)))
    ∃ e msg, construct 5 [] (foo.insert TYPE (.leaf (.single (.string type)))) ∅ = .ok e ∧
      e.publish Textual.libraries [lit "FOO"] (.topic (lit "news")) 9 = .ok msg ∧
      Settles (Textual.libraries.unmarshall · msg.text) (ret foo) ∧
      e.typeText .strict = some type := by
  intro foo
  have hwritable : Writable (ownKeywords []) foo := by
    have hnone : ∀ n ∈ ownKeywords [], n ∉ foo.keys := by decide +kernel
    exact fun n hn hk ↦ absurd hk (hnone n hn)
  have he := construct_empty 5 [] (foo.insert TYPE (.leaf (.single (.string type))))
  have hpub := publishable_fill (hwritable.insert TYPE (v := .string type) rfl) 5
  have hformed := (construct_formed PropertySet.dotless_empty he).1
  have hcustom : getCustomPropertySet ⟨.event,
      fill 5 [] (foo.insert TYPE (.leaf (.single (.string type)))), ownKeywords []⟩ = foo := by
    have hkeys : ∀ k ∈ foo.keys, k ∉ ownKeywords [] := by decide +kernel
    apply getCustomPropertySet_eq hformed.plain hkeys
    intro k hk
    have htype : TYPE ∈ ownKeywords [] := by decide +kernel
    rw [lookup_fill hk, NestedMap.lookup_insert_of_ne]
    exact fun h ↦ hk (h ▸ htype)
  obtain ⟨msg, hmsg, hdecode⟩ := publish_single Textual.libraries hformed hpub hcustom
    (by decide +kernel) trivial (.topic (lit "news")) 9
  refine ⟨_, msg, he, hmsg, hdecode, ?_⟩
  have hlookup : (fill 5 [] (foo.insert TYPE (.leaf (.single (.string type))))).lookup TYPE =
    some (.leaf (.single (.string type))) := by
    rw [lookup_fill_of_mem (by simp) (by decide +kernel), NestedMap.lookup_insert_self]
  rw [typeText, headerOf, hlookup]
  rfl

/-- A plain event is received as a plain event just when its type does not read as one of the
subclasses', which is so if no set that it was made from holds a type. -/
theorem createEvent_plain_iff {now : Int64} {runId : Str} (hf : filterable.Dotless)
    (hc : construct now runId ps filterable = .ok e)
    (h : e.publish L names transmitter pubtime = .ok msg)
    (hdecode : Settles (L.unmarshall · msg.text) (ret payload)) (timestamp : Int64) :
    ((∃ e', Settles (createEvent L C · { msg with timestamp := timestamp }) (ret e') ∧
        e'.type = .event) ↔ ∃ type, e.typeText C = some type ∧
      type ∉ [EventTypes.LOG, EventTypes.STATUS, EventTypes.COMMAND]) ∧
    (TYPE ∉ ps.keys → TYPE ∉ filterable.keys → e.typeText C = some EventTypes.EVENT) := by
  obtain ⟨he, hr⟩ := construct_formed hf hc
  have hread := getStringProperty_published L C he hr h
  have hread' : TextMessage.getStringProperty { msg with timestamp := timestamp } C TYPE =
      msg.getStringProperty C TYPE := rfl
  refine ⟨⟨fun hplain ↦ ?_, fun htype ↦ ?_⟩, fun hps hfilterable ↦ ?_⟩
  · obtain ⟨e', hsettles, htype⟩ := hplain
    obtain ⟨n, hn⟩ := hsettles
    have hret : createEvent L C n { msg with timestamp := timestamp } = ret e' := hn n le_rfl
    cases ht : e.typeText C with
    | none =>
      rw [ht, Option.elim_none] at hread
      rw [createEvent_error L C (hread'.trans hread)] at hret
      cases hret
    | some type =>
      rw [ht, Option.elim_some] at hread
      rw [createEvent_eq L C (hread'.trans hread)] at hret
      exact ⟨type, rfl, dispatch_eq_event.1 ((type_of_ofMessage L C hret).symm.trans htype)⟩
  · obtain ⟨type, ht, hne⟩ := htype
    rw [ht, Option.elim_some] at hread
    have hfields : EventClass.event.fields ⊆ e.type.fields := List.nil_subset _
    obtain ⟨e', hsettles, hd⟩ := ofMessage_delivered L C he hr h hfields timestamp hdecode
    refine ⟨e', ?_, hd.type_eq⟩
    simp only [createEvent_eq L C (hread'.trans hread), dispatch_eq_event.2 hne]
    exact hsettles
  · rw [typeText, headerOf, lookup_type hps hfilterable hc]
    exact C.toText_string _

theorem createEvent_plain_iff_sample :
    let foo : PropertySet := (∅ : PropertySet).insert (lit "FOO") (.leaf (.single (.int 7)))
    let ps := foo.insert TYPE (.leaf (.single (.string (lit "observation"))))
    ∃ e msg e', construct 5 [] ps ∅ = .ok e ∧
      e.publish Textual.libraries [lit "FOO"] (.topic (lit "news")) 9 = .ok msg ∧
      Settles (createEvent Textual.libraries .strict · { msg with timestamp := 10 }) (ret e') ∧
      e'.type = .event := by
  intro foo ps
  obtain ⟨e, msg, he, hmsg, hdecode, htype⟩ := publish_sample (lit "observation")
  have hiff := (createEvent_plain_iff Textual.libraries .strict PropertySet.dotless_empty he hmsg
    hdecode 10).1
  obtain ⟨e', hsettles, hplain⟩ := hiff.2 ⟨_, htype, by decide +kernel⟩
  exact ⟨e, msg, e', he, hmsg, hsettles, hplain⟩

/-- A plain event whose set says that it is a status event is not received as a plain event. -/
theorem plain_not_received :
    let foo : PropertySet := (∅ : PropertySet).insert (lit "FOO") (.leaf (.single (.int 7)))
    let ps := foo.insert TYPE (.leaf (.single (.string EventTypes.STATUS)))
    ∃ e msg, construct 5 [] ps ∅ = .ok e ∧
      e.publish Textual.libraries [lit "FOO"] (.topic (lit "news")) 9 = .ok msg ∧
      Settles (Textual.libraries.unmarshall · msg.text) (ret foo) ∧
      ¬∃ e', Settles (createEvent Textual.libraries .strict · msg) (ret e') ∧ e'.type = .event := by
  intro foo ps
  obtain ⟨e, msg, he, hmsg, hdecode, htype⟩ := publish_sample EventTypes.STATUS
  refine ⟨e, msg, he, hmsg, hdecode, fun hplain ↦ ?_⟩
  obtain ⟨e', ⟨n, hn⟩, hevent⟩ := hplain
  obtain ⟨hformed, hr⟩ := construct_formed PropertySet.dotless_empty he
  have hread := getStringProperty_published Textual.libraries .strict hformed hr hmsg
  rw [htype, Option.elim_some] at hread
  have hret : createEvent Textual.libraries .strict n msg = ret e' := hn n le_rfl
  rw [createEvent_eq _ _ hread] at hret
  have hstatus : dispatch EventTypes.STATUS = .status := dispatch_typeName .status
  rw [hstatus] at hret
  have hclass : e'.type = .status := type_of_ofMessage _ _ hret
  rw [hevent] at hclass
  cases hclass

end Event

end CtrlEvents
