import CtrlEvents.Events.Dispatch

namespace CtrlEvents

open Fallible Outcome

theorem Value.widen_widen (v : Value) : v.widen.widen = v.widen := by
  cases v <;> rfl

namespace PropertySet

variable {psp : PropertySet} {n : Str}

theorem get_some (hn : '.' ∉ n) {α : Type} {cast : Value → Option α} {a : α} :
    psp.get cast n = .ok a ↔ ∃ v, psp.get some n = .ok v ∧ cast v = some a := by
  simp only [get_eq_ok hn, Option.some.injEq]
  refine ⟨fun h ↦ ?_, fun h ↦ ?_⟩
  · obtain ⟨l, hl, ha⟩ := h
    exact ⟨l.back, ⟨l, hl, rfl⟩, ha⟩
  · obtain ⟨v, ⟨l, hl, hv⟩, ha⟩ := h
    exact ⟨l, hl, hv ▸ ha⟩

end PropertySet

namespace Event

/-- A publication and the reception of what was published: the transmitter, the order in which it
finds the custom properties listed, its time, and the time of the broker. -/
structure Hop where
  transmitter : Transmitter
  names : List Str
  pubtime : Int64
  timestamp : Int64

variable (L : Libraries) (C : Cms) {e e₁ e' : Event}

def hop (calls : ℕ) (e : Event) (h : Hop) : Outcome Exn Event := do
  let msg ← e.publish L h.names h.transmitter h.pubtime
  createEvent L C calls { msg with timestamp := h.timestamp }

structure Ready (e : Event) : Prop extends e.Formed, e.Publishable where
  own : reserved ⊆ e.keywords
  named : headerOf e.psp TYPE = some (.string e.type.typeName)

/-- What hops to some destinations keep of an event. -/
structure Carries (destinations : List Str) (e e' : Event) : Prop where
  type_eq : e'.type = e.type
  keywords : ∀ n, n ∈ e'.keywords ↔ n ∈ e.keywords ∨ n ∈ destinations
  header : ∀ n ∈ e.keywords, n ≠ PUBTIME → n ∉ destinations → ∃ v : Value,
    e.psp.get some n = .ok v ∧ e'.psp.get some n = .ok v.widen
  custom : e'.getCustomPropertySet = e.getCustomPropertySet

theorem Carries.trans {destinations destinations' : List Str} (h : Carries destinations e e₁)
    (h' : Carries destinations' e₁ e') : Carries (destinations ++ destinations') e e' := by
  refine ⟨h'.type_eq.trans h.type_eq, fun n ↦ ?_, fun n hn hp hd ↦ ?_, h'.custom.trans h.custom⟩
  · rw [h'.keywords, h.keywords, List.mem_append, or_assoc]
  · rw [List.mem_append, not_or] at hd
    obtain ⟨v, hv, hw⟩ := h.header n hn hp hd.1
    obtain ⟨w, hw', hu⟩ := h'.header n ((h.keywords n).2 (.inl hn)) hp hd.2
    rw [hw] at hw'
    cases hw'
    exact ⟨v, hv, by rw [hu, v.widen_widen]⟩

theorem headerOf_get {psp : PropertySet} {n : Str} (hn : '.' ∉ n) {v : Value}
    (h : psp.get some n = .ok v) : headerOf psp n = v.toCms := by
  obtain ⟨l, hl, hv⟩ := (PropertySet.get_eq_ok hn).1 h
  cases hv
  rw [headerOf, hl]

section Step

variable {transmitter : Transmitter} {pubtime : Int64}

theorem Delivered.headerOf_eq {payload : PropertySet} {type : EventClass} (he : e.Formed)
    (hd : Delivered e transmitter pubtime payload type e') {n : Str} (hn : n ∈ e.keywords)
    (hs : n ∉ transmitter.stamped) : headerOf e'.psp n = headerOf e.psp n := by
  obtain ⟨v, hv, -, hl⟩ := hd.header n hn hs
  have hw : e'.psp.get some n = .ok v.widen := get_single (he.plain n hn) hl rfl
  rw [headerOf_get (he.plain n hn) hv, headerOf_get (he.plain n hn) hw, Value.toCms_widen]

theorem Delivered.ready {payload : PropertySet} (hr : e.Ready)
    (hd : Delivered e transmitter pubtime payload e.type e') : e'.Ready := by
  have hsub : e.keywords ⊆ e'.keywords := by
    rw [hd.keywords]
    exact Finset.subset_insert _ _
  have hkept := hd.headerKept hr.toFormed hr.own
  refine ⟨⟨fun n hn ↦ ?_, ?_⟩, ⟨fun n hn ↦ ?_, fun f hf ↦ ?_⟩, hr.own.trans hsub, ?_⟩
  · rw [hd.keywords, Finset.mem_insert] at hn
    rcases hn with rfl | hn
    · exact transmitter.plain_destination
    · exact hr.plain n hn
  · rw [hd.type_eq]
    exact hr.typed.trans hsub
  · obtain ⟨v, hv, hl⟩ := hkept.unshadowed n (mem_filterable.2 hn)
    rw [headerOf, hl]
    exact hv
  · rw [hd.type_eq] at hf
    rw [hd.headerOf_eq hr.toFormed (hr.field hf) (transmitter.field_notMem_stamped hf)]
    exact hr.fits f hf
  · rw [hd.headerOf_eq hr.toFormed (hr.own (by decide +kernel))
      (transmitter.notMem_stamped (by decide +kernel)), hd.type_eq]
    exact hr.named

theorem Delivered.custom (hr : e.Ready) (hq : QUEUE ∉ e.getCustomPropertySet.keys)
    (hd : Delivered e transmitter pubtime e.getCustomPropertySet e.type e') :
    e'.getCustomPropertySet = e.getCustomPropertySet := by
  have htopic : TOPIC ∈ e.keywords := hr.own (by decide +kernel)
  have hdest : transmitter.getDestinationPropertyName ∉ e.getCustomPropertySet.keys := by
    cases transmitter with
    | topic name =>
      rw [← NestedMap.lookup_eq_none, lookup_getCustomPropertySet hr.plain]
      exact if_pos htopic
    | queue name => exact hq
  apply getCustomPropertySet_eq (hd.ready hr).plain
  · intro k hk
    rw [hd.keywords, Finset.mem_insert, not_or]
    refine ⟨fun h ↦ hdest (h ▸ hk), fun h ↦ ?_⟩
    obtain ⟨s, hs⟩ := NestedMap.mem_keys.1 hk
    rw [lookup_getCustomPropertySet hr.plain, if_pos h] at hs
    cases hs
  · exact hd.payload

theorem Delivered.carries (hr : e.Ready) (hq : QUEUE ∉ e.getCustomPropertySet.keys)
    (hd : Delivered e transmitter pubtime e.getCustomPropertySet e.type e') :
    Carries [transmitter.getDestinationPropertyName] e e' := by
  refine ⟨hd.type_eq, fun n ↦ ?_, fun n hn hp hdest ↦ ?_, hd.custom hr hq⟩
  · rw [hd.keywords, Finset.mem_insert, List.mem_singleton, or_comm]
  · obtain ⟨v, hv, -, hw⟩ := (hd.headerKept hr.toFormed hr.own).values n (mem_filterable.2 hn) hp
      (List.mem_singleton.not.1 hdest)
    exact ⟨v, hv, hw⟩

end Step

structure Deliverable (custom : PropertySet) : Prop where
  payload : Payload custom
  untagged : ∀ p l, custom.leafAt p = some l → ∀ n ∈ p.tail, n ∉ tagWords
  noQueue : QUEUE ∉ custom.keys

theorem hop_carries (hr : e.Ready) (hcustom : Deliverable e.getCustomPropertySet) (h : Hop)
    (hn : e.getCustomPropertySet.Lists h.names) :
    ∃ e', Settles (hop L C · e h) (ret e') ∧ e'.Ready ∧
      Carries [h.transmitter.getDestinationPropertyName] e e' := by
  obtain ⟨msg, hmsg, hdecode⟩ := publish_payload L hr.toFormed hr.toPublishable hcustom.payload hn
    hcustom.untagged h.transmitter h.pubtime
  have hread := getStringProperty_published L C hr.toFormed hr.own hmsg
  have htype : e.typeText C = some e.type.typeName := by
    rw [typeText, hr.named]
    exact C.toText_string _
  rw [htype, Option.elim_some] at hread
  have hread' : TextMessage.getStringProperty { msg with timestamp := h.timestamp } C TYPE =
      .ok e.type.typeName := hread
  obtain ⟨e', hsettles, hd⟩ := ofMessage_delivered L C hr.toFormed hr.own hmsg (List.Subset.refl _)
    h.timestamp hdecode
  refine ⟨e', ?_, hd.ready hr, hd.carries hr hcustom.noQueue⟩
  simp only [hop, hmsg, liftM_ok, ret_bind, createEvent_eq L C hread', dispatch_typeName]
  exact hsettles

def destinations (hops : List Hop) : List Str :=
  hops.map fun h ↦ h.transmitter.getDestinationPropertyName

theorem destinations_subset (hops : List Hop) : destinations hops ⊆ [TOPIC, QUEUE] := by
  intro n hn
  obtain ⟨h, -, rfl⟩ := List.mem_map.1 hn
  exact h.transmitter.destination_mem

theorem chain_carries (hr : e.Ready) (hcustom : Deliverable e.getCustomPropertySet) (h : Hop)
    (hops : List Hop) (hn : ∀ g ∈ h :: hops, e.getCustomPropertySet.Lists g.names) :
    ∃ e', Settles (fun calls ↦ (h :: hops).foldlM (hop L C calls) e) (ret e') ∧ e'.Ready ∧
      Carries (destinations (h :: hops)) e e' := by
  induction hops generalizing e h with
  | nil =>
    obtain ⟨e', hsettles, hr', hcarries⟩ := hop_carries L C hr hcustom h (hn h List.mem_cons_self)
    refine ⟨e', ?_, hr', hcarries⟩
    simpa only [List.foldlM_cons, List.foldlM_nil, bind_pure] using hsettles
  | cons g hops ih =>
    obtain ⟨e₁, hsettles, hr₁, hcarries⟩ := hop_carries L C hr hcustom h (hn h List.mem_cons_self)
    rw [← hcarries.custom] at hcustom hn
    obtain ⟨e', hrest, hr', hcarries'⟩ := ih hr₁ hcustom g fun g' hg ↦
      hn g' (List.mem_cons_of_mem h hg)
    refine ⟨e', ?_, hr', hcarries.trans hcarries'⟩
    simp only [List.foldlM_cons] at hrest ⊢
    exact hsettles.bind hrest

section Getters

variable {ds : List Str}

theorem Carries.get (h : Carries ds e e') (he : e.Formed) {n : Str} (hn : n ∈ e.keywords)
    (hp : n ≠ PUBTIME) (hd : n ∉ ds) {α : Type} {cast : Value → Option α}
    (hcast : ∀ v a, cast v = some a → cast v.widen = some a) {a : α}
    (ha : e.psp.get cast n = .ok a) : e'.psp.get cast n = .ok a := by
  obtain ⟨v, hv, hw⟩ := h.header n hn hp hd
  obtain ⟨v', hv', ha⟩ := (PropertySet.get_some (he.plain n hn)).1 ha
  rw [hv] at hv'
  cases hv'
  exact (PropertySet.get_some (he.plain n hn)).2 ⟨v.widen, hw, hcast v a ha⟩

theorem toString?_widen (v : Value) (s : Str) (h : v.toString? = some s) :
    v.widen.toString? = some s := by
  cases v <;> simp_all [Value.toString?, Value.widen]

theorem toInt?_widen (v : Value) (n : Int32) (h : v.toInt? = some n) :
    v.widen.toInt? = some n := by
  cases v <;> simp_all [Value.toInt?, Value.widen]

theorem toLongLong?_widen (v : Value) (n : Int64) (h : v.toLongLong? = some n) :
    v.widen.toLongLong? = some n := by
  cases v <;> simp_all [Value.toLongLong?, Value.widen]

variable (h : Carries ds e e') (hr : e.Ready) (hds : ds ⊆ [TOPIC, QUEUE])

include h hr hds

theorem Carries.get_keyword {n : Str} (hn : n ∈ e.keywords) (hne : n ∉ [PUBTIME, TOPIC, QUEUE])
    {α : Type} {cast : Value → Option α} (hcast : ∀ v a, cast v = some a → cast v.widen = some a)
    {a : α} (ha : e.psp.get cast n = .ok a) : e'.psp.get cast n = .ok a := by
  rw [List.mem_cons, not_or] at hne
  exact h.get hr.toFormed hn hne.1 (fun hd ↦ hne.2 (hds hd)) hcast ha

theorem Carries.text {name : Str} (hf : .text name ∈ e.type.fields) : ∃ s,
    e.psp.get Value.toString? name = .ok s ∧ e'.psp.get Value.toString? name = .ok s := by
  obtain ⟨c, hc, s, rfl⟩ := hr.fits _ hf
  have hn : name ∈ e.keywords := hr.field hf
  have hget := (Field.get_text (hr.plain name hn)).2 hc
  exact ⟨s, hget, h.get_keyword hr hds hn (Transmitter.field_ne_stamp hf) toString?_widen hget⟩

theorem Carries.number {name : Str} (hf : .number name ∈ e.type.fields) : ∃ n,
    e.psp.get Value.toInt? name = .ok n ∧ e'.psp.get Value.toInt? name = .ok n := by
  obtain ⟨c, hc, n, rfl⟩ := hr.fits _ hf
  have hn : name ∈ e.keywords := hr.field hf
  have hget := (Field.get_number (hr.plain name hn)).2 hc
  exact ⟨n, hget, h.get_keyword hr hds hn (Transmitter.field_ne_stamp hf) toInt?_widen hget⟩

theorem Carries.location {hostname pid localID : Str} (hh : .text hostname ∈ e.type.fields)
    (hp : .number pid ∈ e.type.fields) (hl : .number localID ∈ e.type.fields) : ∃ id,
    e.getLocation hostname pid localID = .ok id ∧ e'.getLocation hostname pid localID = .ok id := by
  obtain ⟨host, hhost, hhost'⟩ := h.text hr hds hh
  obtain ⟨p, hpid, hpid'⟩ := h.number hr hds hp
  obtain ⟨l, hloc, hloc'⟩ := h.number hr hds hl
  refine ⟨⟨host, p, l⟩, ?_, ?_⟩
  · rw [getLocation, hhost, hpid, hloc]
    rfl
  · rw [getLocation, hhost', hpid', hloc']
    rfl

omit h hr hds in
theorem getRunId_eq_ok {r : Str} :
    e.getRunId = .ok r ↔ e.psp.get Value.toString? RUNID = .ok r := by
  have hplain : '.' ∉ RUNID := by decide +kernel
  rw [getRunId]
  split
  · rfl
  · next hnone =>
    refine iff_of_false nofun fun hget ↦ hnone ?_
    obtain ⟨l, hl, -⟩ := (PropertySet.get_eq_ok hplain).1 hget
    exact (PropertySet.exists_plain hplain).2 (NestedMap.mem_keys.2 ⟨_, hl⟩)

theorem Carries.runId (hplain : ∀ n ∈ e'.keywords, '.' ∉ n) {r : Str} (hget : e.getRunId = .ok r) :
    e'.getRunId = .ok r := by
  have hne : RUNID ∉ [PUBTIME, TOPIC, QUEUE] := by decide +kernel
  rw [getRunId_eq_ok] at hget ⊢
  by_cases hk : RUNID ∈ e.keywords
  · exact h.get_keyword hr hds hk hne toString?_widen hget
  · have hk' : RUNID ∉ e'.keywords := by
      rw [h.keywords, not_or]
      exact ⟨hk, fun hd ↦ hne (List.mem_cons_of_mem _ (hds hd))⟩
    have hlookup : e'.psp.lookup RUNID = e.psp.lookup RUNID := by
      have hcustom := congrArg (NestedMap.lookup RUNID) h.custom
      rwa [lookup_getCustomPropertySet hplain, lookup_getCustomPropertySet hr.plain, if_neg hk',
        if_neg hk] at hcustom
    have hdot : '.' ∉ RUNID := by decide +kernel
    rw [PropertySet.get_eq_ok hdot] at hget ⊢
    rwa [hlookup]

end Getters

/-- What a receiver finds in an event that came to it over hops to some destinations. -/
structure Arrived (ds : List Str) (e e' : Event) : Prop where
  type_eq : e'.type = e.type
  originator : ∃ id, e.getOriginator = .ok id ∧ e'.getOriginator = .ok id
  destination : e.type = .command → ∃ id, e.getDestination = .ok id ∧ e'.getDestination = .ok id
  level : e.type = .log → ∃ n, e.getLevel = .ok n ∧ e'.getLevel = .ok n
  logger : e.type = .log → ∃ s, e.getLogger = .ok s ∧ e'.getLogger = .ok s
  runId : ∀ r, e.getRunId = .ok r → e'.getRunId = .ok r
  status : ∀ s, e.getStatus = .ok s → e'.getStatus = .ok s
  eventTime : ∀ t, e.getEventTime = .ok t → e'.getEventTime = .ok t
  custom : e'.getCustomPropertySet = e.getCustomPropertySet
  filterable : ∀ n, n ∈ e'.getFilterablePropertyNames ↔
    n ∈ e.getFilterablePropertyNames ∨ n ∈ ds
  values : ∀ n ∈ e.getFilterablePropertyNames, n ≠ PUBTIME → n ∉ ds → ∃ v : Value,
    e.psp.get some n = .ok v ∧ e'.psp.get some n = .ok v.widen

theorem Carries.arrived {ds : List Str} (h : Carries ds e e') (hr : e.Ready)
    (hplain : ∀ n ∈ e'.keywords, '.' ∉ n) (hds : ds ⊆ [TOPIC, QUEUE]) (htype : e.type ≠ .event) :
    Arrived ds e e' where
  type_eq := h.type_eq
  originator := by
    apply h.location hr hds <;> revert htype <;> cases e.type <;> decide +kernel
  destination hcommand := by
    apply h.location hr hds <;> rw [hcommand] <;> decide +kernel
  level hlog := h.number hr hds (by rw [hlog]; decide +kernel)
  logger hlog := h.text hr hds (by rw [hlog]; decide +kernel)
  runId r := h.runId hr hds hplain
  status s := h.get_keyword hr hds (hr.own (by decide +kernel)) (by decide +kernel) toString?_widen
  eventTime t := h.get_keyword hr hds (hr.own (by decide +kernel)) (by decide +kernel)
    toLongLong?_widen
  custom := h.custom
  filterable n := by rw [mem_filterable, mem_filterable, h.keywords]
  values n hn := h.header n (mem_filterable.1 hn)

variable {filterable : PropertySet} {msg : TextMessage}

/-- Once the first publication of an event of a subclass succeeds, the event goes through any
chain of hops, and arrives with the fields of its class, its custom properties and its header. -/
theorem typed_event_arrives (hf : filterable.Dotless) (hb : Built filterable e)
    (htype : e.type ≠ .event) (hcustom : Deliverable e.getCustomPropertySet) (h : Hop)
    (hops : List Hop) (hn : ∀ g ∈ h :: hops, e.getCustomPropertySet.Lists g.names)
    (hfirst : e.publish L h.names h.transmitter h.pubtime = .ok msg) :
    ∃ e', Settles (fun calls ↦ (h :: hops).foldlM (hop L C calls) e) (ret e') ∧
      Arrived (destinations (h :: hops)) e e' := by
  obtain ⟨he, hown⟩ := hb.formed hf
  -- That the first publication succeeds is all that is asked of the header.
  have hpub := (publish_ok L he hfirst).1
  have hnamed : headerOf e.psp TYPE = some (.string e.type.typeName) := by
    rw [headerOf, hb.typed.resolve_left htype]
    rfl
  have hr : e.Ready := ⟨he, hpub, hown, hnamed⟩
  obtain ⟨e', hsettles, hr', hcarries⟩ := chain_carries L C hr hcustom h hops hn
  exact ⟨e', hsettles, hcarries.arrived hr hr'.plain (destinations_subset _) htype⟩

theorem typed_event_arrives_sample :
    let foo : PropertySet := (∅ : PropertySet).insert (lit "FOO") (.leaf (.single (.int 7)))
    let hops : List Hop := [⟨.topic (lit "news"), [lit "FOO"], 9, 10⟩,
      ⟨.queue (lit "orders"), [lit "FOO"], 11, 12⟩]
    ∃ e e', constructStatus 5 (lit "run") ⟨lit "host", 1, 2⟩ foo ∅ = .ok e ∧
      Settles (fun calls ↦ hops.foldlM (hop Textual.libraries .strict calls) e) (ret e') ∧
      Arrived [TOPIC, QUEUE] e e' := by
  intro foo hops
  have hfield : lit "FOO" ∉ EventClass.status.keywords := by
    simp [EventClass.keywords, EventClass.fields, Field.originator, Field.name, ORIG_HOSTNAME,
      ORIG_PROCESSID, ORIG_LOCALID, lit]
  obtain ⟨e, he, htype, hformed, hpub, hcustom⟩ := constructStatus_one notMem_foo.1
    (notMem_foo.2 (lit "run")) hfield (v := .int 7) 5 ⟨lit "host", 1, 2⟩
  have hdeliverable : Deliverable e.getCustomPropertySet := by
    rw [hcustom]
    exact ⟨payload_single (by decide +kernel) trivial, untagged_single, by decide +kernel⟩
  have hlists : e.getCustomPropertySet.Lists [lit "FOO"] := by
    rw [hcustom]
    exact PropertySet.lists_single (by decide +kernel) _
  obtain ⟨msg, hmsg, -⟩ := publish_single Textual.libraries hformed hpub hcustom
    (by decide +kernel) trivial (.topic (lit "news")) 9
  obtain ⟨e', hsettles, harrived⟩ := typed_event_arrives Textual.libraries .strict
    PropertySet.dotless_empty (.status he) (by simp [htype]) hdeliverable
    ⟨.topic (lit "news"), [lit "FOO"], 9, 10⟩
    [⟨.queue (lit "orders"), [lit "FOO"], 11, 12⟩] (by simpa using hlists) hmsg
  exact ⟨e, e', he, hsettles, harrived⟩

end Event

end CtrlEvents
