import CtrlEvents.Events.Setters
import CtrlEvents.Payload.Encoding

namespace CtrlEvents

open Fallible

namespace Event

def refusal (psp : PropertySet) (name : Str) : Exn :=
  if name ∈ psp.keys then .runtimeError
    (lit "Data type represented in " ++ name ++ lit " is not permitted in event header")
  else .notFoundError (name ++ lit " not found")

variable {psp : PropertySet} {e e' : Event} {msg : TextMessage} {x : Exn}

theorem headerValue_error {name : Str} (hn : '.' ∉ name) :
    headerValue psp name = .error x ↔ headerOf psp name = none ∧ x = refusal psp name := by
  cases hl : psp.lookup name with
  | none =>
    have hk : name ∉ psp.keys := NestedMap.lookup_eq_none.1 hl
    simp [headerValue_none hn hl, headerOf, hl, refusal, hk, eq_comm]
  | some s =>
    have hk : name ∈ psp.keys := NestedMap.mem_keys.2 ⟨s, hl⟩
    rw [refusal, if_pos hk]
    cases s with
    | maps earlier last => simp [headerValue_maps hn hl, headerOf, hl, eq_comm]
    | leaf l =>
      rw [headerValue_leaf hn hl, headerOf, hl]
      dsimp only
      cases l.back.toCms <;> simp [eq_comm]

theorem writeKeywords_error (he : e.Formed) : e.writeKeywords msg = .error x ↔
    ∃ n, IsLeast {n | n ∈ e.keywords ∧ headerOf e.psp n = none} n ∧ x = refusal e.psp n := by
  have hplain : ∀ n ∈ e.getFilterablePropertyNames, '.' ∉ n := fun n hn ↦
    he.plain n (mem_filterable.1 hn)
  have hgood : ∀ n ∈ e.getFilterablePropertyNames, headerOf e.psp n ≠ none → ∀ msg : TextMessage,
      ∃ msg', (do return msg.set n (← headerValue e.psp n) : Except Exn TextMessage) =
        .ok msg' := by
    intro n hn hsome msg
    obtain ⟨c, hc⟩ := Option.ne_none_iff_exists'.1 hsome
    exact ⟨msg.set n c, by rw [(headerValue_ok (hplain n hn)).2 hc]; rfl⟩
  have hbad : ∀ n ∈ e.getFilterablePropertyNames, ¬ headerOf e.psp n ≠ none →
      ∀ msg : TextMessage, (do return msg.set n (← headerValue e.psp n) : Except Exn TextMessage) =
        .error (refusal e.psp n) := by
    intro n hn hnone msg
    rw [(headerValue_error (hplain n hn)).2 ⟨not_ne_iff.1 hnone, rfl⟩]
    rfl
  have hsorted : e.getFilterablePropertyNames.Pairwise (· ≤ ·) := Finset.pairwise_sort _ _
  rw [writeKeywords, foldlM_eq_error hgood hbad]
  refine exists_congr fun n ↦ and_congr_left fun _ ↦ ?_
  have hfirst := first_iff_isLeast hsorted (p := fun n ↦ headerOf e.psp n = none) (x := n)
  simp only [mem_filterable] at hfirst
  simp only [not_ne_iff, hfirst]

theorem write_mistyped {f : Field} (hn : '.' ∉ f.name) {c : CmsValue}
    (hc : headerOf psp f.name = some c) (hf : ¬ f.Fits c) (msg : TextMessage) :
    f.write psp msg = .error (.typeError f.name) := by
  obtain ⟨l, hl, hv⟩ := headerOf_eq.1 hc
  have hget : ∀ {α : Type} {cast : Value → Option α}, cast l.back = none →
      psp.get cast f.name = .error (.typeError f.name) := by
    intro α cast hcast
    rw [PropertySet.get, PropertySet.find_plain hn, hl]
    simp only [hcast]
  cases f with
  | text name =>
    have hcast : l.back.toString? = none := by
      rw [Option.eq_none_iff_forall_ne_some]
      intro s hs
      exact hf ⟨s, Option.some.inj (hv.symm.trans (Field.toString?_eq.1 hs))⟩
    rw [Field.write]
    exact bind_eq_error.2 (.inl (hget hcast))
  | number name =>
    have hcast : l.back.toInt? = none := by
      rw [Option.eq_none_iff_forall_ne_some]
      intro n hn
      exact hf ⟨n, Option.some.inj (hv.symm.trans (Field.toInt?_eq.1 hn))⟩
    rw [Field.write]
    exact bind_eq_error.2 (.inl (hget hcast))

theorem writeFields_error (he : e.Formed) (hheader : ∀ n ∈ e.keywords, headerOf e.psp n ≠ none) :
    e.type.fields.foldlM (fun msg f ↦ f.write e.psp msg) msg = .error x ↔
      ∃ f, (∃ pre post, e.type.fields = pre ++ f :: post ∧
          ¬ (∃ c, headerOf e.psp f.name = some c ∧ f.Fits c) ∧
          ∀ g ∈ pre, ∃ c, headerOf e.psp g.name = some c ∧ g.Fits c) ∧
        x = .typeError f.name := by
  refine foldlM_eq_error (fun f hf hfits msg ↦ ?_) fun f hf hfits msg ↦ ?_
  · obtain ⟨c, hc, hfit⟩ := hfits
    exact ⟨_, (Field.write_eq_ok (he.plain _ (he.field hf))).2 ⟨c, hc, hfit, rfl⟩⟩
  · obtain ⟨c, hc⟩ := Option.ne_none_iff_exists'.1 (hheader _ (he.field hf))
    exact write_mistyped (he.plain _ (he.field hf)) hc (fun hfit ↦ hfits ⟨c, hc, hfit⟩) msg

/-- What marshalling into a message fails with: the least keyword that the header cannot hold; else
the first field of the class with a property of another type; else the first name, in the order in
which the custom properties are listed, whose values have no tag. -/
inductive Refuses (e : Event) (names : List Str) : Exn → Prop
  | header {n : Str} (h : IsLeast {n | n ∈ e.keywords ∧ headerOf e.psp n = none} n) :
      Refuses e names (refusal e.psp n)
  | field {pre post : List Field} {f : Field}
      (hheader : ∀ n ∈ e.keywords, headerOf e.psp n ≠ none)
      (hfields : e.type.fields = pre ++ f :: post)
      (hf : ¬ ∃ c, headerOf e.psp f.name = some c ∧ f.Fits c)
      (hpre : ∀ g ∈ pre, ∃ c, headerOf e.psp g.name = some c ∧ g.Fits c) :
      Refuses e names (.typeError f.name)
  | payload {pre post : List Str} {n : Str} (hp : e.Publishable) (hnames : names = pre ++ n :: post)
      (hn : ¬ (e.getCustomPropertySet.tagOf n).isSome)
      (hpre : ∀ m ∈ pre, (e.getCustomPropertySet.tagOf m).isSome) :
      Refuses e names (.runtimeError (lit "Couldn't marshall " ++ n))

variable (L : Libraries) {names : List Str} {transmitter : Transmitter} {pubtime : Int64}

theorem marshall_error : e.marshall L names msg = .error x ↔
    e.populateHeader msg = .error x ∨
      ∃ msg', e.populateHeader msg = .ok msg' ∧
        L.marshall e.getCustomPropertySet names = .error x := by
  rw [marshall, bind_eq_error]
  refine or_congr_right (exists_congr fun msg' ↦ and_congr_right fun _ ↦ ?_)
  rw [bind_eq_error, or_iff_left]
  rintro ⟨text, -, h⟩
  cases h

theorem publish_error : e.publish L names transmitter pubtime = .error x ↔
    e.marshall L names .new = .error x := by
  rw [publish, bind_eq_error, or_iff_left]
  rintro ⟨msg, -, h⟩
  cases h

/-- Marshalling an event into a message fails exactly with what refuses it. -/
theorem marshall_refuses_iff (he : e.Formed) (hp : e.getCustomPropertySet.Addressed)
    (hn : e.getCustomPropertySet.Lists names) :
    e.marshall L names msg = .error x ↔ Refuses e names x := by
  rw [marshall_error, populateHeader, bind_eq_error, writeKeywords_error he]
  have hkeywords : (∀ n ∈ e.keywords, headerOf e.psp n ≠ none) →
      ∃ msg', e.writeKeywords msg = .ok msg' := by
    intro hheader
    cases h : e.writeKeywords msg with
    | ok msg' => exact ⟨msg', rfl⟩
    | error y =>
      obtain ⟨n, hleast, -⟩ := (writeKeywords_error he).1 h
      exact absurd hleast.1.2 (hheader n hleast.1.1)
  constructor
  · rintro ((⟨n, hleast, rfl⟩ | ⟨msg', hmsg, hfield⟩) | ⟨msg', hmsg, hpayload⟩)
    · exact .header hleast
    · have hheader : ∀ n ∈ e.keywords, headerOf e.psp n ≠ none := fun n hn ↦
        Option.isSome_iff_ne_none.1 ((writeKeywords_ok he hmsg).1 n hn)
      obtain ⟨f, ⟨pre, post, hfields, hf, hpre⟩, rfl⟩ := (writeFields_error he hheader).1 hfield
      exact .field hheader hfields hf hpre
    · rw [L.marshall_eq_error hn hp, L.marshallTree_eq_error hn hp] at hpayload
      obtain ⟨n, ⟨pre, post, hnames, htag, hpre⟩, rfl⟩ := hpayload
      exact .payload (populateHeader_ok he hmsg).1 hnames htag hpre
  · intro h
    cases h with
    | header hleast => exact .inl (.inl ⟨_, hleast, rfl⟩)
    | field hheader hfields hf hpre =>
      obtain ⟨msg', hmsg⟩ := hkeywords hheader
      exact .inl (.inr ⟨msg', hmsg, (writeFields_error he hheader).2
        ⟨_, ⟨_, _, hfields, hf, hpre⟩, rfl⟩⟩)
    | payload hpub hnames htag hpre =>
      obtain ⟨msg', hmsg⟩ := populateHeader_total he hpub msg
      refine .inr ⟨msg', hmsg, ?_⟩
      rw [L.marshall_eq_error hn hp, L.marshallTree_eq_error hn hp]
      exact ⟨_, ⟨_, _, hnames, htag, hpre⟩, rfl⟩

theorem marshall_refuses_iff_sample :
    let ps : PropertySet := (∅ : PropertySet).insert (lit "FOO") (.leaf (.single (.byte 7)))
    ∃ e, construct 5 [] ps ∅ = .ok e ∧ e.marshall Textual.libraries [lit "FOO"] .new =
      .error (.runtimeError (lit "Couldn't marshall " ++ lit "FOO")) := by
  intro ps
  obtain ⟨hplain, hown⟩ := notMem_foo
  obtain ⟨e, he, hformed, hpub, hcustom, hn⟩ := construct_one hplain (hown []) (v := .byte 7) 5
  have haddressed : e.getCustomPropertySet.Addressed := by
    rw [hcustom]
    intro p l hl n hn
    rw [(NestedMap.leafAt_single hl).1, List.mem_singleton] at hn
    exact hn ▸ hplain
  refine ⟨e, he, (marshall_refuses_iff Textual.libraries hformed haddressed hn).2 ?_⟩
  refine .payload hpub (List.nil_append _).symm ?_ (List.forall_mem_nil _)
  rw [hcustom, PropertySet.tagOf, segments_of_notMem hplain,
    NestedMap.leafAt_singleton.2 (NestedMap.lookup_insert_self ..)]
  exact Bool.false_ne_true

/-- What the constructors without arguments make. -/
inductive Blank : Event → Prop
  | event : Blank new
  | status : Blank newStatus
  | command : Blank newCommand
  | log : Blank newLog

theorem Blank.formed (hb : Blank e) : e.Formed ∧ e.psp = ∅ ∧ TYPE ∈ e.keywords := by
  have hown : TYPE ∈ reserved := by simp [reserved]
  have hblank : ∀ {type : EventClass} {keywords : Finset Str},
      keywords = reserved ∪ type.keywords → (⟨type, ∅, keywords⟩ : Event).Formed ∧
        TYPE ∈ keywords := by
    rintro type _ rfl
    refine ⟨⟨fun n hn ↦ ?_, Finset.subset_union_right⟩, Finset.mem_union_left _ hown⟩
    rcases Finset.mem_union.1 hn with hn | hn
    · exact plain_ownKeywords [] n hn
    · exact plain_typeKeywords type n hn
  have hsub : EventClass.status.keywords ⊆ EventClass.log.keywords := by
    intro n hn
    obtain ⟨f, hf, rfl⟩ := mem_typeKeywords.1 hn
    exact mem_typeKeywords.2 ⟨f, List.mem_append_left _ hf, rfl⟩
  cases hb with
  | event =>
    have hkeys : reserved = reserved ∪ EventClass.event.keywords := (Finset.union_empty _).symm
    exact ⟨(hblank hkeys).1, rfl, (hblank hkeys).2⟩
  | status => exact ⟨(hblank rfl).1, rfl, (hblank rfl).2⟩
  | command => exact ⟨(hblank rfl).1, rfl, (hblank rfl).2⟩
  | log =>
    have hkeys : newLog.keywords = reserved ∪ EventClass.log.keywords := by
      rw [newLog, newStatus, Finset.union_assoc, Finset.union_eq_right.2 hsub, new]
    exact ⟨(hblank hkeys).1, rfl, (hblank hkeys).2⟩

theorem Blank.lookup_foldl (hb : Blank e) (setters : List Setter) (n : Str) :
    (setters.foldl Setter.apply e).psp.lookup n =
      (Setter.lastSet setters n).map fun v ↦ .leaf (.single v) := by
  rw [Setter.lookup_foldl, hb.formed.2.1, NestedMap.lookup_empty, Option.or_none]

theorem Blank.headerOf_eq_none (hb : Blank e) (setters : List Setter) (n : Str) :
    headerOf (setters.foldl Setter.apply e).psp n = none ↔
      n ∉ (setters.foldl Setter.apply e).psp.keys := by
  rw [← NestedMap.lookup_eq_none, headerOf, hb.lookup_foldl]
  cases hv : Setter.lastSet setters n with
  | none => simp
  | some v =>
    obtain ⟨setter, -, -, rfl⟩ := Setter.exists_of_lastSet hv
    have hsome : setter.value.toCms ≠ none := Option.isSome_iff_ne_none.1 setter.toCms_value
    exact iff_of_false hsome (Option.some_ne_none _)

/-- An event that a constructor without arguments has made takes every setter, but can never be
published: the least keyword that is not set is reported as missing. -/
theorem blank_never_published (hb : Blank e) (setters : List Setter) :
    ∃ e', setters.foldlM (fun e setter ↦ setter.call e) e = .ok e' ∧
      ∃ n, IsLeast {n | n ∈ e'.keywords ∧ n ∉ e'.psp.keys} n ∧
        ∀ L names transmitter pubtime, e'.publish L names transmitter pubtime =
          .error (.notFoundError (n ++ lit " not found")) := by
  obtain ⟨he, -, hown⟩ := hb.formed
  refine ⟨_, Setter.foldlM_call setters e, ?_⟩
  have htype : TYPE ∉ (setters.foldl Setter.apply e).psp.keys := by
    rw [← NestedMap.lookup_eq_none, hb.lookup_foldl, Option.map_eq_none_iff]
    refine Option.eq_none_iff_forall_ne_some.2 fun v hv ↦ ?_
    obtain ⟨setter, -, hn, -⟩ := Setter.exists_of_lastSet hv
    exact setter.name_ne_type hn
  have hne : ((setters.foldl Setter.apply e).keywords.filter
      (· ∉ (setters.foldl Setter.apply e).psp.keys)).Nonempty :=
    ⟨TYPE, Finset.mem_filter.2 ⟨Setter.subset_foldl setters hown, htype⟩⟩
  have hleast := Finset.isLeast_min' _ hne
  simp only [Finset.coe_filter] at hleast
  refine ⟨_, hleast, fun L names transmitter pubtime ↦ ?_⟩
  have hrefusal : ∀ psp : PropertySet, ∀ n, n ∉ psp.keys →
      refusal psp n = .notFoundError (n ++ lit " not found") := fun psp n hn ↦ if_neg hn
  rw [publish_error, marshall_error, populateHeader, bind_eq_error,
    writeKeywords_error (Setter.formed_foldl setters he)]
  simp only [hb.headerOf_eq_none]
  exact .inl (.inl ⟨_, hleast, (hrefusal _ _ hleast.1.2).symm⟩)

theorem blank_never_published_sample :
    ∃ e', [Setter.setRunId (lit "run"), .setStatus (lit "done"), .setEventTime 5].foldlM
        (fun e setter ↦ setter.call e) newStatus = .ok e' ∧
      ∃ n, IsLeast {n | n ∈ e'.keywords ∧ n ∉ e'.psp.keys} n ∧
        ∀ L names transmitter pubtime, e'.publish L names transmitter pubtime =
          .error (.notFoundError (n ++ lit " not found")) :=
  blank_never_published .status _

end Event

end CtrlEvents
