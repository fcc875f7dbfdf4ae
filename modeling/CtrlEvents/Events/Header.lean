import CtrlEvents.Events.Construction
import CtrlEvents.Events.Wire

namespace CtrlEvents

open Fallible

namespace Event

variable {psp : PropertySet} {e : Event} {msg msg' : TextMessage}

/-- What the header can hold of a property. -/
def headerOf (psp : PropertySet) (name : Str) : Option CmsValue :=
  match psp.lookup name with
  | some (.leaf l) => l.back.toCms
  | _ => none

theorem headerOf_eq {name : Str} {c : CmsValue} :
    headerOf psp name = some c ↔ ∃ l, psp.lookup name = some (.leaf l) ∧ l.back.toCms = some c := by
  unfold headerOf
  split
  · next l hl => simp [hl]
  · next hne =>
    refine ⟨nofun, fun h ↦ ?_⟩
    obtain ⟨l, hl, -⟩ := h
    exact absurd hl (hne l)

theorem headerValue_leaf {name : Str} (hn : '.' ∉ name) {l : Leaf}
    (hl : psp.lookup name = some (.leaf l)) : headerValue psp name =
      match l.back.toCms with
      | some c => .ok c
      | none => .error (.runtimeError
          (lit "Data type represented in " ++ name ++
            lit " is not permitted in event header")) := by
  have htype : psp.typeOf name = .ok (.value l.back.kind) := by
    rw [PropertySet.typeOf, PropertySet.find_plain hn, hl]
    rfl
  have hget : ∀ {α : Type} (cast : Value → Option α) (a : α), cast l.back = some a →
      psp.get cast name = .ok a := fun cast a ha ↦ (PropertySet.get_eq_ok hn).2 ⟨l, hl, ha⟩
  rw [headerValue, htype, ok_bind]
  cases hb : l.back with
  | bool b => simp only [Value.kind, Value.toCms, hget Value.toBool? b (by rw [hb]; rfl)]; rfl
  | short n => simp only [Value.kind, Value.toCms, hget Value.toShort? n (by rw [hb]; rfl)]; rfl
  | int n => simp only [Value.kind, Value.toCms, hget Value.toInt? n (by rw [hb]; rfl)]; rfl
  | long n => simp only [Value.kind, Value.toCms, hget Value.toLong? n (by rw [hb]; rfl)]; rfl
  | longLong n =>
    simp only [Value.kind, Value.toCms, hget Value.toLongLong? n (by rw [hb]; rfl)]; rfl
  | double x => simp only [Value.kind, Value.toCms, hget Value.toDouble? x (by rw [hb]; rfl)]; rfl
  | float x => simp only [Value.kind, Value.toCms, hget Value.toFloat? x (by rw [hb]; rfl)]; rfl
  | string s => simp only [Value.kind, Value.toCms, hget Value.toString? s (by rw [hb]; rfl)]; rfl
  | dateTime t => rfl
  | byte b => rfl
  | other type value => rfl

theorem headerValue_maps {name : Str} (hn : '.' ∉ name) {earlier : List PropertySet}
    {last : PropertySet} (hl : psp.lookup name = some (.maps earlier last)) :
    headerValue psp name = .error (.runtimeError
      (lit "Data type represented in " ++ name ++ lit " is not permitted in event header")) := by
  rw [headerValue, PropertySet.typeOf, PropertySet.find_plain hn, hl]
  rfl

theorem headerValue_none {name : Str} (hn : '.' ∉ name) (hl : psp.lookup name = none) :
    headerValue psp name = .error (.notFoundError (name ++ lit " not found")) := by
  rw [headerValue, PropertySet.typeOf, PropertySet.find_plain hn, hl]
  rfl

theorem headerValue_ok {name : Str} (hn : '.' ∉ name) {c : CmsValue} :
    headerValue psp name = .ok c ↔ headerOf psp name = some c := by
  cases hl : psp.lookup name with
  | none => simp [headerValue_none hn hl, headerOf, hl]
  | some s =>
    cases s with
    | leaf l =>
      rw [headerValue_leaf hn hl, headerOf, hl]
      dsimp only
      cases l.back.toCms <;> simp
    | maps earlier last => simp [headerValue_maps hn hl, headerOf, hl]

theorem mem_filterable {n : Str} : n ∈ e.getFilterablePropertyNames ↔ n ∈ e.keywords :=
  Finset.mem_sort _

theorem set_headerValue (psp : PropertySet) (n : Str) (msg : TextMessage) :
    (do return msg.set n (← headerValue psp n) : Except Exn TextMessage) =
      (headerValue psp n).map (msg.set n) := by
  cases headerValue psp n <;> rfl

theorem writeKeywords_ok (he : e.Formed) (h : e.writeKeywords msg = .ok msg') :
    (∀ n ∈ e.keywords, (headerOf e.psp n).isSome) ∧
      ∀ n, msg'.properties.lookup n =
        if n ∈ e.keywords then headerOf e.psp n else msg.properties.lookup n := by
  obtain ⟨hin, hout⟩ := get_of_foldlM TextMessage.set (fun msg n ↦ msg.properties.lookup n)
    (fun msg n v k ↦ TextMessage.lookup_set msg n k v) (fun n _ ↦ set_headerValue e.psp n) h
  have hval : ∀ n ∈ e.keywords, ∃ v, headerOf e.psp n = some v ∧
      msg'.properties.lookup n = some v := by
    intro n hn
    obtain ⟨v, hv, hl⟩ := hin n (mem_filterable.2 hn)
    exact ⟨v, (headerValue_ok (he.plain n hn)).1 hv, hl⟩
  refine ⟨fun n hn ↦ ?_, fun n ↦ ?_⟩
  · obtain ⟨v, hv, -⟩ := hval n hn
    rw [hv]
    rfl
  · split
    · next hn =>
      obtain ⟨v, hv, hl⟩ := hval n hn
      rw [hv, hl]
    · next hn => exact hout n fun h ↦ hn (mem_filterable.1 h)

end Event

namespace Field

open Event

def Fits : Field → CmsValue → Prop
  | text _, c => ∃ s, c = .string s
  | number _, c => ∃ n, c = .integer n

variable {psp psp' : PropertySet} {msg msg' : TextMessage} {field : Field}

theorem toString?_eq {v : Value} {s : Str} : v.toString? = some s ↔ v.toCms = some (.string s) := by
  cases v <;> simp [Value.toString?, Value.toCms]

theorem toInt?_eq {v : Value} {n : Int32} : v.toInt? = some n ↔ v.toCms = some (.integer n) := by
  cases v <;> simp [Value.toInt?, Value.toCms]

theorem get_text {name s : Str} (hn : '.' ∉ name) :
    psp.get Value.toString? name = .ok s ↔ headerOf psp name = some (.string s) := by
  simp only [PropertySet.get_eq_ok hn, headerOf_eq, toString?_eq]

theorem get_number {name : Str} {n : Int32} (hn : '.' ∉ name) :
    psp.get Value.toInt? name = .ok n ↔ headerOf psp name = some (.integer n) := by
  simp only [PropertySet.get_eq_ok hn, headerOf_eq, toInt?_eq]

theorem write_eq_ok (hn : '.' ∉ field.name) : field.write psp msg = .ok msg' ↔
    ∃ c, headerOf psp field.name = some c ∧ field.Fits c ∧ msg' = msg.set field.name c := by
  cases field with
  | text name =>
    have hn : '.' ∉ name := hn
    rw [write, bind_eq_ok]
    simp only [get_text hn, Field.name, Fits, pure_eq, Except.ok.injEq]
    constructor
    · intro h
      obtain ⟨s, hs, hm⟩ := h
      exact ⟨_, hs, ⟨s, rfl⟩, hm.symm⟩
    · intro h
      obtain ⟨c, hc, ⟨s, rfl⟩, hm⟩ := h
      exact ⟨s, hc, hm.symm⟩
  | number name =>
    have hn : '.' ∉ name := hn
    rw [write, bind_eq_ok]
    simp only [get_number hn, Field.name, Fits, pure_eq, Except.ok.injEq]
    constructor
    · intro h
      obtain ⟨n, hn, hm⟩ := h
      exact ⟨_, hn, ⟨n, rfl⟩, hm.symm⟩
    · intro h
      obtain ⟨c, hc, ⟨n, rfl⟩, hm⟩ := h
      exact ⟨n, hc, hm.symm⟩

theorem foldlM_write {fields : List Field} (hplain : ∀ f ∈ fields, '.' ∉ f.name)
    (hset : ∀ f ∈ fields, msg.properties.lookup f.name = headerOf psp f.name) :
    fields.foldlM (fun msg field ↦ field.write psp msg) msg = .ok msg' ↔
      msg' = msg ∧ ∀ f ∈ fields, ∃ c, headerOf psp f.name = some c ∧ f.Fits c := by
  induction fields with
  | nil => simp [eq_comm]
  | cons f fields ih =>
    have ih' := ih (fun g hg ↦ hplain g (by simp [hg])) fun g hg ↦ hset g (by simp [hg])
    have hf := hset f List.mem_cons_self
    rw [List.foldlM_cons, bind_eq_ok, List.forall_mem_cons]
    refine ⟨fun h ↦ ?_, fun h ↦ ?_⟩
    · obtain ⟨m, hm, h⟩ := h
      obtain ⟨c, hc, hfit, rfl⟩ := (write_eq_ok (hplain f List.mem_cons_self)).1 hm
      rw [TextMessage.set_of_lookup (hf.trans hc)] at h
      exact ⟨(ih'.1 h).1, ⟨c, hc, hfit⟩, (ih'.1 h).2⟩
    · obtain ⟨hm, ⟨c, hc, hfit⟩, hrest⟩ := h
      refine ⟨msg, (write_eq_ok (hplain f List.mem_cons_self)).2 ⟨c, hc, hfit, ?_⟩,
        ih'.2 ⟨hm, hrest⟩⟩
      exact (TextMessage.set_of_lookup (hf.trans hc)).symm

end Field

namespace Event

variable {e : Event} {msg msg' : TextMessage}

/-- The header can hold every keyword, and each field of the class has its type. -/
structure Publishable (e : Event) : Prop where
  header : ∀ n ∈ e.keywords, (headerOf e.psp n).isSome
  fits : ∀ f ∈ e.type.fields, ∃ c, headerOf e.psp f.name = some c ∧ f.Fits c

theorem Formed.field (he : e.Formed) {f : Field} (hf : f ∈ e.type.fields) :
    f.name ∈ e.keywords := he.typed (mem_typeKeywords.2 ⟨f, hf, rfl⟩)

theorem populateHeader_ok (he : e.Formed) (h : e.populateHeader msg = .ok msg') :
    e.Publishable ∧ ∀ n, msg'.properties.lookup n =
      if n ∈ e.keywords then headerOf e.psp n else msg.properties.lookup n := by
  obtain ⟨m, hm, h⟩ := bind_eq_ok.1 h
  obtain ⟨hsome, hlook⟩ := writeKeywords_ok he hm
  have hfields := (Field.foldlM_write (fun f hf ↦ he.plain _ (he.field hf))
    fun f hf ↦ by rw [hlook, if_pos (he.field hf)]).1 h
  exact ⟨⟨hsome, hfields.2⟩, hfields.1 ▸ hlook⟩

theorem populateHeader_total (he : e.Formed) (hp : e.Publishable) (msg : TextMessage) :
    ∃ msg', e.populateHeader msg = .ok msg' := by
  obtain ⟨m, hm⟩ : ∃ m, e.writeKeywords msg = .ok m := by
    refine foldlM_total TextMessage.set (fun n _ ↦ set_headerValue e.psp n) (fun n hn ↦ ?_) msg
    have hk := mem_filterable.1 hn
    obtain ⟨c, hc⟩ := Option.isSome_iff_exists.1 (hp.header n hk)
    exact ⟨c, (headerValue_ok (he.plain n hk)).2 hc⟩
  have hlook := (writeKeywords_ok he hm).2
  refine ⟨m, bind_eq_ok.2 ⟨m, hm, (Field.foldlM_write (fun f hf ↦ he.plain _ (he.field hf))
    fun f hf ↦ ?_).2 ⟨rfl, hp.fits⟩⟩⟩
  rw [hlook, if_pos (he.field hf)]

def Writable (names : Finset Str) (psp : PropertySet) : Prop :=
  ∀ n ∈ names, n ∈ psp.keys → (headerOf psp n).isSome

theorem Writable.insert {names : Finset Str} {psp : PropertySet} (h : Writable names psp) (k : Str)
    {v : Value} (hv : v.toCms.isSome) :
    Writable names (NestedMap.insert k (.leaf (.single v)) psp) := by
  intro n hn hk
  rw [headerOf, NestedMap.lookup_insert]
  by_cases hnk : n = k
  · rw [if_pos hnk]
    exact hv
  · rw [NestedMap.keys_insert, Finset.mem_insert] at hk
    rw [if_neg hnk]
    exact h n hn (hk.resolve_left hnk)

theorem Writable.fillIn {names : Finset Str} {psp : PropertySet} (h : Writable names psp) (k : Str)
    {v : Value} (hv : v.toCms.isSome) : Writable names (psp.fillIn k v) := by
  rw [PropertySet.fillIn]
  split
  · exact h
  · exact h.insert k hv

theorem Writable.fill {names : Finset Str} {ps : PropertySet} (h : Writable names ps) (now : Int64)
    (runId : Str) : Writable names (Event.fill now runId ps) := by
  have hdefaults := (h.fillIn STATUS (v := .string (lit "unknown")) rfl).fillIn EVENTTIME
    (v := .longLong now) rfl
  rw [Event.fill]
  apply Writable.insert _ _ rfl
  apply Writable.insert _ _ rfl
  apply Writable.fillIn _ _ rfl
  split
  · exact hdefaults
  · exact hdefaults.insert RUNID rfl

theorem headerOf_foldl_insert {fields : List (Str × Value)} (hv : ∀ v ∈ fields, v.2.toCms.isSome)
    {psp : PropertySet} {n : Str} (h : (headerOf psp n).isSome) :
    (headerOf (fields.foldl (fun psp v ↦ psp.insert v.1 (.leaf (.single v.2))) psp) n).isSome := by
  induction fields generalizing psp with
  | nil => exact h
  | cons v fields ih =>
    rw [List.forall_mem_cons] at hv
    refine ih hv.2 ?_
    by_cases hn : n = v.1
    · rw [headerOf, hn, NestedMap.lookup_insert_self]
      exact hv.1
    · rw [headerOf, NestedMap.lookup_insert_of_ne hn]
      exact h

theorem publishable_fill {ps : PropertySet} {runId : Str} (h : Writable (ownKeywords runId) ps)
    (now : Int64) : Publishable ⟨.event, fill now runId ps, ownKeywords runId⟩ := by
  refine ⟨fun n hn ↦ h.fill now runId n hn ?_, nofun⟩
  rw [keys_fill]
  exact Finset.mem_union_right _ hn

variable (L : Libraries) {names : List Str} {transmitter : Transmitter} {pubtime : Int64}

/-- What a published message holds: the header of the event, the destination, the time of
publication, and the custom properties as its text. -/
theorem publish_ok (he : e.Formed) (h : e.publish L names transmitter pubtime = .ok msg) :
    e.Publishable ∧ L.marshall e.getCustomPropertySet names = .ok msg.text ∧
      ∀ n, msg.properties.lookup n =
        if n = PUBTIME then some (.long pubtime)
        else if n = transmitter.getDestinationPropertyName then
          some (.string transmitter.destinationName)
        else if n ∈ e.keywords then headerOf e.psp n else none := by
  obtain ⟨m, hm, h⟩ := bind_eq_ok.1 h
  obtain ⟨m', hm', hm⟩ := bind_eq_ok.1 hm
  obtain ⟨payload, hpayload, hm⟩ := bind_eq_ok.1 hm
  cases hm
  cases h
  obtain ⟨hp, hlook⟩ := populateHeader_ok he hm'
  refine ⟨hp, hpayload, fun n ↦ ?_⟩
  rw [TextMessage.lookup_set, TextMessage.lookup_set, hlook]
  rfl

theorem publish_total (he : e.Formed) (hp : e.Publishable) {text : Str}
    (ht : L.marshall e.getCustomPropertySet names = .ok text) (transmitter : Transmitter)
    (pubtime : Int64) : ∃ msg, e.publish L names transmitter pubtime = .ok msg := by
  obtain ⟨m, hm⟩ := populateHeader_total he hp .new
  refine ⟨_, bind_eq_ok.2 ⟨_, bind_eq_ok.2 ⟨m, hm, bind_eq_ok.2 ⟨text, ht, rfl⟩⟩, rfl⟩⟩

end Event

end CtrlEvents
