import CtrlEvents.Events.Receipt

namespace CtrlEvents

open Fallible

namespace Field

variable (C : Cms) {msg : TextMessage} {psp psp' : PropertySet}

/-- What a field of a class is read as from a message. -/
def received (msg : TextMessage) : Field → Except Exn Value
  | text name => (msg.getStringProperty C name).map .string
  | number name => (msg.getIntProperty C name).map .int

def Takes : Field → Value → Prop
  | text _, v => ∃ s, v = .string s
  | number _, v => ∃ n, v = .int n

theorem read_eq {f : Field} (hf : '.' ∉ f.name) (psp : PropertySet) : f.read C msg psp =
    (f.received C msg).map fun w ↦ psp.insert f.name (.leaf (.single w)) := by
  cases f with
  | text name =>
    rw [read, received]
    cases msg.getStringProperty C name with
    | error x => rfl
    | ok s => exact PropertySet.set_plain hf _
  | number name =>
    rw [read, received]
    cases msg.getIntProperty C name with
    | error x => rfl
    | ok n => exact PropertySet.set_plain hf _

theorem foldlM_read_ok {fields : List Field} (hplain : ∀ f ∈ fields, '.' ∉ f.name)
    (h : fields.foldlM (fun psp f ↦ f.read C msg psp) psp = .ok psp') (n : Str) :
    (∀ f ∈ fields, f.name ≠ n) ∧ psp'.lookup n = psp.lookup n ∨
      ∃ f ∈ fields, f.name = n ∧ ∃ w, f.received C msg = .ok w ∧
        psp'.lookup n = some (.leaf (.single w)) := by
  induction fields generalizing psp with
  | nil =>
    cases h
    exact .inl ⟨nofun, rfl⟩
  | cons f fields ih =>
    rw [List.foldlM_cons, bind_eq_ok, read_eq C (hplain f List.mem_cons_self)] at h
    obtain ⟨psp₁, hf, h⟩ := h
    rcases ih (fun g hg ↦ hplain g (List.mem_cons_of_mem f hg)) h with ⟨hne, hl⟩ | ⟨g, hg, hr⟩
    · cases hw : f.received C msg with
      | error x =>
        rw [hw] at hf
        cases hf
      | ok w =>
        rw [hw] at hf
        cases hf
        by_cases hn : f.name = n
        · refine .inr ⟨f, List.mem_cons_self, hn, w, hw, ?_⟩
          rw [hl, ← hn, NestedMap.lookup_insert_self]
        · refine .inl ⟨List.forall_mem_cons.2 ⟨hn, hne⟩, ?_⟩
          rw [hl, NestedMap.lookup_insert_of_ne fun he ↦ hn he.symm]
    · exact .inr ⟨g, List.mem_cons_of_mem f hg, hr⟩

def convert : Field → CmsValue → Option Value
  | text _, c => (C.toText c).map .string
  | number _, c => (C.toNumber c).map .int

theorem received_eq_ok {f : Field} {c : CmsValue} {w : Value}
    (hc : msg.properties.lookup f.name = some c) :
    f.received C msg = .ok w ↔ f.convert C c = some w := by
  cases f with
  | text name =>
    have hc : msg.properties.lookup name = some c := hc
    rw [received, TextMessage.getStringProperty, hc, Option.bind_eq_bind, Option.bind_some, convert]
    cases C.toText c <;> simp [Except.map]
  | number name =>
    have hc : msg.properties.lookup name = some c := hc
    rw [received, TextMessage.getIntProperty, hc, Option.bind_eq_bind, Option.bind_some, convert]
    cases C.toNumber c <;> simp [Except.map]

/-- A property that is read once more as a field keeps its value exactly if it is of the field's
own type. -/
theorem convert_iff {f : Field} {v w : Value} {c : CmsValue} (hv : v.toCms = some c)
    (hw : f.convert C c = some w) : w = v.widen ↔ f.Takes v := by
  cases f with
  | text name =>
    obtain ⟨s, hs, rfl⟩ := Option.map_eq_some_iff.1 hw
    constructor
    · intro h
      cases v <;> cases h
      exact ⟨s, rfl⟩
    · rintro ⟨s', rfl⟩
      cases hv
      rw [C.toText_string] at hs
      cases hs
      rfl
  | number name =>
    obtain ⟨n, hn, rfl⟩ := Option.map_eq_some_iff.1 hw
    constructor
    · intro h
      cases v <;> cases h
      exact ⟨n, rfl⟩
    · rintro ⟨n', rfl⟩
      cases hv
      rw [C.toNumber_integer] at hn
      cases hn
      rfl

theorem eq_of_name {type : EventClass} {f g : Field} (hf : f ∈ type.fields) (hg : g ∈ type.fields)
    (h : f.name = g.name) : f = g := by
  have hnd : (type.fields.map name).Nodup := by
    cases type <;> decide +kernel
  exact List.inj_on_of_nodup_map hnd hf hg h

theorem property_of_received {f : Field} {w : Value} (h : f.received C msg = .ok w) :
    ∃ c, msg.properties.lookup f.name = some c := by
  rw [← Option.ne_none_iff_exists']
  intro hnone
  cases f with
  | text name =>
    have hnone : msg.properties.lookup name = none := hnone
    rw [received, TextMessage.getStringProperty, hnone] at h
    cases h
  | number name =>
    have hnone : msg.properties.lookup name = none := hnone
    rw [received, TextMessage.getIntProperty, hnone] at h
    cases h

theorem foldlM_received {fields : List Field} (hplain : ∀ f ∈ fields, '.' ∉ f.name)
    (h : ∀ f ∈ fields, ∃ w, f.received C msg = .ok w) (psp : PropertySet) :
    ∃ psp', fields.foldlM (read C msg) psp = .ok psp' :=
  foldlM_total (fun psp f (w : Value) ↦ psp.insert f.name (.leaf (.single w)))
    (fun f hf psp ↦ read_eq C (hplain f hf) psp) h psp

end Field

end CtrlEvents
