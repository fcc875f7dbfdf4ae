import CtrlEvents.Events.Receipt
import CtrlEvents.Payload.Textual

namespace CtrlEvents

open Fallible Outcome

namespace PropertySet

/-- A set of primitive values only: no name leads to a nested set. -/
def Primitive (ps : PropertySet) : Prop :=
  ∀ n ∈ ps.keys, '.' ∉ n ∧ ∃ l, ps.lookup n = some (.leaf l)

theorem Primitive.combine_keys {source ps ps' : PropertySet} (hs : source.Primitive)
    (h : ps.combine source = .ok ps') : ps'.keys = ps.keys ∪ source.keys := by
  ext n
  rw [PropertySet.combine_keys h, Finset.mem_union]
  refine or_congr_right ⟨fun hn ↦ ?_, fun hn ↦ ?_⟩
  · obtain ⟨p, l, hl⟩ := hn
    exact NestedMap.mem_keys_of_leafAt hl
  · obtain ⟨-, l, hl⟩ := hs n hn
    exact ⟨[], l, NestedMap.leafAt_singleton.2 hl⟩

theorem mem_names {ps : PropertySet} {n : Str} : n ∈ ps.names ↔ n ∈ ps.keys := Finset.mem_sort _

theorem get_ne_notFound {α : Type} {ps : PropertySet} {n : Str} (hn : '.' ∉ n) (hk : n ∈ ps.keys)
    (cast : Value → Option α) (m : Str) : ps.get cast n ≠ .error (.notFoundError m) := by
  obtain ⟨s, hs⟩ := NestedMap.mem_keys.1 hk
  rw [get, find_plain hn, hs]
  cases s with
  | leaf l => cases h : cast l.back <;> simp [h]
  | maps earlier last => simp

end PropertySet

namespace Event

variable {e e' : Event}

theorem eraseKeywords_eq (keywords : Finset Str) (names : List Str) (i : ℕ) :
    eraseKeywords keywords names i =
      names.take i ++ (names.drop i).filter (· ∉ keywords) := by
  fun_induction eraseKeywords keywords names i with
  | case1 names i hi hk ih =>
    -- The keyword at `i` is erased, and the loop looks at `i` again.
    have htake : (names.eraseIdx i).take i = names.take i :=
      List.take_eraseIdx_eq_take_of_le names i i le_rfl
    have hdrop : (names.eraseIdx i).drop i = names.drop (i + 1) := by
      rw [List.eraseIdx_eq_take_drop_succ]
      exact List.drop_left' (List.length_take_of_le hi.le)
    rw [ih, htake, hdrop, List.drop_eq_getElem_cons hi, List.filter_cons_of_neg (by simpa using hk)]
  | case2 names i hi hk ih =>
    rw [ih, List.drop_eq_getElem_cons hi, List.filter_cons_of_pos (by simpa using hk),
      ← List.take_concat_get' names i hi, List.append_assoc]
    rfl
  | case3 names i hi =>
    rw [List.take_of_length_le (by omega), List.drop_eq_nil_of_le (by omega)]
    simp

theorem mem_getCustomPropertyNames {n : Str} :
    n ∈ e.getCustomPropertyNames ↔ n ∈ e.psp.keys ∧ n ∉ e.keywords := by
  rw [getCustomPropertyNames, eraseKeywords_eq]
  simp [PropertySet.mem_names]

theorem lookup_foldl_remove {names : List Str} (hplain : ∀ n ∈ names, '.' ∉ n) (ps : PropertySet)
    (n : Str) : (names.foldl (fun psp keyword ↦ psp.remove keyword) ps).lookup n =
      if n ∈ names then none else ps.lookup n := by
  induction names generalizing ps with
  | nil => simp
  | cons k names ih =>
    rw [List.foldl_cons, ih (fun m hm ↦ hplain m (List.mem_cons_of_mem k hm)),
      PropertySet.remove_plain (hplain k List.mem_cons_self), NestedMap.lookup_erase]
    by_cases hn : n ∈ names <;> by_cases hk : n = k <;> simp [hn, hk]

theorem lookup_getCustomPropertySet (hplain : ∀ n ∈ e.keywords, '.' ∉ n) (n : Str) :
    e.getCustomPropertySet.lookup n = if n ∈ e.keywords then none else e.psp.lookup n := by
  have hnames : ∀ m ∈ e.getFilterablePropertyNames, '.' ∉ m := fun m hm ↦
    hplain m (mem_filterable.1 hm)
  rw [getCustomPropertySet, lookup_foldl_remove hnames]
  simp only [mem_filterable]

theorem getCustomPropertySet_eq {custom : PropertySet} (hplain : ∀ k ∈ e.keywords, '.' ∉ k)
    (hcustom : ∀ k ∈ custom.keys, k ∉ e.keywords)
    (hlookup : ∀ k, k ∉ e.keywords → e.psp.lookup k = custom.lookup k) :
    e.getCustomPropertySet = custom := by
  apply NestedMap.ext
  intro k
  rw [lookup_getCustomPropertySet hplain]
  split
  · next hk => exact (NestedMap.lookup_eq_none.2 fun h ↦ hcustom k h hk).symm
  · next hk => exact hlookup k hk

/-- Where keywords are added that no custom property has, the custom properties stay. -/
theorem getCustomPropertySet_congr {e' : Event} (he : ∀ k ∈ e.keywords, '.' ∉ k)
    (he' : ∀ k ∈ e'.keywords, '.' ∉ k) (hsub : e.keywords ⊆ e'.keywords)
    (hcustom : ∀ k ∈ e.getCustomPropertySet.keys, k ∉ e'.keywords)
    (hlookup : ∀ k, k ∉ e'.keywords → e'.psp.lookup k = e.psp.lookup k) :
    e'.getCustomPropertySet = e.getCustomPropertySet := by
  refine getCustomPropertySet_eq he' hcustom fun k hk ↦ ?_
  rw [hlookup k hk, lookup_getCustomPropertySet he, if_neg fun h ↦ hk (hsub h)]

structure Sound (e : Event) : Prop extends e.Formed where
  exist : e.keywords ⊆ e.psp.keys

/-- The keywords and the custom names split the property set between the header and the payload,
and a message that the event is marshalled into has them so: the keywords as properties, with the
last value of each, and as its text the custom properties. -/
structure Partitioned (e : Event) : Prop where
  exist : ∀ n ∈ e.getFilterablePropertyNames, e.psp.exists' n
  disjoint : e.getFilterablePropertyNames.Disjoint e.getCustomPropertyNames
  together : ∀ n, n ∈ e.getPropertySet.names ↔
    n ∈ e.getFilterablePropertyNames ∨ n ∈ e.getCustomPropertyNames
  names : ∀ n, n ∈ e.getCustomPropertyNames ↔ n ∈ e.getCustomPropertySet.names
  values : ∀ n ∈ e.getCustomPropertyNames,
    e.getCustomPropertySet.lookup n = e.getPropertySet.lookup n
  offered : ∀ n ∈ e.getPropertySet.names,
    Xor (n ∈ e.getFilterablePropertyNames) (n ∈ e.getCustomPropertySet.names)
  header : ∀ msg missing, e.populateHeader msg ≠ .error (.notFoundError missing)
  written : ∀ L names msg msg', e.marshall L names msg = .ok msg' →
    (∀ n ∈ e.getFilterablePropertyNames, ∃ l c, e.getPropertySet.lookup n = some (.leaf l) ∧
      l.back.toCms = some c ∧ msg'.properties.lookup n = some c) ∧
    (∀ n ∉ e.getFilterablePropertyNames, msg'.properties.lookup n = msg.properties.lookup n) ∧
    L.marshall e.getCustomPropertySet names = .ok msg'.text

theorem mem_names_getCustomPropertySet (hplain : ∀ n ∈ e.keywords, '.' ∉ n) {n : Str} :
    n ∈ e.getCustomPropertySet.names ↔ n ∈ e.psp.keys ∧ n ∉ e.keywords := by
  rw [PropertySet.mem_names, NestedMap.mem_keys, lookup_getCustomPropertySet hplain,
    NestedMap.mem_keys]
  by_cases hn : n ∈ e.keywords <;> simp [hn]

theorem headerValue_ne_notFound {psp : PropertySet} {n : Str} (hn : '.' ∉ n) (hk : n ∈ psp.keys)
    (m : Str) : headerValue psp n ≠ .error (.notFoundError m) := by
  obtain ⟨s, hs⟩ := NestedMap.mem_keys.1 hk
  cases s with
  | leaf l =>
    rw [headerValue_leaf hn hs]
    cases l.back.toCms <;> simp
  | maps earlier last =>
    rw [headerValue_maps hn hs]
    simp

theorem write_ne_notFound {psp : PropertySet} {f : Field} (hn : '.' ∉ f.name)
    (hk : f.name ∈ psp.keys) (msg : TextMessage) (m : Str) :
    f.write psp msg ≠ .error (.notFoundError m) := by
  cases f with
  | text name =>
    rw [Field.write, ne_eq, bind_eq_error]
    simp [PropertySet.get_ne_notFound (n := name) hn hk]
  | number name =>
    rw [Field.write, ne_eq, bind_eq_error]
    simp [PropertySet.get_ne_notFound (n := name) hn hk]

theorem Sound.populateHeader_ne_notFound (he : e.Sound) (msg : TextMessage) (m : Str) :
    e.populateHeader msg ≠ .error (.notFoundError m) := by
  intro h
  rcases bind_eq_error.1 h with h | ⟨msg', -, h⟩
  · obtain ⟨n, hn, msg', h⟩ := error_of_foldlM h
    have hk := mem_filterable.1 hn
    rcases bind_eq_error.1 h with h | ⟨v, -, h⟩
    · exact headerValue_ne_notFound (he.plain n hk) (he.exist hk) m h
    · cases h
  · obtain ⟨f, hf, msg'', h⟩ := error_of_foldlM h
    have hk := he.field hf
    exact write_ne_notFound (he.plain _ hk) (he.exist hk) msg'' m h

theorem marshall_ok {L : Libraries} {names : List Str} {msg msg' : TextMessage} (he : e.Formed)
    (h : e.marshall L names msg = .ok msg') :
    (∀ n ∈ e.getFilterablePropertyNames, ∃ l c, e.getPropertySet.lookup n = some (.leaf l) ∧
      l.back.toCms = some c ∧ msg'.properties.lookup n = some c) ∧
    (∀ n ∉ e.getFilterablePropertyNames, msg'.properties.lookup n = msg.properties.lookup n) ∧
    L.marshall e.getCustomPropertySet names = .ok msg'.text := by
  obtain ⟨m, hm, h⟩ := bind_eq_ok.1 h
  obtain ⟨text, htext, h⟩ := bind_eq_ok.1 h
  cases h
  obtain ⟨hp, hlook⟩ := populateHeader_ok he hm
  refine ⟨fun n hn ↦ ?_, fun n hn ↦ ?_, htext⟩
  · rw [mem_filterable] at hn
    obtain ⟨c, hc⟩ := Option.isSome_iff_exists.1 (hp.header n hn)
    obtain ⟨l, hl, hv⟩ := headerOf_eq.1 hc
    exact ⟨l, c, hl, hv, by rw [hlook, if_pos hn, hc]⟩
  · rw [mem_filterable] at hn
    rw [hlook, if_neg hn]

theorem Sound.partitioned (he : e.Sound) : e.Partitioned where
  exist n hn := (PropertySet.exists_plain (he.plain n (mem_filterable.1 hn))).2
    (he.exist (mem_filterable.1 hn))
  disjoint n hn hc := (mem_getCustomPropertyNames.1 hc).2 (mem_filterable.1 hn)
  together n := by
    rw [mem_filterable, mem_getCustomPropertyNames, PropertySet.mem_names, getPropertySet]
    refine ⟨fun hn ↦ ?_, fun h ↦ ?_⟩
    · by_cases hk : n ∈ e.keywords
      · exact .inl hk
      · exact .inr ⟨hn, hk⟩
    · rcases h with hk | hc
      · exact he.exist hk
      · exact hc.1
  names n := by rw [mem_getCustomPropertyNames, mem_names_getCustomPropertySet he.plain]
  values n hn := by
    rw [lookup_getCustomPropertySet he.plain, if_neg (mem_getCustomPropertyNames.1 hn).2]
    rfl
  offered n hn := by
    have hk : n ∈ e.psp.keys := PropertySet.mem_names.1 hn
    rw [mem_filterable, mem_names_getCustomPropertySet he.plain]
    by_cases hn : n ∈ e.keywords
    · exact .inl ⟨hn, fun h ↦ h.2 hn⟩
    · exact .inr ⟨⟨hk, hn⟩, hn⟩
  header := he.populateHeader_ne_notFound
  written _ _ _ _ h := marshall_ok he.toFormed h

/-- A sound event that holds the names of the set it was made from. -/
structure Covers (e : Event) (ps : PropertySet) : Prop extends e.Sound where
  own : reserved ⊆ e.keywords
  covers : ps.keys ⊆ e.psp.keys

theorem construct_covers {now : Int64} {runId : Str} {ps filterable : PropertySet}
    (hf : filterable.Primitive) (h : construct now runId ps filterable = .ok e) :
    e.Covers ps := by
  obtain ⟨hformed, hown⟩ := construct_formed (fun n hn ↦ (hf n hn).1) h
  obtain ⟨-, hkeywords, hpsp⟩ := construct_ok h
  have hkeys : e.psp.keys = ps.keys ∪ (ownKeywords runId ∪ filterable.keys) := by
    rw [hf.combine_keys hpsp, keys_fill, Finset.union_assoc]
  refine ⟨⟨hformed, ?_⟩, hown, ?_⟩
  · rw [hkeywords, hkeys]
    exact Finset.subset_union_right
  · rw [hkeys]
    exact Finset.subset_union_left

theorem keys_foldl_insert (fields : List (Str × Value)) (psp : PropertySet) :
    (fields.foldl (fun psp v ↦ psp.insert v.1 (.leaf (.single v.2))) psp).keys =
      psp.keys ∪ (fields.map Prod.fst).toFinset := by
  induction fields generalizing psp with
  | nil => simp
  | cons v fields ih =>
    rw [List.foldl_cons, ih, NestedMap.keys_insert, List.map_cons, List.toFinset_cons,
      Finset.insert_union, Finset.union_insert]

theorem lookup_foldl_insert {fields : List (Str × Value)} {k : Str} (hk : k ∉ fields.map Prod.fst)
    (psp : PropertySet) : (fields.foldl (fun psp v ↦ psp.insert v.1 (.leaf (.single v.2)))
      psp).lookup k = psp.lookup k := by
  induction fields generalizing psp with
  | nil => rfl
  | cons v fields ih =>
    rw [List.map_cons, List.mem_cons, not_or] at hk
    rw [List.foldl_cons, ih hk.2, NestedMap.lookup_insert_of_ne hk.1]

theorem custom_extend {type : EventClass} {fields : List (Str × Value)} (he : e.Formed)
    (hr : reserved ⊆ e.keywords) (hplain : ∀ v ∈ fields, '.' ∉ v.1)
    (h : e.extend type fields = .ok e') (hfields : ∀ n ∈ fields.map Prod.fst, n ∈ e'.keywords)
    (hcustom : ∀ k ∈ e.getCustomPropertySet.keys, k ∉ type.keywords) :
    e'.getCustomPropertySet = e.getCustomPropertySet := by
  have he' := (extend_formed he hr hplain h).1
  obtain ⟨-, hkeys, hpsp⟩ := extend_ok hplain h
  refine getCustomPropertySet_congr he.plain he'.plain (hkeys ▸ Finset.subset_union_left)
    (fun k hk ↦ ?_) fun k hk ↦ ?_
  · rw [hkeys, Finset.mem_union, not_or]
    have hk' := (mem_names_getCustomPropertySet he.plain).1 (PropertySet.mem_names.2 hk)
    exact ⟨hk'.2, hcustom k hk⟩
  · rw [hpsp, lookup_foldl_insert fun h ↦ hk (hfields k h)]

theorem Covers.extend {ps : PropertySet} {type : EventClass} (he : e.Covers ps)
    (pre : List (Str × Value)) (hpre : pre.map Prod.fst ⊆ type.fields.map Field.name)
    (htype : ∀ f ∈ type.fields, f.name ∈ e.psp.keys ∨ f.name ∈ pre.map Prod.fst)
    (h : e.extend type (pre ++ [(TYPE, .string type.typeName)]) = .ok e') : e'.Covers ps := by
  have hplain := plain_fields (v := Value.string type.typeName) hpre
  obtain ⟨hformed, hown⟩ := extend_formed he.toFormed he.own hplain h
  obtain ⟨-, hkeywords, hpsp⟩ := extend_ok hplain h
  have hkeys : e'.psp.keys = e.psp.keys ∪ (pre.map Prod.fst ++ [TYPE]).toFinset := by
    rw [hpsp, keys_foldl_insert, List.map_append]
    rfl
  refine ⟨⟨hformed, ?_⟩, hown, ?_⟩
  · rw [hkeywords, hkeys]
    refine Finset.union_subset (he.exist.trans Finset.subset_union_left) fun n hn ↦ ?_
    obtain ⟨f, hf, rfl⟩ := mem_typeKeywords.1 hn
    rcases htype f hf with hk | hk
    · exact Finset.mem_union_left _ hk
    · exact Finset.mem_union_right _ (List.mem_toFinset.2 (List.mem_append_left _ hk))
  · rw [hkeys]
    exact he.covers.trans Finset.subset_union_left

variable (L : Libraries) (C : Cms)

theorem read_keys {f : Field} (hn : '.' ∉ f.name) {msg : TextMessage} {psp psp' : PropertySet}
    (h : f.read C msg psp = .ok psp') : psp'.keys = insert f.name psp.keys := by
  cases f with
  | text name =>
    obtain ⟨s, -, h⟩ := bind_eq_ok.1 h
    rw [PropertySet.set_plain (n := name) hn] at h
    cases h
    exact NestedMap.keys_insert ..
  | number name =>
    obtain ⟨n, -, h⟩ := bind_eq_ok.1 h
    rw [PropertySet.set_plain (n := name) hn] at h
    cases h
    exact NestedMap.keys_insert ..

theorem foldlM_read_keys {fields : List Field} (hplain : ∀ f ∈ fields, '.' ∉ f.name)
    {msg : TextMessage} {psp psp' : PropertySet}
    (h : fields.foldlM (Field.read C msg) psp = .ok psp') :
    psp'.keys = psp.keys ∪ (fields.map Field.name).toFinset := by
  induction fields generalizing psp with
  | nil =>
    cases h
    simp
  | cons f fields ih =>
    rw [List.foldlM_cons, bind_eq_ok] at h
    obtain ⟨psp₁, h₁, h⟩ := h
    rw [ih (fun g hg ↦ hplain g (List.mem_cons_of_mem f hg)) h,
      read_keys C (hplain f List.mem_cons_self) h₁, List.map_cons, List.toFinset_cons,
      Finset.insert_union, Finset.union_insert]

theorem assemble_sound {type : EventClass} {msg : TextMessage} {psp : PropertySet}
    (hm : ∀ n ∈ msg.names, '.' ∉ n) (h : assemble C type msg psp = .ok e) : e.Sound := by
  obtain ⟨psp₁, h₁, h⟩ := bind_eq_ok.1 h
  obtain ⟨psp₂, h₂, h⟩ := bind_eq_ok.1 h
  cases h
  have hmem : ∀ n, n ∈ msg.properties.keys ↔ n ∈ msg.names := fun n ↦ by
    rw [TextMessage.names, Finset.mem_sort]
  have hkeys : psp₂.keys = psp₁.keys ∪ type.keywords := foldlM_read_keys C
    (fun f hf ↦ plain_typeKeywords type _ (mem_typeKeywords.2 ⟨f, hf, rfl⟩)) h₂
  refine ⟨⟨fun n hn ↦ ?_, Finset.subset_union_right⟩, ?_⟩
  · rcases Finset.mem_union.1 hn with hn | hn
    · exact hm n ((hmem n).1 hn)
    · exact plain_typeKeywords type n hn
  · dsimp only
    rw [hkeys]
    refine Finset.union_subset_union_left fun n hn ↦ ?_
    obtain ⟨v, hv⟩ := TextMessage.mem_names.1 ((hmem n).1 hn)
    obtain ⟨w, -, hl⟩ := (readProperties_ok hm h₁).1 n v hv
    exact NestedMap.mem_keys.2 ⟨_, hl⟩

/-- Every event that a constructor makes from sets that it can take, or from a message. -/
inductive Constructed : Event → Prop
  | event {now : Int64} {runId : Str} {ps filterable : PropertySet} {e : Event}
      (hf : filterable.Primitive) (h : construct now runId ps filterable = .ok e) : Constructed e
  | status {now : Int64} {runId : Str} {originator : LocationId} {ps filterable : PropertySet}
      {e : Event} (hf : filterable.Primitive)
      (h : constructStatus now runId originator ps filterable = .ok e) : Constructed e
  | command {now : Int64} {runId : Str} {originator destination : LocationId}
      {ps filterable : PropertySet} {e : Event} (hf : filterable.Primitive)
      (h : constructCommand now runId originator destination ps filterable = .ok e) : Constructed e
  | log {now : Int64} {originator : LocationId} {ps : PropertySet} {e : Event}
      (hlevel : LEVEL ∈ ps.keys) (hlogger : LOGGER ∈ ps.keys)
      (h : constructLog now originator ps = .ok e) : Constructed e
  | message {type : EventClass} {calls : ℕ} {msg : TextMessage} {e : Event}
      (hm : ∀ n ∈ msg.names, '.' ∉ n) (h : ofMessage L C type calls msg = ret e) : Constructed e

section Subclass

variable {now : Int64} {runId : Str} {originator destination : LocationId}
  {ps filterable : PropertySet}

theorem constructStatus_covers (hf : filterable.Primitive)
    (h : constructStatus now runId originator ps filterable = .ok e) : e.Covers ps := by
  obtain ⟨e₀, h₀, h⟩ := bind_eq_ok.1 h
  exact (construct_covers hf h₀).extend [_, _, _] (List.Subset.refl _)
    (fun f hf ↦ .inr (List.mem_map_of_mem hf)) h

theorem constructCommand_covers (hf : filterable.Primitive)
    (h : constructCommand now runId originator destination ps filterable = .ok e) :
    e.Covers ps := by
  obtain ⟨e₀, h₀, h⟩ := bind_eq_ok.1 h
  exact (construct_covers hf h₀).extend [_, _, _, _, _, _] (List.Subset.refl _)
    (fun f hf ↦ .inr (List.mem_map_of_mem hf)) h

theorem primitive_empty : (∅ : PropertySet).Primitive := fun n hn ↦
  absurd hn (Finset.notMem_empty n)

theorem constructLog_covers (hlevel : LEVEL ∈ ps.keys) (hlogger : LOGGER ∈ ps.keys)
    (h : constructLog now originator ps = .ok e) : e.Covers ps := by
  obtain ⟨e₀, h₀, h⟩ := bind_eq_ok.1 h
  have hcovers := constructStatus_covers primitive_empty h₀
  refine hcovers.extend [] (List.nil_subset _) (fun f hf ↦ .inl ?_) h
  rcases List.mem_append.1 hf with hf | hf
  · refine hcovers.exist (hcovers.field ?_)
    rw [constructStatus_type h₀]
    exact hf
  · rcases List.mem_pair.1 hf with rfl | rfl
    · exact hcovers.covers hlevel
    · exact hcovers.covers hlogger

end Subclass

theorem Constructed.sound (h : Constructed L C e) : e.Sound := by
  cases h with
  | event hf h => exact (construct_covers hf h).toSound
  | status hf h => exact (constructStatus_covers hf h).toSound
  | command hf h => exact (constructCommand_covers hf h).toSound
  | log hlevel hlogger h => exact (constructLog_covers hlevel hlogger h).toSound
  | message hm h =>
    obtain ⟨psp, -, h⟩ := Outcome.bind_eq_ret.1 h
    exact assemble_sound C hm (liftM_eq_ret.1 h)

inductive Setter
  | setEventTime (nsecs : Int64)
  | updateEventTime (now : Int64)
  | setRunId (runId : Str)
  | setStatus (status : Str)
  | setTopic (topic : Str)
  | setPubTime (t : Int64)

def Setter.call (e : Event) : Setter → Except Exn Event
  | setEventTime nsecs => e.setEventTime nsecs
  | updateEventTime now => e.updateEventTime now
  | setRunId runId => e.setRunId runId
  | setStatus status => e.setStatus status
  | setTopic topic => e.setTopic topic
  | setPubTime t => e.setPubTime t

theorem Sound.setProperty {name : Str} {v : Value} (he : e.Formed) (hn : '.' ∉ name)
    (hk : e.keywords ⊆ insert name e.psp.keys) (h : e.setProperty name v = .ok e') : e'.Sound := by
  rw [Event.setProperty, PropertySet.set_plain hn] at h
  cases h
  refine ⟨⟨he.plain, he.typed⟩, ?_⟩
  rw [NestedMap.keys_insert]
  exact hk

theorem Sound.call (he : e.Sound) (setter : Setter) (h : setter.call e = .ok e') : e'.Sound := by
  have hset : ∀ {name : Str} {v : Value}, '.' ∉ name → e.setProperty name v = .ok e' → e'.Sound :=
    fun hn h ↦ .setProperty he.toFormed hn (he.exist.trans (Finset.subset_insert _ _)) h
  cases setter with
  | setEventTime nsecs => exact hset plain_eventTime h
  | updateEventTime now => exact hset plain_eventTime h
  | setStatus status => exact hset (by decide +kernel) h
  | setTopic topic => exact hset (by decide +kernel) h
  | setPubTime t => exact hset (by decide +kernel) h
  | setRunId runId =>
    have hplain : '.' ∉ RUNID := by decide +kernel
    have hformed : Formed { e with keywords := insert RUNID e.keywords } :=
      ⟨Finset.forall_mem_insert _ _ _ |>.2 ⟨hplain, he.plain⟩,
        he.typed.trans (Finset.subset_insert _ _)⟩
    exact .setProperty hformed hplain (Finset.insert_subset_insert _ he.exist) h

/-- Whatever constructor made an event, and whatever setters were called on it, its properties are
split between the header and the payload. -/
theorem partitioned_of_calls (h : Constructed L C e) (setters : List Setter)
    (hcalls : setters.foldlM (fun e setter ↦ setter.call e) e = .ok e') : e'.Partitioned :=
  (keep_of_foldlM (fun setter _ _ _ he h ↦ he.call setter h) h.sound hcalls).partitioned

theorem partitioned_of_calls_sample :
    let ps : PropertySet := (∅ : PropertySet).insert (lit "FOO") (.leaf (.single (.int 7)))
    let filterable : PropertySet :=
      (∅ : PropertySet).insert (lit "BAR") (.leaf (.single (.string (lit "x"))))
    ∃ e e', constructStatus 5 [] ⟨lit "host", 1, 2⟩ ps filterable = .ok e ∧
      [Setter.setRunId (lit "run"), .setPubTime 9].foldlM (fun e s ↦ s.call e) e = .ok e' ∧
      e'.Partitioned := by
  intro ps filterable
  have hprimitive : filterable.Primitive := by
    intro n hn
    rw [NestedMap.keys_insert, NestedMap.keys_empty, insert_empty_eq, Finset.mem_singleton] at hn
    rw [hn]
    exact ⟨by decide +kernel, _, NestedMap.lookup_insert_self ..⟩
  obtain ⟨e, he⟩ : ∃ e, constructStatus 5 [] ⟨lit "host", 1, 2⟩ ps filterable = .ok e := by
    have hnew : lit "BAR" ∉ ps.keys := by decide +kernel
    have hown : lit "BAR" ∉ ownKeywords [] := by decide +kernel
    rw [constructStatus, construct_single hnew hown, ok_bind, extend_eq (by decide +kernel)]
    exact ⟨_, rfl⟩
  obtain ⟨e', he'⟩ : ∃ e', [Setter.setRunId (lit "run"), .setPubTime 9].foldlM
      (fun e setter ↦ setter.call e) e = .ok e' := by
    have hrun : '.' ∉ RUNID := by decide +kernel
    have hpub : '.' ∉ PUBTIME := by decide +kernel
    simp only [List.foldlM_cons, List.foldlM_nil, Setter.call, setRunId, setPubTime, setProperty,
      PropertySet.set_plain hrun, PropertySet.set_plain hpub, ok_bind, Fallible.pure_eq]
    exact ⟨_, rfl⟩
  exact ⟨e, e', he, he',
    partitioned_of_calls Textual.libraries .strict (.status hprimitive he) _ he'⟩

end Event

end CtrlEvents
