import CtrlEvents.Payload.Orders

namespace CtrlEvents

open Outcome PropertySet

namespace PropertySet

variable {ps ps' : PropertySet}

/-- The encoder has a tag for every leaf of a set, and finds it by its dotted name. -/
structure Marshallable (ps : PropertySet) : Prop where
  addressed : ps.Addressed
  tagged : ∀ p l, ps.leafAt p = some l → l.kind.tag.isSome

theorem marshallable_empty : (∅ : PropertySet).Marshallable :=
  ⟨fun p l hl ↦ by simp [NestedMap.leafAt_empty] at hl,
    fun p l hl ↦ by simp [NestedMap.leafAt_empty] at hl⟩

/-- What an entry brings to a set that is to stay marshallable. -/
def Fit (e : Entry) : Prop := ∀ r l, NestedMap.slotLeafAt e r = some l →
  (∀ n ∈ r, '.' ∉ n) ∧ l.kind.tag.isSome

theorem fit_leaf {l : Leaf} (h : l.kind.tag.isSome) : Fit (.leaf l) := by
  intro r l' hl
  rw [NestedMap.slotLeafAt] at hl
  split at hl
  · next hr =>
    cases hl
    rw [hr]
    exact ⟨List.forall_mem_nil _, h⟩
  · cases hl

theorem Marshallable.fit (h : ps.Marshallable) (earlier : List PropertySet) :
    Fit (.maps earlier ps) := fun r l hl ↦ ⟨h.addressed r l hl, h.tagged r l hl⟩

theorem Fit.append {e e' r : Entry} (h : Fit e) (hr : e'.append e = some r) : Fit r := by
  cases e with
  | leaf l =>
    cases e' with
    | maps earlier last => cases hr
    | leaf l' =>
      obtain ⟨l₁, hl₁, rfl⟩ := Option.map_eq_some_iff.1 hr
      have hkind : l₁.kind = l.kind := by
        rw [Leaf.kind, Leaf.back_append hl₁, Leaf.kind]
      exact fit_leaf (hkind ▸ (h [] l rfl).2)
  | maps earlier last =>
    cases e' with
    | leaf l' => cases hr
    | maps earlier' last' =>
      cases hr
      exact h

theorem Marshallable.setAt (hps : ps.Marshallable) {p : List Str} (hp : ∀ n ∈ p, '.' ∉ n)
    {e : Entry} (he : Fit e) (h : ps.setAt p e = .ok ps') : ps'.Marshallable := by
  unfold PropertySet.setAt at h
  split at h
  · next hput =>
    cases h
    refine ⟨fun q l hl ↦ ?_, fun q l hl ↦ ?_⟩
    · rcases NestedMap.leafAt_of_put hput hl with hold | ⟨r, rfl, hnew⟩
      · exact hps.addressed q l hold
      · exact List.forall_mem_append.2 ⟨hp, (he r l hnew).1⟩
    · rcases NestedMap.leafAt_of_put hput hl with hold | ⟨r, rfl, hnew⟩
      · exact hps.tagged q l hold
      · exact (he r l hnew).2
  · cases h

theorem Marshallable.addAt (hps : ps.Marshallable) {p : List Str} (hp : ∀ n ∈ p, '.' ∉ n)
    {e : Entry} (he : Fit e) (h : ps.addAt p e = .ok ps') : ps'.Marshallable := by
  unfold PropertySet.addAt at h
  split at h
  · exact hps.setAt hp he h
  · split at h
    · next happend => exact hps.setAt hp (he.append happend) h
    · cases h

end PropertySet

namespace Libraries

open PropertySet

variable (L : Libraries) {ps ps' : PropertySet}

theorem kind_of_itemValue {typeInfo : Str} {item : Tree} {v : Value}
    (h : L.itemValue typeInfo item = some (.ok v)) : v.kind.tag = some typeInfo := by
  have hmap : ∀ {α : Type} {tag : Str} (f : α → Value) {x : Except Exn α}, typeInfo = tag →
      (∀ a, (f a).kind.tag = some tag) → some (f <$> x) = some (.ok v) →
      v.kind.tag = some typeInfo := by
    rintro α tag f x rfl hf hx
    cases x with
    | error e => cases hx
    | ok a =>
      cases hx
      exact hf a
  unfold itemValue at h
  split_ifs at h with hs hb hl hll hi hf hd ht
  · exact hmap Value.string hs (fun _ ↦ rfl) h
  · exact hmap Value.bool hb (fun _ ↦ rfl) h
  · exact hmap Value.long hl (fun _ ↦ rfl) h
  · exact hmap Value.longLong hll (fun _ ↦ rfl) h
  · exact hmap Value.int hi (fun _ ↦ rfl) h
  · exact hmap Value.float hf (fun _ ↦ rfl) h
  · exact hmap Value.double hd (fun _ ↦ rfl) h
  · obtain ⟨n, -, h⟩ := Fallible.bind_eq_ok.1 (Option.some.inj h)
    obtain ⟨t, -, h⟩ := Fallible.bind_eq_ok.1 h
    cases h
    rw [ht]
    rfl

theorem addItems_marshallable {nested : Outcome Exn PropertySet} {label : Str}
    {items : List (Str × Tree)} (hnested : ∀ sub, nested = ret sub → sub.Marshallable)
    (hps : ps.Marshallable) (h : L.addItems nested label items ps = ret ps') :
    ps'.Marshallable := by
  induction items generalizing ps with
  | nil =>
    cases h
    exact hps
  | cons item items ih =>
    obtain ⟨typeInfo, item⟩ := item
    cases hi : L.itemValue typeInfo item with
    | none =>
      rw [L.addItems_nested _ hi] at h
      obtain ⟨sub, hsub, h⟩ := bind_eq_ret.1 h
      exact hps.addAt (segments_dotless label) ((hnested sub hsub).fit []) (liftM_eq_ret.1 h)
    | some value =>
      rw [L.addItems_data _ hi] at h
      obtain ⟨v, hv, h⟩ := bind_eq_ret.1 h
      obtain ⟨ps₁, hadd, h⟩ := bind_eq_ret.1 h
      rw [liftM_eq_ret.1 hv] at hi
      have htag : (Leaf.single v).kind.tag.isSome := by
        rw [show (Leaf.single v).kind = v.kind from rfl, L.kind_of_itemValue hi]
        rfl
      exact ih (hps.addAt (segments_dotless label) (fit_leaf htag) (liftM_eq_ret.1 hadd)) h

theorem parsePropertySet_marshallable {calls : ℕ} {t : Tree}
    (h : L.parsePropertySet calls t = ret ps) : ps.Marshallable := by
  induction calls generalizing t ps with
  | zero => cases h
  | succ calls ih =>
    refine keep_of_foldlM (p := PropertySet.Marshallable) (fun v _ psp psp' hpsp hround ↦ ?_)
      marshallable_empty h
    obtain ⟨node, -, hround⟩ := bind_eq_ret.1 hround
    exact L.addItems_marshallable (fun sub hsub ↦ ih hsub) hpsp hround

theorem unmarshall_marshallable {calls : ℕ} {text : Str}
    (h : L.unmarshall calls text = ret ps) : ps.Marshallable := by
  unfold unmarshall at h
  split at h
  · refine keep_of_foldlM (p := PropertySet.Marshallable) (fun v _ psp psp' hpsp hround ↦ ?_)
      marshallable_empty h
    exact L.addItems_marshallable (fun sub hsub ↦ L.parsePropertySet_marshallable hsub) hpsp hround
  · cases h

end Libraries

variable (L : Libraries) {ps : PropertySet} {names : List Str}

/-- Whatever text comes in, the encoder can write the set that the decoder makes of it, in whatever
order the names are listed: the new text is read back as a tree of all that is written of the
leaves. -/
theorem decoded_marshalls {calls : ℕ} {text : Str} (h : L.unmarshall calls text = ret ps)
    (hn : ps.Lists names) : ∃ text' t, L.marshall ps names = .ok text' ∧
      L.readJson text' = some t ∧ L.HoldsWritten ps t := by
  have hps := L.unmarshall_marshallable h
  obtain ⟨text', t, htext, hread, hlays⟩ := L.marshall_reads hn hps.addressed hps.tagged
  exact ⟨text', t, htext, hread, Libraries.holdsWritten_of_lays hn hps.addressed hps.tagged hlays⟩

theorem decoded_marshalls_sample :
    let hosts : Leaf := ⟨[.string (lit "a"), .string (lit "b")], by simp, by simp [Value.kind]⟩
    let ps : PropertySet := nest (lit "SITE") (lit "HOST") hosts
    ∃ text calls text' t, Textual.libraries.unmarshall calls text = ret ps ∧
      Textual.libraries.marshall ps [dotted [lit "SITE", lit "HOST"]] = .ok text' ∧
      Textual.libraries.readJson text' = some t ∧ Textual.libraries.HoldsWritten ps t := by
  intro hosts ps
  have hpayload : Payload ps := payload_nest (by simp [Plain, lit]) (by simp [Plain, lit])
    (by simp [hosts, Value.Sendable])
  have hn : ps.Lists [dotted [lit "SITE", lit "HOST"]] := lists_nest _ _ _
  obtain ⟨text, -, calls, hdecode⟩ := hpayload.unmarshall_clear Textual.libraries hn
    (hpayload.clear hn fun p l hl n hmem ↦ by
      rw [(leafAt_nest.1 hl).1, List.tail_cons, List.mem_singleton] at hmem
      simp [hmem, tagWords, lit])
  obtain ⟨text', t, ht⟩ := decoded_marshalls Textual.libraries (hdecode calls le_rfl) hn
  exact ⟨text, calls, text', t, hdecode calls le_rfl, ht⟩

end CtrlEvents
