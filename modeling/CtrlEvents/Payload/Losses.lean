import CtrlEvents.Payload.RoundTrip

namespace CtrlEvents

open Layout PropertySet

theorem PropertySet.Sendable.congr {ps ps' : PropertySet} (h : ps.Sendable)
    (hl : ∀ p, ps.leafAt p = ps'.leafAt p) : ps'.Sendable :=
  ⟨fun p l hp ↦ h.addressed p l ((hl p).trans hp), fun p l hp ↦ h.values p l ((hl p).trans hp)⟩

namespace PropertySet

variable {ps ps' : PropertySet} {names : List Str}

theorem exists_lists (hp : ps.Addressed) : ∃ names, ps.Lists names := by
  refine ⟨ps.leaves.map fun e ↦ dotted e.1, ?_, fun name ↦ ?_⟩
  · refine List.Nodup.map_on ?_ (NestedMap.nodup_leaves ps)
    rintro ⟨p, l⟩ h ⟨q, l'⟩ h' he
    have hl := NestedMap.mem_leaves.1 h
    have hl' := NestedMap.mem_leaves.1 h'
    obtain rfl : p = q := dotted_inj (NestedMap.ne_nil_of_leafAt hl)
      (NestedMap.ne_nil_of_leafAt hl') (hp p l hl) (hp q l' hl') he
    rw [Option.some_inj.1 (hl.symm.trans hl')]
  · simp only [List.mem_map, Prod.exists, NestedMap.mem_leaves, eq_comm]

theorem Lists.congr (hn : ps.Lists names) (h : ∀ p, ps.leafAt p = ps'.leafAt p) :
    ps'.Lists names :=
  ⟨hn.1, fun name ↦ by simp only [hn.2, h]⟩

theorem listed_congr (h : ∀ p, ps.leafAt p = ps'.leafAt p) (names : List Str) :
    ps.listed names = ps'.listed names := by
  simp only [listed, h]

end PropertySet

namespace Libraries

variable (L : Libraries)

theorem items_render {l : Leaf} (hs : ∀ v ∈ l.values, v.Sendable) :
    (L.render l).children.map (fun x ↦ L.itemValue x.1 x.2) =
      l.values.map fun v ↦ some (.ok v) := by
  obtain ⟨tag, ht, hd⟩ := (hs l.back l.back_mem).tag
  rw [L.render_of_tag hd ht, Ptree.children, List.map_map]
  refine List.map_congr_left fun v hv ↦ ?_
  exact L.itemValue_putValue (hs v hv) ((congrArg Kind.tag (l.kind_eq hv)).trans ht)

theorem render_inj {l l' : Leaf} (hs : ∀ v ∈ l.values, v.Sendable)
    (hs' : ∀ v ∈ l'.values, v.Sendable) (h : L.render l = L.render l') : l = l' := by
  have hitems := (L.items_render hs).symm.trans (h ▸ L.items_render hs')
  refine Leaf.ext (List.map_injective_iff.2 (fun v w hvw ↦ ?_) hitems)
  injection hvw with hvw
  injection hvw

theorem render_children_ne_nil (l : Leaf) : (L.render l).children ≠ [] := by
  unfold render
  split
  · exact List.cons_ne_nil _ _
  · exact fun h ↦ l.nonempty (List.map_eq_nil_iff.1 h)

theorem render_flat (l : Leaf) (k : Str) (s : Tree) (h : (k, s) ∈ (L.render l).children) :
    s.children = [] := by
  unfold render at h
  split at h
  · cases List.mem_singleton.1 h
    rfl
  · obtain ⟨v, -, hv⟩ := List.mem_map.1 h
    cases hv
    rfl

variable {ps ps' : PropertySet} {names names' : List Str}

theorem marshall_congr (h : ps.Sendable) (h' : ps'.Sendable)
    (hl : ∀ p, ps.leafAt p = ps'.leafAt p) (hn : ps.Lists names) :
    L.marshall ps names = L.marshall ps' names := by
  have htree : L.marshallTree ps names = L.marshallTree ps' names := by
    rw [marshallTree, L.foldlM_marshallName hn h.addressed h.tag fun _ hname ↦ hname,
      listed_congr hl, marshallTree]
    exact (L.foldlM_marshallName (hn.congr hl) h'.addressed h'.tag (fun _ hname ↦ hname) _).symm
  rw [marshall, htree, marshall]

theorem leafAt_of_marshall (h : ps.Sendable) (h' : ps'.Sendable) (hn : ps.Lists names)
    (hn' : ps'.Lists names') {text : Str} (ht : L.marshall ps names = .ok text)
    (ht' : L.marshall ps' names' = .ok text) {p : List Str} {l : Leaf}
    (hl : ps.leafAt p = some l) : ps'.leafAt p = some l := by
  obtain ⟨text₁, t, htext, hread, hlays⟩ := L.marshall_reads hn h.addressed h.tag
  obtain ⟨text₂, t', htext', hread', hlays'⟩ := L.marshall_reads hn' h'.addressed h'.tag
  have hmem : ∀ p l, (p, l) ∈ ps.listed names ↔ ps.leafAt p = some l := fun _ _ ↦
    mem_listed hn h.addressed
  have hmem' : ∀ p l, (p, l) ∈ ps'.listed names' ↔ ps'.leafAt p = some l := fun _ _ ↦
    mem_listed hn' h'.addressed
  -- Both texts are read back as one tree, which lays out the leaves of either set.
  rw [ht] at htext
  rw [ht'] at htext'
  cases htext
  cases htext'
  cases hread.symm.trans hread'
  refine (hmem' p l).1 (hlays.mem_of_mem L.render_children_ne_nil L.render_flat hlays' ?_
    ((hmem p l).2 hl))
  intro e he e' he' hr
  exact L.render_inj (h.values _ _ ((hmem _ _).1 he)) (h'.values _ _ ((hmem' _ _).1 he')) hr

end Libraries

variable (L : Libraries) {ps ps' : PropertySet}

/-- Equal texts stand for equal sets exactly if equal leaves do: the text has all of the leaves and
nothing of the nested sets around them. -/
theorem marshall_loses_iff (h : ps.Sendable) (h' : ps'.Sendable) :
    ((∀ names names' text, ps.Lists names → ps'.Lists names' → L.marshall ps names = .ok text →
      L.marshall ps' names' = .ok text → ps = ps') ↔
        ((∀ p, ps.leafAt p = ps'.leafAt p) → ps = ps')) ∧
      (ps.Tidy → ps'.Tidy → (∀ p, ps.leafAt p = ps'.leafAt p) → ps = ps') := by
  refine ⟨⟨fun hall hl ↦ ?_, fun hall names names' text hn hn' ht ht' ↦ ?_⟩,
    fun htidy htidy' hl ↦ htidy.ext_leaves htidy' hl⟩
  · obtain ⟨names, hn⟩ := exists_lists h.addressed
    obtain ⟨text, t, htext, -⟩ := L.marshall_reads hn h.addressed h.tag
    exact hall names names text hn (hn.congr hl) htext ((L.marshall_congr h h' hl hn) ▸ htext)
  · refine hall fun p ↦ Option.ext fun l ↦ ⟨fun hl ↦ ?_, fun hl ↦ ?_⟩
    · exact L.leafAt_of_marshall h h' hn hn' ht ht' hl
    · exact L.leafAt_of_marshall h' h hn' hn ht' ht hl

/-- Two nested sets under one name; only the last is on the way to leaves. -/
def twoNested : PropertySet :=
  (∅ : PropertySet).insert (lit "A")
    (.maps [(∅ : PropertySet).insert (lit "B") (.leaf (.single (.int 1)))]
      ((∅ : PropertySet).insert (lit "B") (.leaf (.single (.int 2)))))

def lastNested : PropertySet := nest (lit "A") (lit "B") (.single (.int 2))

theorem sendable_lastNested : lastNested.Sendable :=
  (payload_nest (by decide +kernel) (by decide +kernel)
    (by simp [Leaf.single, Value.Sendable])).toSendable

theorem leafAt_twoNested (p : List Str) : lastNested.leafAt p = twoNested.leafAt p := by
  rw [lastNested, nest, twoNested]
  exact NestedMap.leafAt_earlier ..

theorem marshall_loses_iff_sample :
    ((∀ names names' text, lastNested.Lists names → twoNested.Lists names' →
      Textual.libraries.marshall lastNested names = .ok text →
      Textual.libraries.marshall twoNested names' = .ok text → lastNested = twoNested) ↔
        ((∀ p, lastNested.leafAt p = twoNested.leafAt p) → lastNested = twoNested)) ∧
      (lastNested.Tidy → twoNested.Tidy → (∀ p, lastNested.leafAt p = twoNested.leafAt p) →
        lastNested = twoNested) :=
  marshall_loses_iff Textual.libraries sendable_lastNested
    (sendable_lastNested.congr leafAt_twoNested)

theorem marshall_loses : ¬ ∀ (L : Libraries) (ps ps' : PropertySet) (names names' : List Str)
    (text : Str), ps.Sendable → ps'.Sendable → ps.Lists names → ps'.Lists names' →
      L.marshall ps names = .ok text → L.marshall ps' names' = .ok text → ps = ps' := by
  intro hall
  have h := sendable_lastNested
  have h' := h.congr leafAt_twoNested
  have hn : lastNested.Lists [dotted [lit "A", lit "B"]] := lists_nest _ _ _
  have hn' := hn.congr leafAt_twoNested
  obtain ⟨text, t, ht, -⟩ := Textual.libraries.marshall_reads hn h.addressed h.tag
  have ht' := (Textual.libraries.marshall_congr h h' leafAt_twoNested hn).symm.trans ht
  have heq := hall Textual.libraries _ _ _ _ text h h' hn hn' ht ht'
  have hlookup := congrArg (NestedMap.lookup (lit "A")) heq
  rw [lastNested, nest, twoNested, NestedMap.lookup_insert_self,
    NestedMap.lookup_insert_self] at hlookup
  simp at hlookup

end CtrlEvents
