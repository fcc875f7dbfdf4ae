import CtrlEvents.Payload.RoundTrip

namespace CtrlEvents

open Layout PropertySet

theorem PropertySet.Lists.perm {ps : PropertySet} {names names' : List Str} (h : ps.Lists names)
    (hperm : names.Perm names') : ps.Lists names' :=
  ⟨hperm.nodup_iff.1 h.1, fun name ↦ hperm.mem_iff.symm.trans (h.2 name)⟩

namespace Libraries

variable (L : Libraries) {ps : PropertySet} {names : List Str}

/-- A tree that holds the leaves of a property set, each in a node of its own with one entry for
each value, and nothing else. -/
structure Holds (ps : PropertySet) (t : Tree) : Prop where
  leaf : ∀ p l, ps.leafAt p = some l → ∃ tag, l.kind.tag = some tag ∧ t.getChild p =
    some (.node [] (l.values.map fun v ↦ (tag, .node (L.putValue v) [])))
  own : ∀ p q l l', ps.leafAt p = some l → ps.leafAt q = some l' → p <+: q → p = q
  only : ∀ p u, Ptree.Along p t u →
    (t.getChild p = some u ∧ (p = [] ∨ ∃ q l, ps.leafAt q = some l ∧ p <+: q)) ∨
      ∃ q l tag v, ps.leafAt q = some l ∧ l.kind.tag = some tag ∧ v ∈ l.values ∧
        p = q ++ [tag] ∧ u = .node (L.putValue v) []

/-- Each `put_child` makes its node where there was none, and leaves the nodes of the names before
it as they are. -/
def NeverOverwrites (ps : PropertySet) (names : List Str) : Prop :=
  ∀ pre name post, names = pre ++ name :: post → ∃ s s', L.marshallTree ps pre = .ok s ∧
    L.marshallName ps s name = .ok s' ∧ s.getChild (segments name) = none ∧
    ∀ earlier ∈ pre, ∃ u, s.getChild (segments earlier) = some u ∧
      s'.getChild (segments earlier) = some u

variable {L}

variable (L) in
/-- A tree that holds what is written of the leaves of a property set, and nothing else. -/
structure HoldsWritten (ps : PropertySet) (t : Tree) : Prop where
  leaf : ∀ p l, ps.leafAt p = some l → ∃ tag, l.kind.tag = some tag ∧ t.getChild p =
    some (.node [] ((written l).map fun v ↦ (tag, .node (L.putValue v) [])))
  only : ∀ p u, Ptree.Along p t u →
    (t.getChild p = some u ∧ (p = [] ∨ ∃ q l, ps.leafAt q = some l ∧ p <+: q)) ∨
      ∃ q l tag v, ps.leafAt q = some l ∧ l.kind.tag = some tag ∧ v ∈ written l ∧
        p = q ++ [tag] ∧ u = .node (L.putValue v) []

theorem along_render {l : Leaf} {tag : Str} (ht : l.kind.tag = some tag) {r : List Str} {u : Tree}
    (hr : r ≠ []) (hu : Ptree.Along r (L.render l) u) :
    ∃ v ∈ written l, r = [tag] ∧ u = .node (L.putValue v) [] := by
  obtain _ | ⟨k, r⟩ := r
  · exact absurd rfl hr
  obtain ⟨s, hs, hu⟩ := hu
  rw [L.render_written ht, Ptree.children, List.mem_map] at hs
  obtain ⟨v, hv, he⟩ := hs
  obtain ⟨rfl, rfl⟩ := Prod.mk.inj he
  obtain _ | ⟨k, r⟩ := r
  · exact ⟨v, hv, rfl, hu⟩
  · obtain ⟨s, hs, -⟩ := hu
    cases hs

variable (hn : ps.Lists names) (hp : ps.Addressed)
  (hk : ∀ p l, ps.leafAt p = some l → l.kind.tag.isSome)

include hn hp hk

theorem holdsWritten_of_lays {t : Tree} (h : Lays L.render (ps.listed names) t) :
    L.HoldsWritten ps t where
  leaf p l hl := by
    obtain ⟨tag, ht⟩ := Option.isSome_iff_exists.1 (hk p l hl)
    refine ⟨tag, ht, ?_⟩
    rw [h.getChild_of_mem ((mem_listed hn hp).2 hl), L.render_written ht]
  only p u hu := by
    rcases h.along hu with ⟨hget, hp'⟩ | ⟨q, r, l, hq, rfl, hr, hu⟩
    · refine .inl ⟨hget, hp'.imp_right ?_⟩
      rintro ⟨⟨q, l⟩, hq, hpre⟩
      exact ⟨q, l, (mem_listed hn hp).1 hq, hpre⟩
    · have hl := (mem_listed hn hp).1 hq
      obtain ⟨tag, ht⟩ := Option.isSome_iff_exists.1 (hk q l hl)
      obtain ⟨v, hv, rfl, rfl⟩ := along_render ht hr hu
      exact .inr ⟨q, l, tag, v, hl, ht, hv, rfl, rfl⟩

omit hn hp hk in
theorem HoldsWritten.holds {t : Tree} (h : L.HoldsWritten ps t)
    (hd : ∀ p l, ps.leafAt p = some l → l.kind ≠ .dateTime) : L.Holds ps t where
  leaf p l hl := by
    have hleaf := h.leaf p l hl
    rwa [written, if_neg (hd p l hl)] at hleaf
  own _ _ _ _ hl hl' hpq := NestedMap.leafAt_prefix hl hl' hpq
  only p u hu := by
    refine (h.only p u hu).imp_right ?_
    rintro ⟨q, l, tag, v, hl, ht, hv, hq⟩
    rw [written, if_neg (hd q l hl)] at hv
    exact ⟨q, l, tag, v, hl, ht, hv, hq⟩

theorem holds_of_lays (hd : ∀ p l, ps.leafAt p = some l → l.kind ≠ .dateTime) {t : Tree}
    (h : Lays L.render (ps.listed names) t) : L.Holds ps t :=
  (holdsWritten_of_lays hn hp hk h).holds hd

theorem neverOverwrites : L.NeverOverwrites ps names := by
  rintro pre name post rfl
  have hname : name ∈ pre ++ name :: post := by simp
  have hpre' : pre ++ [name] <+: pre ++ name :: post := ⟨post, by simp⟩
  obtain ⟨s, hs, hlays⟩ := L.marshallTree_lays_of_prefix hn hp hk (List.prefix_append pre _)
  obtain ⟨s', hs', hlays'⟩ := L.marshallTree_lays_of_prefix hn hp hk hpre'
  obtain ⟨l, hl, hne, -⟩ := leafAt_segments hn hp hname
  have hlisted : ps.listed (pre ++ name :: post) =
      ps.listed pre ++ (segments name, l) :: ps.listed post := by
    simp [listed, hl]
  have hap := listed_pairwise hn hp
  rw [hlisted, List.pairwise_append] at hap
  refine ⟨s, s', hs, ?_, ?_, fun earlier he ↦ ?_⟩
  · rw [marshallTree, List.foldlM_append, ← marshallTree, hs, Fallible.ok_bind, List.foldlM_cons,
      Fallible.bind_eq_ok] at hs'
    obtain ⟨s₁, hname, hs'⟩ := hs'
    cases hs'
    exact hname
  · exact hlays.getChild_eq_none hne fun e he ↦ hap.2.2 e he _ List.mem_cons_self
  · obtain ⟨l', hl', -⟩ := leafAt_segments hn hp (List.mem_append_left _ he)
    have hmem : (segments earlier, l') ∈ ps.listed pre :=
      List.mem_filterMap.2 ⟨earlier, he, by rw [hl']; rfl⟩
    refine ⟨L.render l', hlays.getChild_of_mem hmem, hlays'.getChild_of_mem ?_⟩
    rw [listed, List.filterMap_append]
    exact List.mem_append_left _ hmem

end Libraries

variable (L : Libraries) {ps : PropertySet} {names names' : List Str}

/-- Two orders of the names give trees that differ in the order of siblings at most. In either,
each leaf has a node of its own, which no other leaf overwrites. -/
theorem marshallTree_orders (hp : ps.Addressed)
    (hd : ∀ p l, ps.leafAt p = some l → l.kind ≠ .dateTime) (hn : ps.Lists names)
    (hn' : ps.Lists names') {t : Tree} (h : L.marshallTree ps names = .ok t) :
    ∃ t', L.marshallTree ps names' = .ok t' ∧ Reordered L.render t t' ∧
      (L.Holds ps t ∧ L.Holds ps t') ∧
      L.NeverOverwrites ps names ∧ L.NeverOverwrites ps names' := by
  have hk := L.tag_of_marshallTree hn hp h
  obtain ⟨t₁, h₁, hlays⟩ := L.marshallTree_lays hn hp hk
  obtain ⟨t', h', hlays'⟩ := L.marshallTree_lays hn' hp hk
  rw [h] at h₁
  cases h₁
  refine ⟨t', h', hlays.reordered hlays' fun e ↦ ?_, ⟨?_, ?_⟩, ?_, ?_⟩
  · exact (mem_listed hn hp).trans (mem_listed hn' hp).symm
  · exact Libraries.holds_of_lays hn hp hk hd hlays
  · exact Libraries.holds_of_lays hn' hp hk hd hlays'
  · exact Libraries.neverOverwrites hn hp hk
  · exact Libraries.neverOverwrites hn' hp hk

theorem marshallTree_orders_sample :
    let hosts : Leaf := ⟨[.string (lit "a"), .string (lit "b")], by simp, by simp [Value.kind]⟩
    let ps : PropertySet :=
      (nest (lit "SITE") (lit "HOST") hosts).insert (lit "int") (.leaf (.single (.int 7)))
    let names := [lit "int", dotted [lit "SITE", lit "HOST"]]
    let L := Textual.libraries
    ∃ t t', L.marshallTree ps names = .ok t ∧ L.marshallTree ps names.reverse = .ok t' ∧
      Reordered L.render t t' ∧ (L.Holds ps t ∧ L.Holds ps t') ∧
      L.NeverOverwrites ps names ∧ L.NeverOverwrites ps names.reverse := by
  intro hosts ps names L
  have hps : Payload ps := payload_site (by simp [hosts, Value.Sendable])
  have hn : ps.Lists names := lists_site hosts
  obtain ⟨t, ht, -⟩ := L.marshallTree_lays hn hps.addressed hps.tag
  obtain ⟨t', ht', h⟩ := marshallTree_orders L hps.addressed
    (fun p l hl ↦ ((hps.sendable p l hl l.back l.back_mem).tag).choose_spec.2) hn
    (hn.perm (List.reverse_perm names).symm) ht
  exact ⟨t, t', ht, ht', h⟩

end CtrlEvents
