import CtrlEvents.Payload.RoundTrip

namespace CtrlEvents

open Layout Outcome PropertySet

variable (L : Libraries) {ps : PropertySet} {names : List Str}

/-- If the decoder returns a set with no names of its own making, it came to no nested set that
begins with a tag. -/
theorem clear_of_parsePropertySet {es : List (List Str × Leaf)} {t : Tree}
    (h : Lays L.render es t) (hne : ∀ e ∈ es, e.1 ≠ []) (hplain : ∀ e ∈ es, ∀ n ∈ e.1, Plain n)
    {calls : ℕ} {r : PropertySet} (hr : L.parsePropertySet calls t = ret r)
    (hsub : ∀ p l, r.leafAt p = some l → ∃ l', (p, l') ∈ es) : Clear (es.map Prod.fst) := by
  induction h generalizing calls r with
  | leaf a => exact absurd rfl (hne ([], a) List.mem_cons_self)
  | @node es children _ hkeys hlays ih =>
    obtain _ | calls := calls
    · cases hr
    intro p hp k hk
    obtain _ | ⟨n, q⟩ := p
    · exact absurd rfl hp
    rw [stepAfter_cons] at hk
    obtain ⟨s, hs⟩ := mem_of_stepAfter hk
    obtain ⟨⟨path, l⟩, hl, hpath⟩ := List.mem_map.1 hs
    have hn : n ∈ children.map Prod.fst := by
      rw [hkeys]
      exact mem_heads.2 ⟨path, l, mem_under.1 hl⟩
    obtain ⟨v, hv, rfl⟩ := List.mem_map.1 hn
    have hentry := ((L.parsePropertySet_node hkeys hplain calls r).1 hr).1 v hv
    rcases (hlays v.1 v.2 hv).cases (List.ne_nil_of_mem hl) with
      ⟨l', hl', -⟩ | ⟨hne', m, t, cs, ht, hm⟩
    · rw [hl', List.mem_singleton, Prod.mk.injEq] at hl
      rw [hl.1] at hpath
      exact absurd hpath.symm (by simp)
    · have htag : m ∉ tagWords := by
        intro hmem
        rw [ht] at hentry
        obtain ⟨l', hl'⟩ := L.entryOf_tag _ hmem hentry
        obtain ⟨l'', hl''⟩ := hsub [v.1] l' (NestedMap.leafAt_singleton.2 hl')
        exact hne' _ (mem_under.2 hl'') rfl
      obtain _ | ⟨j, q⟩ := q
      · rw [hm, Option.some_inj] at hk
        exact hk ▸ htag
      · rw [ht, Ptree.children, L.entryOf_notTag _ htag cs] at hentry
        obtain ⟨sub, hret, he⟩ := bind_eq_ret.1 hentry
        have hlook : r.lookup v.1 = some (.maps [] sub) := by injection he with he; exact he.symm
        refine ih v.1 v.2 hv hne' (Libraries.of_mem_under hplain v.1) (ht ▸ hret)
          (fun p l' hp ↦ ?_) (j :: q) (List.cons_ne_nil j q) k hk
        rw [← NestedMap.leafAt_cons_maps hlook] at hp
        obtain ⟨l'', hl''⟩ := hsub _ l' hp
        exact ⟨l'', mem_under.2 hl''⟩

def PropertySet.count (ps : PropertySet) (p : List Str) : Option ℕ :=
  (ps.leafAt p).map fun l ↦ l.values.length

theorem Payload.clear_of_unmarshall (h : Payload ps) (hn : ps.Lists names) {text : Str}
    (htext : L.marshall ps names = .ok text) {r : PropertySet}
    (hr : Settles (L.unmarshall · text) (ret r)) (hcount : ∀ p, r.count p = ps.count p) :
    Clear (names.map segments) := by
  obtain ⟨text', t, htext', hlays, hparse⟩ := L.marshall_unmarshall hn h.plain h.tag
  rw [htext] at htext'
  cases htext'
  obtain ⟨calls, hcalls⟩ := hr
  rw [← map_fst_listed hn h.addressed]
  refine clear_of_parsePropertySet L hlays (listed_ne_nil hn h.addressed) (listed_plain hn h.plain)
    ((hparse calls).symm.trans (hcalls calls le_rfl)) fun p l hl ↦ ?_
  have hc := hcount p
  rw [count, hl, Option.map_some, count, eq_comm, Option.map_eq_some_iff] at hc
  obtain ⟨l', hl', -⟩ := hc
  exact ⟨l', (mem_listed hn h.addressed).2 hl'⟩

/-- The decoder accepts what the encoder emits, with the same names and as many values under each,
exactly if no nested set's first name, in the order of the encoder, is a tag. -/
theorem unmarshall_accepts_iff (h : Payload ps) (hn : ps.Lists names) :
    (∃ text r, L.marshall ps names = .ok text ∧ Settles (L.unmarshall · text) (ret r) ∧
      ∀ p, r.count p = ps.count p) ↔
    ∀ p, p ≠ [] → ∀ k, stepAfter p (names.map segments) = some k → k ∉ tagWords := by
  refine ⟨fun ⟨text, r, htext, hr, hcount⟩ ↦ h.clear_of_unmarshall L hn htext hr hcount,
    fun hclear ↦ ?_⟩
  obtain ⟨text, htext, hr⟩ := h.unmarshall_clear L hn hclear
  exact ⟨text, ps, htext, hr, fun _ ↦ rfl⟩

theorem unmarshall_accepts_iff_sample :
    let l : Leaf := .single (.string (lit "x"))
    (∃ text r, Textual.libraries.marshall (nest (lit "A") (lit "int") l)
        [dotted [lit "A", lit "int"]] = .ok text ∧
      Settles (Textual.libraries.unmarshall · text) (ret r) ∧
      ∀ p, r.count p = (nest (lit "A") (lit "int") l).count p) ↔
    ∀ p, p ≠ [] → ∀ k, stepAfter p ([dotted [lit "A", lit "int"]].map segments) = some k →
      k ∉ tagWords :=
  unmarshall_accepts_iff Textual.libraries
    (payload_nest (by decide +kernel) (by decide +kernel) (by simp [Leaf.single, Value.Sendable]))
    (lists_nest _ _ _)

theorem unmarshall_rejects : ¬ ∀ (L : Libraries) (ps : PropertySet) (names : List Str),
    Payload ps → ps.Lists names →
      ∃ text r, L.marshall ps names = .ok text ∧ Settles (L.unmarshall · text) (ret r) ∧
        ∀ p, r.count p = ps.count p := by
  intro hall
  have h : Payload (nest (lit "A") (lit "int") (.single (.string (lit "x")))) :=
    payload_nest (by decide +kernel) (by decide +kernel) (by simp [Leaf.single, Value.Sendable])
  have hn := lists_nest (lit "A") (lit "int") (.single (.string (lit "x")))
  obtain ⟨text, r, htext, hr, hcount⟩ := hall Textual.libraries _ _ h hn
  have hclear := h.clear_of_unmarshall _ hn htext hr hcount
  exact hclear [lit "A"] (List.cons_ne_nil _ _) (lit "int") (by decide +kernel) (by decide +kernel)

end CtrlEvents
