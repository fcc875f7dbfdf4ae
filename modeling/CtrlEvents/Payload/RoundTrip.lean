import CtrlEvents.Payload.LaidOut
import CtrlEvents.Payload.Textual

namespace CtrlEvents

open Layout Outcome PropertySet

/-- The values that keep their type and content on the way through a payload. -/
def Value.Sendable : Value → Prop
  | .bool _ | .int _ | .long _ | .longLong _ | .string _ => True
  | .float x => Finite32 x
  | .double x => Finite64 x
  | _ => False

/-- A set of sendable values. Its nested sets may be empty, and several may be under one name. -/
structure PropertySet.Sendable (ps : PropertySet) : Prop where
  addressed : ps.Addressed
  values : ∀ p l, ps.leafAt p = some l → ∀ v ∈ l.values, v.Sendable

structure Payload (ps : PropertySet) : Prop where
  tidy : ps.Tidy
  plain : ∀ p l, ps.leafAt p = some l → ∀ n ∈ p, Plain n
  sendable : ∀ p l, ps.leafAt p = some l → ∀ v ∈ l.values, v.Sendable

theorem Payload.addressed {ps : PropertySet} (h : Payload ps) : ps.Addressed :=
  addressed_of_plain h.plain

theorem Payload.toSendable {ps : PropertySet} (h : Payload ps) : ps.Sendable :=
  ⟨h.addressed, h.sendable⟩

theorem payload_empty : Payload ∅ := by
  refine ⟨NestedMap.tidy_empty, ?_, ?_⟩ <;> simp [NestedMap.leafAt_empty]

theorem Payload.insert_leaf {ps : PropertySet} (h : Payload ps) {n : Str} (hn : Plain n) {l : Leaf}
    (hl : ∀ v ∈ l.values, v.Sendable) : Payload (ps.insert n (.leaf l)) := by
  refine ⟨h.tidy.insert_leaf n l, fun p l' hp ↦ ?_, fun p l' hp ↦ ?_⟩
  · rcases NestedMap.leafAt_insert_leaf_cases hp with ⟨rfl, -⟩ | hp
    · simpa using hn
    · exact h.plain p l' hp
  · rcases NestedMap.leafAt_insert_leaf_cases hp with ⟨-, rfl⟩ | hp
    · exact hl
    · exact h.sendable p l' hp

theorem Payload.insert_maps {ps sub : PropertySet} (h : Payload ps) (hsub : Payload sub)
    (hne : sub.keys.Nonempty) {n : Str} (hn : Plain n) : Payload (ps.insert n (.maps [] sub)) := by
  have hcases : ∀ {p l}, (ps.insert n (.maps [] sub)).leafAt p = some l →
      (∃ q, p = n :: q ∧ sub.leafAt q = some l) ∨ ps.leafAt p = some l := by
    intro p l hp
    obtain _ | ⟨k, q⟩ := p
    · cases hp
    · rw [NestedMap.leafAt_insert_maps] at hp
      split at hp
      · next hk => exact .inl ⟨q, hk ▸ rfl, hp⟩
      · exact .inr hp
  refine ⟨h.tidy.insert_maps hsub.tidy hne n, fun p l hp ↦ ?_, fun p l hp ↦ ?_⟩
  · rcases hcases hp with ⟨q, rfl, hq⟩ | hp
    · exact List.forall_mem_cons.2 ⟨hn, hsub.plain q l hq⟩
    · exact h.plain p l hp
  · rcases hcases hp with ⟨q, -, hq⟩ | hp
    · exact hsub.sendable q l hq
    · exact h.sendable p l hp

theorem payload_single {n : Str} (hn : Plain n) {v : Value} (hv : v.Sendable) :
    Payload ((∅ : PropertySet).insert n (.leaf (.single v))) :=
  payload_empty.insert_leaf hn (by simpa [Leaf.single] using hv)

theorem payload_nest {a b : Str} {l : Leaf} (ha : Plain a) (hb : Plain b)
    (hl : ∀ v ∈ l.values, v.Sendable) : Payload (nest a b l) where
  tidy := tidy_nest a b l
  plain p l' hp n hn := by
    rw [(leafAt_nest.1 hp).1] at hn
    rcases List.mem_pair.1 hn with rfl | rfl
    · exact ha
    · exact hb
  sendable p l' hp := (leafAt_nest.1 hp).2 ▸ hl

theorem Value.Sendable.tag {v : Value} (h : v.Sendable) :
    ∃ tag, v.kind.tag = some tag ∧ v.kind ≠ .dateTime := by
  cases v with
  | bool => exact ⟨_, rfl, nofun⟩
  | int => exact ⟨_, rfl, nofun⟩
  | long => exact ⟨_, rfl, nofun⟩
  | longLong => exact ⟨_, rfl, nofun⟩
  | float => exact ⟨_, rfl, nofun⟩
  | double => exact ⟨_, rfl, nofun⟩
  | string => exact ⟨_, rfl, nofun⟩
  | short => cases h
  | dateTime => cases h
  | byte => cases h
  | other => cases h

theorem PropertySet.Sendable.tag {ps : PropertySet} (h : ps.Sendable) (p : List Str) (l : Leaf)
    (hl : ps.leafAt p = some l) : l.kind.tag.isSome := by
  obtain ⟨tag, ht, -⟩ := (h.values p l hl l.back l.back_mem).tag
  rw [Leaf.kind, ht]
  rfl

theorem Payload.tag {ps : PropertySet} (h : Payload ps) (p : List Str) (l : Leaf)
    (hl : ps.leafAt p = some l) : l.kind.tag.isSome := h.toSendable.tag p l hl

variable {es : List (List Str × Leaf)}

/-- What the decoder makes of the paths below a label: their leaf, or a set of just these
leaves. -/
def Stands (es : List (List Str × Leaf)) : Entry → Prop
  | .leaf l => es = [([], l)]
  | .maps earlier last => earlier = [] ∧ last.keys.Nonempty ∧ last.Tidy ∧
      ∀ p l, last.leafAt p = some l ↔ (p, l) ∈ es

theorem leafAt_of_stands {r : PropertySet} {k : Str} {e : Entry} (hr : r.lookup k = some e)
    (h : Stands (under k es) e) (p : List Str) (l : Leaf) :
    r.leafAt (k :: p) = some l ↔ (k :: p, l) ∈ es := by
  rw [← mem_under]
  cases e with
  | leaf l' =>
    rw [Stands] at h
    rw [h, NestedMap.leafAt_cons_leaf hr]
    by_cases hp : p = [] <;> simp [hp, eq_comm]
  | maps earlier last =>
    rw [NestedMap.leafAt_cons_maps hr]
    exact h.2.2.2 p l

/-- No nested set begins with a tag, in the order in which its names are listed. -/
def Clear (paths : List (List Str)) : Prop :=
  ∀ p, p ≠ [] → ∀ k, stepAfter p paths = some k → k ∉ tagWords

theorem Clear.under {k : Str} (h : Clear (es.map Prod.fst)) :
    Clear ((under k es).map Prod.fst) := fun p _ n hn ↦
  h (k :: p) (List.cons_ne_nil k p) n ((stepAfter_cons k p es).trans hn)

theorem tidy_of_stands {r : PropertySet} (hne : ∀ e ∈ es, e.1 ≠ [])
    (hsome : ∀ k ∈ heads es, ∃ e, r.lookup k = some e ∧ Stands (under k es) e)
    (hnone : ∀ k, k ∉ heads es → r.lookup k = none) :
    r.Tidy ∧ ∀ p l, r.leafAt p = some l ↔ (p, l) ∈ es := by
  have hmaps : ∀ n earlier last, r.lookup n = some (.maps earlier last) →
      Stands (under n es) (.maps earlier last) := by
    intro n earlier last hn
    have hmem : n ∈ heads es := by
      by_contra hnot
      rw [hnone n hnot] at hn
      cases hn
    obtain ⟨e, he, hst⟩ := hsome n hmem
    rw [hn] at he
    cases he
    exact hst
  refine ⟨.intro (fun n e l h ↦ (hmaps n e l h).1) (fun n e l h ↦ (hmaps n e l h).2.1)
    fun n e l h ↦ (hmaps n e l h).2.2.1, fun p l ↦ ?_⟩
  cases p with
  | nil =>
    rw [NestedMap.leafAt_nil]
    exact iff_of_false nofun fun hmem ↦ hne _ hmem rfl
  | cons k p =>
    by_cases hk : k ∈ heads es
    · obtain ⟨e, he, hst⟩ := hsome k hk
      exact leafAt_of_stands he hst p l
    · rw [NestedMap.leafAt_cons_none (hnone k hk)]
      exact iff_of_false nofun fun hmem ↦ hk (mem_heads.2 ⟨p, l, hmem⟩)

namespace Libraries

variable (L : Libraries)

theorem itemValue_putValue {tag : Str} {v : Value} (h : v.Sendable) (ht : v.kind.tag = some tag) :
    L.itemValue tag (.node (L.putValue v) []) = some (.ok v) := by
  have hget : ∀ {α : Type} (get : Str → Option α) (text : Str) (a : α), get text = some a →
      Ptree.getValue get (.node text []) = .ok a := by
    intro α get text a ha
    rw [Ptree.getValue, Ptree.data, ha]
  cases v with
  | bool b =>
    cases ht
    simp only [itemValue, putValue, lit_inj, hget _ _ b (L.bool.get_put b trivial)]
    rfl
  | int n =>
    cases ht
    simp only [itemValue, putValue, lit_inj, hget _ _ n (L.int.get_put n trivial)]
    rfl
  | long n =>
    cases ht
    simp only [itemValue, putValue, lit_inj, hget _ _ n (L.long.get_put n trivial)]
    rfl
  | longLong n =>
    cases ht
    simp only [itemValue, putValue, lit_inj, hget _ _ n (L.longLong.get_put n trivial)]
    rfl
  | float x =>
    cases ht
    simp only [itemValue, putValue, lit_inj, hget _ _ x (L.float.get_put x h)]
    rfl
  | double x =>
    cases ht
    simp only [itemValue, putValue, lit_inj, hget _ _ x (L.double.get_put x h)]
    rfl
  | string s =>
    cases ht
    simp only [itemValue, putValue, if_true]
    rfl
  | short n => cases h
  | dateTime t => cases h
  | byte b => cases h
  | other type value => cases h

section

variable (nested : Outcome Exn PropertySet) (label : Str)

theorem entryOf_values {tag : Str} {vs : List Value} {l : Leaf} (ht : l.kind.tag = some tag)
    (hs : ∀ v ∈ vs, v.Sendable) (hk : ∀ v ∈ vs, v.kind = l.kind) :
    ∃ l' : Leaf, l'.values = l.values ++ vs ∧
      L.entryOf nested label (vs.map fun v ↦ (tag, .node (L.putValue v) [])) (some (.leaf l)) =
        ret (some (.leaf l')) := by
  induction vs generalizing l with
  | nil => exact ⟨l, by simp, rfl⟩
  | cons v vs ih =>
    have hv := hk v (by simp)
    obtain ⟨l₁, hl₁⟩ : ∃ l₁, l.append (.single v) = some l₁ :=
      Option.isSome_iff_exists.1 (Leaf.append_isSome.2 hv)
    have hkind : l₁.kind = l.kind := by
      rw [Leaf.kind, Leaf.back_append hl₁]
      exact hv
    obtain ⟨l', hl', he⟩ := ih (l := l₁) (hkind ▸ ht) (fun w hw ↦ hs w (by simp [hw]))
      fun w hw ↦ (hk w (by simp [hw])).trans hkind.symm
    refine ⟨l', ?_, ?_⟩
    · rw [hl', Leaf.append_values hl₁, List.append_assoc]
      rfl
    · rw [List.map_cons, entryOf, L.itemValue_putValue (hs v (by simp)) (hv ▸ ht)]
      simp only [grow, Slot.append, hl₁, Option.map_some, liftM_ok, ret_bind]
      exact he

theorem entryOf_render {l : Leaf} (hs : ∀ v ∈ l.values, v.Sendable) :
    L.entryOf nested label (L.render l).children none = ret (some (.leaf l)) := by
  obtain ⟨tag, ht, hd⟩ : ∃ tag, l.kind.tag = some tag ∧ l.kind ≠ .dateTime :=
    (hs l.back l.back_mem).tag
  have hk : ∀ v ∈ l.values, v.kind = l.kind := fun v hv ↦ l.kind_eq hv
  rw [L.render_of_tag hd ht, Ptree.children]
  cases hvs : l.values with
  | nil => exact absurd hvs l.nonempty
  | cons v vs =>
    rw [hvs] at hs hk
    have hv := hk v (by simp)
    obtain ⟨l', hl', he⟩ := L.entryOf_values nested label (l := .single v) (hv.symm ▸ ht)
      (fun w hw ↦ hs w (List.mem_cons_of_mem v hw))
      fun w hw ↦ (hk w (List.mem_cons_of_mem v hw)).trans hv.symm
    have hll : l' = l := Leaf.ext (by rw [hl', hvs]; rfl)
    rw [List.map_cons, entryOf,
      L.itemValue_putValue (hs v (by simp)) (hv.symm ▸ ht)]
    simp only [grow, liftM_ok, ret_bind]
    rw [he, hll]

theorem entryOf_clear {t : Tree} (h : Lays L.render es t) (hes : es ≠ [])
    (hsend : ∀ e ∈ es, ∀ v ∈ e.2.values, v.Sendable)
    (hfirst : ∀ k, stepAfter [] (es.map Prod.fst) = some k → k ∉ tagWords)
    (hnested : (∀ e ∈ es, e.1 ≠ []) → ∃ r, nested = ret r ∧ r.Tidy ∧
      ∀ p l, r.leafAt p = some l ↔ (p, l) ∈ es) :
    ∃ e, Stands es e ∧ L.entryOf nested label t.children none = ret (some e) := by
  rcases h.cases hes with ⟨l, rfl, rfl⟩ | ⟨hne, n, s, cs, rfl, hn⟩
  · exact ⟨.leaf l, rfl, L.entryOf_render _ _ (hsend _ List.mem_cons_self)⟩
  · obtain ⟨r, rfl, htidy, hleaf⟩ := hnested hne
    refine ⟨.maps [] r, ⟨rfl, ?_, htidy, hleaf⟩, L.entryOf_notTag _ (hfirst n hn) cs⟩
    obtain ⟨⟨p, l⟩, hpl⟩ := List.exists_mem_of_ne_nil _ hes
    obtain _ | ⟨k, q⟩ := p
    · exact absurd rfl (hne _ hpl)
    · exact ⟨k, NestedMap.mem_keys_of_leafAt ((hleaf _ l).2 hpl)⟩

end

/-- The decoder turns a clear layout of sendable leaves into the set of these leaves. -/
theorem parsePropertySet_clear {t : Tree} (h : Lays L.render es t) (hne : ∀ e ∈ es, e.1 ≠ [])
    (hplain : ∀ e ∈ es, ∀ n ∈ e.1, Plain n) (hsend : ∀ e ∈ es, ∀ v ∈ e.2.values, v.Sendable)
    (hclear : Clear (es.map Prod.fst)) {calls : ℕ} (hc : t.height < calls) :
    ∃ r, L.parsePropertySet calls t = ret r ∧ r.Tidy ∧
      ∀ p l, r.leafAt p = some l ↔ (p, l) ∈ es := by
  induction h generalizing calls with
  | leaf a => exact absurd rfl (hne ([], a) List.mem_cons_self)
  | @node es children _ hkeys hsub ih =>
    obtain ⟨calls, rfl⟩ : ∃ n, calls = n + 1 := ⟨calls - 1, by omega⟩
    have hentry : ∀ v ∈ children, ∃ e, Stands (under v.1 es) e ∧
        L.entryOf (L.parsePropertySet calls v.2) v.1 v.2.children none = ret (some e) := by
      intro v hv
      have hsend' : ∀ e ∈ under v.1 es, ∀ w ∈ e.2.values, w.Sendable := fun e he ↦
        hsend (v.1 :: e.1, e.2) (mem_under.1 he)
      have hlt : v.2.height < calls := by
        have hv := Ptree.height_lt_of_mem hv
        rw [Ptree.height] at hc
        omega
      refine L.entryOf_clear _ _ (hsub v.1 v.2 hv)
        (under_ne_nil (hkeys ▸ List.mem_map_of_mem hv)) hsend' (fun k hk ↦ ?_) fun hne' ↦ ?_
      · exact hclear [v.1] (List.cons_ne_nil _ _) k ((stepAfter_cons v.1 [] es).trans hk)
      · exact ih v.1 v.2 hv hne' (of_mem_under hplain v.1) hsend' hclear.under hlt
    obtain ⟨r, hr⟩ := L.parsePropertySet_node_total hkeys hplain calls fun v hv ↦
      ⟨_, (hentry v hv).choose_spec.2⟩
    have hlookup := (L.parsePropertySet_node hkeys hplain calls r).1 hr
    refine ⟨r, hr, tidy_of_stands hne (fun k hk ↦ ?_) hlookup.2⟩
    rw [← hkeys] at hk
    obtain ⟨v, hv, rfl⟩ := List.mem_map.1 hk
    obtain ⟨e, he, hent⟩ := hentry v hv
    have hret := (hlookup.1 v hv).symm.trans hent
    exact ⟨e, by injection hret, he⟩

end Libraries

variable (L : Libraries) {ps : PropertySet} {names : List Str}

theorem Payload.unmarshall_clear (h : Payload ps) (hn : ps.Lists names)
    (hclear : Clear (names.map segments)) : ∃ text, L.marshall ps names = .ok text ∧
      Settles (L.unmarshall · text) (ret ps) := by
  obtain ⟨text, t, htext, hlays, hparse⟩ := L.marshall_unmarshall hn h.plain h.tag
  have hmem : ∀ p l, (p, l) ∈ ps.listed names ↔ ps.leafAt p = some l := fun p l ↦
    mem_listed hn h.addressed
  have hsend : ∀ e ∈ ps.listed names, ∀ v ∈ e.2.values, v.Sendable := fun e he ↦
    h.sendable _ _ ((hmem _ _).1 he)
  rw [← map_fst_listed hn h.addressed] at hclear
  refine ⟨text, htext, t.height, fun calls hc ↦ ?_⟩
  obtain ⟨r, hr, htidy, hleaf⟩ := L.parsePropertySet_clear hlays (listed_ne_nil hn h.addressed)
    (listed_plain hn h.plain) hsend hclear (Nat.lt_succ_of_le hc)
  have hps : r = ps := htidy.ext_leaves h.tidy fun p ↦ Option.ext fun l ↦
    (hleaf p l).trans (hmem p l)
  calc L.unmarshall calls text
      = L.parsePropertySet (calls + 1) t := hparse calls
    _ = ret ps := by rw [hr, hps]

theorem Payload.clear (h : Payload ps) (hn : ps.Lists names)
    (htags : ∀ p l, ps.leafAt p = some l → ∀ n ∈ p.tail, n ∉ tagWords) :
    Clear (names.map segments) := by
  intro p hp k hk
  obtain ⟨s, hs⟩ := mem_of_stepAfter hk
  obtain ⟨name, hname, he⟩ := List.mem_map.1 hs
  obtain ⟨l, hl, -⟩ := leafAt_segments hn h.addressed hname
  refine htags _ l hl k ?_
  rw [he, List.tail_append_of_ne_nil hp]
  exact List.mem_append_right _ List.mem_cons_self

theorem untagged_single {n : Str} {l : Leaf} (p : List Str) (l' : Leaf)
    (hl : NestedMap.leafAt p ((∅ : PropertySet).insert n (.leaf l)) = some l') :
    ∀ k ∈ p.tail, k ∉ tagWords := by
  rw [(NestedMap.leafAt_single hl).1]
  exact nofun

theorem payload_site {hosts : Leaf} (h : ∀ v ∈ hosts.values, v.Sendable) :
    Payload ((nest (lit "SITE") (lit "HOST") hosts).insert (lit "int")
      (.leaf (.single (.int 7)))) :=
  (payload_nest (by decide +kernel) (by decide +kernel) h).insert_leaf (by decide +kernel)
    (by simp [Leaf.single, Value.Sendable])

theorem lists_site (hosts : Leaf) :
    Lists ((nest (lit "SITE") (lit "HOST") hosts).insert (lit "int") (.leaf (.single (.int 7))))
      [lit "int", dotted [lit "SITE", lit "HOST"]] := by
  refine (lists_nest _ _ hosts).insert_leaf (fun p l hl n hn ↦ ?_) (by decide +kernel) ?_ _
  · rw [(leafAt_nest.1 hl).1] at hn
    rcases List.mem_pair.1 hn with rfl | rfl <;> decide +kernel
  · rw [← NestedMap.lookup_eq_none, lookup_nest, if_neg]
    simp [lit_inj]

/-- Unmarshalling a marshalled property set gives the set back, whatever the order in which its
names were listed, if no name below the top level is a tag. -/
theorem unmarshall_marshall (h : Payload ps) (hn : ps.Lists names)
    (htags : ∀ p l, ps.leafAt p = some l → ∀ n ∈ p.tail, n ∉ tagWords) :
    ∃ text, L.marshall ps names = .ok text ∧ Settles (L.unmarshall · text) (ret ps) :=
  h.unmarshall_clear L hn (h.clear hn htags)

theorem unmarshall_marshall_sample :
    let hosts : Leaf := ⟨[.string (lit "a"), .string (lit "b")], by simp, by simp [Value.kind]⟩
    let ps : PropertySet :=
      (nest (lit "SITE") (lit "HOST") hosts).insert (lit "int") (.leaf (.single (.int 7)))
    ∃ text, Textual.libraries.marshall ps [lit "int", dotted [lit "SITE", lit "HOST"]] = .ok text ∧
      Settles (Textual.libraries.unmarshall · text) (ret ps) := by
  intro hosts ps
  refine unmarshall_marshall Textual.libraries (payload_site (by simp [hosts, Value.Sendable]))
    (lists_site hosts) fun p l hl n hn ↦ ?_
  rcases NestedMap.leafAt_insert_leaf_cases hl with ⟨rfl, -⟩ | hl
  · cases hn
  · rw [(leafAt_nest.1 hl).1, List.tail_cons, List.mem_singleton] at hn
    rw [hn]
    decide +kernel

end CtrlEvents
