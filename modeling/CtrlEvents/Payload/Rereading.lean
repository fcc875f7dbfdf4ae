import CtrlEvents.Payload.Decoded
import CtrlEvents.Payload.Reading

namespace CtrlEvents

open Layout Outcome PropertySet

variable (L : Libraries)

/-- The items of a node are data of one type, or begin with one that is none while the node can be
read as a set. -/
def Legible (s : Tree) : Prop :=
  (∃ kind, ∀ item ∈ s.children, Converts L kind item) ∨
    ∃ tag item items E, s.children = (tag, item) :: items ∧ tag ∉ tagWords ∧
      Reads L s.members .empty E

theorem legible_of_readsData {label : Str} {s : Tree} {Γ Γ' : Types}
    (h : ReadsData L label s.children Γ Γ') : Legible L s := by
  rcases h with ⟨hnil, -⟩ | ⟨-, kind, hconverts, -⟩
  · exact .inl ⟨.bool, by simp [hnil]⟩
  · exact .inl ⟨kind, hconverts⟩

/-- Under different labels that nothing is added to yet, each node is read by itself. -/
theorem reads_iff_legible {children : List (Str × Tree)} {Γ : Types}
    (hnd : (children.map Prod.fst).Nodup) (hpl : ∀ v ∈ children, '.' ∉ v.1)
    (hset : Γ [] = some .propertySet) (hfree : ∀ v ∈ children, Γ [v.1] = none) :
    (∃ Γ', Reads L (children.map fun v ↦ (v.1, some v.2)) Γ Γ') ↔
      ∀ v ∈ children, Legible L v.2 := by
  induction children generalizing Γ with
  | nil => exact iff_of_true ⟨Γ, .nil Γ⟩ (List.forall_mem_nil _)
  | cons v children ih =>
    obtain ⟨label, s⟩ := v
    obtain ⟨hlabel, hpl⟩ := List.forall_mem_cons.1 hpl
    obtain ⟨hnone, hfree⟩ := List.forall_mem_cons.1 hfree
    rw [List.map_cons, List.nodup_cons] at hnd
    have hseg : segments label = [label] := segments_of_notMem hlabel
    have hput : ∀ E, (∃ Γ', Reads L (children.map fun v ↦ (v.1, some v.2))
        (Γ.put (segments label) E) Γ') ↔ ∀ v ∈ children, Legible L v.2 := by
      intro E
      rw [hseg]
      refine ih hnd.2 hpl (Γ.put_nil label [] E) fun w hw ↦ ?_
      have hne : w.1 ≠ label := fun he ↦ hnd.1 (List.mem_map.2 ⟨w, hw, he⟩)
      exact (Types.put_of_ne hne Γ [] [] E).trans (hfree w hw)
    have hjoins : ∀ E, Γ.Joins (segments label) E := by
      intro E
      rw [hseg]
      exact Types.joins_of_none hset hnone E
    rw [List.map_cons, List.forall_mem_cons]
    constructor
    · rintro ⟨Γ', h⟩
      cases h with
      | data hdata hrest =>
        refine ⟨legible_of_readsData L hdata, ?_⟩
        rcases hdata with ⟨-, rfl⟩ | ⟨-, kind, -, -, rfl⟩
        · exact (ih hnd.2 hpl hset hfree).1 ⟨Γ', hrest⟩
        · exact (hput _).1 ⟨Γ', hrest⟩
      | nested hitems htag hsub _ hrest =>
        exact ⟨.inr ⟨_, _, _, _, hitems, htag, hsub⟩, (hput _).1 ⟨Γ', hrest⟩⟩
    · rintro ⟨⟨kind, hconverts⟩ | ⟨tag, item, items, E, hitems, htag, hsub⟩, hrest⟩
      · by_cases hitems : s.children = []
        · obtain ⟨Γ', hΓ⟩ := (ih hnd.2 hpl hset hfree).2 hrest
          exact ⟨Γ', .data (.inl ⟨hitems, rfl⟩) hΓ⟩
        · obtain ⟨Γ', hΓ⟩ := (hput (.values kind)).2 hrest
          exact ⟨Γ', .data (.inr ⟨hitems, kind, hconverts, hjoins _, rfl⟩) hΓ⟩
      · obtain ⟨Γ', hΓ⟩ := (hput E).2 hrest
        exact ⟨Γ', .nested hitems htag hsub (hjoins E) hΓ⟩

theorem nil_notMem_of_reads {t : Tree} {E : Types} (h : Reads L t.members .empty E) :
    [] ∉ t.children.map Prod.fst := by
  obtain ⟨calls, r, hr, -⟩ := ret_of_reads L h types_empty
  rw [← parsePropertySet_eq] at hr
  exact L.nil_notMem_of_ret hr

theorem Ptree.members_eq {t : Tree} (hnd : (t.children.map Prod.fst).Nodup)
    (hpl : ∀ v ∈ t.children, Plain v.1) : t.members = t.topMembers := by
  refine List.map_congr_left fun v hv ↦ ?_
  have hpath : treePath v.1 = [v.1] := by
    have h := treePath_dotted (List.cons_ne_nil v.1 []) (by simpa using hpl v hv)
    simpa [dotted, List.intercalate] using h
  rw [hpath, Ptree.getChild, Ptree.lookup_of_mem hnd hv]
  rfl

namespace Libraries

/-- The leaves that are listed below a name can be read from what is written of them. The values of
a leaf convert back. The names of a set are not empty, and the first is no type word; or they all
are type words to which an empty text converts, for values of one type. -/
inductive Rereads : List (List Str × Leaf) → Prop
  | leaf {l : Leaf} {tag : Str} (htag : l.kind.tag = some tag)
      (hvalues : ∀ v ∈ written l, Converts L l.kind (tag, .node (L.putValue v) [])) :
      Rereads [([], l)]
  | set {es : List (List Str × Leaf)} {n : Str} {names : List Str}
      (hnames : heads es = n :: names) (hfirst : n ∉ tagWords) (hempty : [] ∉ heads es)
      (hsub : ∀ k ∈ heads es, Rereads (under k es)) : Rereads es
  | words {es : List (List Str × Leaf)} {kind : Kind} (hnames : heads es ≠ [])
      (hwords : ∀ k ∈ heads es, Converts L kind (k, .node [] [])) : Rereads es

/-- All that is listed of a set can be read from what is written of it. -/
def RereadsAll (ps : PropertySet) (names : List Str) : Prop :=
  ∀ n ∈ heads (ps.listed names), L.Rereads (under n (ps.listed names))

end Libraries

variable {L} {es : List (List Str × Leaf)} {t : Tree}

theorem converts_of_data {kind : Kind} {tag : Str} {s s' : Tree} (hs : s.data = s'.data) :
    Converts L kind (tag, s) ↔ Converts L kind (tag, s') := by
  obtain ⟨data, children⟩ := s
  obtain ⟨data', children'⟩ := s'
  cases hs
  rfl

theorem Kind.tag_inj {kind kind' : Kind} {tag : Str} (h : kind.tag = some tag)
    (h' : kind'.tag = some tag) : kind = kind' := by
  cases kind <;> cases h <;> cases kind' <;> simp [Kind.tag, lit_inj] at h' <;> rfl

theorem mem_tagWords_of_tag {kind : Kind} {tag : Str} (h : kind.tag = some tag) :
    tag ∈ tagWords := by
  cases kind <;> cases h <;> simp [tagWords]

theorem legible_render {l : Leaf} {tag : Str} (htag : l.kind.tag = some tag) :
    Legible L (L.render l) ↔ L.Rereads [([], l)] := by
  have hne : (Libraries.written l) ≠ [] := by
    unfold Libraries.written
    split
    · exact List.cons_ne_nil _ _
    · exact l.nonempty
  rw [Legible, L.render_written htag, Ptree.children]
  constructor
  · rintro (⟨kind, hconverts⟩ | ⟨tag', item, items, E, hitems, htag', -⟩)
    · refine .leaf htag fun v hv ↦ ?_
      obtain ⟨w, hw, hkind⟩ := hconverts _ (List.mem_map_of_mem hv)
      exact ⟨w, hw, Kind.tag_inj (L.kind_of_itemValue hw) htag⟩
    · obtain ⟨v, vs, -, hv, -⟩ := List.map_eq_cons_iff.1 hitems
      cases hv
      exact absurd (mem_tagWords_of_tag htag) htag'
  · intro h
    cases h with
    | leaf htag' hvalues =>
      cases htag.symm.trans htag'
      exact .inl ⟨l.kind, List.forall_mem_map.2 hvalues⟩
    | set hnames => cases hnames
    | words hnames => exact absurd rfl hnames

theorem tags_under (h : ∀ e ∈ es, e.2.kind.tag.isSome) (k : Str) :
    ∀ e ∈ under k es, e.2.kind.tag.isSome := fun e he ↦ h (k :: e.1, e.2) (mem_under.1 he)

section Node

variable {children : List (Str × Tree)} (hkeys : children.map Prod.fst = heads es)
  (hlegible : ∀ v ∈ children, (Legible L v.2 ↔ L.Rereads (under v.1 es)))

include hkeys

theorem forall_heads {P : Str → Prop} : (∀ k ∈ heads es, P k) ↔ ∀ v ∈ children, P v.1 := by
  rw [← hkeys, List.forall_mem_map]

include hlegible

theorem reads_topMembers (hdot : ∀ e ∈ es, ∀ n ∈ e.1, '.' ∉ n) :
    (∃ E, Reads L (Ptree.node [] children : Tree).topMembers .empty E) ↔
      ∀ k ∈ heads es, L.Rereads (under k es) := by
  have hnd := Libraries.nodup_of_heads hkeys
  have hpl : ∀ v ∈ children, '.' ∉ v.1 := fun v hv ↦ Libraries.of_mem_heads hkeys hdot hv
  rw [Ptree.topMembers, Ptree.children, reads_iff_legible L hnd hpl rfl fun v _ ↦ rfl,
    forall_heads hkeys]
  exact forall₂_congr hlegible

theorem reads_members (hdot : ∀ e ∈ es, ∀ n ∈ e.1, '.' ∉ n) :
    (∃ E, Reads L (Ptree.node [] children : Tree).members .empty E) ↔
      [] ∉ heads es ∧ ∀ k ∈ heads es, L.Rereads (under k es) := by
  have htop : [] ∉ heads es → (Ptree.node [] children : Tree).members =
      (Ptree.node [] children : Tree).topMembers := by
    intro hempty
    refine Ptree.members_eq (Libraries.nodup_of_heads hkeys) fun v hv ↦ ?_
    have hv' : v.1 ∈ heads es := hkeys ▸ List.mem_map_of_mem hv
    exact ⟨fun hnil ↦ hempty (hnil ▸ hv'), Libraries.of_mem_heads hkeys hdot hv⟩
  constructor
  · rintro ⟨E, h⟩
    have hempty : [] ∉ heads es := hkeys ▸ nil_notMem_of_reads L h
    exact ⟨hempty, (reads_topMembers hkeys hlegible hdot).1 ⟨E, htop hempty ▸ h⟩⟩
  · rintro ⟨hempty, h⟩
    rw [htop hempty]
    exact (reads_topMembers hkeys hlegible hdot).2 h

end Node

/-- A node can be read exactly if the leaves that it lays out can be read from what is written. -/
theorem legible_iff (h : Lays L.render es t) (htags : ∀ e ∈ es, e.2.kind.tag.isSome)
    (hdot : ∀ e ∈ es, ∀ n ∈ e.1, '.' ∉ n) (hes : es ≠ []) : Legible L t ↔ L.Rereads es := by
  induction h with
  | leaf l =>
    obtain ⟨tag, htag⟩ := Option.isSome_iff_exists.1 (htags _ List.mem_cons_self)
    exact legible_render htag
  | @node es children hne hkeys hsub ih =>
    have hchild : ∀ v ∈ children, (Legible L v.2 ↔ L.Rereads (under v.1 es)) := fun v hv ↦
      ih v.1 v.2 hv (tags_under htags v.1) (Libraries.of_mem_under hdot v.1)
        (under_ne_nil (hkeys ▸ List.mem_map_of_mem hv))
    have hdata : ∀ v ∈ children, v.2.data = [] := fun v hv ↦
      (hsub v.1 v.2 hv).data_eq L.render_data
    have hwords : ∀ kind, (∀ v ∈ children, Converts L kind v) ↔
        ∀ k ∈ heads es, Converts L kind (k, .node [] []) := by
      intro kind
      rw [forall_heads hkeys]
      exact forall₂_congr fun v hv ↦ converts_of_data (hdata v hv)
    have hset := reads_members hkeys hchild hdot
    obtain ⟨n, names, hnames⟩ : ∃ n names, heads es = n :: names := by
      refine List.exists_cons_of_ne_nil fun hnil ↦ ?_
      obtain ⟨e, he⟩ := List.exists_mem_of_ne_nil es hes
      obtain ⟨n, p, l, rfl⟩ := cons_of_ne_nil (hne e he)
      have hn : n ∈ heads es := mem_heads.2 ⟨p, l, he⟩
      rw [hnil] at hn
      cases hn
    constructor
    · rintro (⟨kind, hconverts⟩ | ⟨tag, item, items, E, hitems, htag, hreads⟩)
      · exact .words (hnames ▸ List.cons_ne_nil n names) ((hwords kind).1 hconverts)
      · obtain ⟨hempty, hsub⟩ := hset.1 ⟨E, hreads⟩
        rw [Ptree.children] at hitems
        rw [hitems, List.map_cons] at hkeys
        exact .set hkeys.symm htag hempty hsub
    · intro h
      cases h with
      | leaf => exact absurd rfl (hne _ List.mem_cons_self)
      | set hnames hfirst hempty hsub =>
        obtain ⟨E, hE⟩ := hset.2 ⟨hempty, hsub⟩
        obtain ⟨v, items, hitems, rfl, -⟩ := List.map_eq_cons_iff.1 (hkeys.trans hnames)
        exact .inr ⟨v.1, v.2, items, E, hitems, hfirst, hE⟩
      | words _ hconverts => exact .inl ⟨_, (hwords _).2 hconverts⟩

theorem reads_top (h : Lays L.render es t) (hne : ∀ e ∈ es, e.1 ≠ [])
    (htags : ∀ e ∈ es, e.2.kind.tag.isSome) (hdot : ∀ e ∈ es, ∀ n ∈ e.1, '.' ∉ n) :
    (∃ E, Reads L t.topMembers .empty E) ↔ ∀ k ∈ heads es, L.Rereads (under k es) := by
  cases h with
  | leaf l => exact absurd rfl (hne _ List.mem_cons_self)
  | node _ hkeys hsub =>
    exact reads_topMembers hkeys (fun v hv ↦ legible_iff (hsub v.1 v.2 hv) (tags_under htags v.1)
      (Libraries.of_mem_under hdot v.1) (under_ne_nil (hkeys ▸ List.mem_map_of_mem hv))) hdot

namespace PropertySet

variable {ps : PropertySet} {names : List Str}

/-- The text that a set is written to can be read exactly if all that is listed of it can be. -/
theorem readable_iff (hn : ps.Lists names) (hp : ps.Addressed) {text : Str}
    (h : L.marshall ps names = .ok text) : Readable L text ↔ L.RereadsAll ps names := by
  have hk := L.tag_of_marshall hn hp h
  have htags : ∀ e ∈ ps.listed names, e.2.kind.tag.isSome := fun e he ↦
    hk _ _ ((mem_listed hn hp).1 he)
  obtain ⟨text', t, htext, hread, hlays⟩ := L.marshall_reads hn hp hk
  rw [h] at htext
  cases htext
  rw [Libraries.RereadsAll, ← reads_top hlays (listed_ne_nil hn hp) htags (listed_dotless hn hp)]
  constructor
  · rintro ⟨t', Γ, ht, hreads⟩
    cases hread.symm.trans ht
    exact ⟨Γ, hreads⟩
  · rintro ⟨Γ, hreads⟩
    exact ⟨t, Γ, hread, hreads⟩

end PropertySet

/-- Values that can be sent are read again, unless a nested set begins with a type word. -/
theorem Payload.rereadsAll {ps : PropertySet} {names : List Str} (h : Payload ps)
    (hn : ps.Lists names) (hclear : Clear (names.map segments)) : L.RereadsAll ps names := by
  obtain ⟨text, htext, hr⟩ := h.unmarshall_clear L hn hclear
  exact (readable_iff hn h.addressed htext).1 ((settles_iff_readable L).1 ⟨ps, hr⟩)

end CtrlEvents
