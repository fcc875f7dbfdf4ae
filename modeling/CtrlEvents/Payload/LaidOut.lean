import CtrlEvents.Payload.Decoding
import CtrlEvents.Payload.Encoding

namespace CtrlEvents

open Layout Outcome PropertySet

theorem PropertySet.listed_plain {ps : PropertySet} {names : List Str} (hn : ps.Lists names)
    (hp : ∀ p l, ps.leafAt p = some l → ∀ n ∈ p, Plain n) :
    ∀ e ∈ ps.listed names, ∀ n ∈ e.1, Plain n := fun _ he ↦
  hp _ _ ((mem_listed hn (addressed_of_plain hp)).1 he)

namespace Libraries

variable (L : Libraries) {es : List (List Str × Leaf)} {children : List (Str × Tree)}

theorem nodup_of_heads (hkeys : children.map Prod.fst = heads es) :
    (children.map Prod.fst).Nodup := hkeys ▸ nodup_heads es

theorem of_mem_heads {P : Str → Prop} (hkeys : children.map Prod.fst = heads es)
    (h : ∀ e ∈ es, ∀ n ∈ e.1, P n) {v : Str × Tree} (hv : v ∈ children) : P v.1 := by
  have hk : v.1 ∈ heads es := hkeys ▸ List.mem_map_of_mem hv
  obtain ⟨p, l, hp⟩ := mem_heads.1 hk
  exact h _ hp v.1 List.mem_cons_self

theorem of_mem_under {P : Str → Prop} (h : ∀ e ∈ es, ∀ n ∈ e.1, P n) (k : Str) :
    ∀ e ∈ under k es, ∀ n ∈ e.1, P n := fun _ he n hn ↦
  h _ (mem_under.1 he) n (List.mem_cons_of_mem k hn)

section Dotless

variable (hkeys : children.map Prod.fst = heads es) (hdot : ∀ e ∈ es, ∀ n ∈ e.1, '.' ∉ n)

include hkeys hdot

/-- The decoder's run over a node that lays out paths: each label by itself. -/
theorem parseTop_node (calls : ℕ) (r : PropertySet) :
    L.parseTop calls (.node [] children) = ret r ↔
      (∀ v ∈ children, L.entryOf (L.parsePropertySet calls v.2) v.1 v.2.children none =
        ret (r.lookup v.1)) ∧ ∀ k, k ∉ heads es → r.lookup k = none := by
  rw [parseTop, Ptree.children, foldlM_addItems, hkeys]
  · simp only [NestedMap.lookup_empty]
  · exact nodup_of_heads hkeys
  · exact fun v hv ↦ of_mem_heads hkeys hdot hv
  · exact fun v _ ↦ NestedMap.lookup_empty v.1

omit hkeys in
/-- A nested node that has been parsed has been parsed like the top one. -/
theorem parseTop_of_ret {t : Tree} (h : Lays L.render es t) (hne : ∀ e ∈ es, e.1 ≠ [])
    {calls : ℕ} {r : PropertySet} (hr : L.parsePropertySet calls t = ret r) :
    ∃ calls', L.parseTop calls' t = ret r := by
  obtain _ | calls := calls
  · cases hr
  refine ⟨calls, ?_⟩
  cases h with
  | leaf a => exact absurd rfl (hne _ List.mem_cons_self)
  | @node _ children _ hkeys _ =>
    have hnil := L.nil_notMem_of_ret hr
    have hplain : ∀ v ∈ children, Plain v.1 := by
      intro v hv
      refine ⟨fun hv' ↦ hnil ?_, of_mem_heads hkeys hdot hv⟩
      exact hv' ▸ List.mem_map_of_mem hv
    rw [← hr]
    have hnd := nodup_of_heads hkeys
    exact (L.parsePropertySet_succ (t := .node [] children) hnd hplain calls).symm

end Dotless

section Plain

variable (hkeys : children.map Prod.fst = heads es) (hplain : ∀ e ∈ es, ∀ n ∈ e.1, Plain n)

include hkeys hplain

theorem parsePropertySet_eq_parseTop (calls : ℕ) :
    L.parsePropertySet (calls + 1) (.node [] children) = L.parseTop calls (.node [] children) :=
  L.parsePropertySet_succ (t := .node [] children) (nodup_of_heads hkeys)
    (fun _ hv ↦ of_mem_heads hkeys hplain hv) calls

theorem parsePropertySet_node (calls : ℕ) (r : PropertySet) :
    L.parsePropertySet (calls + 1) (.node [] children) = ret r ↔
      (∀ v ∈ children, L.entryOf (L.parsePropertySet calls v.2) v.1 v.2.children none =
        ret (r.lookup v.1)) ∧ ∀ k, k ∉ heads es → r.lookup k = none := by
  rw [L.parsePropertySet_eq_parseTop hkeys hplain]
  exact L.parseTop_node hkeys (fun e he n hn ↦ (hplain e he n hn).2) calls r

theorem parsePropertySet_node_total (calls : ℕ)
    (h : ∀ v ∈ children, ∃ e,
      L.entryOf (L.parsePropertySet calls v.2) v.1 v.2.children none = ret e) :
    ∃ r, L.parsePropertySet (calls + 1) (.node [] children) = ret r := by
  rw [L.parsePropertySet_eq_parseTop hkeys hplain]
  refine L.foldlM_addItems_total (nodup_of_heads hkeys) (fun v hv ↦ ?_) (fun v _ ↦ ?_) h
  · exact (of_mem_heads hkeys hplain hv).2
  · exact NestedMap.lookup_empty v.1

omit hkeys in
theorem unmarshall_eq {t : Tree} (ht : Lays L.render es t) (hne : ∀ e ∈ es, e.1 ≠ []) {text : Str}
    (hr : L.readJson text = some t) (calls : ℕ) :
    L.unmarshall calls text = L.parsePropertySet (calls + 1) t := by
  rw [unmarshall, hr]
  cases ht with
  | leaf a => exact absurd rfl (hne _ List.mem_cons_self)
  | node _ hkeys _ => exact (L.parsePropertySet_eq_parseTop hkeys hplain calls).symm

end Plain

/-- A marshalled set is unmarshalled by parsing a layout of its leaves. -/
theorem marshall_unmarshall {ps : PropertySet} {names : List Str} (hn : ps.Lists names)
    (hp : ∀ p l, ps.leafAt p = some l → ∀ n ∈ p, Plain n)
    (hk : ∀ p l, ps.leafAt p = some l → l.kind.tag.isSome) :
    ∃ text t, L.marshall ps names = .ok text ∧ Lays L.render (ps.listed names) t ∧
      ∀ calls, L.unmarshall calls text = L.parsePropertySet (calls + 1) t := by
  have ha := addressed_of_plain hp
  obtain ⟨text, t, htext, hread, hlays⟩ := L.marshall_reads hn ha hk
  exact ⟨text, t, htext, hlays, fun calls ↦
    L.unmarshall_eq (listed_plain hn hp) hlays (listed_ne_nil hn ha) hread calls⟩

end Libraries

end CtrlEvents
