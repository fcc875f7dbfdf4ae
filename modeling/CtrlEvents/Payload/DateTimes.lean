import CtrlEvents.Payload.LaidOut
import CtrlEvents.Payload.Textual

namespace CtrlEvents

open Layout Outcome PropertySet

variable (L : Libraries)

theorem Value.eq_dateTime {v : Value} (h : v.kind = .dateTime) : ∃ t, v = .dateTime t := by
  cases v with
  | dateTime t => exact ⟨t, rfl⟩
  | _ => cases h

theorem itemValue_dateTime (n : Int64) :
    L.itemValue (lit "datetime") (.node (L.longLong.put n) []) =
      some ((L.utcToTai n).map fun n ↦ .dateTime ⟨n⟩) := by
  have hget : Ptree.getValue L.longLong.get (.node (L.longLong.put n) []) = .ok n := by
    rw [Ptree.getValue, Ptree.data, L.longLong.get_put n trivial]
  simp only [Libraries.itemValue, lit_inj, hget]
  rfl

/-- Of a list of instants, the decoder finds the last one, and takes its TAI count for UTC. -/
theorem entryOf_render_dateTime (nested : Outcome Exn PropertySet) (label : Str) {l : Leaf}
    (hl : l.kind = .dateTime) {e : Option Entry}
    (he : L.entryOf nested label (L.render l).children none = ret e) :
    ∃ t n, l.back = .dateTime t ∧ L.utcToTai t.nsecs = .ok n ∧
      e = some (.leaf (.single (.dateTime ⟨n⟩))) := by
  obtain ⟨t, ht⟩ := Value.eq_dateTime hl
  rw [Libraries.render, if_pos hl, Ptree.children, ht, Libraries.putValue, Libraries.entryOf,
    itemValue_dateTime] at he
  obtain ⟨v, hv, he⟩ := bind_eq_ret.1 he
  rw [liftM_eq_ret] at hv
  cases hn : L.utcToTai t.nsecs with
  | error e =>
    rw [hn] at hv
    cases hv
  | ok n =>
    rw [hn] at hv
    cases hv
    cases he
    exact ⟨t, n, ht, hn, rfl⟩

theorem leafAt_dateTime {es : List (List Str × Leaf)} {t : Tree}
    (h : Lays L.render es t) (hne : ∀ e ∈ es, e.1 ≠ []) (hdot : ∀ e ∈ es, ∀ n ∈ e.1, '.' ∉ n)
    {calls : ℕ} {r : PropertySet} (hr : L.parseTop calls t = ret r) {p : List Str}
    {l l' : Leaf} (hl : (p, l) ∈ es) (hd : l.kind = .dateTime) (hl' : r.leafAt p = some l') :
    ∃ t n, l.back = .dateTime t ∧ L.utcToTai t.nsecs = .ok n ∧ l' = .single (.dateTime ⟨n⟩) := by
  induction h generalizing calls r p with
  | leaf a => exact absurd rfl (hne ([], a) List.mem_cons_self)
  | @node es children _ hkeys hlays ih =>
    obtain _ | ⟨n, q⟩ := p
    · exact absurd rfl (hne _ hl)
    have hn : n ∈ children.map Prod.fst := by
      rw [hkeys]
      exact mem_heads.2 ⟨q, l, hl⟩
    obtain ⟨v, hv, rfl⟩ := List.mem_map.1 hn
    have hentry := ((L.parseTop_node hkeys hdot calls r).1 hr).1 v hv
    rw [← mem_under] at hl
    rcases (hlays v.1 v.2 hv).cases (List.ne_nil_of_mem hl) with
      ⟨l₀, hl₀, ht⟩ | ⟨hne', m, t, cs, ht, -⟩
    · rw [hl₀, List.mem_singleton, Prod.mk.injEq] at hl
      obtain ⟨rfl, rfl⟩ := hl
      rw [ht] at hentry
      obtain ⟨t, n, hback, hn, he⟩ := entryOf_render_dateTime L _ _ hd hentry
      rw [NestedMap.leafAt_singleton, he] at hl'
      exact ⟨t, n, hback, hn, by cases hl'; rfl⟩
    · by_cases htag : m ∈ tagWords
      · rw [ht] at hentry
        obtain ⟨l₁, hl₁⟩ := L.entryOf_tag _ htag hentry
        rw [NestedMap.leafAt_cons_leaf hl₁, if_neg (hne' _ hl)] at hl'
        cases hl'
      · rw [ht, Ptree.children, L.entryOf_notTag _ htag cs] at hentry
        obtain ⟨sub, hret, he⟩ := bind_eq_ret.1 hentry
        have hlook : r.lookup v.1 = some (.maps [] sub) := by injection he with he; exact he.symm
        rw [NestedMap.leafAt_cons_maps hlook] at hl'
        have hdot' := Libraries.of_mem_under hdot v.1
        obtain ⟨calls, hret⟩ := L.parseTop_of_ret hdot' (hlays v.1 v.2 hv) hne' (ht ▸ hret)
        exact ih v.1 v.2 hv hne' hdot' hret hl hl'

variable {ps : PropertySet} {names : List Str}

theorem unmarshall_dateTime (hn : ps.Lists names) (hp : ps.Addressed) {text : Str}
    (htext : L.marshall ps names = .ok text) {r : PropertySet}
    (hr : Settles (L.unmarshall · text) (ret r)) {p : List Str} {l l' : Leaf}
    (hl : ps.leafAt p = some l) (hd : l.kind = .dateTime) (hl' : r.leafAt p = some l') :
    ∃ t n, l.back = .dateTime t ∧ L.utcToTai t.nsecs = .ok n ∧ l' = .single (.dateTime ⟨n⟩) := by
  obtain ⟨text', t, htext', hread, hlays⟩ :=
    L.marshall_reads hn hp (L.tag_of_marshall hn hp htext)
  rw [htext] at htext'
  cases htext'
  obtain ⟨calls, hcalls⟩ := hr
  have htop : L.parseTop calls t = ret r := by
    have hrun := hcalls calls le_rfl
    simpa only [Libraries.unmarshall, hread] using hrun
  exact leafAt_dateTime L hlays (listed_ne_nil hn hp) (listed_dotless hn hp) htop
    ((mem_listed hn hp).2 hl) hd hl'

/-- Where the two time scales differ, no list of instants comes back. -/
theorem dateTimes_never_return (hleap : ∀ n, L.utcToTai n ≠ .ok n) (hn : ps.Lists names)
    (hp : ps.Addressed) {p : List Str} {l : Leaf} (hl : ps.leafAt p = some l)
    (hd : l.kind = .dateTime) :
    ¬ ∃ text r, L.marshall ps names = .ok text ∧ Settles (L.unmarshall · text) (ret r) ∧
      r.leafAt p = some l := by
  intro h
  obtain ⟨text, r, htext, hr, hl'⟩ := h
  obtain ⟨t, n, ht, htai, rfl⟩ := unmarshall_dateTime L hn hp htext hr hl hd hl'
  cases ht
  exact hleap n htai

def june2016 : Leaf := .single (.dateTime ⟨1464739236000000000⟩)

theorem addressed_june2016 : (nest (lit "RUN") (lit "START") june2016).Addressed := by
  intro p l h
  rw [(leafAt_nest.1 h).1]
  decide +kernel

theorem dateTimes_never_return_june2016 :
    ¬ ∃ text r, Textual.libraries.marshall (nest (lit "RUN") (lit "START") june2016)
        [dotted [lit "RUN", lit "START"]] = .ok text ∧
      Settles (Textual.libraries.unmarshall · text) (ret r) ∧
      r.leafAt [lit "RUN", lit "START"] = some june2016 :=
  dateTimes_never_return Textual.libraries Textual.utcToTai_ne (lists_nest _ _ _) addressed_june2016
    (leafAt_nest.2 ⟨rfl, rfl⟩) rfl

theorem june2016_does_not_return : ¬ ∀ (L : Libraries) (ps : PropertySet) (names : List Str),
    (∀ n, L.utcToTai n ≠ .ok n) → ps.Lists names → ps.Addressed →
      ∀ p l, ps.leafAt p = some l → l.kind = .dateTime →
        ∃ text r, L.marshall ps names = .ok text ∧ Settles (L.unmarshall · text) (ret r) ∧
          r.leafAt p = some l := by
  intro hall
  have hn := lists_nest (lit "RUN") (lit "START") june2016
  have hl : (nest (lit "RUN") (lit "START") june2016).leafAt [lit "RUN", lit "START"] =
      some june2016 := leafAt_nest.2 ⟨rfl, rfl⟩
  obtain ⟨text, r, htext, hr, hl'⟩ :=
    hall Textual.libraries _ _ Textual.utcToTai_ne hn addressed_june2016 _ _ hl rfl
  obtain ⟨t, n, ht, htai, he⟩ := unmarshall_dateTime _ hn addressed_june2016 htext hr hl rfl hl'
  have hback : Value.dateTime ⟨1464739236000000000⟩ = .dateTime ⟨n⟩ := congrArg Leaf.back he
  cases ht
  cases htai
  exact absurd hback (by decide +kernel)

end CtrlEvents
