import CtrlEvents.Payload.Reading
import CtrlEvents.Payload.Textual

namespace CtrlEvents

open Outcome

variable (L : Libraries)

/-- A label is come to whose node has to be read as a set: the labels before it can be read, and so
can its data before the first item that is none. -/
inductive ComesTo (members : Members) (label : Str) (s : Tree) : Prop
  | intro {before after : Members} {data items : List (Str × Tree)} {tag : Str} {item : Tree}
      {Γ Γ' : Types} (hmembers : members = before ++ (label, some s) :: after)
      (hbefore : Reads L before .empty Γ) (hitems : s.children = data ++ (tag, item) :: items)
      (hdata : ReadsData L label data Γ Γ') (htag : tag ∉ tagWords) : ComesTo members label s

/-- The nodes that have to be read as sets where this one has to. -/
def Leads : Tree → Tree → Prop :=
  Relation.ReflTransGen fun t s ↦ ∃ label, ComesTo L t.members label s

theorem addItems_eq_deep (nested : Outcome Exn PropertySet) (label : Str)
    (items : List (Str × Tree)) (psp : PropertySet) :
    L.addItems nested label items psp = deep ↔
      L.addItems deep label items psp = deep ∧ nested = deep := by
  induction items generalizing psp with
  | nil => exact iff_of_false nofun fun h ↦ nomatch h.1
  | cons item items ih =>
    obtain ⟨typeInfo, item⟩ := item
    cases hi : L.itemValue typeInfo item with
    | none =>
      rw [L.addItems_nested _ hi, L.addItems_nested _ hi]
      cases nested with
      | deep => simp
      | threw e => simp
      | ret sub => simpa using liftM_ne_deep (psp.addSet label sub)
    | some value =>
      rw [L.addItems_data _ hi, L.addItems_data _ hi]
      cases value with
      | error e => simp
      | ok v =>
        cases hadd : psp.add label v with
        | error e => simp [hadd]
        | ok psp => simpa [hadd] using ih psp

theorem parseMember_eq_deep {parse : Tree → Outcome Exn PropertySet} {psp : PropertySet}
    {m : Str × Option Tree} : parseMember L parse psp m = deep ↔
      ∃ s, m.2 = some s ∧ L.addItems deep m.1 s.children psp = deep ∧ parse s = deep := by
  obtain ⟨label, _ | s⟩ := m
  · simp [parseMember]
  · simpa [parseMember] using addItems_eq_deep L (parse s) label s.children psp

theorem comesTo_of_deep {n : ℕ} {members : Members}
    (h : members.foldlM (parseMember L (L.parsePropertySet n)) ∅ = deep) :
    ∃ label s, ComesTo L members label s ∧ L.parsePropertySet n s = deep := by
  obtain ⟨before, ⟨label, node⟩, after, psp, hmembers, hbefore, hm⟩ := foldlM_eq_deep.1 h
  obtain ⟨s, rfl, hitems, hs⟩ := (parseMember_eq_deep L).1 hm
  obtain ⟨data, tag, item, items, Γ, hsplit, hdata, htag⟩ := (addItems_deep_iff L).1 hitems
  have hreads := reads_of_members L (fun s sub hs ↦ reads_of_ret L hs) hbefore
  rw [PropertySet.types_empty] at hreads
  exact ⟨label, s, .intro hmembers hreads hsplit hdata htag, hs⟩

theorem deep_of_round {α : Type} {f : ℕ → PropertySet → α → Outcome Exn PropertySet}
    (hf : ∀ n m, n ≤ m → ∀ psp v, f n psp v ≤ f m psp v) {pre post : List α}
    {v : α} {n m : ℕ} {psp : PropertySet} (hpre : pre.foldlM (f n) ∅ = ret psp)
    (hv : f m psp v = deep) : (pre ++ v :: post).foldlM (f m) ∅ = deep := by
  -- Within any bound, the labels before this one are done as well, or the bound is met there.
  have hdone : pre.foldlM (f m) ∅ = deep ∨ pre.foldlM (f m) ∅ = ret psp := by
    rcases le_total n m with hnm | hmn
    · exact .inr ((eq_of_le (foldlM_le (hf n m hnm) pre ∅) (by simp [hpre])).trans hpre)
    · rw [← hpre]
      exact foldlM_le (hf m n hmn) pre ∅
  rw [List.foldlM_append]
  rcases hdone with hdeep | hret
  · rw [hdeep, deep_bind]
  · rw [hret, ret_bind, List.foldlM_cons, hv, deep_bind]

theorem deep_of_comesTo {n : ℕ} {members : Members} {label : Str} {s : Tree}
    (h : ComesTo L members label s) (hs : L.parsePropertySet n s = deep) :
    members.foldlM (parseMember L (L.parsePropertySet n)) ∅ = deep := by
  obtain ⟨hmembers, hbefore, hitems, hdata, htag⟩ := h
  obtain ⟨calls, psp, hpsp, hΓ⟩ := ret_of_reads L hbefore PropertySet.types_empty
  have hdeep : parseMember L (L.parsePropertySet n) psp (label, some s) = deep :=
    (parseMember_eq_deep L).2
      ⟨s, rfl, (addItems_deep_iff L).2 ⟨_, _, _, _, _, hitems, hΓ ▸ hdata, htag⟩, hs⟩
  rw [hmembers]
  exact deep_of_round (fun i j hij ↦ parseMember_le L fun s ↦ L.parsePropertySet_mono s hij) hpsp
    hdeep

theorem mem_of_comesTo {members : Members} {label : Str} {s : Tree}
    (h : ComesTo L members label s) : (label, some s) ∈ members := by
  obtain ⟨hmembers, -, -, -, -⟩ := h
  rw [hmembers]
  exact List.mem_append_right _ List.mem_cons_self

theorem getChild_of_comesTo {label : Str} {t s : Tree} (h : ComesTo L t.members label s) :
    t.getChild (treePath label) = some s := by
  obtain ⟨v, -, hv⟩ := List.mem_map.1 (mem_of_comesTo L h)
  rw [Prod.mk.injEq] at hv
  rw [← hv.1, hv.2]

/-- A call goes down, except by the empty label, which leads back to the node itself. -/
theorem eq_or_height_lt_of_comesTo {label : Str} {t s : Tree} (h : ComesTo L t.members label s) :
    label = [] ∧ s = t ∨ s.height < t.height := by
  have hchild := getChild_of_comesTo L h
  cases hpath : treePath label with
  | nil =>
    rw [hpath, Ptree.getChild, Option.some_inj] at hchild
    exact .inl ⟨treePath_eq_nil.1 hpath, hchild.symm⟩
  | cons k p =>
    rw [hpath] at hchild
    exact .inr (Ptree.height_lt_of_getChild hchild)

/-- A node that is parsed under an empty label is never done with. -/
theorem deep_of_comesTo_nil {t s : Tree} (h : ComesTo L t.members [] s) (n : ℕ) :
    L.parsePropertySet n t = deep := by
  have hself : t = s := Option.some_inj.1 (getChild_of_comesTo L h)
  rw [← hself] at h
  induction n with
  | zero => rfl
  | succ n ih =>
    rw [parsePropertySet_eq]
    exact deep_of_comesTo L h ih

theorem deep_of_leads {t s s' : Tree} (h : Leads L t s) (hs : ComesTo L s.members [] s') (n : ℕ) :
    L.parsePropertySet n t = deep := by
  induction h using Relation.ReflTransGen.head_induction_on generalizing n with
  | refl => exact deep_of_comesTo_nil L hs n
  | head h _ ih =>
    obtain ⟨label, h⟩ := h
    cases n with
    | zero => rfl
    | succ n =>
      rw [parsePropertySet_eq]
      exact deep_of_comesTo L h (ih n)

theorem height_lt_of_top {label : Str} {t s : Tree} (h : ComesTo L t.topMembers label s) :
    s.height < t.height := by
  obtain ⟨v, hv, he⟩ := List.mem_map.1 (mem_of_comesTo L h)
  cases he
  obtain ⟨data, children⟩ := t
  exact Ptree.height_lt_of_mem hv

/-- A node of less height than the bound is parsed, unless an empty label is come to. -/
theorem comesTo_nil_of_deep {n : ℕ} {t : Tree} (hn : t.height < n)
    (h : L.parsePropertySet n t = deep) : ∃ s s', Leads L t s ∧ ComesTo L s.members [] s' := by
  induction n generalizing t with
  | zero => omega
  | succ n ih =>
    rw [parsePropertySet_eq] at h
    obtain ⟨label, s, hs, hdeep⟩ := comesTo_of_deep L h
    -- Either the call leads back to the node, or the height of its node is less.
    rcases eq_or_height_lt_of_comesTo L hs with ⟨rfl, rfl⟩ | hlt
    · exact ⟨s, s, .refl, hs⟩
    · have hsn : s.height < n := by omega
      obtain ⟨s₁, s₂, hlead, hnil⟩ := ih hsn hdeep
      exact ⟨s₁, s₂, .head ⟨label, hs⟩ hlead, hnil⟩

theorem unmarshall_eq {text : Str} {t : Tree} (ht : L.readJson text = some t) (calls : ℕ) :
    L.unmarshall calls text = L.parseTop calls t := by
  rw [Libraries.unmarshall, ht]

theorem ends_of_not_comesTo {text : Str} {t : Tree} (ht : L.readJson text = some t)
    (h : ∀ label s s' s'', ComesTo L t.topMembers label s → Leads L s s' →
      ¬ ComesTo L s'.members [] s'') :
    ∃ o, o ≠ deep ∧ ∀ calls, t.height ≤ calls → L.unmarshall calls text = o := by
  have hne : L.parseTop t.height t ≠ deep := by
    intro hdeep
    rw [parseTop_eq] at hdeep
    obtain ⟨label, s, hs, hsdeep⟩ := comesTo_of_deep L hdeep
    obtain ⟨s', s'', hlead, hnil⟩ := comesTo_nil_of_deep L (height_lt_of_top L hs) hsdeep
    exact h label s s' s'' hs hlead hnil
  refine ⟨_, hne, fun calls hc ↦ ?_⟩
  rw [← unmarshall_eq L ht] at hne
  exact (eq_of_le (L.unmarshall_mono text hc) hne).trans (unmarshall_eq L ht t.height)

theorem within_of_leads {t s : Tree} (h : Leads L t s) : Ptree.Within t s := by
  induction h with
  | refl => exact .refl
  | tail _ h ih =>
    obtain ⟨label, h⟩ := h
    exact ih.trans (Ptree.within_of_getChild (getChild_of_comesTo L h))

/-- A text without arrays and without empty keys below its top level is always read to the end. -/
theorem ends_of_labels {text : Str} {t : Tree} (ht : L.readJson text = some t)
    (h : ∀ v ∈ t.children, ∀ s, Ptree.Within v.2 s → ∀ c ∈ s.children, c.1 ≠ []) :
    ∃ o, o ≠ deep ∧ ∀ calls, t.height ≤ calls → L.unmarshall calls text = o := by
  refine ends_of_not_comesTo L ht fun label s s' s'' hs hlead hnil ↦ ?_
  obtain ⟨v, hv, he⟩ := List.mem_map.1 (mem_of_comesTo L hs)
  obtain ⟨c, hc, hempty⟩ := List.mem_map.1 (mem_of_comesTo L hnil)
  rw [Prod.mk.injEq, Option.some_inj] at he
  rw [Prod.mk.injEq] at hempty
  exact h v hv s' (he.2 ▸ within_of_leads L hlead) c hc hempty.1

/-- Unmarshalling ends, after at most as many nested calls as the tree is high, exactly if none of
the nodes that have to be read as sets comes to an empty label. -/
theorem unmarshall_ends_iff {text : Str} {t : Tree} (ht : L.readJson text = some t) :
    (∃ o, o ≠ deep ∧ ∀ calls, t.height ≤ calls → L.unmarshall calls text = o) ↔
      ∀ label s s' s'', ComesTo L t.topMembers label s → Leads L s s' →
        ¬ ComesTo L s'.members [] s'' := by
  refine ⟨fun h label s s' s'' hs hlead hnil ↦ ?_, ends_of_not_comesTo L ht⟩
  obtain ⟨o, ho, h⟩ := h
  apply ho
  rw [← h t.height le_rfl, unmarshall_eq L ht, parseTop_eq]
  exact deep_of_comesTo L hs (deep_of_leads L hlead hnil t.height)

def arrayText : Str := ['{', '"', 'x', '"', ':', '[', '1', ']', '}']

def array : Tree := .node [] [([], .node ['1'] [])]

theorem readJson_arrayText :
    Textual.libraries.readJson arrayText = some (.node [] [(['x'], array)]) := rfl

theorem unmarshall_ends_iff_array :
    (∃ o, o ≠ deep ∧ ∀ calls, 2 ≤ calls → Textual.libraries.unmarshall calls arrayText = o) ↔
      ∀ label s s' s'',
        ComesTo Textual.libraries (Ptree.node [] [(['x'], array)]).topMembers label s →
          Leads Textual.libraries s s' → ¬ ComesTo Textual.libraries s'.members [] s'' :=
  unmarshall_ends_iff Textual.libraries readJson_arrayText

theorem array_comesTo {members after : Members} {label : Str}
    (h : members = (label, some array) :: after) :
    ComesTo Textual.libraries members label array := by
  have htag : ([] : Str) ∉ tagWords := by
    simp [tagWords, lit]
  have hmembers : members = [] ++ (label, some array) :: after := h
  have hitems : array.children = [] ++ [([], .node ['1'] [])] := rfl
  exact .intro hmembers (.nil _) hitems (.inl ⟨rfl, rfl⟩) htag

theorem array_never_ends : ¬ ∀ (L : Libraries) (text : Str) (t : Tree), L.readJson text = some t →
    ∃ o, o ≠ deep ∧ ∀ calls, t.height ≤ calls → L.unmarshall calls text = o := by
  intro hall
  obtain ⟨o, ho, h⟩ := hall Textual.libraries arrayText _ readJson_arrayText
  have hmembers : array.members = [([], some array)] := rfl
  have hdeep := deep_of_comesTo_nil Textual.libraries (array_comesTo hmembers) 2
  have htop : Textual.libraries.unmarshall 2 arrayText = deep := by
    rw [unmarshall_eq Textual.libraries readJson_arrayText, parseTop_eq]
    exact deep_of_comesTo Textual.libraries (array_comesTo rfl) hdeep
  exact ho ((h 2 le_rfl).symm.trans htop)

end CtrlEvents
