import CtrlEvents.Payload.Decoding
import CtrlEvents.Payload.Types

namespace CtrlEvents

open Outcome

/-- The labels of a node, each with the node that its items are taken from, if there is one. -/
abbrev Members := List (Str × Option Tree)

namespace Ptree

def members (t : Tree) : Members := t.children.map fun v ↦ (v.1, t.getChild (treePath v.1))

def topMembers (t : Tree) : Members := t.children.map fun v ↦ (v.1, some v.2)

end Ptree

variable (L : Libraries)

def Converts (kind : Kind) (item : Str × Tree) : Prop :=
  ∃ value, L.itemValue item.1 item.2 = some (.ok value) ∧ value.kind = kind

/-- The items of a label are data of one type, and it joins what the label leads to. -/
def ReadsData (label : Str) (items : List (Str × Tree)) (Γ Γ' : Types) : Prop :=
  items = [] ∧ Γ' = Γ ∨ items ≠ [] ∧ ∃ kind, (∀ item ∈ items, Converts L kind item) ∧
    Γ.Joins (segments label) (.values kind) ∧ Γ' = Γ.put (segments label) (.values kind)

/-- Each label has a node, which holds data or can itself be read, of a type that joins what the
label leads to. -/
inductive Reads : Members → Types → Types → Prop
  | nil (Γ : Types) : Reads [] Γ Γ
  | data {label : Str} {s : Tree} {members : Members} {Γ Γ' Γ'' : Types}
      (hdata : ReadsData L label s.children Γ Γ') (hrest : Reads members Γ' Γ'') :
      Reads ((label, some s) :: members) Γ Γ''
  | nested {label tag : Str} {s item : Tree} {items : List (Str × Tree)} {members : Members}
      {Γ Γ' E : Types} (hitems : s.children = (tag, item) :: items) (htag : tag ∉ tagWords)
      (hsub : Reads s.members .empty E) (hjoins : Γ.Joins (segments label) E)
      (hrest : Reads members (Γ.put (segments label) E) Γ') :
      Reads ((label, some s) :: members) Γ Γ'

theorem add_ok_iff (label : Str) (v : Value) (psp : PropertySet) (Γ : Types) :
    (∃ r, psp.add label v = .ok r ∧ r.types = Γ) ↔
      psp.types.Joins (segments label) (.values v.kind) ∧
        Γ = psp.types.put (segments label) (.values v.kind) :=
  PropertySet.addAt_types_iff (segments_ne_nil label) (.leaf (.single v)) psp Γ

theorem addSet_ok_iff (label : Str) (sub psp : PropertySet) (Γ : Types) :
    (∃ r, psp.addSet label sub = .ok r ∧ r.types = Γ) ↔
      psp.types.Joins (segments label) sub.types ∧
        Γ = psp.types.put (segments label) sub.types :=
  PropertySet.addAt_types_iff (segments_ne_nil label) (.maps [] sub) psp Γ

theorem addItems_deep_ret {label : Str} {items : List (Str × Tree)} {psp : PropertySet}
    {Γ : Types} : (∃ r, L.addItems deep label items psp = ret r ∧ r.types = Γ) ↔
      ReadsData L label items psp.types Γ := by
  induction items generalizing psp with
  | nil => simp [Libraries.addItems, ReadsData, eq_comm]
  | cons item items ih =>
    obtain ⟨tag, item⟩ := item
    constructor
    · rintro ⟨r, hr, hΓ⟩
      cases hi : L.itemValue tag item with
      | none =>
        rw [L.addItems_nested _ hi] at hr
        cases hr
      | some value =>
        rw [L.addItems_data _ hi] at hr
        obtain ⟨v, hv, hr⟩ := bind_eq_ret.1 hr
        obtain ⟨psp', hadd, hr⟩ := bind_eq_ret.1 hr
        rw [liftM_eq_ret] at hv hadd
        rw [hv] at hi
        obtain ⟨hjoins, htypes⟩ := (add_ok_iff label v psp _).1 ⟨psp', hadd, rfl⟩
        refine .inr ⟨List.cons_ne_nil _ _, v.kind, ?_⟩
        rcases ih.1 ⟨r, hr, hΓ⟩ with ⟨rfl, hsame⟩ | ⟨-, kind, hconverts, hjoins', hput⟩
        · refine ⟨fun item' hmem ↦ ?_, hjoins, hsame.trans htypes⟩
          rw [List.mem_singleton.1 hmem]
          exact ⟨v, hi, rfl⟩
        · rw [htypes] at hjoins' hput
          cases Types.eq_of_joins_put hjoins' (τ := .value v.kind) rfl
          exact ⟨List.forall_mem_cons.2 ⟨⟨v, hi, rfl⟩, hconverts⟩, hjoins,
            hput.trans (Types.put_put ..)⟩
    · rintro (⟨h, -⟩ | ⟨-, kind, hconverts, hjoins, hΓ⟩)
      · exact absurd h (List.cons_ne_nil _ _)
      obtain ⟨⟨v, hi, rfl⟩, hconverts⟩ := List.forall_mem_cons.1 hconverts
      obtain ⟨psp', hadd, htypes⟩ := (add_ok_iff label v psp _).2 ⟨hjoins, rfl⟩
      rw [L.addItems_data _ hi, liftM_ok, ret_bind, hadd, liftM_ok, ret_bind]
      refine ih.2 ?_
      by_cases hitems : items = []
      · exact .inl ⟨hitems, hΓ.trans htypes.symm⟩
      · rw [htypes]
        exact .inr ⟨hitems, v.kind, hconverts, Types.joins_put _ _ rfl,
          hΓ.trans (Types.put_put ..).symm⟩

theorem addItems_append {label : Str} {data : List (Str × Tree)} {psp r : PropertySet}
    (h : L.addItems deep label data psp = ret r) (nested : Outcome Exn PropertySet)
    (items : List (Str × Tree)) :
    L.addItems nested label (data ++ items) psp = L.addItems nested label items r := by
  induction data generalizing psp with
  | nil =>
    cases h
    rfl
  | cons item data ih =>
    obtain ⟨tag, item⟩ := item
    rw [List.cons_append]
    cases hi : L.itemValue tag item with
    | none =>
      rw [L.addItems_nested _ hi] at h
      cases h
    | some value =>
      rw [L.addItems_data _ hi] at h ⊢
      obtain ⟨v, hv, h⟩ := bind_eq_ret.1 h
      obtain ⟨psp', hadd, h⟩ := bind_eq_ret.1 h
      rw [hv, ret_bind, hadd, ret_bind]
      exact ih h

theorem data_of_deep {label : Str} {items : List (Str × Tree)} {psp : PropertySet}
    (h : L.addItems deep label items psp = deep) : ∃ data tag item rest r,
      items = data ++ (tag, item) :: rest ∧ L.addItems deep label data psp = ret r ∧
        tag ∉ tagWords := by
  induction items generalizing psp with
  | nil => cases h
  | cons item items ih =>
    obtain ⟨tag, item⟩ := item
    cases hi : L.itemValue tag item with
    | none =>
      refine ⟨[], tag, item, items, psp, rfl, rfl, fun htag ↦ ?_⟩
      rw [← L.itemValue_isSome tag item, hi] at htag
      cases htag
    | some value =>
      rw [L.addItems_data _ hi] at h
      cases value with
      | error e => cases h
      | ok v =>
        rw [liftM_ok, ret_bind] at h
        cases hadd : psp.add label v with
        | error e =>
          rw [hadd] at h
          cases h
        | ok psp' =>
          rw [hadd, liftM_ok, ret_bind] at h
          obtain ⟨data, tag', item', rest, r, rfl, hdata, htag⟩ := ih h
          refine ⟨(tag, item) :: data, tag', item', rest, r, rfl, ?_, htag⟩
          rw [L.addItems_data _ hi, liftM_ok, ret_bind, hadd, liftM_ok, ret_bind, hdata]

/-- The loop over the items of a label comes to the nested call at the first one that is no data. -/
theorem addItems_deep_iff {label : Str} {items : List (Str × Tree)} {psp : PropertySet} :
    L.addItems deep label items psp = deep ↔ ∃ data tag item rest Γ,
      items = data ++ (tag, item) :: rest ∧ ReadsData L label data psp.types Γ ∧
        tag ∉ tagWords := by
  constructor
  · intro h
    obtain ⟨data, tag, item, rest, r, hitems, hdata, htag⟩ := data_of_deep L h
    exact ⟨data, tag, item, rest, _, hitems, (addItems_deep_ret L).1 ⟨r, hdata, rfl⟩, htag⟩
  · rintro ⟨data, tag, item, rest, Γ, rfl, hdata, htag⟩
    obtain ⟨r, hr, -⟩ := (addItems_deep_ret L).2 hdata
    rw [addItems_append L hr, L.addItems_nested _ (L.itemValue_none htag _), deep_bind]

theorem addItems_ret_iff {nested : Outcome Exn PropertySet} {label : Str}
    {items : List (Str × Tree)} {psp : PropertySet} {Γ : Types} :
    (∃ r, L.addItems nested label items psp = ret r ∧ r.types = Γ) ↔
      ReadsData L label items psp.types Γ ∨ ∃ tag item rest sub, items = (tag, item) :: rest ∧
        tag ∉ tagWords ∧ nested = ret sub ∧ psp.types.Joins (segments label) sub.types ∧
          Γ = psp.types.put (segments label) sub.types := by
  constructor
  · rintro ⟨r, hr, hΓ⟩
    by_cases hdeep : L.addItems deep label items psp = deep
    swap
    · have hsame := eq_of_le (L.addItems_le (deep_le nested) label items psp) hdeep
      exact .inl ((addItems_deep_ret L).1 ⟨r, hsame.symm.trans hr, hΓ⟩)
    · obtain ⟨data, tag, item, rest, psp', rfl, hdata, htag⟩ := data_of_deep L hdeep
      rw [addItems_append L hdata, L.addItems_nested _ (L.itemValue_none htag _)] at hr
      obtain ⟨sub, hsub, hr⟩ := bind_eq_ret.1 hr
      obtain ⟨hjoins, hput⟩ := (addSet_ok_iff label sub psp' Γ).1 ⟨r, liftM_eq_ret.1 hr, hΓ⟩
      rcases (addItems_deep_ret L).1 ⟨psp', hdata, rfl⟩ with ⟨rfl, hsame⟩ | ⟨-, kind, -, -, hvalues⟩
      · rw [hsame] at hjoins hput
        exact .inr ⟨tag, item, rest, sub, rfl, htag, hsub, hjoins, hput⟩
      · rw [hvalues] at hjoins
        have hset := Types.eq_of_joins_put hjoins (τ := .value kind) rfl
        cases hset
  · rintro (hdata | ⟨tag, item, rest, sub, rfl, htag, rfl, hjoins, hput⟩)
    · obtain ⟨r, hr, hΓ⟩ := (addItems_deep_ret L).2 hdata
      have hsame := addItems_append L hr nested []
      rw [List.append_nil] at hsame
      exact ⟨r, hsame, hΓ⟩
    · obtain ⟨r, hr, hΓ⟩ := (addSet_ok_iff label sub psp Γ).2 ⟨hjoins, hput⟩
      refine ⟨r, ?_, hΓ⟩
      rw [L.addItems_nested _ (L.itemValue_none htag _), ret_bind, hr, liftM_ok]

section Reading

/-- The body of both loops of the decoder, given the node of the label. -/
def parseMember (parse : Tree → Outcome Exn PropertySet) (psp : PropertySet)
    (m : Str × Option Tree) : Outcome Exn PropertySet :=
  match m.2 with
  | some node => L.addItems (parse node) m.1 node.children psp
  | none => threw (.ptreeBadPath m.1)

@[simp] theorem parseMember_some (parse : Tree → Outcome Exn PropertySet) (psp : PropertySet)
    (label : Str) (s : Tree) :
    parseMember L parse psp (label, some s) = L.addItems (parse s) label s.children psp := rfl

theorem parsePropertySet_eq (calls : ℕ) (t : Tree) : L.parsePropertySet (calls + 1) t =
    t.members.foldlM (parseMember L (L.parsePropertySet calls)) ∅ := by
  rw [Libraries.parsePropertySet, Ptree.members, List.foldlM_map]
  refine congrArg (fun f ↦ t.children.foldlM f ∅) ?_
  funext psp v
  rw [Libraries.parseLabel, Ptree.getChildOf, parseMember]
  cases t.getChild (treePath v.1) <;> rfl

theorem parseTop_eq (calls : ℕ) (t : Tree) : L.parseTop calls t =
    t.topMembers.foldlM (parseMember L (L.parsePropertySet calls)) ∅ := by
  rw [Libraries.parseTop, Ptree.topMembers, List.foldlM_map]
  rfl

theorem parseMember_le {parse parse' : Tree → Outcome Exn PropertySet} (h : ∀ s, parse s ≤ parse' s)
    (psp : PropertySet) (m : Str × Option Tree) :
    parseMember L parse psp m ≤ parseMember L parse' psp m := by
  unfold parseMember
  cases m.2 with
  | none => exact le_rfl
  | some s => exact L.addItems_le (h s) m.1 s.children psp

theorem parseMembers_mono (members : Members) (psp : PropertySet) :
    Monotone fun calls ↦ members.foldlM (parseMember L (L.parsePropertySet calls)) psp :=
  fun _ _ h ↦ foldlM_le (parseMember_le L fun s ↦ L.parsePropertySet_mono s h) members psp

theorem parseMembers_ret {members : Members} {psp r : PropertySet} {n m : ℕ} (h : n ≤ m)
    (hr : members.foldlM (parseMember L (L.parsePropertySet n)) psp = ret r) :
    members.foldlM (parseMember L (L.parsePropertySet m)) psp = ret r :=
  (eq_of_le (parseMembers_mono L members psp h) (by simp [hr])).trans hr

theorem reads_of_members {calls : ℕ}
    (hsub : ∀ s sub, L.parsePropertySet calls s = ret sub → Reads L s.members .empty sub.types)
    {members : Members} {psp r : PropertySet}
    (h : members.foldlM (parseMember L (L.parsePropertySet calls)) psp = ret r) :
    Reads L members psp.types r.types := by
  induction members generalizing psp with
  | nil =>
    cases h
    exact .nil _
  | cons m members ih =>
    rw [List.foldlM_cons] at h
    obtain ⟨psp', hm, hrest⟩ := bind_eq_ret.1 h
    obtain ⟨label, _ | s⟩ := m
    · cases hm
    rcases (addItems_ret_iff L).1 ⟨psp', hm, rfl⟩ with
      hdata | ⟨tag, item, items, sub, hitems, htag, hs, hjoins, hput⟩
    · exact .data hdata (ih hrest)
    · exact .nested hitems htag (hsub s sub hs) hjoins (hput ▸ ih hrest)

theorem reads_of_ret {calls : ℕ} {t : Tree} {r : PropertySet}
    (h : L.parsePropertySet calls t = ret r) : Reads L t.members .empty r.types := by
  induction calls generalizing t r with
  | zero => cases h
  | succ calls ih =>
    rw [parsePropertySet_eq] at h
    exact PropertySet.types_empty ▸ reads_of_members L (fun s sub hs ↦ ih hs) h

theorem ret_of_reads {members : Members} {Γ Γ' : Types} (h : Reads L members Γ Γ')
    {psp : PropertySet} (hpsp : psp.types = Γ) : ∃ calls r,
      members.foldlM (parseMember L (L.parsePropertySet calls)) psp = ret r ∧ r.types = Γ' := by
  induction h generalizing psp with
  | nil Γ => exact ⟨0, psp, rfl, hpsp⟩
  | @data label s members _ _ _ hdata _ ih =>
    obtain ⟨psp', hitems, htypes⟩ := (addItems_deep_ret L).2 (hpsp ▸ hdata)
    obtain ⟨calls, r, hr, hΓ⟩ := ih htypes
    refine ⟨calls, r, ?_, hΓ⟩
    have hitems' := addItems_append L hitems (L.parsePropertySet calls s) []
    rw [List.append_nil] at hitems'
    rw [List.foldlM_cons, parseMember_some, hitems']
    exact hr
  | @nested label tag s item items members _ _ E hitems htag _ hjoins _ ihsub ih =>
    obtain ⟨n, sub, hsub, rfl⟩ := ihsub PropertySet.types_empty
    rw [← parsePropertySet_eq] at hsub
    obtain ⟨psp', hadd, htypes⟩ := (addItems_ret_iff L).2
      (.inr ⟨tag, item, items, sub, hitems, htag, rfl, hpsp ▸ hjoins, rfl⟩)
    obtain ⟨m, r, hr, hΓ⟩ := ih (htypes.trans (by rw [hpsp]))
    refine ⟨max (n + 1) m, r, ?_, hΓ⟩
    have hs : L.parsePropertySet (max (n + 1) m) s = ret sub :=
      (eq_of_le (L.parsePropertySet_mono s (le_max_left (n + 1) m)) (by simp [hsub])).trans hsub
    rw [List.foldlM_cons, parseMember_some, hs, hadd]
    exact parseMembers_ret L (le_max_right (n + 1) m) hr

/-- The tree that a text stands for can be read. -/
def Readable (text : Str) : Prop :=
  ∃ t Γ, L.readJson text = some t ∧ Reads L t.topMembers .empty Γ

/-- A text decodes exactly if the tree that it stands for can be read. -/
theorem settles_iff_readable {text : Str} :
    (∃ r, Settles (L.unmarshall · text) (ret r)) ↔ Readable L text := by
  constructor
  · rintro ⟨r, calls, h⟩
    have hr : L.unmarshall calls text = ret r := h calls le_rfl
    rw [Libraries.unmarshall] at hr
    split at hr
    · next t ht =>
      rw [parseTop_eq] at hr
      have hreads := reads_of_members L (fun s sub hs ↦ reads_of_ret L hs) hr
      exact ⟨t, r.types, ht, PropertySet.types_empty ▸ hreads⟩
    · cases hr
  · rintro ⟨t, Γ, ht, hreads⟩
    obtain ⟨calls, r, hr, -⟩ := ret_of_reads L hreads PropertySet.types_empty
    refine ⟨r, calls, fun m hm ↦ ?_⟩
    have hrun : L.unmarshall m text = L.parseTop m t := by
      rw [Libraries.unmarshall, ht]
    exact hrun.trans ((parseTop_eq L m t).trans (parseMembers_ret L hm hr))

end Reading

end CtrlEvents
