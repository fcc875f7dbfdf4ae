import CtrlEvents.Library.Layout
import CtrlEvents.Payload.Codec
import Mathlib.Tactic.SplitIfs
import Mathlib.Tactic.Tauto

namespace CtrlEvents

open Outcome

namespace PropertySet

/-- What a name holds after one more entry of it has been added. -/
def grow (name : Str) : Option Entry → Entry → Except Exn Entry
  | none, e => .ok e
  | some e', e =>
    match e'.append e with
    | some e'' => .ok e''
    | none => .error (.typeError (name ++ lit " has mismatched type"))

def store (ps : PropertySet) (name : Str) : Option Entry → PropertySet
  | none => ps
  | some e => ps.insert name e

theorem addAt_plain (ps : PropertySet) (n : Str) (e : Entry) :
    ps.addAt [n] e = (grow n (ps.lookup n) e).map fun e ↦ ps.insert n e := by
  have hd : dotted [n] = n := by simp [dotted, List.intercalate]
  rw [addAt, NestedMap.follow_singleton]
  cases ps.lookup n with
  | none => rfl
  | some e' =>
    simp only [grow, hd]
    cases e'.append e <;> rfl

theorem lookup_store {ps : PropertySet} {n : Str} (h : ps.lookup n = none) (e : Option Entry)
    (k : Str) : (ps.store n e).lookup k = if k = n then e else ps.lookup k := by
  cases e with
  | none =>
    split
    · next hk => rw [hk, store, h]
    · rfl
  | some e => exact NestedMap.lookup_insert ..

theorem store_lookup (ps : PropertySet) (n : Str) : ps.store n (ps.lookup n) = ps := by
  cases h : ps.lookup n with
  | none => rfl
  | some e => exact NestedMap.insert_of_lookup h

theorem store_insert (ps : PropertySet) (n : Str) (e : Entry) (e' : Option Entry) (h : e'.isSome) :
    store (ps.insert n e) n e' = ps.store n e' := by
  obtain ⟨e'', rfl⟩ := Option.isSome_iff_exists.1 h
  exact NestedMap.insert_insert ..

end PropertySet

namespace Libraries

open PropertySet

variable (L : Libraries)

/-- The loop over the items of one label, as far as that label's own entry is concerned. -/
def entryOf (nested : Outcome Exn PropertySet) (label : Str) :
    List (Str × Tree) → Option Entry → Outcome Exn (Option Entry)
  | [], e => pure e
  | (typeInfo, item) :: items, e =>
    match L.itemValue typeInfo item with
    | some value => do
      let e' ← grow label e (.leaf (.single (← value)))
      entryOf nested label items (some e')
    | none => do return some (← grow label e (.maps [] (← nested)))

variable (nested : Outcome Exn PropertySet)

theorem entryOf_isSome {label : Str} {items : List (Str × Tree)} {e : Entry} {e' : Option Entry}
    (h : L.entryOf nested label items (some e) = ret e') : e'.isSome := by
  induction items generalizing e with
  | nil =>
    cases h
    rfl
  | cons item items ih =>
    obtain ⟨typeInfo, item⟩ := item
    rw [entryOf] at h
    split at h
    · obtain ⟨v, -, h⟩ := bind_eq_ret.1 h
      obtain ⟨e'', -, h⟩ := bind_eq_ret.1 h
      exact ih h
    · obtain ⟨sub, -, h⟩ := bind_eq_ret.1 h
      obtain ⟨e'', -, h⟩ := bind_eq_ret.1 h
      cases h
      rfl

theorem addItems_data {label typeInfo : Str} {item : Tree} {value : Except Exn Value}
    (h : L.itemValue typeInfo item = some value) (items : List (Str × Tree)) (psp : PropertySet) :
    L.addItems nested label ((typeInfo, item) :: items) psp =
      liftM value >>= fun v ↦ liftM (psp.add label v) >>= fun psp ↦
        L.addItems nested label items psp := by
  rw [addItems, addDataItem, h]
  simp only [liftM_bind, bind_assoc]
  rfl

theorem addItems_nested {label typeInfo : Str} {item : Tree} (h : L.itemValue typeInfo item = none)
    (items : List (Str × Tree)) (psp : PropertySet) :
    L.addItems nested label ((typeInfo, item) :: items) psp =
      nested >>= fun sub ↦ liftM (psp.addSet label sub) := by
  rw [addItems, addDataItem, h]
  rfl

theorem add_eq {label : Str} (hl : '.' ∉ label) (psp : PropertySet) (v : Value) :
    (liftM (psp.add label v) : Outcome Exn PropertySet) =
      liftM (grow label (psp.lookup label) (.leaf (.single v))) >>= fun e ↦
        pure (psp.insert label e) := by
  rw [PropertySet.add, segments_of_notMem hl, addAt_plain]
  cases grow label (psp.lookup label) (.leaf (.single v)) <;> rfl

theorem addSet_eq {label : Str} (hl : '.' ∉ label) (psp sub : PropertySet) :
    (liftM (psp.addSet label sub) : Outcome Exn PropertySet) =
      liftM (grow label (psp.lookup label) (.maps [] sub)) >>= fun e ↦
        pure (psp.insert label e) := by
  rw [addSet, segments_of_notMem hl, addAt_plain]
  cases grow label (psp.lookup label) (.maps [] sub) <;> rfl

theorem addItems_eq {label : Str} (hl : '.' ∉ label) (items : List (Str × Tree))
    (psp : PropertySet) :
    L.addItems nested label items psp =
      L.entryOf nested label items (psp.lookup label) >>= fun e ↦ pure (psp.store label e) := by
  induction items generalizing psp with
  | nil => simp [addItems, entryOf, store_lookup]
  | cons item items ih =>
    obtain ⟨typeInfo, item⟩ := item
    cases hi : L.itemValue typeInfo item with
    | none =>
      rw [addItems_nested L nested hi, entryOf, hi]
      simp only [addSet_eq hl, bind_assoc, pure_eq, ret_bind]
      rfl
    | some value =>
      rw [addItems_data L nested hi, entryOf, hi]
      simp only [add_eq hl, bind_assoc, pure_eq, ret_bind, ih,
        NestedMap.lookup_insert_self]
      refine bind_congr fun v ↦ bind_congr fun e ↦ ?_
      cases he : L.entryOf nested label items (some e) with
      | deep => rfl
      | threw x => rfl
      | ret e' =>
        rw [ret_bind, ret_bind, store_insert]
        exact L.entryOf_isSome nested he

theorem entryOf_leaf {label : Str} {items : List (Str × Tree)} {l : Leaf} {e : Option Entry}
    (h : L.entryOf nested label items (some (.leaf l)) = ret e) : ∃ l', e = some (.leaf l') := by
  induction items generalizing l with
  | nil =>
    cases h
    exact ⟨l, rfl⟩
  | cons item items ih =>
    obtain ⟨typeInfo, item⟩ := item
    rw [entryOf] at h
    split at h
    · obtain ⟨v, -, h⟩ := bind_eq_ret.1 h
      obtain ⟨e', he', h⟩ := bind_eq_ret.1 h
      rw [liftM_eq_ret, grow, Slot.append] at he'
      cases hl : l.append (.single v) with
      | none =>
        rw [hl] at he'
        cases he'
      | some l' =>
        rw [hl] at he'
        cases he'
        exact ih h
    · obtain ⟨sub, -, h⟩ := bind_eq_ret.1 h
      obtain ⟨e', he', -⟩ := bind_eq_ret.1 h
      cases he'

theorem itemValue_isSome (typeInfo : Str) (item : Tree) :
    (L.itemValue typeInfo item).isSome ↔ typeInfo ∈ tagWords := by
  unfold itemValue tagWords
  simp only [List.mem_cons, List.not_mem_nil, or_false]
  split_ifs <;> simp only [Option.isSome_some, Option.isSome_none, Bool.false_eq_true] <;> tauto

theorem entryOf_tag {label typeInfo : Str} {item : Tree} (h : typeInfo ∈ tagWords)
    {items : List (Str × Tree)} {e : Option Entry}
    (he : L.entryOf nested label ((typeInfo, item) :: items) none = ret e) :
    ∃ l, e = some (.leaf l) := by
  obtain ⟨value, hv⟩ := Option.isSome_iff_exists.1 ((L.itemValue_isSome typeInfo item).2 h)
  rw [entryOf, hv] at he
  obtain ⟨v, -, he⟩ := bind_eq_ret.1 he
  exact L.entryOf_leaf nested he

theorem itemValue_none {typeInfo : Str} (h : typeInfo ∉ tagWords) (item : Tree) :
    L.itemValue typeInfo item = none := by
  rw [← Option.not_isSome_iff_eq_none, itemValue_isSome]
  exact h

theorem entryOf_notTag {label typeInfo : Str} {item : Tree} (h : typeInfo ∉ tagWords)
    (items : List (Str × Tree)) :
    L.entryOf nested label ((typeInfo, item) :: items) none =
      nested >>= fun sub ↦ ret (some (.maps [] sub)) := by
  rw [entryOf, L.itemValue_none h]
  rfl

theorem ret_of_addItems {nested : Outcome Exn PropertySet} {label : Str} {items : List (Str × Tree)}
    {psp r : PropertySet} (h : L.addItems nested label items psp = ret r) {v : Str × Tree}
    (hv : v ∈ items) (htag : v.1 ∉ tagWords) : ∃ sub, nested = ret sub := by
  induction items generalizing psp with
  | nil => cases hv
  | cons item items ih =>
    obtain ⟨typeInfo, item⟩ := item
    cases hi : L.itemValue typeInfo item with
    | none =>
      rw [L.addItems_nested _ hi] at h
      obtain ⟨sub, hsub, -⟩ := bind_eq_ret.1 h
      exact ⟨sub, hsub⟩
    | some value =>
      rw [L.addItems_data _ hi] at h
      obtain ⟨v', -, h⟩ := bind_eq_ret.1 h
      obtain ⟨psp', -, h⟩ := bind_eq_ret.1 h
      rcases List.mem_cons.1 hv with rfl | hv
      · exact absurd ((L.itemValue_isSome typeInfo item).1 (by rw [hi]; rfl)) htag
      · exact ih h hv

/-- A node that has been parsed has no empty label, under which it would call itself again. -/
theorem nil_notMem_of_ret {calls : ℕ} {t : Tree} {r : PropertySet}
    (h : L.parsePropertySet calls t = ret r) : [] ∉ t.children.map Prod.fst := by
  induction calls generalizing r with
  | zero => cases h
  | succ calls ih =>
    intro hmem
    obtain ⟨⟨_, item⟩, hv, rfl⟩ := List.mem_map.1 hmem
    obtain ⟨pre, post, ht⟩ := List.append_of_mem hv
    rw [parsePropertySet, ht, List.foldlM_append] at h
    obtain ⟨psp, -, h⟩ := bind_eq_ret.1 h
    rw [List.foldlM_cons] at h
    obtain ⟨psp', hlabel, -⟩ := bind_eq_ret.1 h
    obtain ⟨node, hnode, hitems⟩ := bind_eq_ret.1 hlabel
    cases hnode
    have htag : ([] : Str) ∉ tagWords := by decide +kernel
    obtain ⟨sub, hsub⟩ := L.ret_of_addItems hitems hv htag
    exact ih hsub hmem

variable {nested : Tree → Outcome Exn PropertySet} {children : List (Str × Tree)}

/-- Over different labels, the decoder's loop returns a set if and only if the items of each
label give the label's entry in it. -/
theorem foldlM_addItems {psp r : PropertySet} (hnd : (children.map Prod.fst).Nodup)
    (hpl : ∀ v ∈ children, '.' ∉ v.1) (hfree : ∀ v ∈ children, psp.lookup v.1 = none) :
    children.foldlM (L.parseTopLabel nested) psp = ret r ↔
      (∀ v ∈ children, L.entryOf (nested v.2) v.1 v.2.children none = ret (r.lookup v.1)) ∧
        ∀ k, k ∉ children.map Prod.fst → r.lookup k = psp.lookup k := by
  induction children generalizing psp with
  | nil =>
    rw [List.foldlM_nil]
    refine ⟨fun h ↦ ?_, fun h ↦ ?_⟩
    · cases h
      exact ⟨by simp, fun _ _ ↦ rfl⟩
    · exact congrArg ret (NestedMap.ext fun k ↦ (h.2 k (by simp)).symm)
  | cons v children ih =>
    rw [List.map_cons, List.nodup_cons] at hnd
    have hv := hfree v (by simp)
    have hne : ∀ w ∈ children, w.1 ≠ v.1 := fun w hw he ↦
      hnd.1 (he ▸ List.mem_map_of_mem hw)
    have hrest : ∀ e, ∀ w ∈ children, (psp.store v.1 e).lookup w.1 = none := fun e w hw ↦ by
      rw [lookup_store hv, if_neg (hne w hw), hfree w (by simp [hw])]
    rw [List.foldlM_cons, parseTopLabel, addItems_eq L _ (hpl v (by simp)), hv, bind_assoc]
    simp only [bind_eq_ret, pure_eq, ret_bind]
    constructor
    · rintro ⟨e, he, h⟩
      rw [ih hnd.2 (fun w hw ↦ hpl w (by simp [hw])) (hrest e)] at h
      have hself : r.lookup v.1 = e := by
        rw [h.2 v.1 hnd.1, lookup_store hv, if_pos rfl]
      refine ⟨List.forall_mem_cons.2 ⟨hself ▸ he, h.1⟩, fun k hk ↦ ?_⟩
      rw [List.map_cons, List.mem_cons, not_or] at hk
      rw [h.2 k hk.2, lookup_store hv, if_neg hk.1]
    · rintro ⟨h, hk⟩
      refine ⟨_, h v (by simp), ?_⟩
      rw [ih hnd.2 (fun w hw ↦ hpl w (by simp [hw])) (hrest _)]
      refine ⟨fun w hw ↦ h w (by simp [hw]), fun k hkn ↦ ?_⟩
      rw [lookup_store hv]
      split
      · next he => rw [he]
      · next he => exact hk k (by simp [he, hkn])

theorem foldlM_addItems_total {psp : PropertySet} (hnd : (children.map Prod.fst).Nodup)
    (hpl : ∀ v ∈ children, '.' ∉ v.1) (hfree : ∀ v ∈ children, psp.lookup v.1 = none)
    (h : ∀ v ∈ children, ∃ e, L.entryOf (nested v.2) v.1 v.2.children none = ret e) :
    ∃ r, children.foldlM (L.parseTopLabel nested) psp = ret r := by
  induction children generalizing psp with
  | nil => exact ⟨psp, rfl⟩
  | cons v children ih =>
    rw [List.map_cons, List.nodup_cons] at hnd
    have hv := hfree v (by simp)
    obtain ⟨e, he⟩ := h v (by simp)
    rw [List.foldlM_cons, parseTopLabel, addItems_eq L _ (hpl v (by simp)), hv, he]
    refine ih hnd.2 (fun w hw ↦ hpl w (by simp [hw])) (fun w hw ↦ ?_) fun w hw ↦ h w (by simp [hw])
    have hne : w.1 ≠ v.1 := fun he ↦ hnd.1 (he ▸ List.mem_map_of_mem hw)
    rw [lookup_store hv, if_neg hne, hfree w (by simp [hw])]

theorem addItems_le {nested nested' : Outcome Exn PropertySet} (h : nested ≤ nested')
    (label : Str) (items : List (Str × Tree)) (psp : PropertySet) :
    L.addItems nested label items psp ≤ L.addItems nested' label items psp := by
  induction items generalizing psp with
  | nil => exact le_rfl
  | cons item items ih =>
    obtain ⟨typeInfo, item⟩ := item
    cases hi : L.itemValue typeInfo item with
    | none =>
      rw [addItems_nested L _ hi, addItems_nested L _ hi]
      exact bind_le h fun _ ↦ le_rfl
    | some value =>
      rw [addItems_data L _ hi, addItems_data L _ hi]
      exact bind_le le_rfl fun v ↦ bind_le le_rfl ih

theorem parseLabel_le {parse parse' : Tree → Outcome Exn PropertySet} (h : ∀ s, parse s ≤ parse' s)
    (t : Tree) (psp : PropertySet) (v : Str × Tree) :
    L.parseLabel parse t psp v ≤ L.parseLabel parse' t psp v :=
  bind_le le_rfl fun node ↦ L.addItems_le (h node) v.1 node.children psp

theorem parseTopLabel_le {parse parse' : Tree → Outcome Exn PropertySet}
    (h : ∀ s, parse s ≤ parse' s) (psp : PropertySet) (v : Str × Tree) :
    L.parseTopLabel parse psp v ≤ L.parseTopLabel parse' psp v :=
  L.addItems_le (h v.2) v.1 v.2.children psp

theorem parsePropertySet_mono (t : Tree) : Monotone fun calls ↦ L.parsePropertySet calls t := by
  intro n m h
  induction n generalizing m t with
  | zero => exact deep_le _
  | succ n ih =>
    obtain ⟨m, rfl⟩ : ∃ k, m = k + 1 := ⟨m - 1, by omega⟩
    exact foldlM_le (L.parseLabel_le (fun s ↦ ih s (by omega)) t) t.children ∅

theorem unmarshall_mono (text : Str) : Monotone fun calls ↦ L.unmarshall calls text := by
  intro n m h
  simp only [unmarshall]
  split
  · next pt hpt =>
    exact foldlM_le (L.parseTopLabel_le fun s ↦ L.parsePropertySet_mono s h) pt.children ∅
  · exact le_rfl

/-- Where all labels are plain and different, the two loops of the decoder agree. -/
theorem parsePropertySet_succ {t : Tree} (hnd : (t.children.map Prod.fst).Nodup)
    (hpl : ∀ v ∈ t.children, Plain v.1) (calls : ℕ) :
    L.parsePropertySet (calls + 1) t = L.parseTop calls t := by
  rw [parsePropertySet, parseTop]
  have hget : ∀ v ∈ t.children, t.getChildOf v.1 = .ok v.2 := by
    intro v hv
    have hpath : treePath v.1 = [v.1] := by
      have h := treePath_dotted (List.cons_ne_nil v.1 []) (by simpa using hpl v hv)
      simpa [dotted, List.intercalate] using h
    rw [Ptree.getChildOf, hpath, Ptree.getChild, Ptree.lookup_of_mem hnd hv]
    rfl
  have hfold : ∀ (vs : List (Str × Tree)) (psp : PropertySet), (∀ v ∈ vs, v ∈ t.children) →
      vs.foldlM (L.parseLabel (L.parsePropertySet calls) t) psp =
        vs.foldlM (L.parseTopLabel (L.parsePropertySet calls)) psp := by
    intro vs
    induction vs with
    | nil => exact fun _ _ ↦ rfl
    | cons v vs ih =>
      intro psp hvs
      rw [List.foldlM_cons, List.foldlM_cons, parseLabel, hget v (hvs v (by simp)), liftM_ok,
        ret_bind, parseTopLabel]
      exact bind_congr fun psp ↦ ih psp fun w hw ↦ hvs w (by simp [hw])
  exact hfold t.children ∅ fun _ h ↦ h

end Libraries

end CtrlEvents
