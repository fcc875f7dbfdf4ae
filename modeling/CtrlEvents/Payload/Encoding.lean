import CtrlEvents.Library.Fallible
import CtrlEvents.Library.Layout
import CtrlEvents.Payload.Codec

namespace CtrlEvents

open Layout

def Kind.tag : Kind → Option Str
  | .bool => some (lit "bool")
  | .long => some (lit "long")
  | .longLong => some (lit "long long")
  | .int => some (lit "int")
  | .float => some (lit "float")
  | .double => some (lit "double")
  | .string => some (lit "string")
  | .dateTime => some (lit "datetime")
  | _ => none

namespace PropertySet

variable {ps : PropertySet} {names : List Str}

theorem find_dotted {p : List Str} (hp : p ≠ []) (h : ∀ n ∈ p, '.' ∉ n) :
    ps.find (dotted p) = NestedMap.follow p ps := by
  rw [find, segments_dotted hp h]

theorem find_leaf {p : List Str} {l : Leaf} (h : ∀ n ∈ p, '.' ∉ n) (hl : ps.leafAt p = some l) :
    ps.find (dotted p) = some (.leaf l) := by
  rw [find_dotted (NestedMap.ne_nil_of_leafAt hl) h]
  unfold NestedMap.leafAt at hl
  split at hl
  · next a ha =>
    cases hl
    exact ha
  · cases hl

theorem typeOf_leaf {p : List Str} {l : Leaf} (h : ∀ n ∈ p, '.' ∉ n)
    (hl : ps.leafAt p = some l) : ps.typeOf (dotted p) = .ok (.value l.kind) := by
  rw [typeOf, find_leaf h hl]

theorem getArray_leaf {p : List Str} {l : Leaf} (h : ∀ n ∈ p, '.' ∉ n)
    (hl : ps.leafAt p = some l) : ps.getArray l.kind (dotted p) = .ok l.values := by
  simp [getArray, find_leaf h hl]

def listed (ps : PropertySet) (names : List Str) : List (List Str × Leaf) :=
  names.filterMap fun name ↦ (ps.leafAt (segments name)).map fun l ↦ (segments name, l)

/-- The tag under which the values of a listed name are written, if there is one. -/
def tagOf (ps : PropertySet) (name : Str) : Option Str :=
  (ps.leafAt (segments name)).bind fun l ↦ l.kind.tag

variable (hn : ps.Lists names) (hp : ps.Addressed)

include hn hp

theorem leafAt_segments {name : Str} (h : name ∈ names) :
    ∃ l, ps.leafAt (segments name) = some l ∧ segments name ≠ [] ∧
      ∀ n ∈ segments name, '.' ∉ n := by
  obtain ⟨p, l, hl, rfl⟩ := (hn.2 name).1 h
  have hne : p ≠ [] := NestedMap.ne_nil_of_leafAt hl
  rw [segments_dotted hne (hp p l hl)]
  exact ⟨l, hl, hne, hp p l hl⟩

theorem mem_listed {p : List Str} {l : Leaf} :
    (p, l) ∈ ps.listed names ↔ ps.leafAt p = some l := by
  rw [listed, List.mem_filterMap]
  constructor
  · rintro ⟨name, -, h⟩
    obtain ⟨l', hl, he⟩ := Option.map_eq_some_iff.1 h
    cases he
    exact hl
  · intro hl
    refine ⟨dotted p, (hn.2 _).2 ⟨p, l, hl, rfl⟩, ?_⟩
    rw [segments_dotted (NestedMap.ne_nil_of_leafAt hl) (hp p l hl), hl]
    rfl

theorem listed_ne_nil : ∀ e ∈ ps.listed names, e.1 ≠ [] := fun _ he ↦
  NestedMap.ne_nil_of_leafAt ((mem_listed hn hp).1 he)

theorem listed_dotless : ∀ e ∈ ps.listed names, ∀ n ∈ e.1, '.' ∉ n := fun _ he ↦
  hp _ _ ((mem_listed hn hp).1 he)

theorem map_fst_listed : (ps.listed names).map Prod.fst = names.map segments := by
  rw [listed, List.map_filterMap]
  have h : ∀ name ∈ names, (Option.map Prod.fst
      ((ps.leafAt (segments name)).map fun l ↦ (segments name, l))) = some (segments name) := by
    intro name hname
    obtain ⟨l, hl, -⟩ := leafAt_segments hn hp hname
    rw [hl]
    rfl
  rw [List.filterMap_congr h, List.filterMap_eq_map']

theorem listed_pairwise : (ps.listed names).Pairwise fun e f ↦ Apart e.1 f.1 := by
  have hnd : (ps.listed names).Pairwise fun e f ↦ e.1 ≠ f.1 := by
    rw [← List.pairwise_map (f := Prod.fst) (R := (· ≠ ·)), map_fst_listed hn hp]
    refine List.Nodup.map_on ?_ hn.1
    intro x _ y _ h
    rw [← dotted_segments x, h, dotted_segments]
  refine hnd.imp_of_mem fun {e f} he hf hef ↦ ?_
  have hle := (mem_listed hn hp).1 he
  have hlf := (mem_listed hn hp).1 hf
  exact ⟨fun h ↦ hef (NestedMap.leafAt_prefix hle hlf h),
    fun h ↦ hef (NestedMap.leafAt_prefix hlf hle h).symm⟩

end PropertySet

namespace Libraries

open PropertySet

variable (L : Libraries)

/-- The node that the encoder makes of a leaf. -/
def render (l : Leaf) : Tree :=
  if l.kind = .dateTime then .node [] [(lit "datetime", .node (L.putValue l.back) [])]
  else .node [] (l.values.map fun v ↦ (l.kind.tag.getD [], .node (L.putValue v) []))

theorem render_of_tag {l : Leaf} {tag : Str} (hd : l.kind ≠ .dateTime)
    (ht : l.kind.tag = some tag) :
    L.render l = .node [] (l.values.map fun v ↦ (tag, .node (L.putValue v) [])) := by
  rw [render, if_neg hd, ht]
  rfl

/-- The values of a leaf that come into its node: all of them, but of instants only the last. -/
def written (l : Leaf) : List Value := if l.kind = .dateTime then [l.back] else l.values

theorem render_written {l : Leaf} {tag : Str} (ht : l.kind.tag = some tag) :
    L.render l = .node [] ((written l).map fun v ↦ (tag, .node (L.putValue v) [])) := by
  by_cases hd : l.kind = .dateTime
  · rw [hd] at ht
    cases ht
    rw [render, written, if_pos hd, if_pos hd]
    rfl
  · rw [L.render_of_tag hd ht, written, if_neg hd]

theorem render_data (l : Leaf) : (L.render l).data = [] := by
  unfold render
  split <;> rfl

theorem render_exclusive (l : Leaf) : (L.render l).Exclusive := by
  have hleaf : ∀ data : Str, Ptree.Exclusive (.node data [] : Tree) := fun data ↦
    .node (.inr rfl) (by simp)
  unfold render
  split
  · refine .node (.inl rfl) fun k t h ↦ ?_
    rw [List.mem_singleton, Prod.mk.injEq] at h
    exact h.2 ▸ hleaf _
  · refine .node (.inl rfl) fun k t h ↦ ?_
    obtain ⟨v, -, hv⟩ := List.mem_map.1 h
    rw [Prod.mk.injEq] at hv
    exact hv.2 ▸ hleaf _

theorem foldl_putChild (p : List Str) (f : Value → Tree) {vs : List Value} (h : vs ≠ [])
    (t : Tree) :
    vs.foldl (fun t v ↦ Ptree.putChild p (f v) t) t = Ptree.putChild p (f (vs.getLast h)) t := by
  induction vs generalizing t with
  | nil => exact absurd rfl h
  | cons v vs ih =>
    cases vs with
    | nil => rfl
    | cons w vs =>
      rw [List.foldl_cons, ih (List.cons_ne_nil w vs), Ptree.putChild_putChild]
      rfl

variable {ps : PropertySet} {names : List Str}

theorem add_leaf {p : List Str} {l : Leaf} {tag : Str} (h : ∀ n ∈ p, '.' ∉ n)
    (hl : ps.leafAt p = some l) (ht : l.kind.tag = some tag) (hd : l.kind ≠ .dateTime)
    (child : Tree) :
    L.add l.kind (dotted p) tag ps child = .ok (Ptree.putChild p (L.render l) child) := by
  have hp : p ≠ [] := NestedMap.ne_nil_of_leafAt hl
  rw [add, getArray_leaf h hl, segments_dotted hp h, L.render_of_tag hd ht]
  rfl

theorem marshallName_leaf {p : List Str} {l : Leaf} (h : ∀ n ∈ p, '.' ∉ n)
    (hl : ps.leafAt p = some l) (hk : l.kind.tag.isSome) (child : Tree) :
    L.marshallName ps child (dotted p) = .ok (Ptree.putChild p (L.render l) child) := by
  have hadd : ∀ kind tag, l.kind = kind → kind.tag = some tag → kind ≠ .dateTime →
      L.add kind (dotted p) tag ps child = .ok (Ptree.putChild p (L.render l) child) := by
    rintro _ tag rfl ht hd
    exact L.add_leaf h hl ht hd child
  rw [marshallName, typeOf_leaf h hl]
  cases hkind : l.kind with
  | bool => exact hadd _ _ hkind rfl (by decide)
  | long => exact hadd _ _ hkind rfl (by decide)
  | longLong => exact hadd _ _ hkind rfl (by decide)
  | int => exact hadd _ _ hkind rfl (by decide)
  | float => exact hadd _ _ hkind rfl (by decide)
  | double => exact hadd _ _ hkind rfl (by decide)
  | string => exact hadd _ _ hkind rfl (by decide)
  | dateTime =>
    have hp : p ≠ [] := NestedMap.ne_nil_of_leafAt hl
    have hvec := getArray_leaf h hl
    rw [hkind] at hvec
    simp only [Fallible.ok_bind, hvec, segments_dotted hp h, Fallible.pure_eq]
    -- Each instant is put under the same path, over the one before.
    rw [foldl_putChild p _ l.nonempty, render, if_pos hkind]
    rfl
  | short => simp [hkind, Kind.tag] at hk
  | byte => simp [hkind, Kind.tag] at hk
  | other type => simp [hkind, Kind.tag] at hk

theorem marshallName_untagged {p : List Str} {l : Leaf} (h : ∀ n ∈ p, '.' ∉ n)
    (hl : ps.leafAt p = some l) (hk : l.kind.tag = none) (child : Tree) :
    L.marshallName ps child (dotted p) =
      .error (.runtimeError (lit "Couldn't marshall " ++ dotted p)) := by
  rw [marshallName, typeOf_leaf h hl]
  cases hkind : l.kind with
  | short => rfl
  | byte => rfl
  | other type => rfl
  | _ => simp [hkind, Kind.tag] at hk

variable (hn : ps.Lists names) (hp : ps.Addressed)

include hn hp

theorem tag_of_marshallTree {t : Tree} (h : L.marshallTree ps names = .ok t) (p : List Str)
    (l : Leaf) (hl : ps.leafAt p = some l) : l.kind.tag.isSome := by
  by_contra hk
  rw [Option.not_isSome_iff_eq_none] at hk
  obtain ⟨child, child', hround⟩ := Fallible.round_of_foldlM h ((hn.2 _).2 ⟨p, l, hl, rfl⟩)
  rw [L.marshallName_untagged (hp p l hl) hl hk] at hround
  cases hround

theorem tag_of_marshall {text : Str} (h : L.marshall ps names = .ok text) (p : List Str) (l : Leaf)
    (hl : ps.leafAt p = some l) : l.kind.tag.isSome := by
  rw [marshall, Fallible.bind_eq_ok] at h
  obtain ⟨t, ht, -⟩ := h
  exact L.tag_of_marshallTree hn hp ht p l hl

theorem tagOf_eq {name : Str} (hname : name ∈ names) : ∃ l,
    ps.leafAt (segments name) = some l ∧ ps.tagOf name = l.kind.tag ∧
      ∀ n ∈ segments name, '.' ∉ n := by
  obtain ⟨l, hl, -, hdot⟩ := leafAt_segments hn hp hname
  exact ⟨l, hl, by rw [tagOf, hl]; rfl, hdot⟩

/-- The encoder fails with the first name in the listing whose values it has no tag for. -/
theorem marshallTree_eq_error {x : Exn} : L.marshallTree ps names = .error x ↔
    ∃ name, (∃ pre post, names = pre ++ name :: post ∧ ¬ (ps.tagOf name).isSome ∧
        ∀ m ∈ pre, (ps.tagOf m).isSome) ∧
      x = .runtimeError (lit "Couldn't marshall " ++ name) := by
  refine Fallible.foldlM_eq_error (fun name hname htag child ↦ ?_) fun name hname htag child ↦ ?_
  · obtain ⟨l, hl, ht, hdot⟩ := tagOf_eq hn hp hname
    have hround := L.marshallName_leaf hdot hl (ht ▸ htag) child
    rw [dotted_segments] at hround
    exact ⟨_, hround⟩
  · obtain ⟨l, hl, ht, hdot⟩ := tagOf_eq hn hp hname
    rw [ht, Option.not_isSome_iff_eq_none] at htag
    have hround := L.marshallName_untagged hdot hl htag child
    rwa [dotted_segments] at hround

variable (hk : ∀ p l, ps.leafAt p = some l → l.kind.tag.isSome)

include hk

theorem foldlM_marshallName {xs : List Str} (hxs : ∀ name ∈ xs, name ∈ names) (t : Tree) :
    xs.foldlM (L.marshallName ps) t = .ok ((ps.listed xs).foldl
      (fun t e ↦ Ptree.putChild e.1 (L.render e.2) t) t) := by
  induction xs generalizing t with
  | nil => rfl
  | cons name xs ih =>
    obtain ⟨l, hl, hne, hdot⟩ := leafAt_segments hn hp (hxs name (by simp))
    have hname := L.marshallName_leaf hdot hl (hk _ l hl) t
    rw [dotted_segments] at hname
    rw [List.foldlM_cons, hname]
    refine (ih (fun n hn ↦ hxs n (by simp [hn])) _).trans ?_
    simp [listed, hl]

theorem marshallTree_lays_of_prefix {pre : List Str} (h : pre <+: names) :
    ∃ t, L.marshallTree ps pre = .ok t ∧ Lays L.render (ps.listed pre) t := by
  have hsub : ps.listed pre <+: ps.listed names := h.filterMap _
  refine ⟨_, L.foldlM_marshallName hn hp hk (fun _ hname ↦ h.subset hname) _, ?_⟩
  have hempty : Lays L.render [] (.node [] []) := .empty
  exact hempty.foldl_putChild (fun e he ↦ listed_ne_nil hn hp e (hsub.subset he))
    ((listed_pairwise hn hp).sublist hsub.sublist)

/-- The encoder's tree lays out the listed leaves, whatever the order of the names. -/
theorem marshallTree_lays :
    ∃ t, L.marshallTree ps names = .ok t ∧ Lays L.render (ps.listed names) t :=
  L.marshallTree_lays_of_prefix hn hp hk List.prefix_rfl

/-- The encoder's text is read back as the tree that it was written from. -/
theorem marshall_reads : ∃ text t, L.marshall ps names = .ok text ∧ L.readJson text = some t ∧
    Lays L.render (ps.listed names) t := by
  obtain ⟨t, ht, hlays⟩ := L.marshallTree_lays hn hp hk
  obtain ⟨text, hw, hr⟩ := L.read_write t (hlays.exclusive L.render_exclusive)
    (hlays.data_eq L.render_data)
  refine ⟨text, t, ?_, hr, hlays⟩
  rw [marshall, ht, Fallible.ok_bind, hw]
  rfl

omit hk in
/-- Nothing but a name without a tag makes the encoder fail. -/
theorem marshall_eq_error {x : Exn} :
    L.marshall ps names = .error x ↔ L.marshallTree ps names = .error x := by
  rw [marshall, Fallible.bind_eq_error, or_iff_left]
  rintro ⟨t, ht, hwrite⟩
  obtain ⟨text, t', htext, -⟩ := L.marshall_reads hn hp (L.tag_of_marshallTree hn hp ht)
  rw [marshall, ht, Fallible.ok_bind, hwrite] at htext
  cases htext

end Libraries

end CtrlEvents
