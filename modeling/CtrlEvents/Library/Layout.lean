import CtrlEvents.Library.Ptree
import Mathlib.Data.List.Basic

namespace CtrlEvents.Layout

open Ptree

variable {κ δ α : Type} [DecidableEq κ]

def Apart (p q : List κ) : Prop := ¬ p <+: q ∧ ¬ q <+: p

def strip (n : κ) : List κ × α → Option (List κ × α)
  | ([], _) => none
  | (k :: p, a) => if k = n then some (p, a) else none

def under (n : κ) (es : List (List κ × α)) : List (List κ × α) := es.filterMap (strip n)

def heads (es : List (List κ × α)) : List κ := (es.filterMap fun e ↦ e.1.head?).eraseDups

theorem nodup_eraseDups (l : List κ) : l.eraseDups.Nodup := by
  induction h : l.length using Nat.strong_induction_on generalizing l with
  | _ n ih =>
    cases l with
    | nil => simp
    | cons a l =>
      rw [List.eraseDups_cons, List.nodup_cons, List.mem_eraseDups]
      refine ⟨by simp, ih _ ?_ _ rfl⟩
      subst h
      exact Nat.lt_succ_of_le (List.length_filter_le ..)

theorem nodup_heads (es : List (List κ × α)) : (heads es).Nodup := nodup_eraseDups _

theorem mem_under {n : κ} {p : List κ} {a : α} {es : List (List κ × α)} :
    (p, a) ∈ under n es ↔ (n :: p, a) ∈ es := by
  rw [under, List.mem_filterMap]
  constructor
  · rintro ⟨⟨_ | ⟨k, q⟩, b⟩, h, hs⟩
    · cases hs
    · simp only [strip] at hs
      split at hs
      · next hk =>
        cases hs
        exact hk ▸ h
      · cases hs
  · exact fun h ↦ ⟨_, h, by simp [strip]⟩

theorem mem_heads {n : κ} {es : List (List κ × α)} :
    n ∈ heads es ↔ ∃ p a, (n :: p, a) ∈ es := by
  rw [heads, List.mem_eraseDups, List.mem_filterMap]
  constructor
  · rintro ⟨⟨_ | ⟨k, q⟩, b⟩, h, hs⟩
    · cases hs
    · cases hs
      exact ⟨q, b, h⟩
  · rintro ⟨p, a, h⟩
    exact ⟨_, h, rfl⟩

theorem under_eq_nil {n : κ} {es : List (List κ × α)} (h : n ∉ heads es) : under n es = [] := by
  refine List.eq_nil_iff_forall_not_mem.2 fun e he ↦ h ?_
  exact mem_heads.2 ⟨e.1, e.2, mem_under.1 he⟩

theorem under_ne_nil {n : κ} {es : List (List κ × α)} (h : n ∈ heads es) : under n es ≠ [] := by
  obtain ⟨p, a, hp⟩ := mem_heads.1 h
  exact List.ne_nil_of_mem (mem_under.2 hp)

omit [DecidableEq κ] in
theorem cons_of_ne_nil {e : List κ × α} (h : e.1 ≠ []) : ∃ n p a, e = (n :: p, a) := by
  obtain ⟨_ | ⟨n, p⟩, a⟩ := e
  · exact absurd rfl h
  · exact ⟨n, p, a, rfl⟩

theorem mem_under_congr {es es' : List (List κ × α)} (h : ∀ e, e ∈ es ↔ e ∈ es') (n : κ) :
    ∀ e, e ∈ under n es ↔ e ∈ under n es' := fun _ ↦
  mem_under.trans ((h _).trans mem_under.symm)

theorem heads_append (es : List (List κ × α)) (n : κ) (p : List κ) (a : α) :
    heads (es ++ [(n :: p, a)]) = if n ∈ heads es then heads es else heads es ++ [n] := by
  have hmem : n ∈ heads es ↔ n ∈ es.filterMap fun e ↦ e.1.head? := List.mem_eraseDups
  rw [heads, List.filterMap_append, List.eraseDups_append, ← heads]
  simp only [List.filterMap_cons, List.filterMap_nil, List.head?_cons, hmem]
  split
  · next h => simp [List.removeAll, h]
  · next h => simp [List.removeAll, h, List.eraseDups_cons]

theorem under_append_self (es : List (List κ × α)) (n : κ) (p : List κ) (a : α) :
    under n (es ++ [(n :: p, a)]) = under n es ++ [(p, a)] := by
  simp [under, strip]

theorem under_append_of_ne {n k : κ} (h : k ≠ n) (es : List (List κ × α)) (p : List κ) (a : α) :
    under k (es ++ [(n :: p, a)]) = under k es := by
  simp [under, strip, h.symm]

theorem exists_child {es : List (List κ × α)} {children : List (κ × Ptree κ δ)} {n : κ}
    {p : List κ} {a : α} (hkeys : children.map Prod.fst = heads es) (h : (n :: p, a) ∈ es) :
    ∃ t, (n, t) ∈ children := by
  have hn : n ∈ children.map Prod.fst := hkeys ▸ mem_heads.2 ⟨p, a, h⟩
  obtain ⟨⟨_, t⟩, hv, rfl⟩ := List.mem_map.1 hn
  exact ⟨t, hv⟩

/-- The step that comes after a path in the first of the paths that lead through it. -/
def stepAfter (p : List κ) (paths : List (List κ)) : Option κ :=
  (paths.find? fun q ↦ p.isPrefixOf q).bind fun q ↦ q[p.length]?

theorem mem_of_stepAfter {p : List κ} {k : κ} {paths : List (List κ)}
    (h : stepAfter p paths = some k) : ∃ s, p ++ k :: s ∈ paths := by
  obtain ⟨q, hq, hk⟩ := Option.bind_eq_some_iff.1 h
  obtain ⟨s, rfl⟩ : p <+: q := List.isPrefixOf_iff_prefix.1 (List.find?_some hq)
  rw [List.getElem?_append_right le_rfl, Nat.sub_self] at hk
  cases s with
  | nil => cases hk
  | cons a s =>
    cases hk
    exact ⟨s, List.mem_of_find?_eq_some hq⟩

theorem stepAfter_cons (n : κ) (p : List κ) (es : List (List κ × α)) :
    stepAfter (n :: p) (es.map Prod.fst) = stepAfter p ((under n es).map Prod.fst) := by
  induction es with
  | nil => rfl
  | cons e es ih =>
    obtain ⟨_ | ⟨k, q⟩, a⟩ := e
    · simpa [under, strip, stepAfter, List.isPrefixOf] using ih
    · by_cases hk : k = n
      · subst hk
        by_cases hp : p.isPrefixOf q
        · simp [under, strip, stepAfter, List.isPrefixOf, hp]
        · simpa [under, strip, stepAfter, List.isPrefixOf, hp] using ih
      · have hn : (n == k) = false := beq_false_of_ne fun h ↦ hk h.symm
        simpa [under, strip, stepAfter, List.isPrefixOf, hk, hn] using ih

theorem stepAfter_nil {es : List (List κ × α)} (hne : ∀ e ∈ es, e.1 ≠ []) :
    stepAfter [] (es.map Prod.fst) = (heads es).head? := by
  cases es with
  | nil => rfl
  | cons e es =>
    obtain ⟨_ | ⟨k, q⟩, a⟩ := e
    · exact absurd rfl (hne _ List.mem_cons_self)
    · simp [stepAfter, heads, List.eraseDups_cons]

variable [Inhabited δ] (render : α → Ptree κ δ)

/-- A tree lays out a list of paths: one node for each path and each of its prefixes and no
others, siblings in the order in which the list first comes to them. -/
inductive Lays : List (List κ × α) → Ptree κ δ → Prop
  | leaf (a : α) : Lays [([], a)] (render a)
  | node {es : List (List κ × α)} {children : List (κ × Ptree κ δ)}
      (hne : ∀ e ∈ es, e.1 ≠ []) (hkeys : children.map Prod.fst = heads es)
      (hsub : ∀ n t, (n, t) ∈ children → Lays (under n es) t) : Lays es (.node default children)

variable {render}

theorem Lays.cases {es : List (List κ × α)} {t : Ptree κ δ} (h : Lays render es t)
    (hes : es ≠ []) : (∃ a, es = [([], a)] ∧ t = render a) ∨ ((∀ e ∈ es, e.1 ≠ []) ∧
      ∃ n s cs, t = .node default ((n, s) :: cs) ∧
        stepAfter [] (es.map Prod.fst) = some n) := by
  cases h with
  | leaf a => exact .inl ⟨a, rfl, rfl⟩
  | @node _ children hne hkeys _ =>
    refine .inr ⟨hne, ?_⟩
    rw [stepAfter_nil hne, ← hkeys]
    cases children with
    | nil =>
      obtain ⟨e, he⟩ := List.exists_mem_of_ne_nil es hes
      obtain ⟨_ | ⟨n, p⟩, a⟩ := e
      · exact absurd rfl (hne _ he)
      · have hn : n ∈ heads es := mem_heads.2 ⟨p, a, he⟩
        rw [← hkeys] at hn
        cases hn
    | cons c cs => exact ⟨c.1, c.2, cs, rfl, rfl⟩

theorem Lays.empty : Lays render [] (.node default []) :=
  .node (by simp) rfl (by simp)

theorem apart_of_mem_under {n : κ} {p : List κ} {es : List (List κ × α)}
    (h : ∀ e ∈ es, Apart e.1 (n :: p)) : ∀ e ∈ under n es, Apart e.1 p := by
  intro e he
  have ha := h _ (mem_under.1 he)
  exact ⟨fun hp ↦ ha.1 (List.cons_prefix_cons.2 ⟨rfl, hp⟩),
    fun hp ↦ ha.2 (List.cons_prefix_cons.2 ⟨rfl, hp⟩)⟩

theorem Lays.assign {es : List (List κ × α)} {children : List (κ × Ptree κ δ)} {n : κ}
    {p : List κ} {a : α} {t : Ptree κ δ} (hne : ∀ e ∈ es, e.1 ≠ [])
    (hkeys : children.map Prod.fst = heads es)
    (hsub : ∀ n t, (n, t) ∈ children → Lays render (under n es) t)
    (ht : Lays render (under n es ++ [(p, a)]) t) :
    Lays render (es ++ [(n :: p, a)]) (.node default (Ptree.assign n t children)) := by
  have hnd : (children.map Prod.fst).Nodup := hkeys ▸ nodup_heads es
  refine .node ?_ ?_ ?_
  · intro e he
    rcases List.mem_append.1 he with he | he
    · exact hne e he
    · rw [List.mem_singleton.1 he]
      exact List.cons_ne_nil n p
  · rw [map_fst_assign, hkeys, heads_append]
  · intro k s hk
    rcases mem_assign hnd hk with ⟨rfl, rfl⟩ | ⟨hk, hs⟩
    · rwa [under_append_self]
    · rw [under_append_of_ne hk]
      exact hsub k s hs

theorem Lays.putChild {es : List (List κ × α)} {t : Ptree κ δ} (h : Lays render es t)
    {p : List κ} (hp : p ≠ []) (a : α) (hfree : ∀ e ∈ es, Apart e.1 p) :
    Lays render (es ++ [(p, a)]) (Ptree.putChild p (render a) t) := by
  induction p generalizing es t with
  | nil => exact absurd rfl hp
  | cons n p ih =>
    cases h with
    | leaf b => exact absurd List.nil_prefix (hfree ([], b) (by simp)).1
    | @node _ children hne hkeys hsub =>
      cases p with
      | nil =>
        have hnil : under n es = [] := by
          refine under_eq_nil fun hn ↦ ?_
          obtain ⟨q, b, hq⟩ := mem_heads.1 hn
          exact (hfree _ hq).2 ⟨q, rfl⟩
        refine Lays.assign hne hkeys hsub ?_
        rw [hnil]
        exact .leaf a
      | cons k p =>
        have hchild : Lays render (under n es) ((children.lookup n).getD (.node default [])) := by
          cases hl : children.lookup n with
          | some s => exact hsub n s (mem_of_lookup hl)
          | none =>
            rw [lookup_none_iff, hkeys] at hl
            rw [under_eq_nil hl]
            exact .empty
        exact Lays.assign hne hkeys hsub
          (ih hchild (List.cons_ne_nil k p) (apart_of_mem_under hfree))

/-- Trees hung under pairwise unrelated paths, one after the other, lay out all of them. -/
theorem Lays.foldl_putChild {es rest : List (List κ × α)} {t : Ptree κ δ} (h : Lays render es t)
    (hne : ∀ e ∈ rest, e.1 ≠ []) (hfree : (es ++ rest).Pairwise fun e f ↦ Apart e.1 f.1) :
    Lays render (es ++ rest)
      (rest.foldl (fun t e ↦ Ptree.putChild e.1 (render e.2) t) t) := by
  induction rest generalizing es t with
  | nil => simpa using h
  | cons e rest ih =>
    have hap := List.pairwise_append.1 hfree
    have hput := h.putChild (hne e (by simp)) e.2 fun f hf ↦ hap.2.2 f hf e (by simp)
    rw [List.append_cons] at hfree ⊢
    exact ih hput (fun f hf ↦ hne f (by simp [hf])) hfree

theorem Lays.data_eq {es : List (List κ × α)} {t : Ptree κ δ} (h : Lays render es t)
    (hr : ∀ a, (render a).data = default) : t.data = default := by
  cases h with
  | leaf a => exact hr a
  | node => rfl

theorem Lays.exclusive {es : List (List κ × α)} {t : Ptree κ δ} (h : Lays render es t)
    (hr : ∀ a, (render a).Exclusive) : t.Exclusive := by
  induction h with
  | leaf a => exact hr a
  | node _ _ _ ih => exact .node (.inl rfl) fun k t ht ↦ ih k t ht

theorem getChild_child {es : List (List κ × α)} {children : List (κ × Ptree κ δ)} {n : κ}
    {t : Ptree κ δ} (hkeys : children.map Prod.fst = heads es) (h : (n, t) ∈ children)
    (p : List κ) : Ptree.getChild (n :: p) (.node default children) = t.getChild p := by
  rw [Ptree.getChild, Ptree.children, lookup_of_mem (hkeys ▸ nodup_heads es) h]

/-- Each path leads to its own tree. -/
theorem Lays.getChild_of_mem {es : List (List κ × α)} {t : Ptree κ δ} (h : Lays render es t)
    {p : List κ} {a : α} (hp : (p, a) ∈ es) : t.getChild p = some (render a) := by
  induction h generalizing p with
  | leaf b =>
    cases List.mem_singleton.1 hp
    rfl
  | node hne hkeys _ ih =>
    obtain _ | ⟨n, p⟩ := p
    · exact absurd rfl (hne _ hp)
    · obtain ⟨t, ht⟩ := exists_child hkeys hp
      rw [getChild_child hkeys ht]
      exact ih n t ht (mem_under.2 hp)

theorem Lays.getChild_eq_none {es : List (List κ × α)} {t : Ptree κ δ} (h : Lays render es t)
    {p : List κ} (hp : p ≠ []) (hfree : ∀ e ∈ es, Apart e.1 p) : t.getChild p = none := by
  induction h generalizing p with
  | leaf b => exact absurd List.nil_prefix (hfree ([], b) (by simp)).1
  | @node es children _ hkeys _ ih =>
    obtain _ | ⟨n, p⟩ := p
    · exact absurd rfl hp
    · cases hl : children.lookup n with
      | none => rw [Ptree.getChild, Ptree.children, hl]
      | some t =>
        have ht := mem_of_lookup hl
        rw [getChild_child hkeys ht]
        obtain ⟨q, a, hq⟩ := mem_heads.1 (hkeys ▸ List.mem_map_of_mem ht)
        refine ih n t ht ?_ (apart_of_mem_under hfree)
        rintro rfl
        exact (hfree _ hq).2 (List.cons_prefix_cons.2 ⟨rfl, List.nil_prefix⟩)

/-- A node is the only one under its path and lies on the way to one of the paths laid out, or
belongs to the tree at the end of one. -/
theorem Lays.along {es : List (List κ × α)} {t u : Ptree κ δ} (h : Lays render es t) {p : List κ}
    (hu : Along p t u) : (t.getChild p = some u ∧ (p = [] ∨ ∃ e ∈ es, p <+: e.1)) ∨
      ∃ q r a, (q, a) ∈ es ∧ p = q ++ r ∧ r ≠ [] ∧ Along r (render a) u := by
  induction h generalizing p with
  | leaf a =>
    obtain _ | ⟨k, p⟩ := p
    · rw [hu]
      exact .inl ⟨rfl, .inl rfl⟩
    · exact .inr ⟨[], k :: p, a, by simp, rfl, List.cons_ne_nil k p, hu⟩
  | @node es children hne hkeys hsub ih =>
    obtain _ | ⟨n, p⟩ := p
    · rw [hu]
      exact .inl ⟨rfl, .inl rfl⟩
    obtain ⟨s, hs, hu⟩ := hu
    rw [getChild_child hkeys hs]
    rcases ih n s hs hu with ⟨hget, hp⟩ | ⟨q, r, a, hq, rfl, hr, hu⟩
    · refine .inl ⟨hget, .inr ?_⟩
      rcases hp with rfl | ⟨e, he, hp⟩
      · obtain ⟨q, a, hq⟩ := mem_heads.1 (hkeys ▸ List.mem_map_of_mem hs)
        exact ⟨_, hq, List.cons_prefix_cons.2 ⟨rfl, List.nil_prefix⟩⟩
      · exact ⟨_, mem_under.1 he, List.cons_prefix_cons.2 ⟨rfl, hp⟩⟩
    · exact .inr ⟨n :: q, r, a, mem_under.1 hq, rfl, hr, hu⟩

/-- Two trees that differ in the order of siblings, down to the trees that are hung into both. -/
inductive Reordered (render : α → Ptree κ δ) : Ptree κ δ → Ptree κ δ → Prop
  | leaf (a : α) : Reordered render (render a) (render a)
  | node {children children' : List (κ × Ptree κ δ)} (hnd : (children.map Prod.fst).Nodup)
      (hkeys : (children.map Prod.fst).Perm (children'.map Prod.fst))
      (hsub : ∀ n t t', (n, t) ∈ children → (n, t') ∈ children' → Reordered render t t') :
      Reordered render (.node default children) (.node default children')

theorem Lays.reordered {es es' : List (List κ × α)} {t t' : Ptree κ δ} (h : Lays render es t)
    (h' : Lays render es' t') (hmem : ∀ e, e ∈ es ↔ e ∈ es') : Reordered render t t' := by
  induction h generalizing es' t' with
  | leaf a =>
    have ha := (hmem ([], a)).1 (by simp)
    cases h' with
    | leaf b =>
      cases List.mem_singleton.1 ha
      exact .leaf a
    | node hne _ _ => exact absurd rfl (hne _ ha)
  | @node es children hne hkeys hsub ih =>
    cases h' with
    | leaf b => exact absurd rfl (hne _ ((hmem ([], b)).2 (by simp)))
    | @node _ children' hne' hkeys' hsub' =>
      have hperm : (heads es).Perm (heads es') := by
        refine (List.perm_ext_iff_of_nodup (nodup_heads es) (nodup_heads es')).2 fun n ↦ ?_
        rw [mem_heads, mem_heads]
        exact exists_congr fun p ↦ exists_congr fun a ↦ hmem _
      refine .node (hkeys ▸ nodup_heads es) (hkeys ▸ hkeys' ▸ hperm) fun n t t' ht ht' ↦ ?_
      exact ih n t ht (hsub' n t' ht') (mem_under_congr hmem n)

section Deep

variable (hone : ∀ a, (render a).children ≠ [])
  (hflat : ∀ a k s, (k, s) ∈ (render a).children → s.children = [])

include hone

theorem Lays.children_ne_nil {es : List (List κ × α)} {t : Ptree κ δ} (h : Lays render es t)
    (hes : es ≠ []) : t.children ≠ [] := by
  rcases h.cases hes with ⟨a, -, rfl⟩ | ⟨-, n, s, cs, rfl, -⟩
  · exact hone a
  · exact List.cons_ne_nil _ _

include hflat

theorem render_ne {es : List (List κ × α)} {children : List (κ × Ptree κ δ)}
    (hkeys : children.map Prod.fst = heads es)
    (hsub : ∀ n t, (n, t) ∈ children → Lays render (under n es) t) {n : κ} {p : List κ} {b : α}
    (hp : (n :: p, b) ∈ es) (a : α) : render a ≠ .node default children := by
  intro ha
  obtain ⟨s, hs⟩ := exists_child hkeys hp
  refine (hsub n s hs).children_ne_nil hone (List.ne_nil_of_mem (mem_under.2 hp)) ?_
  exact hflat a n s (ha ▸ hs)

/-- One tree lays out one set of paths, if a hung tree is told from a node on the way to others by
its depth. -/
theorem Lays.mem_of_mem {es es' : List (List κ × α)} {t : Ptree κ δ} (h : Lays render es t)
    (h' : Lays render es' t)
    (hinj : ∀ e ∈ es, ∀ e' ∈ es', render e.2 = render e'.2 → e.2 = e'.2) {e : List κ × α}
    (he : e ∈ es) : e ∈ es' := by
  induction h generalizing es' e with
  | leaf a =>
    cases List.mem_singleton.1 he
    generalize ht : render a = t at h'
    cases h' with
    | leaf b =>
      have hab : a = b := hinj _ he _ List.mem_cons_self ht
      simp [hab]
    | @node _ children' hne' hkeys' hsub' =>
      obtain _ | ⟨e', es'⟩ := es'
      · have hnil : children' = [] := List.map_eq_nil_iff.1 hkeys'
        rw [hnil] at ht
        exact absurd (by rw [ht]; rfl) (hone a)
      · obtain ⟨n, p, b, rfl⟩ := cons_of_ne_nil (hne' _ List.mem_cons_self)
        exact absurd ht (render_ne hone hflat hkeys' hsub' List.mem_cons_self a)
  | @node es children hne hkeys hsub ih =>
    obtain ⟨n, p, a, rfl⟩ := cons_of_ne_nil (hne _ he)
    generalize ht : Ptree.node default children = t at h'
    cases h' with
    | leaf b => exact absurd ht.symm (render_ne hone hflat hkeys hsub he b)
    | node hne' hkeys' hsub' =>
      cases ht
      obtain ⟨s, hs⟩ := exists_child hkeys he
      refine mem_under.1 (ih n s hs (hsub' n s hs) (fun e₁ h₁ e₂ h₂ ↦ ?_) (mem_under.2 he))
      exact hinj (n :: e₁.1, e₁.2) (mem_under.1 h₁) (n :: e₂.1, e₂.2) (mem_under.1 h₂)

end Deep

end CtrlEvents.Layout
