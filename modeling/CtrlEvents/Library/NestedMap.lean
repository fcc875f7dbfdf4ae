import Mathlib.Data.Finset.Sort
import Mathlib.Data.List.Infix

namespace CtrlEvents

mutual

/-- A finite map whose entries are leaves or non-empty lists of further maps.
A path descends into the last map of such a list. -/
inductive NestedMap (κ α : Type)
  | mk (keys : Finset κ) (entry : {n // n ∈ keys} → Slot κ α)

inductive Slot (κ α : Type)
  | leaf (a : α)
  | maps (earlier : List (NestedMap κ α)) (last : NestedMap κ α)

end

namespace NestedMap

variable {κ α : Type}

def keys : NestedMap κ α → Finset κ
  | mk keys _ => keys

instance : EmptyCollection (NestedMap κ α) :=
  ⟨mk ∅ fun n ↦ absurd n.2 (Finset.notMem_empty n.1)⟩

@[simp]
theorem keys_empty : (∅ : NestedMap κ α).keys = ∅ := rfl

variable [DecidableEq κ]

def lookup (n : κ) : NestedMap κ α → Option (Slot κ α)
  | mk keys entry => if h : n ∈ keys then some (entry ⟨n, h⟩) else none

def insert (n : κ) (s : Slot κ α) : NestedMap κ α → NestedMap κ α
  | mk keys entry => mk (Insert.insert n keys) fun m ↦
      if h : m.1 = n then s else entry ⟨m.1, Finset.mem_of_mem_insert_of_ne m.2 h⟩

def erase (n : κ) : NestedMap κ α → NestedMap κ α
  | mk keys entry => mk (keys.erase n) fun m ↦ entry ⟨m.1, Finset.mem_of_mem_erase m.2⟩

theorem mem_keys {n : κ} {m : NestedMap κ α} : n ∈ m.keys ↔ ∃ s, m.lookup n = some s := by
  obtain ⟨keys, entry⟩ := m
  by_cases h : n ∈ keys <;> simp [NestedMap.keys, lookup, h]

theorem lookup_eq_none {n : κ} {m : NestedMap κ α} : m.lookup n = none ↔ n ∉ m.keys := by
  rw [mem_keys, Option.eq_none_iff_forall_ne_some, not_exists]

/-- Maps are extensional: the order in which entries were made is not part of them. -/
theorem ext {m m' : NestedMap κ α} (h : ∀ n, m.lookup n = m'.lookup n) : m = m' := by
  have hk : m.keys = m'.keys := by
    ext n
    simp only [mem_keys, h]
  obtain ⟨keys, entry⟩ := m
  obtain ⟨keys', entry'⟩ := m'
  dsimp only [NestedMap.keys] at hk
  subst hk
  congr 1
  funext ⟨n, hn⟩
  simpa [lookup, hn] using h n

@[simp]
theorem lookup_empty (n : κ) : (∅ : NestedMap κ α).lookup n = none := by
  rw [lookup_eq_none, keys_empty]
  exact Finset.notMem_empty n

@[simp]
theorem keys_insert (n : κ) (s : Slot κ α) (m : NestedMap κ α) :
    (m.insert n s).keys = Insert.insert n m.keys := by
  cases m; rfl

theorem lookup_insert (n k : κ) (s : Slot κ α) (m : NestedMap κ α) :
    (m.insert n s).lookup k = if k = n then some s else m.lookup k := by
  obtain ⟨keys, entry⟩ := m
  by_cases h : k = n <;> simp [insert, lookup, h]

@[simp]
theorem lookup_insert_self (n : κ) (s : Slot κ α) (m : NestedMap κ α) :
    (m.insert n s).lookup n = some s := by
  rw [lookup_insert, if_pos rfl]

theorem lookup_insert_of_ne {n k : κ} (h : k ≠ n) (s : Slot κ α) (m : NestedMap κ α) :
    (m.insert n s).lookup k = m.lookup k := by
  rw [lookup_insert, if_neg h]

@[simp]
theorem insert_insert (n : κ) (s s' : Slot κ α) (m : NestedMap κ α) :
    (m.insert n s).insert n s' = m.insert n s' := by
  refine ext fun k ↦ ?_
  simp only [lookup_insert]
  split <;> rfl

theorem insert_of_lookup {n : κ} {s : Slot κ α} {m : NestedMap κ α} (h : m.lookup n = some s) :
    m.insert n s = m := by
  refine ext fun k ↦ ?_
  rw [lookup_insert]
  split
  · next hk => rw [hk, h]
  · rfl

theorem lookup_erase (n k : κ) (m : NestedMap κ α) :
    (m.erase n).lookup k = if k = n then none else m.lookup k := by
  obtain ⟨keys, entry⟩ := m
  by_cases h : k = n <;> simp [erase, lookup, h]

/-- The map that entries make, of which the first ones were inserted last. -/
def ofList (entries : List (κ × Slot κ α)) : NestedMap κ α :=
  entries.foldr (fun e m ↦ m.insert e.1 e.2) ∅

theorem ofList_cons (e : κ × Slot κ α) (entries : List (κ × Slot κ α)) :
    ofList (e :: entries) = (ofList entries).insert e.1 e.2 := rfl

theorem lookup_ofList_append (entries entries' : List (κ × Slot κ α)) (k : κ) :
    (ofList (entries ++ entries')).lookup k =
      ((ofList entries).lookup k).or ((ofList entries').lookup k) := by
  induction entries with
  | nil =>
    have hnone : (ofList ([] : List (κ × Slot κ α))).lookup k = none := lookup_empty k
    rw [hnone, List.nil_append, Option.none_or]
  | cons e entries ih =>
    rw [List.cons_append, ofList_cons, ofList_cons, lookup_insert, lookup_insert, ih]
    split <;> rfl

theorem lookup_ofList_idxOf [BEq κ] [LawfulBEq κ] (entries : List (κ × Slot κ α)) (k : κ) :
    (ofList entries).lookup k = (entries[(entries.map Prod.fst).idxOf k]?).map Prod.snd := by
  induction entries with
  | nil => exact lookup_empty k
  | cons e entries ih =>
    rw [ofList_cons, lookup_insert, List.map_cons, List.idxOf_cons]
    by_cases hk : k = e.1
    · rw [if_pos hk, beq_iff_eq.2 hk.symm]
      rfl
    · rw [if_neg hk, beq_eq_false_iff_ne.2 (Ne.symm hk)]
      exact ih

theorem keys_ofList (entries : List (κ × Slot κ α)) :
    (ofList entries).keys = (entries.map Prod.fst).toFinset := by
  induction entries with
  | nil => rfl
  | cons e entries ih =>
    rw [ofList_cons, keys_insert, List.map_cons, List.toFinset_cons, ih]

def follow : List κ → NestedMap κ α → Option (Slot κ α)
  | [], _ => none
  | [n], m => m.lookup n
  | n :: k :: p, m =>
    match m.lookup n with
    | some (.maps _ last) => follow (k :: p) last
    | _ => none

/-- Store an entry under a path, making the maps that are missing on the way. A leaf on the
way blocks the path. -/
def put : List κ → Slot κ α → NestedMap κ α → Option (NestedMap κ α)
  | [], _, _ => none
  | [n], s, m => some (m.insert n s)
  | n :: k :: p, s, m =>
    match m.lookup n with
    | none => (put (k :: p) s ∅).map fun sub ↦ m.insert n (.maps [] sub)
    | some (.maps earlier last) =>
      (put (k :: p) s last).map fun sub ↦ m.insert n (.maps earlier sub)
    | some (.leaf _) => none

def remove : List κ → NestedMap κ α → NestedMap κ α
  | [], m => m
  | [n], m => m.erase n
  | n :: k :: p, m =>
    match m.lookup n with
    | some (.maps earlier last) => m.insert n (.maps earlier (remove (k :: p) last))
    | _ => m

def leafAt (p : List κ) (m : NestedMap κ α) : Option α :=
  match follow p m with
  | some (.leaf a) => some a
  | _ => none

@[simp]
theorem follow_singleton (n : κ) (m : NestedMap κ α) : follow [n] m = m.lookup n := rfl

@[simp]
theorem put_singleton (n : κ) (s : Slot κ α) (m : NestedMap κ α) :
    put [n] s m = some (m.insert n s) := rfl

@[simp]
theorem remove_singleton (n : κ) (m : NestedMap κ α) : remove [n] m = m.erase n := rfl

@[simp]
theorem leafAt_nil (m : NestedMap κ α) : leafAt [] m = none := rfl

theorem ne_nil_of_leafAt {p : List κ} {m : NestedMap κ α} {a : α} (h : leafAt p m = some a) :
    p ≠ [] := fun hp ↦ by
  rw [hp, leafAt_nil] at h
  cases h

theorem leafAt_singleton {n : κ} {m : NestedMap κ α} {a : α} :
    leafAt [n] m = some a ↔ m.lookup n = some (.leaf a) := by
  rw [leafAt, follow_singleton]
  cases m.lookup n with
  | none => simp
  | some s => cases s <;> simp

theorem leafAt_cons_maps {n : κ} {m last : NestedMap κ α} {earlier : List (NestedMap κ α)}
    (h : m.lookup n = some (.maps earlier last)) (p : List κ) :
    leafAt (n :: p) m = leafAt p last := by
  cases p with
  | nil => simp [leafAt, follow, h]
  | cons k p => simp only [leafAt, follow, h]

theorem leafAt_cons_leaf {n : κ} {m : NestedMap κ α} {a : α}
    (h : m.lookup n = some (.leaf a)) (p : List κ) :
    leafAt (n :: p) m = if p = [] then some a else none := by
  cases p <;> simp [leafAt, follow, h]

theorem leafAt_cons_none {n : κ} {m : NestedMap κ α} (h : m.lookup n = none) (p : List κ) :
    leafAt (n :: p) m = none := by
  cases p <;> simp [leafAt, follow, h]

/-- No leaf lies on the way to another: one name is never both a leaf and a nested map. -/
theorem leafAt_prefix {m : NestedMap κ α} {p q : List κ} {a b : α} (hp : leafAt p m = some a)
    (hq : leafAt q m = some b) (h : p <+: q) : p = q := by
  induction p generalizing q m with
  | nil => simp at hp
  | cons n p ih =>
    obtain ⟨r, rfl⟩ := h
    cases hn : m.lookup n with
    | none => simp [leafAt_cons_none hn] at hp
    | some s =>
      cases s with
      | leaf c =>
        rw [List.cons_append, leafAt_cons_leaf hn] at hq
        have hr : p = [] ∧ r = [] := by
          by_contra hne
          simp [List.append_eq_nil_iff, hne] at hq
        simp [hr.1, hr.2]
      | maps earlier last =>
        rw [leafAt_cons_maps hn] at hp
        rw [List.cons_append, leafAt_cons_maps hn] at hq
        exact congrArg (n :: ·) (ih hp hq (List.prefix_append p r))

theorem put_keys {n : κ} {p : List κ} {s : Slot κ α} {m m' : NestedMap κ α}
    (h : put (n :: p) s m = some m') : m'.keys = Insert.insert n m.keys := by
  cases p with
  | nil =>
    rw [put_singleton, Option.some_inj] at h
    rw [← h, keys_insert]
  | cons k p =>
    simp only [put] at h
    split at h
    · obtain ⟨sub, -, rfl⟩ := Option.map_eq_some_iff.1 h
      exact keys_insert ..
    · obtain ⟨sub, -, rfl⟩ := Option.map_eq_some_iff.1 h
      exact keys_insert ..
    · cases h

theorem put_lookup_of_ne {n k : κ} {p : List κ} {s : Slot κ α} {m m' : NestedMap κ α}
    (h : put (n :: p) s m = some m') (hk : k ≠ n) : m'.lookup k = m.lookup k := by
  cases p with
  | nil =>
    rw [put_singleton, Option.some_inj] at h
    rw [← h, lookup_insert_of_ne hk]
  | cons j p =>
    simp only [put] at h
    split at h
    · obtain ⟨sub, -, rfl⟩ := Option.map_eq_some_iff.1 h
      exact lookup_insert_of_ne hk ..
    · obtain ⟨sub, -, rfl⟩ := Option.map_eq_some_iff.1 h
      exact lookup_insert_of_ne hk ..
    · cases h

theorem leafAt_insert (n : κ) (s : Slot κ α) (m : NestedMap κ α) (k : κ) (p : List κ) :
    leafAt (k :: p) (m.insert n s) =
      if k = n then leafAt (n :: p) ((∅ : NestedMap κ α).insert n s) else leafAt (k :: p) m := by
  by_cases h : k = n
  · subst h
    cases p <;> simp [leafAt, follow]
  · cases p <;> simp [leafAt, follow, lookup_insert_of_ne h, h]

/-- Every nested map is the only one under its name, and holds something. -/
inductive Tidy : NestedMap κ α → Prop
  | intro {m : NestedMap κ α}
      (single : ∀ n earlier last, m.lookup n = some (.maps earlier last) → earlier = [])
      (inhabited : ∀ n earlier last, m.lookup n = some (.maps earlier last) → last.keys.Nonempty)
      (below : ∀ n earlier last, m.lookup n = some (.maps earlier last) → Tidy last) : Tidy m

theorem tidy_empty : (∅ : NestedMap κ α).Tidy := by
  have hnone : ∀ n (s : Slot κ α), (∅ : NestedMap κ α).lookup n ≠ some s := by simp
  exact .intro (fun n _ _ h ↦ absurd h (hnone n _)) (fun n _ _ h ↦ absurd h (hnone n _))
    fun n _ _ h ↦ absurd h (hnone n _)

theorem Tidy.insert_leaf {m : NestedMap κ α} (h : m.Tidy) (n : κ) (a : α) :
    (m.insert n (.leaf a)).Tidy := by
  obtain ⟨single, inhabited, below⟩ := h
  have hmaps : ∀ k earlier last, (m.insert n (.leaf a)).lookup k = some (.maps earlier last) →
      m.lookup k = some (.maps earlier last) := by
    intro k earlier last hk
    rw [lookup_insert] at hk
    split at hk
    · cases hk
    · exact hk
  exact .intro (fun k e l hk ↦ single k e l (hmaps k e l hk))
    (fun k e l hk ↦ inhabited k e l (hmaps k e l hk)) fun k e l hk ↦ below k e l (hmaps k e l hk)

theorem Tidy.insert_maps {m last : NestedMap κ α} (h : m.Tidy) (hlast : last.Tidy)
    (hne : last.keys.Nonempty) (n : κ) : (m.insert n (.maps [] last)).Tidy := by
  obtain ⟨single, inhabited, below⟩ := h
  have hmaps : ∀ k e l, (m.insert n (.maps [] last)).lookup k = some (.maps e l) →
      (e = [] ∧ l = last) ∨ m.lookup k = some (.maps e l) := by
    intro k e l hk
    rw [lookup_insert] at hk
    split at hk
    · cases hk
      exact .inl ⟨rfl, rfl⟩
    · exact .inr hk
  refine .intro (fun k e l hk ↦ ?_) (fun k e l hk ↦ ?_) fun k e l hk ↦ ?_
  · exact (hmaps k e l hk).elim And.left (single k e l)
  · exact (hmaps k e l hk).elim (fun h ↦ h.2 ▸ hne) (inhabited k e l)
  · exact (hmaps k e l hk).elim (fun h ↦ h.2 ▸ hlast) (below k e l)

theorem leafAt_insert_leaf (n : κ) (a : α) (m : NestedMap κ α) (k : κ) (p : List κ) :
    leafAt (k :: p) (m.insert n (.leaf a)) =
      if k = n then (if p = [] then some a else none) else leafAt (k :: p) m := by
  rw [leafAt_insert]
  split
  · exact leafAt_cons_leaf (lookup_insert_self n _ _) p
  · rfl

theorem leafAt_insert_leaf_cases {n : κ} {a b : α} {m : NestedMap κ α} {p : List κ}
    (h : leafAt p (m.insert n (.leaf a)) = some b) : (p = [n] ∧ a = b) ∨ leafAt p m = some b := by
  obtain _ | ⟨k, p⟩ := p
  · rw [leafAt_nil] at h
    cases h
  · rw [leafAt_insert_leaf] at h
    split at h
    · next hk =>
      split at h
      · next hp =>
        cases h
        exact .inl ⟨by rw [hk, hp], rfl⟩
      · cases h
    · exact .inr h

theorem leafAt_insert_maps (n : κ) (earlier : List (NestedMap κ α)) (last m : NestedMap κ α) (k : κ)
    (p : List κ) : leafAt (k :: p) (m.insert n (.maps earlier last)) =
      if k = n then leafAt p last else leafAt (k :: p) m := by
  rw [leafAt_insert]
  split
  · exact leafAt_cons_maps (lookup_insert_self n _ _) p
  · rfl

theorem leafAt_earlier (n : κ) (earlier earlier' : List (NestedMap κ α)) (last m : NestedMap κ α)
    (p : List κ) :
    leafAt p (m.insert n (.maps earlier last)) = leafAt p (m.insert n (.maps earlier' last)) := by
  cases p with
  | nil => rfl
  | cons k p => rw [leafAt_insert_maps, leafAt_insert_maps]

theorem leafAt_empty (p : List κ) : leafAt p (∅ : NestedMap κ α) = none := by
  cases p with
  | nil => rfl
  | cons n p => exact leafAt_cons_none (lookup_empty n) p

/-- The leaf of an entry under the rest of a path that begins with the entry's name. -/
def slotLeafAt : Slot κ α → List κ → Option α
  | .leaf a, p => if p = [] then some a else none
  | .maps _ last, p => leafAt p last

theorem leafAt_cons (n : κ) (p : List κ) (m : NestedMap κ α) :
    leafAt (n :: p) m = (m.lookup n).bind (slotLeafAt · p) := by
  cases h : m.lookup n with
  | none => exact leafAt_cons_none h p
  | some s =>
    cases s with
    | leaf a => exact leafAt_cons_leaf h p
    | maps earlier last => exact leafAt_cons_maps h p

/-- A leaf of the map after an entry has been stored was there before, or comes with the entry. -/
theorem leafAt_of_put {p q : List κ} {s : Slot κ α} {m m' : NestedMap κ α} {a : α}
    (h : put p s m = some m') (hq : leafAt q m' = some a) :
    leafAt q m = some a ∨ ∃ r, q = p ++ r ∧ slotLeafAt s r = some a := by
  induction p generalizing m m' q with
  | nil => cases h
  | cons n p ih =>
    obtain _ | ⟨k, q⟩ := q
    · cases hq
    by_cases hk : k = n
    swap
    · rw [leafAt_cons, put_lookup_of_ne h hk, ← leafAt_cons] at hq
      exact .inl hq
    subst hk
    cases p with
    | nil =>
      cases h
      rw [leafAt_cons, lookup_insert_self] at hq
      exact .inr ⟨q, rfl, hq⟩
    | cons j p =>
      have hsub : ∀ {earlier : List (NestedMap κ α)} {last sub : NestedMap κ α},
          put (j :: p) s last = some sub → m' = m.insert k (.maps earlier sub) →
          leafAt q last = some a ∨ ∃ r, k :: q = k :: j :: p ++ r ∧ slotLeafAt s r = some a := by
        rintro earlier last sub hput rfl
        rw [leafAt_insert_maps, if_pos rfl] at hq
        refine (ih hput hq).imp_right fun hr ↦ ?_
        obtain ⟨r, rfl, hr⟩ := hr
        exact ⟨r, rfl, hr⟩
      simp only [put] at h
      split at h
      · obtain ⟨sub, hput, rfl⟩ := Option.map_eq_some_iff.1 h
        refine .inr ((hsub hput rfl).resolve_left ?_)
        simp [leafAt_empty]
      · next earlier last hlast =>
        obtain ⟨sub, hput, rfl⟩ := Option.map_eq_some_iff.1 h
        rw [leafAt_cons_maps hlast]
        exact hsub hput rfl
      · cases h

/-- What an entry stored under a path would stand in the place of; nothing where a leaf is in the
way. -/
def reach : List κ → NestedMap κ α → Option (Option (Slot κ α))
  | [], _ => none
  | [n], m => some (m.lookup n)
  | n :: k :: p, m =>
    match m.lookup n with
    | none => some none
    | some (.maps _ last) => reach (k :: p) last
    | some (.leaf _) => none

theorem reach_empty {p : List κ} (hp : p ≠ []) : reach p (∅ : NestedMap κ α) = some none := by
  obtain _ | ⟨n, _ | ⟨k, p⟩⟩ := p
  · exact absurd rfl hp
  · rw [reach, lookup_empty]
  · rw [reach, lookup_empty]

theorem follow_eq_join (p : List κ) (m : NestedMap κ α) : follow p m = (reach p m).join := by
  fun_induction reach p m with
  | case1 m => rfl
  | case2 n m => rfl
  | case3 n k p m hn => simp [follow, hn]
  | case4 n k p m earlier last hn ih => simp [follow, hn, ih]
  | case5 n k p m a hn => simp [follow, hn]

theorem put_isSome_iff (p : List κ) (s : Slot κ α) (m : NestedMap κ α) :
    (put p s m).isSome ↔ (reach p m).isSome := by
  fun_induction reach p m with
  | case1 m => rfl
  | case2 n m => simp
  | case3 n k p m hn =>
    have hempty : ∀ q : List κ, q ≠ [] → (put q s ∅).isSome := by
      intro q hq
      induction q with
      | nil => exact absurd rfl hq
      | cons n q ih =>
        cases q with
        | nil => rfl
        | cons j q => simpa [put] using ih (List.cons_ne_nil j q)
    simp [put, hn, hempty]
  | case4 n k p m earlier last hn ih => simpa [put, hn] using ih
  | case5 n k p m a hn => simp [put, hn]

/-- Storing an entry leaves alone what the paths lead to of which it is no part. -/
theorem reach_put {p q : List κ} {s : Slot κ α} {m m' : NestedMap κ α} (h : put p s m = some m')
    (hpq : ¬ p <+: q) (hqp : ¬ q <+: p) : reach q m' = reach q m := by
  induction p generalizing q m m' with
  | nil => cases h
  | cons n p ih =>
    obtain _ | ⟨k, q⟩ := q
    · exact absurd List.nil_prefix hqp
    by_cases hk : k = n
    swap
    · cases q <;> simp only [reach, put_lookup_of_ne h hk]
    subst hk
    obtain _ | ⟨i, p⟩ := p
    · exact absurd (List.prefix_append [k] q) hpq
    obtain _ | ⟨j, q⟩ := q
    · exact absurd (List.prefix_append [k] (i :: p)) hqp
    rw [List.cons_prefix_cons, not_and] at hpq hqp
    have hsub : ∀ {earlier : List (NestedMap κ α)} {last sub : NestedMap κ α},
        put (i :: p) s last = some sub → m' = m.insert k (.maps earlier sub) →
        reach (k :: j :: q) m' = reach (j :: q) last := by
      rintro earlier last sub hput rfl
      rw [reach, lookup_insert_self]
      exact ih hput (hpq rfl) (hqp rfl)
    simp only [put] at h
    split at h
    · next hnone =>
      obtain ⟨sub, hput, rfl⟩ := Option.map_eq_some_iff.1 h
      rw [hsub hput rfl, reach_empty (List.cons_ne_nil j q), reach, hnone]
    · next earlier last hmaps =>
      obtain ⟨sub, hput, rfl⟩ := Option.map_eq_some_iff.1 h
      rw [hsub hput rfl, reach, hmaps]
    · cases h

theorem leafAt_single {n : κ} {a b : α} {p : List κ}
    (h : leafAt p ((∅ : NestedMap κ α).insert n (.leaf a)) = some b) : p = [n] ∧ a = b := by
  apply (leafAt_insert_leaf_cases h).resolve_right
  simp [leafAt_empty]

theorem leafAt_ofList {entries : List (κ × Slot κ α)} (h : ∀ e ∈ entries, ∃ a, e.2 = .leaf a)
    {p : List κ} {b : α} (hp : leafAt p (ofList entries) = some b) :
    ∃ n ∈ entries.map Prod.fst, p = [n] := by
  induction entries with
  | nil => cases (leafAt_empty p).symm.trans hp
  | cons e entries ih =>
    obtain ⟨n, s⟩ := e
    obtain ⟨a, rfl⟩ : ∃ a, s = .leaf a := h (n, s) List.mem_cons_self
    rcases leafAt_insert_leaf_cases hp with ⟨rfl, -⟩ | hp
    · exact ⟨n, by simp, rfl⟩
    · obtain ⟨k, hk, rfl⟩ := ih (fun e he ↦ h e (List.mem_cons_of_mem _ he)) hp
      exact ⟨k, List.mem_cons_of_mem _ hk, rfl⟩

theorem Tidy.has_leaf {m : NestedMap κ α} (h : m.Tidy) {n : κ} (hn : n ∈ m.keys) :
    ∃ p a, leafAt (n :: p) m = some a := by
  induction h generalizing n with
  | @intro m _ inhabited _ ih =>
    obtain ⟨s, hs⟩ := mem_keys.1 hn
    cases s with
    | leaf a => exact ⟨[], a, leafAt_singleton.2 hs⟩
    | maps earlier last =>
      obtain ⟨k, hk⟩ := inhabited n earlier last hs
      obtain ⟨p, a, hp⟩ := ih n earlier last hs hk
      exact ⟨k :: p, a, by rw [leafAt_cons_maps hs, hp]⟩

theorem mem_keys_of_leafAt {m : NestedMap κ α} {n : κ} {p : List κ} {a : α}
    (h : leafAt (n :: p) m = some a) : n ∈ m.keys := by
  by_contra hn
  simp [leafAt_cons_none (lookup_eq_none.2 hn)] at h

theorem Tidy.keys_eq {m m' : NestedMap κ α} (h : m.Tidy) (h' : m'.Tidy)
    (hl : ∀ p, leafAt p m = leafAt p m') : m.keys = m'.keys := by
  ext n
  constructor
  · intro hn
    obtain ⟨p, a, hp⟩ := h.has_leaf hn
    exact mem_keys_of_leafAt ((hl _).symm.trans hp)
  · intro hn
    obtain ⟨p, a, hp⟩ := h'.has_leaf hn
    exact mem_keys_of_leafAt ((hl _).trans hp)

/-- A tidy map is determined by its leaves. -/
theorem Tidy.ext_leaves {m m' : NestedMap κ α} (h : m.Tidy) (h' : m'.Tidy)
    (hl : ∀ p, leafAt p m = leafAt p m') : m = m' := by
  induction h generalizing m' with
  | @intro m single inhabited below ih =>
    have hk := (Tidy.intro single inhabited below).keys_eq h' hl
    obtain ⟨single', inhabited', below'⟩ := h'
    refine ext fun n ↦ ?_
    cases hs : m.lookup n with
    | none =>
      rw [lookup_eq_none, hk] at hs
      exact (lookup_eq_none.2 hs).symm
    | some s =>
      obtain ⟨s', hs'⟩ := mem_keys.1 (hk ▸ mem_keys.2 ⟨s, hs⟩)
      rw [hs']
      cases s with
      | leaf a =>
        have ha := (hl [n]).symm.trans (leafAt_singleton.2 hs)
        rw [leafAt_singleton, hs'] at ha
        exact ha.symm
      | maps earlier last =>
        cases s' with
        | leaf a =>
          have ha := (hl [n]).trans (leafAt_singleton.2 hs')
          rw [leafAt_singleton, hs] at ha
          exact ha
        | maps earlier' last' =>
          have hlast : last = last' := by
            refine ih n earlier last hs (below' n earlier' last' hs') fun p ↦ ?_
            rw [← leafAt_cons_maps hs, ← leafAt_cons_maps hs', hl]
          rw [single n earlier last hs, single' n earlier' last' hs', hlast]

section Leaves

variable {κ α : Type} [LinearOrder κ]

mutual

def leaves : NestedMap κ α → List (List κ × α)
  | .mk keys entry => (keys.sort (· ≤ ·)).attach.flatMap fun n ↦
      slotLeaves n.1 (entry ⟨n.1, (Finset.mem_sort _).1 n.2⟩)

def slotLeaves (n : κ) : Slot κ α → List (List κ × α)
  | .leaf a => [([n], a)]
  | .maps _ last => (leaves last).map fun x ↦ (n :: x.1, x.2)

end

theorem fst_of_mem_slotLeaves {n : κ} {s : Slot κ α} {x : List κ × α} (h : x ∈ slotLeaves n s) :
    x.1.head? = some n := by
  cases s with
  | leaf a =>
    rw [slotLeaves, List.mem_singleton] at h
    rw [h]
    rfl
  | maps earlier last =>
    rw [slotLeaves, List.mem_map] at h
    obtain ⟨y, -, rfl⟩ := h
    rfl

mutual

theorem nodup_leaves : (m : NestedMap κ α) → m.leaves.Nodup
  | .mk keys entry => by
    rw [leaves, List.nodup_flatMap]
    refine ⟨fun n _ ↦ nodup_slotLeaves n.1 _, ?_⟩
    refine (List.nodup_attach.2 (Finset.sort_nodup _ _)).imp fun {n k} hne x hn hk ↦ hne ?_
    have hhead := (fst_of_mem_slotLeaves hn).symm.trans (fst_of_mem_slotLeaves hk)
    exact Subtype.ext (Option.some_inj.1 hhead)

theorem nodup_slotLeaves (n : κ) : (s : Slot κ α) → (slotLeaves n s).Nodup
  | .leaf a => List.nodup_singleton _
  | .maps _ last => by
    rw [slotLeaves]
    refine (nodup_leaves last).map fun x y h ↦ ?_
    simp only [Prod.mk.injEq, List.cons.injEq, true_and] at h
    exact Prod.ext h.1 h.2

end

variable [DecidableEq κ]

theorem mem_leaves_iff {m : NestedMap κ α} {p : List κ} {a : α} :
    (p, a) ∈ m.leaves ↔ ∃ n s, m.lookup n = some s ∧ (p, a) ∈ slotLeaves n s := by
  obtain ⟨keys, entry⟩ := m
  simp only [leaves, List.mem_flatMap, List.mem_attach, true_and, Subtype.exists, Finset.mem_sort,
    lookup]
  constructor
  · rintro ⟨n, hn, h⟩
    exact ⟨n, entry ⟨n, hn⟩, by rw [dif_pos hn], h⟩
  · rintro ⟨n, s, hs, h⟩
    split at hs
    · next hn => exact ⟨n, hn, by simpa [← Option.some_inj.1 hs] using h⟩
    · cases hs

theorem mem_leaves {m : NestedMap κ α} {p : List κ} {a : α} :
    (p, a) ∈ m.leaves ↔ leafAt p m = some a := by
  induction p generalizing m with
  | nil =>
    rw [mem_leaves_iff, leafAt_nil]
    refine ⟨?_, fun h ↦ by cases h⟩
    rintro ⟨n, s, -, h⟩
    cases s <;> simp [slotLeaves] at h
  | cons k p ih =>
    rw [mem_leaves_iff]
    cases hs : m.lookup k with
    | none =>
      rw [leafAt_cons_none hs]
      refine ⟨?_, fun h ↦ by cases h⟩
      rintro ⟨n, s, hn, h⟩
      cases s <;> simp_all [slotLeaves]
    | some s =>
      have hiff : (∃ n s', m.lookup n = some s' ∧ (k :: p, a) ∈ slotLeaves n s') ↔
          (k :: p, a) ∈ slotLeaves k s := by
        constructor
        · rintro ⟨n, s', hn, h⟩
          have hnk : n = k := by cases s' <;> simp [slotLeaves] at h <;> simp [h]
          subst hnk
          rw [hs, Option.some_inj] at hn
          exact hn ▸ h
        · exact fun h ↦ ⟨k, s, hs, h⟩
      rw [hiff]
      cases s with
      | leaf b =>
        rw [leafAt_cons_leaf hs]
        by_cases hp : p = [] <;> simp [slotLeaves, hp, eq_comm]
      | maps earlier last =>
        rw [leafAt_cons_maps hs, ← ih]
        simp [slotLeaves]

theorem leaves_single (n : κ) (a : α) :
    ((∅ : NestedMap κ α).insert n (.leaf a)).leaves = [([n], a)] := by
  have hkeys : (Insert.insert n Finset.empty : Finset κ).sort (· ≤ ·) = [n] :=
    Finset.sort_singleton (· ≤ ·) n
  have hleaf : ∀ x ∈ ((Insert.insert n Finset.empty : Finset κ).sort (· ≤ ·)).attach,
      slotLeaves x.1 (if h : x.1 = n then Slot.leaf a else
        absurd (Finset.mem_of_mem_insert_of_ne ((Finset.mem_sort _).1 x.2) h)
          (Finset.notMem_empty _)) = [([n], a)] := by
    intro x hx
    have hn : x.1 = n := by simpa [hkeys] using x.2
    rw [dif_pos hn, slotLeaves, hn]
  simp only [EmptyCollection.emptyCollection, NestedMap.insert, leaves]
  rw [List.flatMap_congr hleaf, ← List.map_eq_flatMap, List.map_const', List.length_attach, hkeys]
  rfl

end Leaves

end NestedMap

end CtrlEvents
