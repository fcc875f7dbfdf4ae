import Mathlib.Data.List.Infix
import Mathlib.Logic.Relation
import Mathlib.Order.Basic

namespace CtrlEvents

/-- A node's data and its ordered children; several children may share a key. -/
inductive Ptree (κ δ : Type)
  | node (data : δ) (children : List (κ × Ptree κ δ))

namespace Ptree

variable {κ δ β : Type}

def data : Ptree κ δ → δ
  | node data _ => data

def children : Ptree κ δ → List (κ × Ptree κ δ)
  | node _ children => children

mutual

def height : Ptree κ δ → ℕ
  | node _ children => forestHeight children

def forestHeight : List (κ × Ptree κ δ) → ℕ
  | [] => 0
  | (_, t) :: children => max (height t + 1) (forestHeight children)

end

theorem height_lt_of_mem {k : κ} {t : Ptree κ δ} {children : List (κ × Ptree κ δ)}
    (h : (k, t) ∈ children) : t.height < forestHeight children := by
  induction children with
  | nil => cases h
  | cons c children ih =>
    obtain ⟨k', t'⟩ := c
    rw [forestHeight]
    rcases List.mem_cons.1 h with h | h
    · cases h
      omega
    · have := ih h
      omega

/-- Data and children never come together, as in the trees that a JSON text stands for. -/
inductive Exclusive [Inhabited δ] : Ptree κ δ → Prop
  | node {data : δ} {children : List (κ × Ptree κ δ)} (hd : data = default ∨ children = [])
      (hc : ∀ k t, (k, t) ∈ children → Exclusive t) : Exclusive (.node data children)

/-- A node and all the nodes below it. -/
def Within : Ptree κ δ → Ptree κ δ → Prop :=
  Relation.ReflTransGen fun t s ↦ ∃ k, (k, s) ∈ t.children

/-- A path leads from a tree to a node below it. Several may, where siblings share a key. -/
def Along : List κ → Ptree κ δ → Ptree κ δ → Prop
  | [], t, u => u = t
  | k :: p, t, u => ∃ s, (k, s) ∈ t.children ∧ Along p s u

variable [DecidableEq κ]

def getChild : List κ → Ptree κ δ → Option (Ptree κ δ)
  | [], t => some t
  | k :: p, t =>
    match t.children.lookup k with
    | some c => getChild p c
    | none => none

def assign (k : κ) (v : β) : List (κ × β) → List (κ × β)
  | [] => [(k, v)]
  | (k', v') :: l => if k' = k then (k, v) :: l else (k', v') :: assign k v l

/-- Hang a tree under a path, making the nodes that are missing on the way. -/
def putChild [Inhabited δ] : List κ → Ptree κ δ → Ptree κ δ → Ptree κ δ
  | [], _, t => t
  | [k], sub, node data children => node data (assign k sub children)
  | k :: k' :: p, sub, node data children =>
    node data (assign k (putChild (k' :: p) sub ((children.lookup k).getD (node default [])))
      children)

theorem mem_of_lookup {k : κ} {v : β} {l : List (κ × β)} (h : l.lookup k = some v) :
    (k, v) ∈ l := by
  obtain ⟨l₁, l₂, rfl, -⟩ := List.lookup_eq_some_iff.1 h
  simp

theorem lookup_of_mem {k : κ} {v : β} {l : List (κ × β)} (hl : (l.map Prod.fst).Nodup)
    (h : (k, v) ∈ l) : l.lookup k = some v := by
  obtain ⟨l₁, l₂, rfl⟩ := List.append_of_mem h
  rw [List.lookup_eq_some_iff]
  refine ⟨l₁, l₂, rfl, fun p hp ↦ ?_⟩
  rw [List.map_append, List.nodup_append] at hl
  have hne := hl.2.2 p.1 (List.mem_map_of_mem hp) k (by simp)
  simpa [bne_iff_ne] using hne.symm

theorem lookup_none_iff {k : κ} {l : List (κ × β)} : l.lookup k = none ↔ k ∉ l.map Prod.fst := by
  rw [List.lookup_eq_none_iff]
  constructor
  · rintro h hk
    obtain ⟨p, hp, rfl⟩ := List.mem_map.1 hk
    simpa using h p hp
  · intro h p hp
    rw [bne_iff_ne]
    rintro rfl
    exact h (List.mem_map_of_mem hp)

theorem height_lt_of_getChild {k : κ} {p : List κ} {t s : Ptree κ δ}
    (h : t.getChild (k :: p) = some s) : s.height < t.height := by
  induction p generalizing k t with
  | nil =>
    simp only [getChild] at h
    split at h
    · next c hc =>
      cases h
      cases t
      exact height_lt_of_mem (mem_of_lookup hc)
    · cases h
  | cons k' p ih =>
    rw [getChild] at h
    split at h
    · next c hc =>
      have hlt := ih h
      cases t
      exact hlt.trans (height_lt_of_mem (mem_of_lookup hc))
    · cases h

theorem within_of_getChild {p : List κ} {t s : Ptree κ δ} (h : t.getChild p = some s) :
    Within t s := by
  induction p generalizing t with
  | nil =>
    cases h
    exact .refl
  | cons k p ih =>
    rw [getChild] at h
    split at h
    · next c hc => exact .head ⟨k, mem_of_lookup hc⟩ (ih h)
    · cases h

theorem map_fst_assign (k : κ) (v : β) (l : List (κ × β)) :
    (assign k v l).map Prod.fst =
      if k ∈ l.map Prod.fst then l.map Prod.fst else l.map Prod.fst ++ [k] := by
  induction l with
  | nil => rfl
  | cons c l ih =>
    obtain ⟨k', v'⟩ := c
    by_cases h : k' = k
    · simp [assign, h]
    · have h' : k ≠ k' := fun e ↦ h e.symm
      simp only [assign, h, if_false, List.map_cons, ih, List.mem_cons, h', false_or]
      split <;> rfl

theorem mem_assign {k m : κ} {v w : β} {l : List (κ × β)} (hl : (l.map Prod.fst).Nodup)
    (h : (m, w) ∈ assign k v l) : (m = k ∧ w = v) ∨ (m ≠ k ∧ (m, w) ∈ l) := by
  induction l with
  | nil => simpa [assign] using h
  | cons c l ih =>
    obtain ⟨k', v'⟩ := c
    rw [List.map_cons, List.nodup_cons] at hl
    by_cases hk : k' = k
    · subst hk
      rw [assign, if_pos rfl, List.mem_cons, Prod.mk.injEq] at h
      rcases h with h | h
      · exact .inl h
      · refine .inr ⟨?_, List.mem_cons_of_mem _ h⟩
        rintro rfl
        exact hl.1 (List.mem_map.2 ⟨_, h, rfl⟩)
    · rw [assign, if_neg hk, List.mem_cons, Prod.mk.injEq] at h
      rcases h with h | h
      · exact .inr ⟨h.1 ▸ hk, by simp [h.1, h.2]⟩
      · exact (ih hl.2 h).imp_right fun h ↦ ⟨h.1, List.mem_cons_of_mem _ h.2⟩

theorem assign_assign (k : κ) (v w : β) (l : List (κ × β)) :
    assign k v (assign k w l) = assign k v l := by
  induction l with
  | nil => simp [assign]
  | cons c l ih =>
    obtain ⟨k', v'⟩ := c
    by_cases h : k' = k <;> simp [assign, h, ih]

theorem lookup_assign_self (k : κ) (v : β) (l : List (κ × β)) :
    (assign k v l).lookup k = some v := by
  induction l with
  | nil => simp [assign]
  | cons c l ih =>
    obtain ⟨k', v'⟩ := c
    by_cases h : k' = k
    · simp [assign, h]
    · have h' : (k == k') = false := beq_false_of_ne fun e ↦ h e.symm
      simp [assign, h, List.lookup_cons, h', ih]

theorem putChild_putChild [Inhabited δ] (p : List κ) (sub sub' t : Ptree κ δ) :
    putChild p sub (putChild p sub' t) = putChild p sub t := by
  induction p generalizing t with
  | nil => rfl
  | cons k p ih =>
    obtain ⟨data, children⟩ := t
    cases p with
    | nil => simp only [putChild, assign_assign]
    | cons k' p =>
      simp only [putChild, lookup_assign_self, Option.getD_some, ih, assign_assign]

end Ptree

end CtrlEvents
