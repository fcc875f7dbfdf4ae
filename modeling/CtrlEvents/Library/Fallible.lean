import Mathlib.Data.List.Basic
import Mathlib.Order.Bounds.Basic

namespace CtrlEvents.Fallible

variable {ε α β : Type}

@[simp] theorem ok_bind (a : α) (f : α → Except ε β) : Except.ok a >>= f = f a := rfl

@[simp] theorem error_bind (e : ε) (f : α → Except ε β) : Except.error e >>= f = .error e := rfl

@[simp] theorem pure_eq (a : α) : (pure a : Except ε α) = .ok a := rfl

theorem bind_eq_ok {x : Except ε α} {f : α → Except ε β} {b : β} :
    x >>= f = .ok b ↔ ∃ a, x = .ok a ∧ f a = .ok b := by
  cases x <;> simp

theorem bind_eq_error {x : Except ε α} {f : α → Except ε β} {e : ε} :
    x >>= f = .error e ↔ x = .error e ∨ ∃ a, x = .ok a ∧ f a = .error e := by
  cases x <;> simp

theorem keep_of_foldlM {p : β → Prop} {f : β → α → Except ε β} {xs : List α} {b c : β}
    (hstep : ∀ x ∈ xs, ∀ b c, p b → f b x = .ok c → p c) (hb : p b) (h : xs.foldlM f b = .ok c) :
    p c := by
  induction xs generalizing b with
  | nil =>
    cases h
    exact hb
  | cons x xs ih =>
    rw [List.foldlM_cons, bind_eq_ok] at h
    obtain ⟨b', hb', h⟩ := h
    have hx : p b' := hstep x List.mem_cons_self b b' hb hb'
    exact ih (fun y hy ↦ hstep y (List.mem_cons_of_mem x hy)) hx h

theorem error_of_foldlM {f : β → α → Except ε β} {xs : List α} {b : β} {e : ε}
    (h : xs.foldlM f b = .error e) : ∃ x ∈ xs, ∃ b', f b' x = .error e := by
  induction xs generalizing b with
  | nil => cases h
  | cons x xs ih =>
    rw [List.foldlM_cons, bind_eq_error] at h
    rcases h with h | ⟨b', -, h⟩
    · exact ⟨x, List.mem_cons_self, b, h⟩
    · obtain ⟨y, hy, b'', h⟩ := ih h
      exact ⟨y, List.mem_cons_of_mem x hy, b'', h⟩

theorem round_of_foldlM {f : β → α → Except ε β} {xs : List α} {b c : β}
    (h : xs.foldlM f b = .ok c) {x : α} (hx : x ∈ xs) : ∃ b' c', f b' x = .ok c' := by
  induction xs generalizing b with
  | nil => cases hx
  | cons y xs ih =>
    rw [List.foldlM_cons, bind_eq_ok] at h
    obtain ⟨b', hb, h⟩ := h
    rcases List.mem_cons.1 hx with rfl | hx
    · exact ⟨b, b', hb⟩
    · exact ih h hx

/-- A loop in which it depends on the elements alone which of them fail ends with the error of the
first one that does. -/
theorem foldlM_eq_error {f : β → α → Except ε β} {p : α → Prop} {g : α → ε} {xs : List α}
    (hgood : ∀ x ∈ xs, p x → ∀ b, ∃ c, f b x = .ok c)
    (hbad : ∀ x ∈ xs, ¬ p x → ∀ b, f b x = .error (g x)) {b : β} {e : ε} :
    xs.foldlM f b = .error e ↔
      ∃ x, (∃ pre post, xs = pre ++ x :: post ∧ ¬ p x ∧ ∀ y ∈ pre, p y) ∧ e = g x := by
  induction xs generalizing b with
  | nil => simp
  | cons x xs ih =>
    rw [List.foldlM_cons]
    by_cases hx : p x
    · obtain ⟨c, hc⟩ := hgood x List.mem_cons_self hx b
      rw [hc, ok_bind, ih (fun y hy ↦ hgood y (List.mem_cons_of_mem x hy))
        fun y hy ↦ hbad y (List.mem_cons_of_mem x hy)]
      refine exists_congr fun y ↦ and_congr_left fun _ ↦ ⟨fun h ↦ ?_, fun h ↦ ?_⟩
      · obtain ⟨pre, post, rfl, hy, hpre⟩ := h
        exact ⟨x :: pre, post, rfl, hy, List.forall_mem_cons.2 ⟨hx, hpre⟩⟩
      · obtain ⟨_ | ⟨z, pre⟩, post, hxs, hy, hpre⟩ := h
        · obtain ⟨rfl, -⟩ := List.cons.inj hxs
          exact absurd hx hy
        · obtain ⟨rfl, rfl⟩ := List.cons.inj hxs
          exact ⟨pre, post, rfl, hy, (List.forall_mem_cons.1 hpre).2⟩
    · rw [hbad x List.mem_cons_self hx b, error_bind]
      refine ⟨fun h ↦ ?_, fun h ↦ ?_⟩
      · cases h
        exact ⟨x, ⟨[], xs, rfl, hx, nofun⟩, rfl⟩
      · obtain ⟨y, ⟨_ | ⟨z, pre⟩, post, hxs, hy, hpre⟩, rfl⟩ := h
        · obtain ⟨rfl, -⟩ := List.cons.inj hxs
          rfl
        · obtain ⟨rfl, -⟩ := List.cons.inj hxs
          exact absurd (hpre x List.mem_cons_self) hx

/-- In a sorted list the first element of a kind is the least one. -/
theorem first_iff_isLeast [PartialOrder α] {xs : List α} (h : xs.Pairwise (· ≤ ·)) {p : α → Prop}
    {x : α} : (∃ pre post, xs = pre ++ x :: post ∧ p x ∧ ∀ y ∈ pre, ¬ p y) ↔
      IsLeast {y | y ∈ xs ∧ p y} x := by
  constructor
  · rintro ⟨pre, post, rfl, hx, hpre⟩
    refine ⟨⟨List.mem_append_right pre List.mem_cons_self, hx⟩, fun y hy ↦ ?_⟩
    rcases List.mem_append.1 hy.1 with hmem | hmem
    · exact absurd hy.2 (hpre y hmem)
    · rcases List.mem_cons.1 hmem with rfl | hmem
      · exact le_rfl
      · exact List.rel_of_pairwise_cons (List.pairwise_append.1 h).2.1 hmem
  · rintro ⟨⟨hmem, hx⟩, hleast⟩
    obtain ⟨pre, post, rfl, hnew⟩ := List.eq_append_cons_of_mem hmem
    refine ⟨pre, post, rfl, hx, fun y hy hp ↦ ?_⟩
    have hle : y ≤ x := (List.pairwise_append.1 h).2.2 y hy x List.mem_cons_self
    have hge : x ≤ y := hleast ⟨List.mem_append_left _ hy, hp⟩
    exact hnew (le_antisymm hle hge ▸ hy)

section Assign

variable {σ κ ν : Type} (put : σ → κ → ν → σ) (get : σ → κ → Option ν) {f : κ → Except ε ν}
  {step : σ → κ → Except ε σ} {xs : List κ}

/-- A loop that assigns to one key after the other leaves under each what was computed for it, and
the other keys alone. -/
theorem get_of_foldlM [DecidableEq κ]
    (hput : ∀ s k v n, get (put s k v) n = if n = k then some v else get s n)
    (hstep : ∀ k ∈ xs, ∀ s, step s k = (f k).map (put s k)) {s s' : σ}
    (h : xs.foldlM step s = .ok s') :
    (∀ k ∈ xs, ∃ v, f k = .ok v ∧ get s' k = some v) ∧ ∀ k, k ∉ xs → get s' k = get s k := by
  induction xs generalizing s with
  | nil =>
    cases h
    exact ⟨nofun, fun _ _ ↦ rfl⟩
  | cons x xs ih =>
    rw [List.foldlM_cons, bind_eq_ok, hstep x List.mem_cons_self] at h
    obtain ⟨s₁, hs₁, h⟩ := h
    cases hx : f x with
    | error e =>
      rw [hx] at hs₁
      cases hs₁
    | ok v =>
      rw [hx] at hs₁
      cases hs₁
      obtain ⟨hin, hout⟩ := ih (fun k hk ↦ hstep k (List.mem_cons_of_mem x hk)) h
      refine ⟨fun k hk ↦ ?_, fun k hk ↦ ?_⟩
      · by_cases hkx : k ∈ xs
        · exact hin k hkx
        · obtain rfl : k = x := (List.mem_cons.1 hk).resolve_right hkx
          exact ⟨v, hx, by rw [hout k hkx, hput, if_pos rfl]⟩
      · rw [List.mem_cons, not_or] at hk
        rw [hout k hk.2, hput, if_neg hk.1]

omit get in
theorem foldlM_total (hstep : ∀ k ∈ xs, ∀ s, step s k = (f k).map (put s k))
    (hf : ∀ k ∈ xs, ∃ v, f k = .ok v) (s : σ) : ∃ s', xs.foldlM step s = .ok s' := by
  induction xs generalizing s with
  | nil => exact ⟨s, rfl⟩
  | cons x xs ih =>
    obtain ⟨v, hv⟩ := hf x List.mem_cons_self
    rw [List.foldlM_cons, hstep x List.mem_cons_self, hv]
    exact ih (fun k hk ↦ hstep k (List.mem_cons_of_mem x hk))
      (fun k hk ↦ hf k (List.mem_cons_of_mem x hk)) (put s x v)

end Assign

end CtrlEvents.Fallible
