import Mathlib.Order.Lattice
import Mathlib.Order.Monotone.Basic

namespace CtrlEvents

/-- The result of a computation with a bound on the depth of its nested calls: the bound was
met, an exception was thrown, or a value was returned. -/
inductive Outcome (ε α : Type)
  | deep
  | threw (e : ε)
  | ret (a : α)
  deriving DecidableEq

namespace Outcome

variable {ε α β γ : Type}

protected def bind : Outcome ε α → (α → Outcome ε β) → Outcome ε β
  | deep, _ => deep
  | threw e, _ => threw e
  | ret a, f => f a

instance : Monad (Outcome ε) where
  pure := ret
  bind := Outcome.bind

def ofExcept : Except ε α → Outcome ε α
  | .error e => threw e
  | .ok a => ret a

instance : MonadLift (Except ε) (Outcome ε) := ⟨ofExcept⟩

@[simp] theorem pure_eq (a : α) : (pure a : Outcome ε α) = ret a := rfl

@[simp] theorem ret_bind (a : α) (f : α → Outcome ε β) : ret a >>= f = f a := rfl

@[simp] theorem threw_bind (e : ε) (f : α → Outcome ε β) : threw e >>= f = threw e := rfl

@[simp] theorem deep_bind (f : α → Outcome ε β) : (deep : Outcome ε α) >>= f = deep := rfl

@[simp] theorem liftM_ok (a : α) : (liftM (.ok a : Except ε α) : Outcome ε α) = ret a := rfl

@[simp] theorem liftM_error (e : ε) :
    (liftM (.error e : Except ε α) : Outcome ε α) = threw e := rfl

instance : LawfulMonad (Outcome ε) :=
  LawfulMonad.mk' (Outcome ε) (fun o ↦ by cases o <;> rfl) (fun _ _ ↦ rfl)
    fun o _ _ ↦ by cases o <;> rfl

theorem bind_eq_ret {o : Outcome ε α} {f : α → Outcome ε β} {b : β} :
    o >>= f = ret b ↔ ∃ a, o = ret a ∧ f a = ret b := by
  cases o <;> simp

theorem liftM_eq_ret {x : Except ε α} {a : α} : (liftM x : Outcome ε α) = ret a ↔ x = .ok a := by
  cases x <;> simp

theorem liftM_bind (x : Except ε α) (f : α → Except ε β) :
    (liftM (x >>= f) : Outcome ε β) = liftM x >>= fun a ↦ liftM (f a) := by
  cases x <;> rfl

theorem liftM_ne_deep (x : Except ε α) : (liftM x : Outcome ε α) ≠ deep := by
  cases x <;> simp

instance : PartialOrder (Outcome ε α) where
  le o o' := o = deep ∨ o = o'
  le_refl _ := .inr rfl
  le_trans
    | _, _, _, .inl h, _ => .inl h
    | _, _, _, .inr h, h' => h ▸ h'
  le_antisymm
    | _, _, .inl h, .inl h' => h.trans h'.symm
    | _, _, .inl _, .inr h' => h'.symm
    | _, _, .inr h, _ => h

@[simp] theorem deep_le (o : Outcome ε α) : deep ≤ o := .inl rfl

theorem eq_of_le {o o' : Outcome ε α} (h : o ≤ o') (hd : o ≠ deep) : o' = o :=
  (h.resolve_left hd).symm

theorem bind_le {o o' : Outcome ε α} {f f' : α → Outcome ε β} (h : o ≤ o')
    (hf : ∀ a, f a ≤ f' a) : o >>= f ≤ o' >>= f' := by
  rcases h with rfl | rfl
  · exact deep_le _
  · cases o with
    | deep => exact le_rfl
    | threw e => exact le_rfl
    | ret a => exact hf a

theorem foldlM_le {f g : β → α → Outcome ε β} (h : ∀ b a, f b a ≤ g b a) (xs : List α) (b : β) :
    xs.foldlM f b ≤ xs.foldlM g b := by
  induction xs generalizing b with
  | nil => exact le_rfl
  | cons x xs ih =>
    rw [List.foldlM_cons, List.foldlM_cons]
    exact bind_le (h b x) ih

theorem foldlM_eq_deep {f : β → α → Outcome ε β} {xs : List α} {b : β} :
    xs.foldlM f b = deep ↔ ∃ pre x post b', xs = pre ++ x :: post ∧ pre.foldlM f b = ret b' ∧
      f b' x = deep := by
  refine ⟨fun h ↦ ?_, fun h ↦ ?_⟩
  · induction xs generalizing b with
    | nil => cases h
    | cons x xs ih =>
      rw [List.foldlM_cons] at h
      cases hx : f b x with
      | deep => exact ⟨[], x, xs, b, rfl, rfl, hx⟩
      | threw e => simp [hx] at h
      | ret b₁ =>
        rw [hx, ret_bind] at h
        obtain ⟨pre, y, post, b', rfl, hpre, hy⟩ := ih h
        exact ⟨x :: pre, y, post, b', rfl, by rw [List.foldlM_cons, hx, ret_bind, hpre], hy⟩
  · obtain ⟨pre, x, post, b', rfl, hpre, hx⟩ := h
    rw [List.foldlM_append, hpre, ret_bind, List.foldlM_cons, hx, deep_bind]

theorem keep_of_foldlM {p : β → Prop} {f : β → α → Outcome ε β} {xs : List α} {b c : β}
    (hstep : ∀ x ∈ xs, ∀ b c, p b → f b x = ret c → p c) (hb : p b) (h : xs.foldlM f b = ret c) :
    p c := by
  induction xs generalizing b with
  | nil =>
    cases h
    exact hb
  | cons x xs ih =>
    rw [List.foldlM_cons] at h
    obtain ⟨b', hx, h⟩ := bind_eq_ret.1 h
    exact ih (fun y hy ↦ hstep y (List.mem_cons_of_mem x hy))
      (hstep x List.mem_cons_self b b' hb hx) h

/-- What a computation results in when its bound is large enough. -/
def Settles (run : ℕ → Outcome ε α) (o : Outcome ε α) : Prop := ∃ n, ∀ m, n ≤ m → run m = o

theorem settles_const (o : Outcome ε α) : Settles (fun _ ↦ o) o := ⟨0, fun _ _ ↦ rfl⟩

theorem Settles.bind {run : ℕ → Outcome ε α} {a : α} {f : ℕ → α → Outcome ε β} {o : Outcome ε β}
    (h : Settles run (ret a)) (hf : Settles (f · a) o) : Settles (fun n ↦ run n >>= f n) o := by
  obtain ⟨n, hn⟩ := h
  obtain ⟨m, hm⟩ := hf
  refine ⟨max n m, fun k hk ↦ ?_⟩
  have hk' : run k = ret a := hn k (by omega)
  simpa only [hk', ret_bind] using hm k (by omega)

end Outcome

end CtrlEvents
