import Mathlib.Data.List.Induction

namespace CtrlEvents

/-- A program on a state that has effects and ends in a value or an exception. What it has done
before an exception stays done. -/
def Action (σ ω ε α : Type) := σ → Except ε α × σ × List ω

namespace Action

variable {σ τ ω ω' ε α β ι : Type}

protected def pure (a : α) : Action σ ω ε α := fun s ↦ (.ok a, s, [])

protected def bind (x : Action σ ω ε α) (f : α → Action σ ω ε β) : Action σ ω ε β := fun s ↦
  match x s with
  | (.ok a, s', w) => ((f a s').1, (f a s').2.1, w ++ (f a s').2.2)
  | (.error e, s', w) => (.error e, s', w)

instance : Monad (Action σ ω ε) where
  pure := Action.pure
  bind := Action.bind

instance : MonadLift (Except ε) (Action σ ω ε) := ⟨fun x s ↦ (x, s, [])⟩

instance : MonadExceptOf ε (Action σ ω ε) where
  throw e := fun s ↦ (.error e, s, [])
  tryCatch x f := fun s ↦
    match x s with
    | (.error e, s', w) => ((f e s').1, (f e s').2.1, w ++ (f e s').2.2)
    | r => r

instance : MonadStateOf σ (Action σ ω ε) where
  get := fun s ↦ (.ok s, s, [])
  set s := fun _ ↦ (.ok (), s, [])
  modifyGet f := fun s ↦ (.ok (f s).1, (f s).2, [])

/-- A program on a part of the state. -/
def focus (part : τ → σ) (put : τ → σ → τ) (f : ω → ω') (x : Action σ ω ε α) : Action τ ω' ε α :=
  fun s ↦ ((x (part s)).1, put s (x (part s)).2.1, (x (part s)).2.2.map f)

def emit (w : ω) : Action σ ω ε Unit := fun s ↦ (.ok (), s, [w])

/-- A program on a part of the state, whose effects the whole carries out. -/
def handle (part : τ → σ) (put : τ → σ → τ) (carry : ω → Action τ ω' ε Unit)
    (x : Action σ ω ε α) : Action τ ω' ε α := do
  let s ← get
  set (put s (x (part s)).2.1)
  (x (part s)).2.2.forM carry
  (x (part s)).1

/-- A call in a history: the state that it was made in, its result, its effects, and the state
that it left. -/
structure Round (σ ι ω ε α : Type) where
  before : σ
  call : ι
  result : Except ε α
  effects : List ω
  after : σ

variable (exec : ι → Action σ ω ε α)

def round (s : σ) (c : ι) : Round σ ι ω ε α :=
  ⟨s, c, (exec c s).1, (exec c s).2.2, (exec c s).2.1⟩

def history : σ → List ι → List (Round σ ι ω ε α)
  | _, [] => []
  | s, c :: calls => round exec s c :: history (round exec s c).after calls

def final (s : σ) (calls : List ι) : σ := calls.foldl (fun s c ↦ (round exec s c).after) s

variable {exec}

theorem round_eq {s s' : σ} {c : ι} {x : Except ε α} {w : List ω} (h : exec c s = (x, s', w)) :
    round exec s c = ⟨s, c, x, w, s'⟩ := by
  rw [round, h]

theorem final_append (s : σ) (calls calls' : List ι) :
    final exec s (calls ++ calls') = final exec (final exec s calls) calls' :=
  List.foldl_append

theorem history_append (s : σ) (calls calls' : List ι) : history exec s (calls ++ calls') =
    history exec s calls ++ history exec (final exec s calls) calls' := by
  induction calls generalizing s with
  | nil => rfl
  | cons c calls ih => simpa [history, final] using ih _

/-- Every round of a history is the call at its place, made in the state that the calls before it
led to. -/
theorem mem_history {s : σ} {calls : List ι} {r : Round σ ι ω ε α} :
    r ∈ history exec s calls ↔
      ∃ earlier c later, calls = earlier ++ c :: later ∧
        r = round exec (final exec s earlier) c := by
  constructor
  · intro hr
    induction calls generalizing s with
    | nil => cases hr
    | cons c calls ih =>
      rcases List.mem_cons.1 hr with rfl | hr
      · exact ⟨[], c, calls, rfl, rfl⟩
      · obtain ⟨earlier, c', later, rfl, rfl⟩ := ih hr
        exact ⟨c :: earlier, c', later, rfl, rfl⟩
  · intro hr
    obtain ⟨earlier, c, later, rfl, rfl⟩ := hr
    rw [history_append]
    exact List.mem_append_right _ List.mem_cons_self

theorem final_rule {motive : List ι → σ → Prop} {s : σ} (hnil : motive [] s)
    (hsnoc : ∀ calls c, motive calls (final exec s calls) →
      motive (calls ++ [c]) (round exec (final exec s calls) c).after) (calls : List ι) :
    motive calls (final exec s calls) := by
  induction calls using List.reverseRecOn with
  | nil => exact hnil
  | append_singleton calls c ih =>
    rw [final_append]
    exact hsnoc calls c ih

theorem final_invariant {p : σ → Prop} {s : σ} (hs : p s)
    (hstep : ∀ s c, p s → p (round exec s c).after) (calls : List ι) : p (final exec s calls) :=
  final_rule hs (fun _ c h ↦ hstep _ c h) calls

theorem eq_round_of_mem {s : σ} {calls : List ι} {r : Round σ ι ω ε α}
    (h : r ∈ history exec s calls) : r = round exec r.before r.call := by
  obtain ⟨earlier, c, later, -, rfl⟩ := mem_history.1 h
  rfl

theorem bind_ok {x : Action σ ω ε α} {s s' : σ} {a : α} {w : List ω} (h : x s = (.ok a, s', w))
    (f : α → Action σ ω ε β) : (x >>= f) s = ((f a s').1, (f a s').2.1, w ++ (f a s').2.2) := by
  simp only [bind, Action.bind, h]

theorem bind_error {x : Action σ ω ε α} {s s' : σ} {e : ε} {w : List ω}
    (h : x s = (.error e, s', w)) (f : α → Action σ ω ε β) : (x >>= f) s = (.error e, s', w) := by
  simp only [bind, Action.bind, h]

theorem handle_eq {part : τ → σ} {put : τ → σ → τ} {carry : ω → Action τ ω' ε Unit}
    {x : Action σ ω ε α} {s : τ} {a : Except ε α} {s' : σ} {w : List ω}
    (h : x (part s) = (a, s', w)) :
    handle part put carry x s = (do w.forM carry; a : Action τ ω' ε α) (put s s') := by
  obtain ⟨hresult, hstate, heffects⟩ : (x (part s)).1 = a ∧ (x (part s)).2.1 = s' ∧
      (x (part s)).2.2 = w := by
    rw [h]
    exact ⟨rfl, rfl, rfl⟩
  rw [← hresult, ← hstate, ← heffects]
  rfl

theorem mem_effects_bind {x : Action σ ω ε α} {f : α → Action σ ω ε β} {s : σ} {w : ω}
    (h : w ∈ ((x >>= f) s).2.2) :
    w ∈ (x s).2.2 ∨ ∃ a s', w ∈ (f a s').2.2 := by
  rcases hx : x s with ⟨_ | a, s', effects⟩
  · rw [bind_error hx] at h
    exact .inl h
  · rw [bind_ok hx] at h
    exact (List.mem_append.1 h).imp_right fun h ↦ ⟨a, s', h⟩

theorem mem_effects_bind_pure {x : Action σ ω ε α} {b : β} {s : σ} {w : ω}
    (h : w ∈ ((do let _ ← x; return b : Action σ ω ε β) s).2.2) : w ∈ (x s).2.2 :=
  (mem_effects_bind h).resolve_right fun ⟨_, _, h⟩ ↦ List.not_mem_nil h

theorem mem_effects_forM {f : α → Action σ ω ε Unit} {as : List α} {s : σ} {w : ω}
    (h : w ∈ (as.forM f s).2.2) : ∃ a ∈ as, ∃ s', w ∈ (f a s').2.2 := by
  induction as generalizing s with
  | nil => cases h
  | cons a as ih =>
    rcases mem_effects_bind h with h | ⟨-, s', h⟩
    · exact ⟨a, List.mem_cons_self, s, h⟩
    · obtain ⟨b, hb, h⟩ := ih h
      exact ⟨b, List.mem_cons_of_mem a hb, h⟩

/-- What a handled program emits comes of one of its effects. -/
theorem mem_effects_handle {part : τ → σ} {put : τ → σ → τ} {carry : ω → Action τ ω' ε Unit}
    {x : Action σ ω ε α} {s : τ} {w' : ω'} (h : w' ∈ (handle part put carry x s).2.2) :
    ∃ w ∈ (x (part s)).2.2, ∃ s', w' ∈ (carry w s').2.2 := by
  rw [handle_eq (a := (x (part s)).1) rfl] at h
  rcases mem_effects_bind h with h | ⟨-, s', h⟩
  · exact mem_effects_forM h
  · cases h

/-- A program that keeps a log in the state: it adds to it what it emits. -/
def Logs (log : σ → List ω) (x : Action σ ω ε α) : Prop := ∀ s, log (x s).2.1 = log s ++ (x s).2.2

section Logs

variable {log : σ → List ω}

theorem Logs.of_silent {x : Action σ ω ε α} (hstate : ∀ s, log (x s).2.1 = log s)
    (heffects : ∀ s, (x s).2.2 = []) : Logs log x := by
  intro s
  rw [hstate, heffects, List.append_nil]

theorem Logs.bind {x : Action σ ω ε α} {f : α → Action σ ω ε β} (hx : Logs log x)
    (hf : ∀ a, Logs log (f a)) : Logs log (x >>= f) := by
  intro s
  have hs := hx s
  rcases h : x s with ⟨_ | a, s', w⟩
  · rw [h] at hs
    rw [bind_error h]
    exact hs
  · rw [h] at hs
    rw [bind_ok h]
    exact (hf a s').trans (by rw [hs, List.append_assoc])

theorem Logs.forM {f : α → Action σ ω ε Unit} (hf : ∀ a, Logs log (f a)) (as : List α) :
    Logs log (as.forM f) := by
  induction as with
  | nil => exact .of_silent (fun _ ↦ rfl) fun _ ↦ rfl
  | cons a as ih => exact (hf a).bind fun _ ↦ ih

theorem Logs.handle {log : τ → List ω'} {part : τ → σ} {put : τ → σ → τ}
    {carry : ω → Action τ ω' ε Unit} (hput : ∀ s a, log (put s a) = log s)
    (hcarry : ∀ w, Logs log (carry w)) (x : Action σ ω ε α) :
    Logs log (handle part put carry x) := by
  intro s
  have hrun : Logs log (do (x (part s)).2.2.forM carry; (x (part s)).1 : Action τ ω' ε α) :=
    (Logs.forM hcarry _).bind fun _ ↦ .of_silent (fun _ ↦ rfl) fun _ ↦ rfl
  rw [handle_eq (a := (x (part s)).1) rfl]
  exact (hrun _).trans (by rw [hput])

/-- Where each call keeps the log, it holds in the end what the rounds have emitted. -/
theorem log_final (h : ∀ c, Logs log (exec c)) (s : σ) (calls : List ι) :
    log (final exec s calls) = log s ++ (history exec s calls).flatMap (·.effects) := by
  induction calls generalizing s with
  | nil => exact (List.append_nil _).symm
  | cons c calls ih =>
    refine (ih (round exec s c).after).trans ?_
    rw [history, List.flatMap_cons, ← List.append_assoc]
    exact congrArg (· ++ _) (h c s)

end Logs

end Action

end CtrlEvents
