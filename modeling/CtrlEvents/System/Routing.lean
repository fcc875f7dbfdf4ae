import CtrlEvents.System.Registry

namespace CtrlEvents.EventSystem

open CtrlEvents.Action

def senders (s : EventSystem) : List Sender :=
  s.transmitters.map .transmitter ++ s.enqueuers.map .enqueuer

def listeners (s : EventSystem) : List Listener :=
  s.receivers.map .receiver ++ s.dequeuers.map .dequeuer

theorem find?_two {α β δ : Type} {f : α → δ} {g : β → δ} {p : δ → Bool} {q : α → Bool}
    {r : β → Bool} (hq : p ∘ f = q) (hr : p ∘ g = r) (xs : List α) (ys : List β) :
    (xs.map f ++ ys.map g).find? p =
      match xs.find? q with
      | some x => some (f x)
      | none => (ys.find? r).map g := by
  rw [List.find?_append, List.find?_map, List.find?_map, hq, hr]
  cases xs.find? q <;> rfl

theorem getTransmitter_eq (s : EventSystem) (name : Str) :
    s.getTransmitter name = s.senders.find? (·.getDestinationName = name) := by
  rw [senders, find?_two (q := (·.topicName = name)) (r := (·.queueName = name)) rfl rfl,
    getTransmitter]
  cases s.transmitters.find? (·.topicName = name) <;> rfl

theorem getReceiver_eq (s : EventSystem) (name : Str) :
    s.getReceiver name = s.listeners.find? (·.getDestinationName = name) := by
  rw [listeners, find?_two (q := (·.topicName = name)) (r := (·.queueName = name)) rfl rfl,
    getReceiver]
  cases s.receivers.find? (·.topicName = name) <;> rfl

def Call.sender : Call → Option (Sender × Connection)
  | createTransmitter host topic port c => some (.transmitter ⟨host, topic, port⟩, c)
  | createEnqueuer host queue port c => some (.enqueuer ⟨host, queue, port⟩, c)
  | _ => none

def Call.listener : Call → Option (Listener × Connection)
  | createReceiver host topic port c => some (.receiver ⟨host, topic, [], port⟩, c)
  | createDequeuer host queue port c => some (.dequeuer ⟨host, queue, [], port⟩, c)
  | createSelectingReceiver host topic selector port c =>
    some (.receiver ⟨host, topic, selector, port⟩, c)
  | createSelectingDequeuer host queue selector port c =>
    some (.dequeuer ⟨host, queue, selector, port⟩, c)
  | _ => none

/-- One side of the registry: the endpoints that are listed on it, how they are named, and which
of them a call would register. -/
structure Side (δ : Type) where
  entries : EventSystem → List δ
  name : δ → Str
  created : Call → Option (δ × Connection)

def sending : Side Sender := ⟨senders, Sender.getDestinationName, Call.sender⟩

def receiving : Side Listener := ⟨listeners, Listener.getDestinationName, Call.listener⟩

namespace Side

variable {δ : Type} (side : Side δ)

def find (s : EventSystem) (name : Str) : Option δ :=
  (side.entries s).find? (side.name · = name)

def Distinct (s : EventSystem) : Prop := ((side.entries s).map side.name).Nodup

variable {side} {s : EventSystem} {x : δ} {name : Str}

theorem mem_of_find (h : side.find s name = some x) : x ∈ side.entries s ∧ side.name x = name :=
  ⟨List.mem_of_find?_eq_some h, by simpa using List.find?_some h⟩

theorem find_eq_some (h : side.Distinct s) :
    side.find s name = some x ↔ x ∈ side.entries s ∧ side.name x = name := by
  refine ⟨mem_of_find, fun h' ↦ ?_⟩
  obtain ⟨hx, hname⟩ := h'
  cases hy : side.find s name with
  | none =>
    have hnone := List.find?_eq_none.1 hy x hx
    exact absurd (decide_eq_true hname) hnone
  | some y =>
    have hy' : side.name y = name := by simpa using List.find?_some hy
    have heq := List.inj_on_of_nodup_map h (List.mem_of_find?_eq_some hy) hx (hy'.trans hname.symm)
    rw [heq]

theorem find_eq_none : side.find s name = none ↔ ∀ x ∈ side.entries s, side.name x ≠ name := by
  simp [find]

end Side

def Creates {δ δ' : Type} (side : Side δ) (other : Side δ') (x : δ) (connection : Except Exn Unit)
    (call : Call) : Prop :=
  ∃ text list, (exec call = do
      create (side.find · (side.name x)) text connection list
      return none) ∧
    (∀ s, (side.entries (list s)).Perm (x :: side.entries s)) ∧
      ∀ s, other.entries (list s) = other.entries s

theorem find_sending (name : Str) : (sending.find · name) = (getTransmitter · name) := by
  funext s
  exact (getTransmitter_eq s name).symm

theorem find_receiving (name : Str) : (receiving.find · name) = (getReceiver · name) := by
  funext s
  exact (getReceiver_eq s name).symm

theorem perm_push {α β δ : Type} (f : α → δ) (g : β → δ) (xs : List α) (ys : List β) (x : α) :
    ((xs ++ [x]).map f ++ ys.map g).Perm (f x :: (xs.map f ++ ys.map g)) := by
  rw [List.map_append, List.append_assoc]
  exact List.perm_middle

theorem perm_push_last {α β δ : Type} (f : α → δ) (g : β → δ) (xs : List α) (ys : List β) (y : β) :
    (xs.map f ++ (ys ++ [y]).map g).Perm (g y :: (xs.map f ++ ys.map g)) := by
  rw [List.map_append, ← List.append_assoc]
  exact List.perm_append_singleton _ _

/-- What the `create` functions list. -/
def enlist (s : EventSystem) : Sender → EventSystem
  | .transmitter t => { s with transmitters := s.transmitters ++ [t] }
  | .enqueuer q => { s with enqueuers := s.enqueuers ++ [q] }

def attach (s : EventSystem) : Listener → EventSystem
  | .receiver r => { s with receivers := s.receivers ++ [r] }
  | .dequeuer q => { s with dequeuers := s.dequeuers ++ [q] }

theorem senders_enlist (s : EventSystem) (x : Sender) :
    (s.enlist x).senders.Perm (x :: s.senders) := by
  cases x with
  | transmitter t => exact perm_push ..
  | enqueuer q => exact perm_push_last ..

theorem listeners_attach (s : EventSystem) (x : Listener) :
    (s.attach x).listeners.Perm (x :: s.listeners) := by
  cases x with
  | receiver r => exact perm_push ..
  | dequeuer q => exact perm_push_last ..

theorem creates_sender {call : Call} {x : Sender} {c : Connection} (h : call.sender = some (x, c)) :
    Creates sending receiving x c.initTransmitter call := by
  have hexec : ∃ text, exec call = do
      create (sending.find · x.getDestinationName) text c.initTransmitter (enlist · x)
      return none := by
    rw [find_sending]
    cases call <;> cases h <;> exact ⟨_, rfl⟩
  obtain ⟨text, hexec⟩ := hexec
  exact ⟨text, (enlist · x), hexec, (senders_enlist · x), fun s ↦ by cases x <;> rfl⟩

theorem creates_listener {call : Call} {x : Listener} {c : Connection}
    (h : call.listener = some (x, c)) : Creates receiving sending x c.initReceiver call := by
  have hexec : ∃ text, exec call = do
      create (receiving.find · x.getDestinationName) text c.initReceiver (attach · x)
      return none := by
    rw [find_receiving]
    cases call <;> cases h <;> exact ⟨_, rfl⟩
  obtain ⟨text, hexec⟩ := hexec
  exact ⟨text, (attach · x), hexec, (listeners_attach · x), fun s ↦ by cases x <;> rfl⟩

/-- What a call that would register an endpoint does: it throws and changes nothing where the name
is taken on its side or the connection fails, and else lists the endpoint. -/
structure Registers {δ δ' : Type} (side : Side δ) (other : Side δ') (x : δ)
    (connection : Except Exn Unit) (r : Round EventSystem Call Effect Exn (Option Event)) :
    Prop where
  taken : ∀ y ∈ side.entries r.before, side.name y = side.name x →
    (∃ text, r.result = .error (.runtimeError text)) ∧ r.after = r.before
  failed : (∀ y ∈ side.entries r.before, side.name y ≠ side.name x) →
    ∀ e, connection = .error e → r.result = .error e ∧ r.after = r.before
  listed : (∀ y ∈ side.entries r.before, side.name y ≠ side.name x) → connection = .ok () →
    r.result = .ok none ∧ (side.entries r.after).Perm (x :: side.entries r.before)
  other : other.entries r.after = other.entries r.before
  silent : r.effects = []

section Create

variable {δ δ' : Type} {registered : EventSystem → Option δ} {text : Str}
  {connection : Except Exn Unit} {list : EventSystem → EventSystem} {s : EventSystem}

theorem create_taken {y : δ} (h : registered s = some y) :
    (do create registered text connection list; return none : Run (Option Event)) s =
      (.error (.runtimeError text), s, []) := by
  have hcreate : create registered text connection list s =
      (.error (.runtimeError text), s, []) := by
    simp only [create, bind, Action.bind, get, getThe, MonadStateOf.get, h]
    rfl
  simp only [bind, Action.bind, hcreate]

theorem create_failed {e : Exn} (h : registered s = none) (hc : connection = .error e) :
    (do create registered text connection list; return none : Run (Option Event)) s =
      (.error e, s, []) := by
  have hcreate : create registered text connection list s = (.error e, s, []) := by
    simp only [create, bind, Action.bind, get, getThe, MonadStateOf.get, h, hc]
    rfl
  simp only [bind, Action.bind, hcreate]

theorem create_listed (h : registered s = none) (hc : connection = .ok ()) :
    (do create registered text connection list; return none : Run (Option Event)) s =
      (.ok none, list s, []) := by
  have hcreate : create registered text connection list s = (.ok (), list s, []) := by
    simp only [create, bind, Action.bind, get, getThe, MonadStateOf.get, h, hc]
    rfl
  simp only [bind, Action.bind, hcreate]
  rfl

end Create

theorem Creates.registers {δ δ' : Type} {side : Side δ} {other : Side δ'} {x : δ}
    {connection : Except Exn Unit} {call : Call} (h : Creates side other x connection call)
    (s : EventSystem) : Registers side other x connection (Action.round exec s call) := by
  obtain ⟨text, list, hexec, hperm, hother⟩ := h
  cases hfind : side.find s (side.name x) with
  | some y =>
    have hrun : exec call s = (.error (.runtimeError text), s, []) := by
      rw [hexec]
      exact create_taken hfind
    have hy : y ∈ side.entries s ∧ side.name y = side.name x := Side.mem_of_find hfind
    rw [round_eq hrun]
    exact {
      taken := fun _ _ _ ↦ ⟨⟨text, rfl⟩, rfl⟩
      failed := fun hnone ↦ absurd hy.2 (hnone y hy.1)
      listed := fun hnone ↦ absurd hy.2 (hnone y hy.1)
      other := rfl
      silent := rfl }
  | none =>
    have hnone := Side.find_eq_none.1 hfind
    cases hc : connection with
    | error e =>
      have hrun : exec call s = (.error e, s, []) := by
        rw [hexec]
        exact create_failed hfind hc
      rw [round_eq hrun]
      exact {
        taken := fun y hy hname ↦ absurd hname (hnone y hy)
        failed := fun _ e' he ↦ by cases he; exact ⟨rfl, rfl⟩
        listed := fun _ he ↦ by cases he
        other := rfl
        silent := rfl }
    | ok u =>
      have hrun : exec call s = (.ok none, list s, []) := by
        rw [hexec]
        exact create_listed hfind hc
      rw [round_eq hrun]
      exact {
        taken := fun y hy hname ↦ absurd hname (hnone y hy)
        failed := fun _ e' he ↦ by cases he
        listed := fun _ _ ↦ ⟨rfl, hperm s⟩
        other := hother s
        silent := rfl }

/-- What a call to an endpoint does: it throws where none is listed under the name, and else has
the endpoint do its part, and ends as that ends. -/
structure Routes {δ : Type} (side : Side δ) (name : Str) (effect : δ → Effect)
    (outcome : Except Exn (Option Event)) (r : Round EventSystem Call Effect Exn (Option Event)) :
    Prop where
  missing : (∀ x ∈ side.entries r.before, side.name x ≠ name) →
    r.result = .error (notRegistered name) ∧ r.effects = []
  handed : ∀ x ∈ side.entries r.before, side.name x = name →
    r.result = outcome ∧ r.effects = [effect x]
  unchanged : r.after = r.before

theorem routes_of_exec {δ : Type} {side : Side δ} {s : EventSystem} (h : side.Distinct s)
    {name : Str} {effect : δ → Effect} {outcome : Except Exn (Option Event)} {call : Call}
    (hnone : side.find s name = none → exec call s = (.error (notRegistered name), s, []))
    (hsome : ∀ x, side.find s name = some x → exec call s = (outcome, s, [effect x])) :
    Routes side name effect outcome (Action.round exec s call) := by
  cases hfind : side.find s name with
  | none =>
    rw [round_eq (hnone hfind)]
    exact {
      missing := fun _ ↦ ⟨rfl, rfl⟩
      handed := fun x hx hname ↦ absurd hname (Side.find_eq_none.1 hfind x hx)
      unchanged := rfl }
  | some y =>
    have hy := (Side.find_eq_some h).1 hfind
    rw [round_eq (hsome y hfind)]
    refine ⟨fun hmissing ↦ absurd hy.2 (hmissing y hy.1), fun x hx hname ↦ ?_, rfl⟩
    have hx' := (Side.find_eq_some h).2 ⟨hx, hname⟩
    rw [hfind, Option.some_inj] at hx'
    rw [hx']
    exact ⟨rfl, rfl⟩

section Lookup

variable {s : EventSystem} {name : Str}

theorem publishEvent_none (h : sending.find s name = none) (event : Event)
    (outcome : Except Exn Unit) :
    publishEvent name event outcome s = (.error (notRegistered name), s, []) := by
  have hget : s.getTransmitter name = none := (getTransmitter_eq s name).trans h
  simp only [publishEvent, bind, Action.bind, get, getThe, MonadStateOf.get, hget]
  rfl

theorem publishEvent_some {x : Sender} (h : sending.find s name = some x) (event : Event)
    (outcome : Except Exn Unit) :
    publishEvent name event outcome s = (outcome, s, [.publish x event]) := by
  have hget : s.getTransmitter name = some x := (getTransmitter_eq s name).trans h
  simp only [publishEvent, bind, Action.bind, get, getThe, MonadStateOf.get, hget]
  rfl

theorem receiveEvent_none (h : receiving.find s name = none) (timeout : Int64)
    (outcome : Except Exn (Option Event)) :
    receiveEvent name timeout outcome s = (.error (notRegistered name), s, []) := by
  have hget : s.getReceiver name = none := (getReceiver_eq s name).trans h
  simp only [receiveEvent, bind, Action.bind, get, getThe, MonadStateOf.get, hget]
  rfl

theorem receiveEvent_some {x : Listener} (h : receiving.find s name = some x) (timeout : Int64)
    (outcome : Except Exn (Option Event)) :
    receiveEvent name timeout outcome s = (outcome, s, [.receive x timeout]) := by
  have hget : s.getReceiver name = some x := (getReceiver_eq s name).trans h
  simp only [receiveEvent, bind, Action.bind, get, getThe, MonadStateOf.get, hget]
  rfl

end Lookup

theorem routes_publishEvent {s : EventSystem} (h : sending.Distinct s) (name : Str) (event : Event)
    (outcome : Except Exn Unit) : Routes sending name (.publish · event)
      (outcome.map fun _ ↦ none) (Action.round exec s (.publishEvent name event outcome)) := by
  apply routes_of_exec h
  · intro hfind
    simp only [exec, bind, Action.bind, publishEvent_none hfind]
  · intro x hfind
    simp only [exec, bind, Action.bind, publishEvent_some hfind]
    cases outcome <;> rfl

theorem routes_receiveEvent {s : EventSystem} (h : receiving.Distinct s) (name : Str)
    (timeout : Int64) (outcome : Except Exn (Option Event)) :
    Routes receiving name (.receive · timeout) outcome
      (Action.round exec s (.receiveEvent name timeout outcome)) :=
  routes_of_exec h (receiveEvent_none · timeout outcome)
    fun _ hfind ↦ receiveEvent_some hfind timeout outcome

structure Consistent (s : EventSystem) : Prop where
  sending : EventSystem.sending.Distinct s
  receiving : EventSystem.receiving.Distinct s

/-- What any call does to a side: nothing, or it lists one endpoint under a name that was free. -/
def Side.Step {δ : Type} (side : Side δ) (r : Round EventSystem Call Effect Exn (Option Event)) :
    Prop :=
  side.entries r.after = side.entries r.before ∨ ∃ x c, side.created r.call = some (x, c) ∧
    (∀ y ∈ side.entries r.before, side.name y ≠ side.name x) ∧ r.result = .ok none ∧
      (side.entries r.after).Perm (x :: side.entries r.before)

theorem Registers.step {δ δ' : Type} {side : Side δ} {other : Side δ'} {x : δ} {c : Connection}
    {connection : Except Exn Unit} {r : Round EventSystem Call Effect Exn (Option Event)}
    (h : Registers side other x connection r) (hcall : side.created r.call = some (x, c)) :
    side.Step r := by
  by_cases hfree : ∀ y ∈ side.entries r.before, side.name y ≠ side.name x
  · cases hc : connection with
    | error e => exact .inl (by rw [(h.failed hfree e hc).2])
    | ok u =>
      obtain ⟨hresult, hperm⟩ := h.listed hfree hc
      exact .inr ⟨x, c, hcall, hfree, hresult, hperm⟩
  · push Not at hfree
    obtain ⟨y, hy, hname⟩ := hfree
    exact .inl (by rw [(h.taken y hy hname).2])

theorem steps_of_sender {call : Call} {x : Sender} {c : Connection} (h : call.sender = some (x, c))
    (s : EventSystem) :
    sending.Step (Action.round exec s call) ∧ receiving.Step (Action.round exec s call) :=
  have hregisters := (creates_sender h).registers s
  ⟨hregisters.step h, .inl hregisters.other⟩

theorem steps_of_listener {call : Call} {x : Listener} {c : Connection}
    (h : call.listener = some (x, c)) (s : EventSystem) :
    sending.Step (Action.round exec s call) ∧ receiving.Step (Action.round exec s call) :=
  have hregisters := (creates_listener h).registers s
  ⟨.inl hregisters.other, hregisters.step h⟩

theorem steps {s : EventSystem} (h : Consistent s) (call : Call) :
    sending.Step (Action.round exec s call) ∧ receiving.Step (Action.round exec s call) := by
  cases call with
  | createTransmitter => exact steps_of_sender rfl s
  | createEnqueuer => exact steps_of_sender rfl s
  | createReceiver => exact steps_of_listener rfl s
  | createDequeuer => exact steps_of_listener rfl s
  | createSelectingReceiver => exact steps_of_listener rfl s
  | createSelectingDequeuer => exact steps_of_listener rfl s
  | publishEvent name event outcome =>
    have hsame := (routes_publishEvent h.sending name event outcome).unchanged
    exact ⟨.inl (congrArg _ hsame), .inl (congrArg _ hsame)⟩
  | receiveEvent name timeout outcome =>
    have hsame := (routes_receiveEvent h.receiving name timeout outcome).unchanged
    exact ⟨.inl (congrArg _ hsame), .inl (congrArg _ hsame)⟩

namespace Side.Step

variable {δ : Type} {side : Side δ} {r : Round EventSystem Call Effect Exn (Option Event)}
  (h : side.Step r)

include h

theorem distinct (hd : side.Distinct r.before) : side.Distinct r.after := by
  rcases h with hsame | ⟨x, c, -, hfree, -, hperm⟩
  · rw [Distinct, hsame]
    exact hd
  · have hnodup : ((x :: side.entries r.before).map side.name).Nodup := by
      rw [List.map_cons, List.nodup_cons]
      refine ⟨fun hmem ↦ ?_, hd⟩
      obtain ⟨y, hy, hname⟩ := List.mem_map.1 hmem
      exact hfree y hy hname
    exact (hperm.map side.name).nodup_iff.2 hnodup

theorem keeps {x : δ} (hx : x ∈ side.entries r.before) : x ∈ side.entries r.after := by
  rcases h with hsame | ⟨y, c, -, -, -, hperm⟩
  · rw [hsame]
    exact hx
  · exact hperm.mem_iff.2 (List.mem_cons_of_mem y hx)

theorem comes_from {x : δ} (hx : x ∈ side.entries r.after) : x ∈ side.entries r.before ∨
    ∃ c, side.created r.call = some (x, c) ∧ r.result = .ok none := by
  rcases h with hsame | ⟨y, c, hcall, -, hresult, hperm⟩
  · rw [hsame] at hx
    exact .inl hx
  · rcases List.mem_cons.1 (hperm.mem_iff.1 hx) with rfl | hx
    · exact .inr ⟨c, hcall, hresult⟩
    · exact .inl hx

end Side.Step

theorem consistent_final {s : EventSystem} (hs : Consistent s) (calls : List Call) :
    Consistent (final exec s calls) :=
  final_invariant hs (fun _ call h ↦
    ⟨(steps h call).1.distinct h.sending, (steps h call).2.distinct h.receiving⟩) calls

theorem consistent_empty : Consistent ∅ := ⟨List.nodup_nil, List.nodup_nil⟩

/-- What calls from the start on leave on a side: distinct names, only endpoints that one of the
calls made, as it made them, and no endpoint that a later call replaces under its name. -/
structure Side.Kept {δ : Type} (side : Side δ) (calls : List Call) : Prop where
  distinct : side.Distinct (final exec ∅ calls)
  made : ∀ x ∈ side.entries (final exec ∅ calls), ∃ r ∈ history exec ∅ calls, ∃ c,
    side.created r.call = some (x, c) ∧ r.result = .ok none
  stable : ∀ name x later, side.find (final exec ∅ calls) name = some x →
    side.find (final exec ∅ (calls ++ later)) name = some x

theorem Side.kept {δ : Type} {side : Side δ} (hempty : side.entries ∅ = [])
    (hstep : ∀ s, Consistent s → ∀ call, side.Step (Action.round exec s call))
    (hdistinct : ∀ s, Consistent s → side.Distinct s) (calls : List Call) : side.Kept calls := by
  have hconsistent := consistent_final consistent_empty
  refine ⟨hdistinct _ (hconsistent calls), ?_, fun name x later hx ↦ ?_⟩
  · refine final_rule (motive := fun calls s ↦ ∀ x ∈ side.entries s, ∃ r ∈ history exec ∅ calls,
      ∃ c, side.created r.call = some (x, c) ∧ r.result = .ok none) ?_ ?_ calls
    · simp [hempty]
    · intro calls call ih x hx
      rw [history_append]
      rcases (hstep _ (hconsistent calls) call).comes_from hx with hx | hx
      · obtain ⟨r, hr, hmade⟩ := ih x hx
        exact ⟨r, List.mem_append_left _ hr, hmade⟩
      · exact ⟨_, List.mem_append_right _ List.mem_cons_self, hx⟩
  · rw [Side.find_eq_some (hdistinct _ (hconsistent _))] at hx ⊢
    refine ⟨?_, hx.2⟩
    rw [final_append]
    refine (final_invariant (p := fun s ↦ Consistent s ∧ x ∈ side.entries s)
      ⟨hconsistent calls, hx.1⟩ (fun s call h ↦ ?_) later).2
    exact ⟨consistent_final h.1 [call], (hstep s h.1 call).keeps h.2⟩

/-- In every history of calls on the event system: the two sides are kept apart, a call that would
register an endpoint does so just where it can, and a call to an endpoint reaches the one that is
registered under the name. -/
theorem registry_routes (calls : List Call) : sending.Kept calls ∧ receiving.Kept calls ∧
    ∀ r ∈ history exec ∅ calls, Consistent r.before ∧ Consistent r.after ∧
      (∀ x c, r.call.sender = some (x, c) →
        Registers sending receiving x c.initTransmitter r) ∧
      (∀ x c, r.call.listener = some (x, c) → Registers receiving sending x c.initReceiver r) ∧
      (∀ name event outcome, r.call = .publishEvent name event outcome →
        Routes sending name (.publish · event) (outcome.map fun _ ↦ none) r) ∧
      ∀ name timeout outcome, r.call = .receiveEvent name timeout outcome →
        Routes receiving name (.receive · timeout) outcome r := by
  refine ⟨Side.kept rfl (fun s h call ↦ (steps h call).1) (fun s h ↦ h.sending) calls,
    Side.kept rfl (fun s h call ↦ (steps h call).2) (fun s h ↦ h.receiving) calls, fun r hr ↦ ?_⟩
  obtain ⟨earlier, call, later, -, rfl⟩ := mem_history.1 hr
  have hbefore := consistent_final consistent_empty earlier
  refine ⟨hbefore, consistent_final hbefore [call], fun x c h ↦ (creates_sender h).registers _,
    fun x c h ↦ (creates_listener h).registers _, fun name event outcome h ↦ ?_,
    fun name timeout outcome h ↦ ?_⟩
  · have hcall : call = .publishEvent name event outcome := h
    rw [hcall]
    exact routes_publishEvent hbefore.sending name event outcome
  · have hcall : call = .receiveEvent name timeout outcome := h
    rw [hcall]
    exact routes_receiveEvent hbefore.receiving name timeout outcome

end CtrlEvents.EventSystem
