import CtrlEvents.System.Appender

namespace CtrlEvents.EventAppender

open CtrlEvents.Action Fallible

variable {event : LoggingEvent} {originator : LocationId} {now : Int64} {connection : Connection}
  {publication : Publication}

theorem logEvent_total (event : LoggingEvent) (originator : LocationId) (now : Int64)
    (runid : Str) : ∃ e, logEvent event originator now runid = .ok e := by
  have hprops : ∃ ps, logProperties event = .ok ps := by
    have hplain : ∀ n ∈ [Event.TYPE, Event.LOGGER, Event.LEVEL, LogEvent.MESSAGE,
        LogEvent.TIMESTAMP, LogEvent.THREADNAME, LogEvent.FILENAME, LogEvent.CLASSNAME,
        LogEvent.METHODNAME, LogEvent.LINENUMBER, LogEvent.LOCATION], '.' ∉ n := by decide +kernel
    simp only [List.forall_mem_cons] at hplain
    obtain ⟨h₁, h₂, h₃, h₄, h₅, h₆, h₇, h₈, h₉, h₁₀, h₁₁, -⟩ := hplain
    simp only [logProperties, PropertySet.set_plain h₁, PropertySet.set_plain h₂,
      PropertySet.set_plain h₃, PropertySet.set_plain h₄, PropertySet.set_plain h₅,
      PropertySet.set_plain h₆, PropertySet.set_plain h₇, PropertySet.set_plain h₈,
      PropertySet.set_plain h₉, PropertySet.set_plain h₁₀, PropertySet.setSet_plain h₁₁, ok_bind]
    exact ⟨_, rfl⟩
  obtain ⟨ps, hps⟩ := hprops
  obtain ⟨e, he⟩ := Event.constructLog_total now originator ps
  rw [logEvent, hps, ok_bind, he, ok_bind]
  split
  · exact ⟨e, rfl⟩
  · rw [Event.setRunId, Event.setProperty, PropertySet.set_plain (by decide +kernel)]
    exact ⟨_, rfl⟩

def configured (a : EventAppender) : EventTransmitter := ⟨a.broker, a.topic, a.port⟩

theorem getTransmitter_held {a : EventAppender} {t : EventTransmitter} (h : a.transmitter = some t)
    (connection : Connection) : getTransmitter connection a = (.ok (some t), a, []) := by
  obtain ⟨_, broker, port, topic, runid⟩ := a
  cases h
  rfl

theorem getTransmitter_connected {a : EventAppender} (h : a.transmitter = none) :
    getTransmitter .connected a = (.ok (some a.configured),
      { a with transmitter := some a.configured }, [.connect a.broker a.topic a.port]) := by
  obtain ⟨_, broker, port, topic, runid⟩ := a
  cases h
  rfl

theorem getTransmitter_failed {a : EventAppender} (h : a.transmitter = none)
    (hc : connection ≠ .connected) : ∃ e, getTransmitter connection a =
      (.error e, a, [.connect a.broker a.topic a.port]) := by
  obtain ⟨_, broker, port, topic, runid⟩ := a
  cases h
  -- Both failures are exceptions of `pex`, and the handler is for log4cxx's.
  cases connection with
  | connected => exact absurd rfl hc
  | refused reason => exact ⟨_, rfl⟩
  | trouble reason => exact ⟨_, rfl⟩

theorem exec_append {a a' : EventAppender} {e : Event} {t : EventTransmitter} {w : List Effect}
    (he : logEvent event originator now a.runid = .ok e)
    (ht : getTransmitter connection a = (.ok (some t), a', w)) :
    exec (.append event originator now connection publication) a =
      (publication.outcome, a', w ++ [.publish t e publication]) := by
  simp only [exec, append, bind, Action.bind, get, getThe, MonadStateOf.get, he, liftM, monadLift,
    MonadLift.monadLift, ht]
  -- No outcome is an exception that `append` handles, so the transmitter stays as it is.
  cases publication <;> rfl

theorem exec_append_failed {a : EventAppender} {e : Event} {x : Exn} {w : List Effect}
    (he : logEvent event originator now a.runid = .ok e)
    (ht : getTransmitter connection a = (.error x, a, w)) :
    exec (.append event originator now connection publication) a = (.error x, a, w) := by
  simp only [exec, append, bind, Action.bind, get, getThe, MonadStateOf.get, he, liftM, monadLift,
    MonadLift.monadLift, ht]
  simp

def Effect.isConnect : Effect → Bool
  | connect .. => true
  | publish .. => false

def Effect.isSent : Effect → Bool
  | publish _ _ .sent => true
  | _ => false

def Effect.isFailed : Effect → Bool
  | publish _ _ .sent => false
  | publish .. => true
  | connect .. => false

/-- What an append is to do whatever becomes of its attempts to connect and to publish. -/
structure Serves (connection : Connection) (publication : Publication)
    (r : Action.Round EventAppender Call Effect Exn Unit) : Prop where
  returns : r.result = .ok ()
  once : (r.effects.filter Effect.isSent).length ≤ 1
  dropped : (∃ effect ∈ r.effects, effect.isFailed) → r.after.transmitter = none
  reconnects : r.before.transmitter = none → r.effects.filter Effect.isConnect =
    [.connect r.before.broker r.before.topic r.before.port]
  publishes : r.before.transmitter = none → connection = .connected →
    ∀ event originator now, r.call = .append event originator now connection publication →
      ∃ e, logEvent event originator now r.before.runid = .ok e ∧
        .publish r.before.configured e publication ∈ r.effects

/-- An append that needs no connection, or makes one, and that publishes its event. -/
structure Smooth (connection : Connection) (publication : Publication) (a : EventAppender) :
    Prop where
  connected : a.transmitter = none → connection = .connected
  sent : publication = .sent

theorem Smooth.serves {a : EventAppender} (h : Smooth connection publication a) :
    Serves connection publication
      (Action.round exec a (.append event originator now connection publication)) := by
  obtain ⟨e, he⟩ := logEvent_total event originator now a.runid
  obtain ⟨hconnection, rfl⟩ := h
  cases ht : a.transmitter with
  | some t =>
    rw [round_eq (exec_append he (getTransmitter_held ht connection))]
    exact {
      returns := rfl
      once := le_rfl
      dropped := by simp [Effect.isFailed]
      reconnects := fun hnone ↦ absurd (ht.symm.trans hnone) (by simp)
      publishes := fun hnone ↦ absurd (ht.symm.trans hnone) (by simp) }
  | none =>
    obtain rfl := hconnection ht
    rw [round_eq (exec_append he (getTransmitter_connected ht))]
    exact {
      returns := rfl
      once := le_rfl
      dropped := by simp [Effect.isFailed]
      reconnects := fun _ ↦ rfl
      publishes := fun _ _ event' originator' now' hcall ↦ by
        cases hcall
        exact ⟨e, he, List.mem_append_right _ List.mem_cons_self⟩ }

theorem Smooth.of_returns {a : EventAppender}
    (h : (Action.round exec a (.append event originator now connection publication)).result =
      .ok ()) : Smooth connection publication a := by
  obtain ⟨e, he⟩ := logEvent_total event originator now a.runid
  have hsent : ∀ {t a' w}, getTransmitter connection a = (.ok (some t), a', w) →
      publication = .sent := by
    intro t a' w ht
    rw [round_eq (exec_append he ht)] at h
    cases publication with
    | sent => rfl
    | unmarshallable msg => cases h
    | broken msg => cases h
  cases ht : a.transmitter with
  | some t =>
    refine ⟨fun hnone ↦ ?_, hsent (getTransmitter_held ht connection)⟩
    cases ht.symm.trans hnone
  | none =>
    by_cases hc : connection = .connected
    · subst hc
      exact ⟨fun _ ↦ rfl, hsent (getTransmitter_connected ht)⟩
    · obtain ⟨x, hx⟩ := getTransmitter_failed ht hc
      rw [round_eq (exec_append_failed he hx)] at h
      cases h

/-- What holds of every append in the history that the calls make of a new appender. -/
def EachAppend (p : Connection → Publication →
    Action.Round EventAppender Call Effect Exn Unit → Prop) (calls : List Call) : Prop :=
  ∀ r ∈ history exec new calls, ∀ event originator now connection publication,
    r.call = .append event originator now connection publication → p connection publication r

/-- In every history, the appends serve exactly if each of them is smooth in the state that the
calls before it led to. -/
theorem appends_serve_iff (calls : List Call) :
    EachAppend Serves calls ↔ EachAppend (fun c p r ↦ Smooth c p r.before) calls := by
  refine forall₂_congr fun r hr ↦ forall_congr' fun event ↦ forall_congr' fun originator ↦
    forall_congr' fun now ↦ forall₂_congr fun connection publication ↦ forall_congr' fun hcall ↦ ?_
  have heq := eq_round_of_mem hr
  rw [hcall] at heq
  constructor
  · intro hserves
    have hreturns := hserves.returns
    rw [heq] at hreturns
    exact .of_returns hreturns
  · intro hsmooth
    rw [heq]
    exact hsmooth.serves

/-- The first message that is logged, when the broker refuses the connection. -/
def refused : Call :=
  .append ⟨lit "root", 20000, lit "started", 0, lit "main", [], [], [], 0⟩ ⟨lit "host", 1, 0⟩ 0
    (.refused (lit "Connection refused")) .sent

theorem refused_throws : ¬ EachAppend Serves [refused] := by
  intro h
  have hserves := h (Action.round exec new refused) List.mem_cons_self _ _ _ _ _ rfl
  have hsmooth := Smooth.of_returns hserves.returns
  cases hsmooth.connected rfl

end CtrlEvents.EventAppender
