import CtrlEvents.System.Logging

namespace CtrlEvents.EventAppender

open CtrlEvents.Action

def Call.sets (upper lower : Str) : Call → Option Str
  | setOption option value => if equalsIgnoreCase option upper lower then some value else none
  | _ => none

/-- How a connection ends that the call attempts. -/
def Call.connection : Call → Option Connection
  | setOption .. => none
  | activateOptions connection => some connection
  | append _ _ _ connection _ => some connection

def lastSet (upper lower : Str) (calls : List Call) : Option Str :=
  (calls.filterMap (Call.sets upper lower)).getLast?

def settings (calls : List Call) : EventTransmitter where
  hostName := (lastSet (lit "BROKER") (lit "broker") calls).getD []
  topicName := (lastSet (lit "TOPIC") (lit "topic") calls).getD LogEvent.LOGGING_TOPIC
  hostPort := ((lastSet (lit "PORT") (lit "port") calls).map atoi).getD DEFAULTHOSTPORT

theorem lastSet_snoc (upper lower : Str) (calls : List Call) (c : Call) :
    lastSet upper lower (calls ++ [c]) =
      (c.sets upper lower).or (lastSet upper lower calls) := by
  rw [lastSet, List.filterMap_append, List.getLast?_append]
  cases h : c.sets upper lower <;> simp [lastSet, h]

theorem equalsIgnoreCase_length {s upper lower : Str} (h : equalsIgnoreCase s upper lower) :
    s.length = upper.length := by
  fun_induction equalsIgnoreCase s upper lower with
  | case1 => rfl
  | case2 c s u upper l lower ih =>
    rw [Bool.and_eq_true] at h
    rw [List.length_cons, List.length_cons, ih h.2]
  | case3 => cases h

theorem equalsIgnoreCase_head {s upper lower : Str} (h : equalsIgnoreCase s upper lower) :
    s.head? = upper.head? ∨ s.head? = lower.head? := by
  fun_induction equalsIgnoreCase s upper lower with
  | case1 => exact .inl rfl
  | case2 c s u upper l lower ih =>
    rw [Bool.and_eq_true] at h
    simpa using h.1
  | case3 => cases h

/-- No text names two options: their names differ in length, or in the first letter. -/
theorem options_exclusive (option : Str) :
    (equalsIgnoreCase option (lit "BROKER") (lit "broker") →
      ¬equalsIgnoreCase option (lit "PORT") (lit "port") ∧
      ¬equalsIgnoreCase option (lit "TOPIC") (lit "topic") ∧
      ¬equalsIgnoreCase option (lit "RUNID") (lit "runid")) ∧
    (equalsIgnoreCase option (lit "PORT") (lit "port") →
      ¬equalsIgnoreCase option (lit "TOPIC") (lit "topic") ∧
      ¬equalsIgnoreCase option (lit "RUNID") (lit "runid")) ∧
    (equalsIgnoreCase option (lit "TOPIC") (lit "topic") →
      ¬equalsIgnoreCase option (lit "RUNID") (lit "runid")) := by
  have hlength : ∀ {upper lower upper' lower' : Str}, upper.length ≠ upper'.length →
      equalsIgnoreCase option upper lower → ¬equalsIgnoreCase option upper' lower' :=
    fun hne h h' ↦ hne ((equalsIgnoreCase_length h).symm.trans (equalsIgnoreCase_length h'))
  refine ⟨fun h ↦ ⟨?_, ?_, ?_⟩, fun h ↦ ⟨?_, ?_⟩, fun h h' ↦ ?_⟩
  · exact hlength (by simp [lit]) h
  · exact hlength (by simp [lit]) h
  · exact hlength (by simp [lit]) h
  · exact hlength (by simp [lit]) h
  · exact hlength (by simp [lit]) h
  · have hne : ∀ x ∈ [(lit "TOPIC").head?, (lit "topic").head?],
        ∀ y ∈ [(lit "RUNID").head?, (lit "runid").head?], x ≠ y := by simp [lit]
    exact hne _ (List.mem_pair.2 (equalsIgnoreCase_head h)) _
      (List.mem_pair.2 (equalsIgnoreCase_head h')) rfl

structure Adopts (c : Call) (a a' : EventAppender) : Prop where
  broker : a'.broker = (c.sets (lit "BROKER") (lit "broker")).getD a.broker
  port : a'.port = ((c.sets (lit "PORT") (lit "port")).map atoi).getD a.port
  topic : a'.topic = (c.sets (lit "TOPIC") (lit "topic")).getD a.topic
  runid : a'.runid = (c.sets (lit "RUNID") (lit "runid")).getD a.runid

theorem setOption_adopts (option value : Str) (a : EventAppender) :
    Adopts (.setOption option value) a (Action.round exec a (.setOption option value)).after ∧
      (Action.round exec a (.setOption option value)).after.transmitter = a.transmitter ∧
      (Action.round exec a (.setOption option value)).effects = [] := by
  obtain ⟨hbroker, hport, htopic⟩ := options_exclusive option
  by_cases hb : equalsIgnoreCase option (lit "BROKER") (lit "broker")
  · obtain ⟨hp, ht, hr⟩ := hbroker hb
    have hexec : exec (.setOption option value) a = (.ok (), { a with broker := value }, []) := by
      simp only [exec, setOption, hb, if_true]
      rfl
    rw [Action.round_eq hexec]
    refine ⟨⟨?_, ?_, ?_, ?_⟩, rfl, rfl⟩ <;> simp [Call.sets, hb, hp, ht, hr]
  by_cases hp : equalsIgnoreCase option (lit "PORT") (lit "port")
  · obtain ⟨ht, hr⟩ := hport hp
    have hexec : exec (.setOption option value) a =
        (.ok (), { a with port := atoi value }, []) := by
      simp only [exec, setOption, hb, hp, if_true]
      rfl
    rw [Action.round_eq hexec]
    refine ⟨⟨?_, ?_, ?_, ?_⟩, rfl, rfl⟩ <;> simp [Call.sets, hb, hp, ht, hr]
  by_cases ht : equalsIgnoreCase option (lit "TOPIC") (lit "topic")
  · have hr := htopic ht
    have hexec : exec (.setOption option value) a = (.ok (), { a with topic := value }, []) := by
      simp only [exec, setOption, hb, hp, ht, if_true]
      rfl
    rw [Action.round_eq hexec]
    refine ⟨⟨?_, ?_, ?_, ?_⟩, rfl, rfl⟩ <;> simp [Call.sets, hb, hp, ht, hr]
  by_cases hr : equalsIgnoreCase option (lit "RUNID") (lit "runid")
  · have hexec : exec (.setOption option value) a = (.ok (), { a with runid := value }, []) := by
      simp only [exec, setOption, hb, hp, ht, hr, if_true]
      rfl
    rw [Action.round_eq hexec]
    refine ⟨⟨?_, ?_, ?_, ?_⟩, rfl, rfl⟩ <;> simp [Call.sets, hb, hp, ht, hr]
  · have hexec : exec (.setOption option value) a = (.ok (), a, []) := by
      simp only [exec, setOption, hb, hp, ht, hr]
      rfl
    rw [Action.round_eq hexec]
    refine ⟨⟨?_, ?_, ?_, ?_⟩, rfl, rfl⟩ <;> simp [Call.sets, hb, hp, ht, hr]

theorem adopts_refl {c : Call} (h : ∀ upper lower, c.sets upper lower = none) (a : EventAppender)
    (t : Option EventTransmitter) : Adopts c a { a with transmitter := t } := by
  refine ⟨?_, ?_, ?_, ?_⟩ <;> rw [h] <;> rfl

/-- What a call does about the connection: nothing, or it attempts to connect with the options as
they are, and then holds the new transmitter, if that succeeds, or none. -/
structure Connects (r : Action.Round EventAppender Call Effect Exn Unit) : Prop where
  adopts : Adopts r.call r.before r.after
  attempts : (r.after.transmitter = r.before.transmitter ∧ r.effects.filter Effect.isConnect = []) ∨
    (r.effects.filter Effect.isConnect =
        [.connect r.before.broker r.before.topic r.before.port] ∧
      (r.after.transmitter = none ∨
        r.call.connection = some .connected ∧ r.after.transmitter = some r.before.configured))

theorem activateOptions_failed {connection : Connection} {a : EventAppender} (hb : a.broker ≠ [])
    (hc : connection ≠ .connected) : exec (.activateOptions connection) a =
      (.ok (), { a with transmitter := none }, [.connect a.broker a.topic a.port]) := by
  simp only [exec, activateOptions, bind, Action.bind, get, getThe, MonadStateOf.get, hb, if_false]
  cases connection with
  | connected => exact absurd rfl hc
  | refused reason => rfl
  | trouble reason => rfl

theorem exec_activateOptions_cases (connection : Connection) (a : EventAppender) :
    let r := Action.round exec a (.activateOptions connection)
    (r.after = a ∧ r.effects = []) ∨
      ∃ t, (t = none ∨ connection = .connected ∧ t = some a.configured) ∧
        r.after = { a with transmitter := t } ∧
        r.effects = [.connect a.broker a.topic a.port] := by
  intro r
  by_cases hb : a.broker = []
  · have hexec : exec (.activateOptions connection) a = (.ok (), a, []) := by
      simp only [exec, activateOptions, bind, Action.bind, get, getThe, MonadStateOf.get, hb,
        if_true]
      rfl
    have hr : r = _ := round_eq hexec
    exact .inl ⟨by rw [hr], by rw [hr]⟩
  by_cases hc : connection = .connected
  · subst hc
    have hexec : exec (.activateOptions .connected) a =
        (.ok (), { a with transmitter := some a.configured },
          [.connect a.broker a.topic a.port]) := by
      simp only [exec, activateOptions, bind, Action.bind, get, getThe, MonadStateOf.get, hb,
        if_false]
      rfl
    have hr : r = _ := round_eq hexec
    exact .inr ⟨_, .inr ⟨rfl, rfl⟩, by rw [hr], by rw [hr]⟩
  · have hr : r = _ := round_eq (activateOptions_failed hb hc)
    exact .inr ⟨_, .inl rfl, by rw [hr], by rw [hr]⟩

theorem connects_activateOptions (connection : Connection) (a : EventAppender) :
    Connects (Action.round exec a (.activateOptions connection)) := by
  have hsets : ∀ upper lower, (Call.activateOptions connection).sets upper lower = none :=
    fun _ _ ↦ rfl
  rcases exec_activateOptions_cases connection a with
    ⟨hafter, heffects⟩ | ⟨t, ht, hafter, heffects⟩
  · refine ⟨?_, .inl ⟨by rw [hafter]; rfl, by rw [heffects]; rfl⟩⟩
    rw [hafter]
    exact adopts_refl hsets a a.transmitter
  · refine ⟨?_, .inr ⟨by rw [heffects]; rfl, ?_⟩⟩ <;> rw [hafter]
    · exact adopts_refl hsets a t
    · exact ht.imp_right (And.imp_left (congrArg some))

theorem connects (c : Call) (a : EventAppender) : Connects (Action.round exec a c) := by
  cases c with
  | setOption option value =>
    obtain ⟨hadopts, htransmitter, heffects⟩ := setOption_adopts option value a
    refine ⟨hadopts, .inl ⟨htransmitter, ?_⟩⟩
    rw [heffects]
    rfl
  | activateOptions connection => exact connects_activateOptions connection a
  | append event originator now connection publication =>
    have hsets : ∀ upper lower,
        (Call.append event originator now connection publication).sets upper lower = none :=
      fun _ _ ↦ rfl
    rcases exec_append_cases a event originator now connection publication with
      ⟨t, -, hafter, heffects⟩ | ⟨-, hc, hafter, heffects⟩ | ⟨hnone, -, hafter, heffects⟩
    · refine ⟨?_, .inl ⟨by rw [hafter]; rfl, by rw [heffects]; rfl⟩⟩
      rw [hafter]
      exact adopts_refl hsets a a.transmitter
    · refine ⟨?_, .inr ⟨by rw [heffects]; rfl, .inr ⟨congrArg some hc, by rw [hafter]; rfl⟩⟩⟩
      rw [hafter]
      exact adopts_refl hsets a _
    · refine ⟨?_, .inr ⟨by rw [heffects]; rfl, .inl (by rw [hafter]; exact hnone)⟩⟩
      rw [hafter]
      exact adopts_refl hsets a a.transmitter

theorem configured_final (calls : List Call) :
    (final exec new calls).configured = settings calls ∧
      (final exec new calls).runid = (lastSet (lit "RUNID") (lit "runid") calls).getD [] := by
  have hnil : ∀ upper lower, lastSet upper lower [] = none := fun _ _ ↦ rfl
  refine final_rule (motive := fun calls (a : EventAppender) ↦ a.configured = settings calls ∧
    a.runid = (lastSet (lit "RUNID") (lit "runid") calls).getD []) ?_ ?_ calls
  · simp only [settings, hnil]
    exact ⟨rfl, rfl⟩
  rintro calls c ⟨hconfigured, hrunid⟩
  generalize final exec new calls = a at hconfigured hrunid ⊢
  obtain ⟨hbroker, hport, htopic, hrun⟩ := (connects c a).adopts
  dsimp only [Action.round] at hbroker hport htopic hrun ⊢
  simp only [configured, settings, EventTransmitter.mk.injEq] at hconfigured ⊢
  obtain ⟨hb, ht, hp⟩ := hconfigured
  simp only [lastSet_snoc, hbroker, hport, htopic, hrun, hb, ht, hp, hrunid]
  refine ⟨⟨?_, ?_, ?_⟩, ?_⟩
  · cases c.sets (lit "BROKER") (lit "broker") <;> rfl
  · cases c.sets (lit "TOPIC") (lit "topic") <;> rfl
  · cases c.sets (lit "PORT") (lit "port") <;> rfl
  · cases c.sets (lit "RUNID") (lit "runid") <;> rfl

/-- A transmitter was connected by a call, with success and with the options that were set before
it, and has been held since then. -/
def ConnectedBy (calls : List Call) (t : EventTransmitter) : Prop :=
  ∃ before c after, calls = before ++ c :: after ∧ t = settings before ∧
    c.connection = some .connected ∧
    (Action.round exec (final exec new before) c).effects.filter Effect.isConnect =
      [.connect t.hostName t.topicName t.hostPort] ∧
    (Action.round exec (final exec new before) c).after.transmitter = some t ∧
    ∀ r ∈ history exec (final exec new (before ++ [c])) after,
      r.effects.filter Effect.isConnect = [] ∧ r.after.transmitter = some t

theorem connectedBy_final {calls : List Call} {t : EventTransmitter}
    (ht : (final exec new calls).transmitter = some t) : ConnectedBy calls t := by
  revert t
  refine final_rule (motive := fun calls (a : EventAppender) ↦
    ∀ {t}, a.transmitter = some t → ConnectedBy calls t) (fun h ↦ by cases h) ?_ calls
  intro calls c ih t ht
  have hconfigured := (configured_final calls).1
  rcases (connects c (final exec new calls)).attempts with ⟨hsame, hnone⟩ | ⟨hattempt, hafter⟩
  · obtain ⟨before, c', after, rfl, rfl, hc, hconnect, hmade, hquiet⟩ := ih (hsame.symm.trans ht)
    refine ⟨before, c', after ++ [c], by simp, rfl, hc, hconnect, hmade, fun r hr ↦ ?_⟩
    rw [history_append, ← final_append, List.append_assoc, List.singleton_append,
      List.mem_append] at hr
    rcases hr with hr | hr
    · exact hquiet r hr
    · rw [List.mem_singleton.1 hr]
      exact ⟨hnone, ht⟩
  · rcases hafter with hafter | ⟨hc, hafter⟩
    · cases hafter.symm.trans ht
    · obtain rfl : settings calls = t :=
        hconfigured.symm.trans (Option.some_inj.1 (hafter.symm.trans ht))
      refine ⟨calls, c, [], rfl, rfl, hc, ?_, ht, fun r hr ↦ absurd hr List.not_mem_nil⟩
      rw [hattempt, ← hconfigured]
      rfl

/-- Whatever calls were made before, an append publishes the event of its record, once, under the
run id that was set last, through the connection that is held: options that were set after it was
made are not in force yet. It publishes nothing where it holds no connection and can make none. -/
theorem appends_as_configured (earlier : List Call) (event : LoggingEvent)
    (originator : LocationId) (now : Int64) (connection : Connection) (publication : Publication) :
    let c := Call.append event originator now connection publication
    let r := Action.round exec (final exec new earlier) c
    ∃ e, logEvent event originator now ((lastSet (lit "RUNID") (lit "runid") earlier).getD []) =
        .ok e ∧
      ((r.effects.filter (!·.isConnect) = [] ∧ r.before.transmitter = none ∧
          connection ≠ .connected) ∨
        ∃ t, r.effects.filter (!·.isConnect) = [.publish t e publication] ∧
          ConnectedBy (earlier ++ [c]) t) := by
  intro c r
  have hlast : final exec new (earlier ++ [c]) = r.after := final_append ..
  rw [← (configured_final earlier).2]
  refine ⟨_, logEvent_eq .., ?_⟩
  rcases exec_append_cases (final exec new earlier) event originator now connection publication with
    ⟨t, ht, hafter, heffects⟩ | ⟨-, -, hafter, heffects⟩ | ⟨hnone, hc, -, heffects⟩
  · refine .inr ⟨t, by rw [heffects]; rfl, connectedBy_final ?_⟩
    rw [hlast, hafter, ht]
  · refine .inr ⟨_, by rw [heffects]; rfl, connectedBy_final ?_⟩
    rw [hlast, hafter]
  · exact .inl ⟨by rw [heffects]; rfl, hnone, hc⟩

end CtrlEvents.EventAppender
