import CtrlEvents.System.Network
import CtrlEvents.System.Options

namespace CtrlEvents

open CtrlEvents.Action

theorem Transmitter.publishEvent_ok {L : Libraries} {transmitter : Transmitter} {event : Event}
    {names : List Str} {pubtime : Int64} {session : Session} {msg : TextMessage}
    (h : transmitter.publishEvent L event names pubtime session = .ok msg) :
    event.publish L names transmitter pubtime = .ok msg := by
  obtain ⟨-, -, h⟩ := Fallible.bind_eq_ok.1 h
  obtain ⟨msg', hmsg, h⟩ := Fallible.bind_eq_ok.1 h
  obtain ⟨-, -, h⟩ := Fallible.bind_eq_ok.1 h
  cases h
  exact hmsg

theorem Transmitter.publishEvent_working {L : Libraries} {transmitter : Transmitter} {event : Event}
    {names : List Str} {pubtime : Int64} {msg : TextMessage}
    (h : event.publish L names transmitter pubtime = .ok msg) :
    transmitter.publishEvent L event names pubtime .working = .ok msg := by
  simp only [publishEvent, Session.working, Except.mapError, h]
  rfl

namespace Network

variable (L : Libraries)

theorem logs_send (posting : Posting) : Logs Network.sent (send posting) := fun _ ↦ rfl

theorem logs_return {α : Type} (a : α) : Logs Network.sent (pure a : Run α) :=
  .of_silent (fun _ ↦ rfl) fun _ ↦ rfl

theorem logs_transmit (transmitter : Transmitter) (event : Event) (stamps : Stamps)
    (session : Session) : Logs Network.sent (transmit L transmitter event stamps session) :=
  .bind (.of_silent (fun _ ↦ rfl) fun _ ↦ rfl) fun _ ↦ logs_send _

theorem logs_onRegistry {α : Type} (process : ℕ) {carry : EventSystem.Effect → Run Unit}
    (hcarry : ∀ w, Logs Network.sent (carry w)) (x : EventSystem.Run α) :
    Logs Network.sent (onRegistry process carry x) := by
  refine .handle (fun s r ↦ ?_) hcarry x
  rfl

theorem logs_onAppender {α : Type} (i : ℕ) {carry : EventAppender.Effect → Run Unit}
    (hcarry : ∀ w, Logs Network.sent (carry w)) (x : EventAppender.Run α) :
    Logs Network.sent (onAppender i carry x) := by
  refine .handle (fun s a ↦ ?_) hcarry x
  rfl

theorem receive_spec (answer : Answer) (s : Network) : ∃ reception,
    receive answer s = (.ok reception, s, []) ∧
      ∀ m, reception = .message m → ∃ posting ∈ s.sent, posting.message = m := by
  cases answer with
  | message i =>
    simp only [receive, bind, Action.bind, get, getThe, MonadStateOf.get]
    cases hi : s.sent[i]? with
    | none => exact ⟨.nothing, rfl, by simp⟩
    | some posting =>
      refine ⟨.message posting.message, rfl, fun m hm ↦ ?_⟩
      cases hm
      exact ⟨posting, List.mem_of_getElem? hi, rfl⟩
  | nothing => exact ⟨.nothing, rfl, by simp⟩
  | broken reason => exact ⟨.broken reason, rfl, by simp⟩
  | failed reason => exact ⟨.failed reason, rfl, by simp⟩

theorem logs_receive (answer : Answer) : Logs Network.sent (receive answer) := by
  intro s
  obtain ⟨reception, hreceive, -⟩ := receive_spec answer s
  rw [hreceive]
  exact (List.append_nil _).symm

/-- Every call adds to what was sent the messages that it sends. -/
theorem logs_exec (call : Call) : Logs Network.sent (exec L call) := by
  cases call with
  | create process call h =>
    exact (logs_onRegistry process (fun _ ↦ logs_return _) _).bind fun _ ↦ logs_return _
  | publishEvent process name event stamps session =>
    refine (logs_onRegistry process (fun w ↦ ?_) _).bind fun _ ↦ logs_return _
    cases w with
    | publish sender event => exact logs_transmit L _ _ _ _
    | receive listener timeout => exact logs_return _
  | receiveEvent process name timeout answer =>
    exact (logs_onRegistry process (fun _ ↦ logs_return _) _).bind fun _ ↦ logs_receive answer
  | log i call stamps =>
    refine (logs_onAppender i (fun w ↦ ?_) _).bind fun _ ↦ logs_return _
    obtain _ | ⟨t, event, _ | _ | _⟩ := w
    · exact logs_return _
    · exact logs_transmit L _ _ _ _
    · exact logs_return _
    · exact logs_return _
  | foreign posting => exact (logs_send posting).bind fun _ ↦ logs_return _

abbrev Round := Action.Round Network Call Posting Exn Reception

theorem sent_final (calls : List Call) : (final (exec L) ∅ calls).sent =
    (history (exec L) ∅ calls).flatMap (·.effects) :=
  log_final (logs_exec L) ∅ calls

variable {L} {s : Network} {transmitter : Transmitter} {event : Event} {stamps : Stamps}
  {session : Session} {posting : Posting}

theorem transmit_ok {msg : TextMessage} (h : transmitter.publishEvent L event stamps.names
    stamps.pubtime session = .ok msg) :
    transmit L transmitter event stamps session s =
      (.ok (), { s with sent := s.sent ++
          [⟨transmitter, .text { msg with timestamp := stamps.timestamp }⟩] },
        [⟨transmitter, .text { msg with timestamp := stamps.timestamp }⟩]) := by
  simp only [transmit, h]
  rfl

theorem mem_transmit (h : posting ∈ (transmit L transmitter event stamps session s).2.2) :
    ∃ msg, event.publish L stamps.names transmitter stamps.pubtime = .ok msg ∧
      posting = ⟨transmitter, .text { msg with timestamp := stamps.timestamp }⟩ := by
  cases hmsg : transmitter.publishEvent L event stamps.names stamps.pubtime session with
  | error e =>
    simp only [transmit, hmsg] at h
    cases h
  | ok msg =>
    rw [transmit_ok hmsg, List.mem_singleton] at h
    exact ⟨msg, Transmitter.publishEvent_ok hmsg, h⟩

theorem onRegistry_eq {α : Type} {process : ℕ} {carry : EventSystem.Effect → Run Unit}
    {x : EventSystem.Run α} {a : Except Exn α} {r : EventSystem} {w : List EventSystem.Effect}
    (h : x (s.registry process) = (a, r, w)) :
    onRegistry process carry x s = (do w.forM carry; a : Run α)
      { s with registry := Function.update s.registry process r } := by
  rw [onRegistry]
  exact handle_eq h

theorem onAppender_eq {α : Type} {i : ℕ} {carry : EventAppender.Effect → Run Unit}
    {x : EventAppender.Run α} {a : Except Exn α} {r : EventAppender} {w : List EventAppender.Effect}
    (h : x (s.appender i) = (a, r, w)) :
    onAppender i carry x s = (do w.forM carry; a : Run α)
      { s with appender := Function.update s.appender i r } := by
  rw [onAppender]
  exact handle_eq h

theorem exec_log_connected {i : ℕ} {record : LoggingEvent} {originator : LocationId} {now : Int64}
    {msg : TextMessage} (h : (s.appender i).transmitter = none)
    (hmsg : (EventAppender.logged record originator now (s.appender i).runid).publish L stamps.names
      (.topic (s.appender i).topic) stamps.pubtime = .ok msg) :
    ∃ s', exec L (.log i (.append record originator now .connected .sent) stamps) s =
        (.ok .nothing, s', [⟨.topic (s.appender i).topic,
          .text { msg with timestamp := stamps.timestamp }⟩]) ∧
      s'.registry = s.registry := by
  have happend : EventAppender.exec (.append record originator now .connected .sent)
      (s.appender i) = _ := EventAppender.exec_append
    (EventAppender.logEvent_eq record originator now _) (EventAppender.getTransmitter_connected h)
  have hlog : ∃ s', log L i (.append record originator now .connected .sent) stamps s =
      (.ok (), s', [⟨.topic (s.appender i).topic,
        .text { msg with timestamp := stamps.timestamp }⟩]) ∧ s'.registry = s.registry := by
    rw [log, onAppender_eq happend]
    simp only [List.singleton_append, List.forM, bind, Action.bind, EventAppender.configured, pure,
      Action.pure, transmit_ok (Transmitter.publishEvent_working hmsg)]
    exact ⟨_, rfl, rfl⟩
  obtain ⟨s', hlog, hregistry⟩ := hlog
  exact ⟨s', bind_ok hlog _, hregistry⟩

variable (L) in
/-- What a call can send: an event, by a sender that is registered under the name; the event of a
log record; or whatever another program sends. -/
inductive Sends (s : Network) : Call → Posting → Prop
  | published {process : ℕ} {name : Str} {event : Event} {stamps : Stamps} {session : Session}
      {sender : Sender} {msg : TextMessage}
      (hfind : EventSystem.sending.find (s.registry process) name = some sender)
      (hmsg : event.publish L stamps.names sender.toTransmitter stamps.pubtime = .ok msg) :
      Sends s (.publishEvent process name event stamps session)
        ⟨sender.toTransmitter, .text { msg with timestamp := stamps.timestamp }⟩
  | logged {i : ℕ} {record : LoggingEvent} {originator : LocationId} {now : Int64}
      {connection : Connection} {publication : Publication} {stamps : Stamps}
      {t : EventTransmitter} {msg : TextMessage}
      (hmsg : (EventAppender.logged record originator now (s.appender i).runid).publish L
        stamps.names (.topic t.topicName) stamps.pubtime = .ok msg) :
      Sends s (.log i (.append record originator now connection publication) stamps)
        ⟨.topic t.topicName, .text { msg with timestamp := stamps.timestamp }⟩
  | foreign (posting : Posting) : Sends s (.foreign posting) posting

theorem publishEvent_sends {process : ℕ} {name : Str}
    (h : posting ∈ (publishEvent L process name event stamps session s).2.2) :
    Sends L s (.publishEvent process name event stamps session) posting := by
  obtain ⟨w, hw, s', h⟩ := mem_effects_handle h
  cases hfind : EventSystem.sending.find (s.registry process) name with
  | none =>
    rw [EventSystem.publishEvent_none hfind] at hw
    cases hw
  | some sender =>
    rw [EventSystem.publishEvent_some hfind, List.mem_singleton] at hw
    subst hw
    obtain ⟨msg, hmsg, rfl⟩ := mem_transmit h
    exact .published hfind hmsg

theorem log_sends {i : ℕ} {call : EventAppender.Call}
    (h : posting ∈ (log L i call stamps s).2.2) : Sends L s (.log i call stamps) posting := by
  obtain ⟨w, hw, s', h⟩ := mem_effects_handle h
  have hw : w ∈ (Action.round EventAppender.exec (s.appender i) call).effects := hw
  cases call with
  | setOption option value =>
    rw [(EventAppender.setOption_adopts option value (s.appender i)).2.2] at hw
    cases hw
  | activateOptions connection =>
    rcases EventAppender.exec_activateOptions_cases connection (s.appender i) with
      ⟨-, heffects⟩ | ⟨-, -, -, heffects⟩
    · rw [heffects] at hw
      cases hw
    · rw [heffects, List.mem_singleton] at hw
      subst hw
      cases h
  | append record originator now connection publication =>
    rcases EventAppender.mem_effects_append hw with rfl | ⟨t, rfl⟩
    · cases h
    · cases publication with
      | sent =>
        obtain ⟨msg, hmsg, rfl⟩ := mem_transmit h
        exact .logged hmsg
      | unmarshallable msg => cases h
      | broken msg => cases h

theorem not_mem_onRegistry {α : Type} {process : ℕ} {x : EventSystem.Run α} :
    posting ∉ (onRegistry process (fun _ ↦ return) x s).2.2 := by
  intro h
  rw [onRegistry] at h
  obtain ⟨w, hw, s', h⟩ := mem_effects_handle h
  cases h

/-- What a round has sent, its call can send. -/
theorem sends_of_mem {call : Call} (h : posting ∈ (Action.round (exec L) s call).effects) :
    Sends L s call posting := by
  cases call with
  | create process call hcreates =>
    have hmem : posting ∈ (onRegistry process (fun _ ↦ return) (EventSystem.exec call) s).2.2 :=
      mem_effects_bind_pure h
    exact absurd hmem not_mem_onRegistry
  | publishEvent process name event stamps session =>
    exact publishEvent_sends (mem_effects_bind_pure h)
  | receiveEvent process name timeout answer =>
    rcases mem_effects_bind h with h | ⟨-, s', h⟩
    · exact absurd h not_mem_onRegistry
    · obtain ⟨reception, hreceive, -⟩ := receive_spec answer s'
      rw [hreceive] at h
      cases h
  | log i call stamps => exact log_sends (mem_effects_bind_pure h)
  | foreign posting =>
    obtain rfl := List.mem_singleton.1 (mem_effects_bind_pure h)
    exact .foreign _

section Receive

variable {process : ℕ} {name : Str} {timeout : Int64} {answer : Answer}

theorem exec_receive_none (h : EventSystem.receiving.find (s.registry process) name = none) :
    exec L (.receiveEvent process name timeout answer) s =
      (.error (EventSystem.notRegistered name), s, []) := by
  have hrun := EventSystem.receiveEvent_none h timeout (.ok none)
  have hregistry : onRegistry process (fun _ ↦ return)
      (EventSystem.receiveEvent name timeout (.ok none)) s =
        (.error (EventSystem.notRegistered name), s, []) := by
    rw [onRegistry_eq hrun, Function.update_eq_self]
    rfl
  rw [exec, receiveEvent, bind_error hregistry]

theorem exec_receive_some {listener : Listener}
    (h : EventSystem.receiving.find (s.registry process) name = some listener) :
    exec L (.receiveEvent process name timeout answer) s = receive answer s := by
  have hrun := EventSystem.receiveEvent_some h timeout (.ok none)
  have hregistry : onRegistry process (fun _ ↦ return)
      (EventSystem.receiveEvent name timeout (.ok none)) s = (.ok none, s, []) := by
    rw [onRegistry_eq hrun, Function.update_eq_self]
    rfl
  rw [exec, receiveEvent, bind_ok hregistry]
  rfl

theorem exec_receive_sent {listener : Listener} {i : ℕ}
    (h : EventSystem.receiving.find (s.registry process) name = some listener)
    (hi : s.sent[i]? = some posting) : exec L (.receiveEvent process name timeout (.message i)) s =
      (.ok (.message posting.message), s, []) := by
  rw [exec_receive_some h]
  simp only [receive, bind, Action.bind, get, getThe, MonadStateOf.get, hi]
  rfl

/-- A message that is received was sent, and the listener is registered under the name. -/
theorem receiveEvent_message {m : Message}
    (h : (Action.round (exec L) s (.receiveEvent process name timeout answer)).result =
      .ok (.message m)) :
    (∃ listener, EventSystem.receiving.find (s.registry process) name = some listener) ∧
      ∃ posting ∈ s.sent, posting.message = m := by
  cases hfind : EventSystem.receiving.find (s.registry process) name with
  | none =>
    rw [round_eq (exec_receive_none hfind)] at h
    cases h
  | some listener =>
    refine ⟨⟨listener, rfl⟩, ?_⟩
    obtain ⟨reception, hreceive, hposting⟩ := receive_spec answer s
    rw [round_eq ((exec_receive_some hfind).trans hreceive)] at h
    cases h
    exact hposting m rfl

end Receive

end Network

end CtrlEvents
