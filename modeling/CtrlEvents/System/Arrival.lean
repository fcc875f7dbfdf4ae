import CtrlEvents.System.Messaging

namespace CtrlEvents.Network

open CtrlEvents.Action Event Outcome

variable {L : Libraries}

theorem receiveEvent_settles {C : Cms} {msg : TextMessage} {e : Event}
    (h : Settles (createEvent L C · msg) (ret e)) :
    Settles (Reception.receiveEvent L C · (.message (.text msg))) (ret (some e)) :=
  h.bind (settles_const _)

/-- Who sent a message, and what is received of it. An event is received as its sender published it,
and can be published again; a log record is received with all that was logged. -/
inductive Origin (L : Libraries) (C : Cms) (r : Round) : Posting → Prop
  | published {publisher : ℕ} {name : Str} {event : Event} {stamps : Stamps} {session : Session}
      {sender : Sender} {m : Message}
      (hcall : r.call = .publishEvent publisher name event stamps session)
      (hsender : sender ∈ (r.before.registry publisher).senders)
      (hname : sender.getDestinationName = name)
      (hreceived : event.Proper → event.getCustomPropertySet.Lists stamps.names →
        ∃ e', Settles (Reception.receiveEvent L C · (.message m)) (ret (some e')) ∧ e'.Proper ∧
          Received event sender.toTransmitter stamps.pubtime e') :
      Origin L C r ⟨sender.toTransmitter, m⟩
  | logged {i : ℕ} {record : LoggingEvent} {originator : LocationId} {now : Int64}
      {connection : Connection} {publication : Publication} {stamps : Stamps} {topic : Str}
      {m : Message}
      (hcall : r.call = .log i (.append record originator now connection publication) stamps)
      (hreceived : ∀ e, EventAppender.logEvent record originator now
          (r.before.appender i).runid = .ok e → e.getCustomPropertySet.Lists stamps.names →
        ∃ e', Settles (Reception.receiveEvent L C · (.message m)) (ret (some e')) ∧
          EventAppender.Logged record originator now (r.before.appender i).runid topic
            stamps.pubtime e') :
      Origin L C r ⟨.topic topic, m⟩
  | foreign {posting : Posting} (hcall : r.call = .foreign posting) : Origin L C r posting

theorem Sends.origin {s : Network} {call : Call} {posting : Posting} (h : Sends L s call posting)
    (C : Cms) : Origin L C (Action.round (exec L) s call) posting := by
  cases h with
  | published hfind hmsg =>
    obtain ⟨hsender, hname⟩ := EventSystem.Side.mem_of_find hfind
    refine .published rfl hsender hname fun hproper hnames ↦ ?_
    obtain ⟨e', hsettles, he', hreceived⟩ := hproper.received L C hnames hmsg _
    exact ⟨e', receiveEvent_settles hsettles, he', hreceived⟩
  | @logged _ record originator now _ _ _ _ _ hmsg =>
    refine .logged rfl fun e he hnames ↦ ?_
    cases (EventAppender.logEvent_eq record originator now _).symm.trans he
    obtain ⟨e', hsettles, hlogged⟩ := EventAppender.logged_settles L C hnames hmsg _
    exact ⟨e', receiveEvent_settles hsettles, hlogged⟩
  | foreign => exact .foreign rfl

/-- Where `receiveEvent` returns a message, a listener is registered under the name, and the message
was sent by an earlier call. -/
theorem receives_published (C : Cms) {earlier : List Call} {process : ℕ} {name : Str}
    {timeout : Int64} {answer : Answer} {m : Message}
    (hresult : (Action.round (exec L) (final (exec L) ∅ earlier)
      (.receiveEvent process name timeout answer)).result = .ok (.message m)) :
    (∃ listener ∈ ((final (exec L) ∅ earlier).registry process).listeners,
      listener.getDestinationName = name) ∧
    ∃ r ∈ history (exec L) ∅ earlier, ∃ destination,
      ⟨destination, m⟩ ∈ r.effects ∧ Origin L C r ⟨destination, m⟩ := by
  obtain ⟨⟨listener, hfind⟩, ⟨destination, m⟩, hsent, rfl⟩ := receiveEvent_message hresult
  refine ⟨⟨listener, EventSystem.Side.mem_of_find hfind⟩, ?_⟩
  rw [sent_final, List.mem_flatMap] at hsent
  obtain ⟨r, hr, hmem⟩ := hsent
  refine ⟨r, hr, destination, hmem, ?_⟩
  rw [eq_round_of_mem hr] at hmem ⊢
  exact (sends_of_mem hmem).origin C

/-- A process makes a receiver of log events. -/
def attachLog : Call :=
  .create 1 (.createReceiver (lit "localhost") LogEvent.LOGGING_TOPIC 61616 .connected) (.inr rfl)

def attached : Network where
  registry := Function.update (fun _ ↦ ∅) 1
    ⟨[], [], [⟨lit "localhost", LogEvent.LOGGING_TOPIC, [], 61616⟩], []⟩
  appender _ := .new
  sent := []

theorem exec_attachLog : exec L attachLog ∅ = (.ok .nothing, attached, []) := by
  have hregistry : onRegistry 1 (fun _ ↦ return) (EventSystem.exec
      (.createReceiver (lit "localhost") LogEvent.LOGGING_TOPIC 61616 .connected)) ∅ =
        (.ok none, attached, []) := by
    rw [onRegistry_eq (a := .ok none)
      (r := ⟨[], [], [⟨lit "localhost", LogEvent.LOGGING_TOPIC, [], 61616⟩], []⟩) (w := []) rfl]
    rfl
  rw [attachLog, exec, bind_ok hregistry]
  rfl

theorem find_attached : EventSystem.receiving.find (attached.registry 1) LogEvent.LOGGING_TOPIC =
    some (.receiver ⟨lit "localhost", LogEvent.LOGGING_TOPIC, [], 61616⟩) := by
  simp [attached, EventSystem.Side.find, EventSystem.receiving, EventSystem.listeners,
    Listener.getDestinationName]

theorem receives_published_sample :
    let record : LoggingEvent :=
      ⟨lit "root", 20000, lit "started", 0, lit "main", [], lit "Main", lit "run", 7⟩
    ∃ stamps m, (Action.round (exec Textual.libraries) (final (exec Textual.libraries) ∅
        [attachLog, .log 0 (.append record ⟨lit "host", 1, 0⟩ 5 .connected .sent) stamps])
        (.receiveEvent 1 LogEvent.LOGGING_TOPIC 0 (.message 0))).result = .ok (.message m) ∧
      ∃ e', Settles (Reception.receiveEvent Textual.libraries .strict · (.message m))
          (ret (some e')) ∧
        EventAppender.Logged record ⟨lit "host", 1, 0⟩ 5 [] LogEvent.LOGGING_TOPIC stamps.pubtime
          e' := by
  intro record
  obtain ⟨names, hnames⟩ := EventAppender.exists_lists_logged record ⟨lit "host", 1, 0⟩ 5 []
  obtain ⟨msg, hmsg⟩ := EventAppender.logged_published Textual.libraries record _ _ _ hnames
    (.topic LogEvent.LOGGING_TOPIC) 9
  let stamps : Stamps := ⟨names, 9, 10⟩
  let call : Call := .log 0 (.append record ⟨lit "host", 1, 0⟩ 5 .connected .sent) stamps
  obtain ⟨s', hlog, hregistry⟩ : ∃ s', exec Textual.libraries call attached = (.ok .nothing, s',
      [⟨.topic LogEvent.LOGGING_TOPIC, .text { msg with timestamp := 10 }⟩]) ∧
        s'.registry = attached.registry := exec_log_connected rfl hmsg
  have hsent : s'.sent = [⟨.topic LogEvent.LOGGING_TOPIC, .text { msg with timestamp := 10 }⟩] := by
    have hlogs := logs_exec Textual.libraries call attached
    rw [hlog] at hlogs
    exact hlogs
  have hfinal : final (exec Textual.libraries) ∅ [attachLog, call] = s' := by
    rw [final, List.foldl_cons, List.foldl_cons, List.foldl_nil, round_eq exec_attachLog,
      round_eq hlog]
  have hfind := find_attached
  rw [← hregistry] at hfind
  have hresult : (Action.round (exec Textual.libraries) (final (exec Textual.libraries) ∅
      [attachLog, call]) (.receiveEvent 1 LogEvent.LOGGING_TOPIC 0 (.message 0))).result =
        .ok (.message (.text { msg with timestamp := 10 })) := by
    have hfirst : s'.sent[0]? = some _ := congrArg (·[0]?) hsent
    rw [hfinal, round_eq (exec_receive_sent hfind hfirst)]
  refine ⟨stamps, _, hresult, ?_⟩
  obtain ⟨-, r, hr, destination, hmem, horigin⟩ := receives_published .strict hresult
  rw [history, history, history, round_eq exec_attachLog, List.mem_pair] at hr
  rcases hr with rfl | rfl
  · cases hmem
  · rw [round_eq hlog] at hmem horigin
    have hposting := List.mem_singleton.1 hmem
    cases horigin with
    | published hcall => cases hcall
    | logged hcall hreceived =>
      cases hcall
      cases hposting
      exact hreceived _ (EventAppender.logEvent_eq record _ _ _) hnames
    | foreign hcall => cases hcall

end CtrlEvents.Network
