import CtrlEvents.Events.Reception
import CtrlEvents.Payload.Losses
import CtrlEvents.System.BrokerFailure

namespace CtrlEvents

open Event Fallible Outcome

namespace LogEvent

variable (event : LoggingEvent) (originator : LocationId) (now : Int64)

/-- The properties of the location, the last one first. -/
def location : PropertySet := .ofList
  [(LINENUMBER, .leaf (.single (.int event.lineNumber))),
    (METHODNAME, .leaf (.single (.string event.methodName))),
    (CLASSNAME, .leaf (.single (.string event.className))),
    (FILENAME, .leaf (.single (.string event.fileName)))]

/-- The payload of a log event. -/
def custom : List (Str × Entry) :=
  [(LOCATION, .maps [] (location event)),
    (THREADNAME, .leaf (.single (.string event.threadName))),
    (TIMESTAMP, .leaf (.single (.longLong event.timeStamp))),
    (MESSAGE, .leaf (.single (.string event.message)))]

/-- What the constructors of a log event set. -/
def constructed : List (Str × Entry) :=
  [(TYPE, .leaf (.single (.string EventTypes.LOG))),
    (TYPE, .leaf (.single (.string EventTypes.STATUS))),
    (ORIG_LOCALID, .leaf (.single (.int originator.localID))),
    (ORIG_PROCESSID, .leaf (.single (.int originator.pid))),
    (ORIG_HOSTNAME, .leaf (.single (.string originator.hostname))),
    (PUBTIME, .leaf (.single (.longLong 0))),
    (TOPIC, .leaf (.single (.string UNINITIALIZED))),
    (EVENTTIME, .leaf (.single (.longLong now))),
    (STATUS, .leaf (.single (.string (lit "unknown"))))]

/-- What the appender sets that goes into the header. -/
def given : List (Str × Entry) :=
  [(LEVEL, .leaf (.single (.int event.level))),
    (LOGGER, .leaf (.single (.string event.loggerName))),
    (TYPE, .leaf (.single (.string EventTypes.LOG)))]

def entries : List (Str × Entry) := constructed originator now ++ custom event ++ given event

def setNames : List Str :=
  [TYPE, TYPE, ORIG_LOCALID, ORIG_PROCESSID, ORIG_HOSTNAME, PUBTIME, TOPIC, EVENTTIME, STATUS,
    LOCATION, THREADNAME, TIMESTAMP, MESSAGE, LEVEL, LOGGER, TYPE]

theorem fst_entries : (entries event originator now).map Prod.fst = setNames := rfl

/-- The run id is set last, if there is one. -/
def run (runid : Str) : List (Str × Entry) :=
  if runid = [] then [] else [(RUNID, .leaf (.single (.string runid)))]

def headerNames : Finset Str := reserved ∪ EventClass.status.keywords ∪ EventClass.log.keywords

theorem mem_headerNames {k : Str} : k ∈ headerNames ↔ k ∈ [TYPE, EVENTTIME, STATUS, TOPIC, PUBTIME,
    ORIG_HOSTNAME, ORIG_PROCESSID, ORIG_LOCALID, LEVEL, LOGGER] := by
  simp only [headerNames, reserved, EventClass.keywords, EventClass.fields, Field.originator,
    Field.name, List.map_cons, List.map_nil, List.map_append, Finset.mem_union, Finset.mem_insert,
    Finset.mem_singleton, List.mem_toFinset, List.mem_append, List.mem_cons, List.not_mem_nil,
    or_false]
  tauto

theorem headerNames_apart {k : Str} (hk : k ∈ headerNames) : k ≠ RUNID ∧ '.' ∉ k := by
  have hnames : ∀ n ∈ [TYPE, EVENTTIME, STATUS, TOPIC, PUBTIME, ORIG_HOSTNAME, ORIG_PROCESSID,
      ORIG_LOCALID, LEVEL, LOGGER], n ≠ RUNID ∧ '.' ∉ n := by
    simp [TYPE, EVENTTIME, STATUS, TOPIC, PUBTIME, ORIG_HOSTNAME, ORIG_PROCESSID, ORIG_LOCALID,
      LEVEL, LOGGER, RUNID, lit]
  exact hnames k (mem_headerNames.1 hk)

/-- Where the header names were set last. -/
theorem setNames_idxOf : ∀ p ∈ [(TYPE, 0), (ORIG_LOCALID, 2), (ORIG_PROCESSID, 3),
    (ORIG_HOSTNAME, 4), (PUBTIME, 5), (TOPIC, 6), (EVENTTIME, 7), (STATUS, 8), (LEVEL, 13),
    (LOGGER, 14)], p.1 ∈ headerNames ∧ setNames.idxOf p.1 = p.2 := by
  simp [mem_headerNames, setNames, TYPE, ORIG_LOCALID, ORIG_PROCESSID, ORIG_HOSTNAME, PUBTIME,
    TOPIC, EVENTTIME, STATUS, LOCATION, THREADNAME, TIMESTAMP, MESSAGE, LEVEL, LOGGER, lit]

end LogEvent

namespace EventAppender

variable {event : LoggingEvent} {originator : LocationId} {now : Int64} {runid : Str} {e : Event}

open LogEvent

theorem logProperties_eq (event : LoggingEvent) :
    logProperties event = .ok (.ofList ((entries event ⟨[], 0, 0⟩ 0).drop 9)) := by
  have hplain : ∀ n ∈ [TYPE, LOGGER, LEVEL, MESSAGE, TIMESTAMP, THREADNAME, FILENAME, CLASSNAME,
      METHODNAME, LINENUMBER, LOCATION], '.' ∉ n := by
    simp [TYPE, LOGGER, LEVEL, MESSAGE, TIMESTAMP, THREADNAME, FILENAME, CLASSNAME, METHODNAME,
      LINENUMBER, LOCATION, lit]
  simp only [List.forall_mem_cons] at hplain
  obtain ⟨h₁, h₂, h₃, h₄, h₅, h₆, h₇, h₈, h₉, h₁₀, h₁₁, -⟩ := hplain
  simp only [logProperties, PropertySet.set_plain h₁, PropertySet.set_plain h₂,
    PropertySet.set_plain h₃, PropertySet.set_plain h₄, PropertySet.set_plain h₅,
    PropertySet.set_plain h₆, PropertySet.set_plain h₇, PropertySet.set_plain h₈,
    PropertySet.set_plain h₉, PropertySet.set_plain h₁₀, PropertySet.setSet_plain h₁₁, ok_bind]
  rfl

theorem mem_keys_drop (event : LoggingEvent) (originator : LocationId) (now : Int64) (i : ℕ)
    (n : Str) : n ∈ NestedMap.keys (.ofList ((entries event originator now).drop i)) ↔
      n ∈ setNames.drop i := by
  rw [NestedMap.keys_ofList, List.mem_toFinset, List.map_drop, fst_entries]

theorem fill_log (event : LoggingEvent) (originator : LocationId) (now : Int64) :
    fill now [] (.ofList ((entries event ⟨[], 0, 0⟩ 0).drop 9)) =
      .ofList ((entries event originator now).drop 5) := by
  have hstatus : STATUS ∉ NestedMap.keys (.ofList ((entries event ⟨[], 0, 0⟩ 0).drop 9)) := by
    rw [mem_keys_drop]
    simp [setNames, STATUS, LOCATION, THREADNAME, TIMESTAMP, MESSAGE, LEVEL, LOGGER, TYPE, lit]
  have htime : EVENTTIME ∉ NestedMap.keys (.ofList ((entries event originator now).drop 8)) := by
    rw [mem_keys_drop]
    simp [setNames, EVENTTIME, STATUS, LOCATION, THREADNAME, TIMESTAMP, MESSAGE, LEVEL, LOGGER,
      TYPE, lit]
  have htype : TYPE ∈ NestedMap.keys (.ofList ((entries event originator now).drop 7)) := by
    rw [mem_keys_drop]
    simp [setNames]
  have hset : PropertySet.fillIn (.ofList ((entries event ⟨[], 0, 0⟩ 0).drop 9)) STATUS
      (.string (lit "unknown")) = .ofList ((entries event originator now).drop 8) :=
    if_neg hstatus
  have hset' : PropertySet.fillIn (.ofList ((entries event originator now).drop 8)) EVENTTIME
      (.longLong now) = .ofList ((entries event originator now).drop 7) := if_neg htime
  rw [fill, hset, hset', if_pos rfl, PropertySet.fillIn, if_pos htype]
  rfl

theorem constructLog_eq (event : LoggingEvent) (originator : LocationId) (now : Int64) :
    constructLog now originator (.ofList ((entries event ⟨[], 0, 0⟩ 0).drop 9)) =
      .ok ⟨.log, .ofList (entries event originator now), headerNames⟩ := by
  have horig : [(ORIG_HOSTNAME, Value.string originator.hostname),
      (ORIG_PROCESSID, .int originator.pid), (ORIG_LOCALID, .int originator.localID)].map Prod.fst ⊆
      EventClass.status.fields.map Field.name := List.Subset.refl _
  have hnone : ([] : List (Str × Value)).map Prod.fst ⊆ EventClass.log.fields.map Field.name :=
    List.nil_subset _
  have hstatus : constructStatus now [] originator
      (.ofList ((entries event ⟨[], 0, 0⟩ 0).drop 9)) ∅ =
        .ok ⟨.status, .ofList ((entries event originator now).drop 1),
          reserved ∪ EventClass.status.keywords⟩ := by
    rw [constructStatus, construct_empty, ok_bind, fill_log event originator]
    exact extend_eq (plain_fields horig) _
  rw [constructLog, hstatus, ok_bind]
  exact extend_eq (plain_fields hnone) _

/-- The event that an appender makes of a record. -/
def logged (event : LoggingEvent) (originator : LocationId) (now : Int64) (runid : Str) : Event :=
  ⟨.log, .ofList (run runid ++ entries event originator now),
    ((run runid).map Prod.fst).toFinset ∪ headerNames⟩

theorem logEvent_eq (event : LoggingEvent) (originator : LocationId) (now : Int64) (runid : Str) :
    logEvent event originator now runid = .ok (logged event originator now runid) := by
  rw [logEvent, logProperties_eq, ok_bind, constructLog_eq, ok_bind, logged, run]
  split
  · rfl
  · rw [setRunId, setProperty, PropertySet.set_plain (by simp [RUNID, lit]), ok_bind]
    rfl

theorem lookup_logged {k : Str} (hk : k ≠ RUNID) :
    (logged event originator now runid).psp.lookup k =
      (NestedMap.ofList (entries event originator now)).lookup k := by
  rw [logged, run]
  split
  · rfl
  · rw [List.singleton_append, NestedMap.ofList_cons, NestedMap.lookup_insert_of_ne hk]

theorem lookup_logged_runId (hr : runid ≠ []) :
    (logged event originator now runid).psp.lookup RUNID =
      some (.leaf (.single (.string runid))) := by
  rw [logged, run, if_neg hr, List.singleton_append, NestedMap.ofList_cons,
    NestedMap.lookup_insert_self]

theorem mem_keywords_logged {k : Str} : k ∈ (logged event originator now runid).keywords ↔
    (k = RUNID ∧ runid ≠ []) ∨ k ∈ headerNames := by
  rw [logged, run]
  split <;> simp_all

theorem lookup_entries {k : Str} {i : ℕ} {s : Entry} (hk : setNames.idxOf k = i)
    (hs : ((entries event originator now)[i]?).map Prod.snd = some s) :
    (NestedMap.ofList (entries event originator now)).lookup k = some s := by
  rw [NestedMap.lookup_ofList_idxOf, fst_entries, hk, hs]

theorem header_entries {k : Str} (hk : k ∈ headerNames) : ∃ v : Value,
    (NestedMap.ofList (entries event originator now)).lookup k = some (.leaf (.single v)) ∧
      v.toCms.isSome := by
  have hplace : setNames.idxOf k ∈ [0, 2, 3, 4, 5, 6, 7, 8, 13, 14] := by
    have hmem := mem_headerNames.1 hk
    have hplaces := setNames_idxOf
    simp only [List.forall_mem_cons] at hplaces
    simp only [List.mem_cons, List.not_mem_nil, or_false] at hmem
    rcases hmem with rfl | rfl | rfl | rfl | rfl | rfl | rfl | rfl | rfl | rfl <;> simp [hplaces]
  have hvalue : ∀ i ∈ [0, 2, 3, 4, 5, 6, 7, 8, 13, 14], ∃ v : Value,
      ((entries event originator now)[i]?).map Prod.snd = some (.leaf (.single v)) ∧
        v.toCms.isSome := by
    simp only [List.forall_mem_cons]
    exact ⟨⟨_, rfl, rfl⟩, ⟨_, rfl, rfl⟩, ⟨_, rfl, rfl⟩, ⟨_, rfl, rfl⟩, ⟨_, rfl, rfl⟩,
      ⟨_, rfl, rfl⟩, ⟨_, rfl, rfl⟩, ⟨_, rfl, rfl⟩, ⟨_, rfl, rfl⟩, ⟨_, rfl, rfl⟩, nofun⟩
  obtain ⟨v, hv, hc⟩ := hvalue _ hplace
  exact ⟨v, lookup_entries rfl hv, hc⟩

theorem custom_entries {k : Str} (hk : k ∉ headerNames) :
    (NestedMap.ofList (entries event originator now)).lookup k =
      (NestedMap.ofList (custom event)).lookup k := by
  have hnone : ∀ es : List (Str × Entry), (∀ n ∈ es.map Prod.fst, n ∈ headerNames) →
      (NestedMap.ofList es).lookup k = none := by
    intro es hes
    rw [NestedMap.lookup_eq_none, NestedMap.keys_ofList, List.mem_toFinset]
    exact fun h ↦ hk (hes k h)
  have hfirst : ∀ n ∈ setNames.take 9, n ∈ headerNames := by simp [setNames, mem_headerNames]
  have hlast : ∀ n ∈ setNames.drop 13, n ∈ headerNames := by simp [setNames, mem_headerNames]
  rw [entries, NestedMap.lookup_ofList_append, NestedMap.lookup_ofList_append,
    hnone (constructed originator now) hfirst, hnone (given event) hlast, Option.none_or,
    Option.or_none]

theorem logged_formed : (logged event originator now runid).Formed ∧
    reserved ⊆ (logged event originator now runid).keywords := by
  refine ⟨⟨fun k hk ↦ ?_, fun k hk ↦ ?_⟩, fun k hk ↦ ?_⟩
  · rcases mem_keywords_logged.1 hk with ⟨rfl, -⟩ | hk
    · simp [RUNID, lit]
    · exact (headerNames_apart hk).2
  · exact mem_keywords_logged.2 (.inr (Finset.mem_union_right _ hk))
  · exact mem_keywords_logged.2 (.inr (Finset.mem_union_left _ (Finset.mem_union_left _ hk)))

theorem lookup_logged_at {k : Str} {i : ℕ} {v : Value}
    (hk : k ∈ headerNames ∧ setNames.idxOf k = i)
    (hv : ((entries event originator now)[i]?).map Prod.snd = some (.leaf (.single v))) :
    (logged event originator now runid).psp.lookup k = some (.leaf (.single v)) := by
  rw [lookup_logged (headerNames_apart hk.1).1, lookup_entries hk.2 hv]

theorem headerOf_logged {k : Str} {i : ℕ} {v : Value}
    (hk : k ∈ headerNames ∧ setNames.idxOf k = i)
    (hv : ((entries event originator now)[i]?).map Prod.snd = some (.leaf (.single v))) :
    headerOf (logged event originator now runid).psp k = v.toCms := by
  rw [headerOf, lookup_logged_at hk hv]
  rfl

theorem logged_publishable : (logged event originator now runid).Publishable := by
  refine ⟨fun k hk ↦ ?_, fun f hf ↦ ?_⟩
  · rcases mem_keywords_logged.1 hk with ⟨rfl, hr⟩ | hk
    · rw [headerOf, lookup_logged_runId hr]
      rfl
    · obtain ⟨v, hv, hc⟩ := header_entries hk
      rw [headerOf, lookup_logged (headerNames_apart hk).1, hv]
      exact hc
  · have hfields : f ∈ [Field.text ORIG_HOSTNAME, .number ORIG_PROCESSID, .number ORIG_LOCALID,
        .number LEVEL, .text LOGGER] := hf
    simp only [List.mem_cons, List.not_mem_nil, or_false] at hfields
    rcases hfields with rfl | rfl | rfl | rfl | rfl
    · exact ⟨_, headerOf_logged (setNames_idxOf (ORIG_HOSTNAME, 4) (by simp)) rfl, _, rfl⟩
    · exact ⟨_, headerOf_logged (setNames_idxOf (ORIG_PROCESSID, 3) (by simp)) rfl, _, rfl⟩
    · exact ⟨_, headerOf_logged (setNames_idxOf (ORIG_LOCALID, 2) (by simp)) rfl, _, rfl⟩
    · exact ⟨_, headerOf_logged (setNames_idxOf (LEVEL, 13) (by simp)) rfl, _, rfl⟩
    · exact ⟨_, headerOf_logged (setNames_idxOf (LOGGER, 14) (by simp)) rfl, _, rfl⟩

theorem keys_custom (event : LoggingEvent) : ∀ k ∈ NestedMap.keys (.ofList (custom event)),
    k ∉ headerNames ∧ k ≠ RUNID ∧ k ≠ QUEUE := by
  have hnames : ∀ k ∈ (setNames.drop 9).take 4, k ∉ headerNames ∧ k ≠ RUNID ∧ k ≠ QUEUE := by
    simp [setNames, mem_headerNames, TYPE, EVENTTIME, STATUS, TOPIC, PUBTIME, ORIG_HOSTNAME,
      ORIG_PROCESSID, ORIG_LOCALID, LEVEL, LOGGER, LOCATION, THREADNAME, TIMESTAMP, MESSAGE, RUNID,
      QUEUE, lit]
  intro k hk
  rw [NestedMap.keys_ofList, List.mem_toFinset] at hk
  exact hnames k hk

theorem custom_logged :
    (logged event originator now runid).getCustomPropertySet = .ofList (custom event) := by
  refine getCustomPropertySet_eq logged_formed.1.plain (fun k hk ↦ ?_) fun k hk ↦ ?_
  · obtain ⟨hheader, hrun, -⟩ := keys_custom event k hk
    rw [mem_keywords_logged]
    exact fun h ↦ h.elim (fun h ↦ hrun h.1) hheader
  · rw [mem_keywords_logged, not_or] at hk
    have hcustom : (NestedMap.ofList (entries event originator now)).lookup k =
        (NestedMap.ofList (custom event)).lookup k := custom_entries hk.2
    rw [← hcustom]
    by_cases hr : runid = []
    · rw [logged, run, if_pos hr, List.nil_append]
    · exact lookup_logged fun h ↦ hk.1 ⟨h, hr⟩

theorem payload_location (event : LoggingEvent) : Payload (location event) := by
  have hnames : ∀ n ∈ [FILENAME, CLASSNAME, METHODNAME, LINENUMBER], Plain n := by
    simp [Plain, FILENAME, CLASSNAME, METHODNAME, LINENUMBER, lit]
  simp only [List.forall_mem_cons] at hnames
  obtain ⟨h₁, h₂, h₃, h₄, -⟩ := hnames
  exact (((payload_empty.insert_leaf h₁ (by simp [Leaf.single, Value.Sendable])).insert_leaf h₂
    (by simp [Leaf.single, Value.Sendable])).insert_leaf h₃
      (by simp [Leaf.single, Value.Sendable])).insert_leaf h₄
        (by simp [Leaf.single, Value.Sendable])

theorem payload_custom (event : LoggingEvent) : Payload (.ofList (custom event)) := by
  have hnames : ∀ n ∈ [MESSAGE, TIMESTAMP, THREADNAME, LOCATION], Plain n := by
    simp [Plain, MESSAGE, TIMESTAMP, THREADNAME, LOCATION, lit]
  simp only [List.forall_mem_cons] at hnames
  obtain ⟨h₁, h₂, h₃, h₄, -⟩ := hnames
  refine (((payload_empty.insert_leaf h₁ (by simp [Leaf.single, Value.Sendable])).insert_leaf h₂
    (by simp [Leaf.single, Value.Sendable])).insert_leaf h₃
      (by simp [Leaf.single, Value.Sendable])).insert_maps (payload_location event) ?_ h₄
  rw [location, NestedMap.ofList_cons, NestedMap.keys_insert]
  exact Finset.insert_nonempty _ _

/-- Below the top there are only the names of the location. -/
theorem untagged_custom {p : List Str} {l : Leaf}
    (hp : NestedMap.leafAt p (.ofList (custom event)) = some l) : ∀ n ∈ p.tail, n ∉ tagWords := by
  have hnames : ∀ n ∈ [LINENUMBER, METHODNAME, CLASSNAME, FILENAME], n ∉ tagWords := by
    simp [tagWords, LINENUMBER, METHODNAME, CLASSNAME, FILENAME, lit]
  have hlocation : ∀ e ∈ [(LINENUMBER, (.leaf (.single (.int event.lineNumber)) : Entry)),
      (METHODNAME, .leaf (.single (.string event.methodName))),
      (CLASSNAME, .leaf (.single (.string event.className))),
      (FILENAME, .leaf (.single (.string event.fileName)))], ∃ l, e.2 = .leaf l := by simp
  have hrest : ∀ e ∈ (custom event).tail, ∃ l, e.2 = .leaf l := by simp [custom]
  obtain _ | ⟨k, p⟩ := p
  · cases hp
  rw [custom, NestedMap.ofList_cons, NestedMap.leafAt_insert_maps] at hp
  split at hp
  · obtain ⟨n, hn, rfl⟩ := NestedMap.leafAt_ofList hlocation hp
    exact fun m hm ↦ List.mem_singleton.1 hm ▸ hnames n hn
  · obtain ⟨n, -, hp⟩ := NestedMap.leafAt_ofList hrest hp
    cases hp
    exact List.forall_mem_nil _

theorem logged_proper (event : LoggingEvent) (originator : LocationId) (now : Int64) (runid : Str) :
    (logged event originator now runid).Proper := by
  have hnamed : headerOf (logged event originator now runid).psp TYPE =
      some (.string EventTypes.LOG) :=
    headerOf_logged (setNames_idxOf (TYPE, 0) (by simp)) rfl
  refine ⟨logged_formed.1, logged_formed.2, hnamed, ?_⟩
  rw [custom_logged]
  exact ⟨payload_custom event, fun p l ↦ untagged_custom, fun h ↦ (keys_custom event _ h).2.2 rfl⟩

theorem get_logged {k : Str} {i : ℕ} {v : Value} (hk : k ∈ headerNames ∧ setNames.idxOf k = i)
    (hv : ((entries event originator now)[i]?).map Prod.snd = some (.leaf (.single v)))
    {α : Type} {cast : Value → Option α} {a : α} (ha : cast v = some a) :
    (logged event originator now runid).psp.get cast k = .ok a :=
  get_single (headerNames_apart hk.1).2 (lookup_logged_at hk hv) ha

theorem originator_logged : (logged event originator now runid).getOriginator = .ok originator := by
  rw [getOriginator, getLocation,
    get_logged (setNames_idxOf (ORIG_HOSTNAME, 4) (by simp)) rfl (a := originator.hostname) rfl,
    get_logged (setNames_idxOf (ORIG_PROCESSID, 3) (by simp)) rfl (a := originator.pid) rfl,
    get_logged (setNames_idxOf (ORIG_LOCALID, 2) (by simp)) rfl (a := originator.localID) rfl]
  rfl

/-- What arrives of a log record: all of it, and the stamps of its publication. -/
structure Logged (event : LoggingEvent) (originator : LocationId) (now : Int64) (runid topic : Str)
    (pubtime : Int64) (e' : Event) : Prop where
  type_eq : e'.type = .log
  originator_eq : e'.getOriginator = .ok originator
  level : e'.getLevel = .ok event.level
  logger : e'.getLogger = .ok event.loggerName
  eventTime : e'.getEventTime = .ok now
  status : e'.getStatus = .ok (lit "unknown")
  runId : e'.getRunId = if runid = [] then
    .error (.runtimeError (lit "property RUNID not found")) else .ok runid
  topic_eq : e'.getTopic = .ok topic
  pubTime : e'.getPubTime = .ok pubtime
  custom_eq : e'.getCustomPropertySet = .ofList (custom event)

theorem runId_logged (hr : runid ≠ []) : (logged event originator now runid).getRunId = .ok runid :=
  getRunId_eq_ok.2 (get_single (by simp [RUNID, lit]) (lookup_logged_runId hr) rfl)

theorem runId_missing {e' : Event} (hn : RUNID ∉ e'.keywords) (hplain : ∀ n ∈ e'.keywords, '.' ∉ n)
    (hc : RUNID ∉ e'.getCustomPropertySet.keys) :
    e'.getRunId = .error (.runtimeError (lit "property RUNID not found")) := by
  rw [← NestedMap.lookup_eq_none, lookup_getCustomPropertySet hplain, if_neg hn,
    NestedMap.lookup_eq_none] at hc
  have hexists : ¬e'.psp.exists' RUNID := fun h ↦
    hc ((PropertySet.exists_plain (by simp [RUNID, lit])).1 h)
  rw [getRunId, if_neg hexists]
  rfl

theorem logged_received {topic : Str} {pubtime : Int64} {e' : Event}
    (hready : (logged event originator now runid).Ready) (he' : e'.Proper)
    (h : Received (logged event originator now runid) (.topic topic) pubtime e') :
    Logged event originator now runid topic pubtime e' := by
  have harrived := h.toCarries.arrived hready he'.plain
    (by simp [Transmitter.getDestinationPropertyName]) (by simp [logged])
  refine {
    type_eq := harrived.type_eq
    originator_eq := ?_
    level := ?_
    logger := ?_
    eventTime := harrived.eventTime now ?_
    status := harrived.status _ ?_
    runId := ?_
    topic_eq := h.destination
    pubTime := h.pubTime
    custom_eq := harrived.custom.trans custom_logged }
  · obtain ⟨id, hid, hid'⟩ := harrived.originator
    cases hid.symm.trans originator_logged
    exact hid'
  · obtain ⟨n, hn, hn'⟩ := harrived.level rfl
    cases hn.symm.trans (get_logged (setNames_idxOf (LEVEL, 13) (by simp)) rfl rfl)
    exact hn'
  · obtain ⟨s, hs, hs'⟩ := harrived.logger rfl
    cases hs.symm.trans (get_logged (setNames_idxOf (LOGGER, 14) (by simp)) rfl rfl)
    exact hs'
  · exact get_logged (setNames_idxOf (EVENTTIME, 7) (by simp)) rfl rfl
  · exact get_logged (setNames_idxOf (STATUS, 8) (by simp)) rfl rfl
  · split
    · next hr =>
      have htopic : RUNID ∉ [TOPIC] := by simp [RUNID, TOPIC, lit]
      apply runId_missing _ he'.plain
      · rw [harrived.custom, custom_logged]
        exact fun h ↦ (keys_custom event _ h).2.1 rfl
      · rw [h.keywords, mem_keywords_logged]
        exact fun h ↦
          h.elim (fun h ↦ h.elim (fun h ↦ h.2 hr) fun h ↦ (headerNames_apart h).1 rfl) htopic
    · next hr => exact harrived.runId runid (runId_logged hr)

theorem logged_settles (L : Libraries) (C : Cms) {names : List Str}
    (hn : (logged event originator now runid).getCustomPropertySet.Lists names) {topic : Str}
    {pubtime : Int64} {msg : TextMessage}
    (h : (logged event originator now runid).publish L names (.topic topic) pubtime = .ok msg)
    (timestamp : Int64) :
    ∃ e', Settles (createEvent L C · { msg with timestamp := timestamp }) (ret e') ∧
      Logged event originator now runid topic pubtime e' := by
  have hproper := logged_proper event originator now runid
  obtain ⟨e', hsettles, he', hreceived⟩ := hproper.received L C hn h timestamp
  exact ⟨e', hsettles, logged_received (hproper.ready L h) he' hreceived⟩

theorem exists_lists_logged (event : LoggingEvent) (originator : LocationId) (now : Int64)
    (runid : Str) : ∃ names, (logged event originator now runid).getCustomPropertySet.Lists names :=
  PropertySet.exists_lists
    (logged_proper event originator now runid).deliverable.payload.addressed

/-- The event of a record is published whatever is in the record. -/
theorem logged_published (L : Libraries) (event : LoggingEvent) (originator : LocationId)
    (now : Int64) (runid : Str) {names : List Str}
    (hn : (logged event originator now runid).getCustomPropertySet.Lists names)
    (transmitter : Transmitter) (pubtime : Int64) :
    ∃ msg, (logged event originator now runid).publish L names transmitter pubtime = .ok msg := by
  have hp := logged_proper event originator now runid
  obtain ⟨msg, hmsg, -⟩ := publish_payload L hp.toFormed logged_publishable
    hp.deliverable.payload hn hp.deliverable.untagged transmitter pubtime
  exact ⟨msg, hmsg⟩

theorem exec_append_cases (a : EventAppender) (event : LoggingEvent) (originator : LocationId)
    (now : Int64) (connection : Connection) (publication : Publication) :
    let r := Action.round exec a (.append event originator now connection publication)
    let publish t := Effect.publish t (logged event originator now a.runid) publication
    (∃ t, a.transmitter = some t ∧ r.after = a ∧ r.effects = [publish t]) ∨
      (a.transmitter = none ∧ connection = .connected ∧
        r.after = { a with transmitter := some a.configured } ∧
        r.effects = [.connect a.broker a.topic a.port, publish a.configured]) ∨
      (a.transmitter = none ∧ connection ≠ .connected ∧ r.after = a ∧
        r.effects = [.connect a.broker a.topic a.port]) := by
  intro r publish
  have he := logEvent_eq event originator now a.runid
  cases ht : a.transmitter with
  | some t =>
    have hr : r = _ := Action.round_eq (exec_append he (getTransmitter_held ht connection))
    exact .inl ⟨t, rfl, by rw [hr], by rw [hr]; rfl⟩
  | none =>
    by_cases hc : connection = .connected
    · subst hc
      have hr : r = _ := Action.round_eq (exec_append he (getTransmitter_connected ht))
      exact .inr (.inl ⟨rfl, rfl, by rw [hr], by rw [hr]; rfl⟩)
    · obtain ⟨x, hx⟩ := getTransmitter_failed ht hc
      have hr : r = _ := Action.round_eq (exec_append_failed he hx)
      exact .inr (.inr ⟨rfl, hc, by rw [hr], by rw [hr]⟩)

/-- An append does nothing but connect and publish the record's own event. -/
theorem mem_effects_append {a : EventAppender} {connection : Connection}
    {publication : Publication} {effect : Effect}
    (h : effect ∈ (Action.round exec a
      (.append event originator now connection publication)).effects) :
    effect = .connect a.broker a.topic a.port ∨
      ∃ t, effect = .publish t (logged event originator now a.runid) publication := by
  rcases exec_append_cases a event originator now connection publication with
    ⟨t, -, -, heffects⟩ | ⟨-, -, -, heffects⟩ | ⟨-, -, -, heffects⟩ <;> rw [heffects] at h
  · exact .inr ⟨t, List.mem_singleton.1 h⟩
  · exact (List.mem_pair.1 h).imp_right fun h ↦ ⟨_, h⟩
  · exact .inl (List.mem_singleton.1 h)

/-- Whatever calls were made on an appender, what it publishes for a record can be published, and
arrives with all that was logged, at the time of the append and under the run id of that time. -/
theorem logged_arrives (L : Libraries) (C : Cms) {calls : List Call}
    {r : Action.Round EventAppender Call Effect Exn Unit} (hr : r ∈ Action.history exec new calls)
    {event : LoggingEvent} {originator : LocationId} {now : Int64} {connection : Connection}
    {publication : Publication}
    (hcall : r.call = .append event originator now connection publication)
    {t : EventTransmitter} {e : Event} {p : Publication} (heffect : .publish t e p ∈ r.effects)
    {names : List Str} (hn : e.getCustomPropertySet.Lists names) (pubtime timestamp : Int64) :
    ∃ msg e', e.publish L names (.topic t.topicName) pubtime = .ok msg ∧
      Settles (createEvent L C · { msg with timestamp := timestamp }) (ret e') ∧
      Logged event originator now r.before.runid t.topicName pubtime e' := by
  have heq := Action.eq_round_of_mem hr
  rw [hcall] at heq
  have he : e = logged event originator now r.before.runid := by
    rw [heq] at heffect
    rcases mem_effects_append heffect with h | ⟨t, h⟩ <;> cases h
    rfl
  subst he
  obtain ⟨msg, hmsg⟩ := logged_published L event originator now r.before.runid hn
    (.topic t.topicName) pubtime
  obtain ⟨e', hsettles, hlogged⟩ := logged_settles L C hn hmsg timestamp
  exact ⟨msg, e', hmsg, hsettles, hlogged⟩

theorem logged_arrives_sample :
    let record : LoggingEvent :=
      ⟨lit "root", 20000, lit "started", 0, lit "main", [], lit "Main", lit "run", 7⟩
    ∃ names msg e', (logged record ⟨lit "host", 1, 0⟩ 5 []).publish Textual.libraries names
        (.topic LOGGING_TOPIC) 9 = .ok msg ∧
      Settles (createEvent Textual.libraries .strict · { msg with timestamp := 10 }) (ret e') ∧
      Logged record ⟨lit "host", 1, 0⟩ 5 [] LOGGING_TOPIC 9 e' := by
  intro record
  let c : Call := .append record ⟨lit "host", 1, 0⟩ 5 .connected .sent
  have heffect : .publish new.configured (logged record ⟨lit "host", 1, 0⟩ 5 []) .sent ∈
      (Action.round exec new c).effects := by
    have he := logEvent_eq record ⟨lit "host", 1, 0⟩ 5 []
    rw [Action.round_eq (exec_append he (getTransmitter_connected rfl))]
    exact List.mem_cons_of_mem _ List.mem_cons_self
  obtain ⟨names, hn⟩ := exists_lists_logged record ⟨lit "host", 1, 0⟩ 5 []
  have hr : Action.round exec new c ∈ Action.history exec new [c] := List.mem_cons_self
  exact ⟨names, logged_arrives Textual.libraries .strict hr rfl heffect hn 9 10⟩

end EventAppender

end CtrlEvents
