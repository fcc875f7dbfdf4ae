import CtrlEvents.Events.Delivery

namespace CtrlEvents.Event

open Fallible Outcome

variable (L : Libraries) (C : Cms) {e e' : Event} {names : List Str}
  {transmitter : Transmitter} {pubtime : Int64} {msg : TextMessage}

/-- What every event of the library is, whether or not its header can be written: its type says its
class, and the payload codec can carry its custom properties. -/
structure Proper (e : Event) : Prop extends e.Formed where
  own : reserved ⊆ e.keywords
  named : headerOf e.psp TYPE = some (.string e.type.typeName)
  deliverable : Deliverable e.getCustomPropertySet

structure Received (e : Event) (transmitter : Transmitter) (pubtime : Int64) (e' : Event) : Prop
    extends Carries [transmitter.getDestinationPropertyName] e e' where
  pubTime : e'.getPubTime = .ok pubtime
  destination : e'.psp.get Value.toString? transmitter.getDestinationPropertyName =
    .ok transmitter.destinationName

theorem Proper.ready (hp : e.Proper) (h : e.publish L names transmitter pubtime = .ok msg) :
    e.Ready :=
  ⟨hp.toFormed, (publish_ok L hp.toFormed h).1, hp.own, hp.named⟩

/-- A proper event that is published is received, and is proper again: it may be passed on. -/
theorem Proper.received (hp : e.Proper) (hn : e.getCustomPropertySet.Lists names)
    (h : e.publish L names transmitter pubtime = .ok msg) (timestamp : Int64) :
    ∃ e', Settles (createEvent L C · { msg with timestamp := timestamp }) (ret e') ∧ e'.Proper ∧
      Received e transmitter pubtime e' := by
  have hr := hp.ready L h
  obtain ⟨msg', hmsg, hdecode⟩ := publish_payload L hr.toFormed hr.toPublishable
    hp.deliverable.payload hn hp.deliverable.untagged transmitter pubtime
  cases h.symm.trans hmsg
  obtain ⟨e', hsettles, hd⟩ := ofMessage_delivered L C hr.toFormed hr.own h (List.Subset.refl _)
    timestamp hdecode
  have hread : TextMessage.getStringProperty { msg with timestamp := timestamp } C TYPE =
      .ok e.type.typeName := by
    have htype : e.typeText C = some e.type.typeName := by
      rw [typeText, hr.named]
      exact C.toText_string _
    exact (getStringProperty_published L C hr.toFormed hr.own h).trans (by rw [htype]; rfl)
  have hcarries := hd.carries hr hp.deliverable.noQueue
  have hkept := hd.headerKept hr.toFormed hr.own
  have hr' := hd.ready hr
  refine ⟨e', ?_, ?_, hcarries, hkept.pubTime, hkept.destination⟩
  · simp only [createEvent_eq L C hread, dispatch_typeName]
    exact hsettles
  · refine ⟨hr'.toFormed, hr'.own, hr'.named, ?_⟩
    rw [hcarries.custom]
    exact hp.deliverable

end CtrlEvents.Event
