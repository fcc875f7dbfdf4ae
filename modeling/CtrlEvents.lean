import CtrlEvents.Library.Fallible
import CtrlEvents.Library.Outcome
import CtrlEvents.Library.Action
import CtrlEvents.Library.NestedMap
import CtrlEvents.Library.Ptree
import CtrlEvents.Library.Layout
import CtrlEvents.Library.JsonText
import CtrlEvents.Payload.Values
import CtrlEvents.Payload.PropertySet
import CtrlEvents.Payload.Codec
import CtrlEvents.Payload.Encoding
import CtrlEvents.Payload.Decoding
import CtrlEvents.Payload.LaidOut
import CtrlEvents.Payload.Textual
import CtrlEvents.Payload.RoundTrip
import CtrlEvents.Payload.TagWords
import CtrlEvents.Payload.DateTimes
import CtrlEvents.Payload.Types
import CtrlEvents.Payload.Reading
import CtrlEvents.Payload.Termination
import CtrlEvents.Payload.Orders
import CtrlEvents.Payload.Losses
import CtrlEvents.Payload.Decoded
import CtrlEvents.Payload.Rereading
import CtrlEvents.Events.Event
import CtrlEvents.Events.Message
import CtrlEvents.Events.Wire
import CtrlEvents.Events.Construction
import CtrlEvents.Events.Joining
import CtrlEvents.Events.Header
import CtrlEvents.Events.Reserved
import CtrlEvents.Events.Receipt
import CtrlEvents.Events.Fields
import CtrlEvents.Events.Keywords
import CtrlEvents.Events.HeaderCodec
import CtrlEvents.Events.Dispatch
import CtrlEvents.Events.Setters
import CtrlEvents.Events.Publication
import CtrlEvents.Events.Truncation
import CtrlEvents.Events.Acceptance
import CtrlEvents.Events.Delivery
import CtrlEvents.Events.Reception
import CtrlEvents.System.Endpoints
import CtrlEvents.System.Registry
import CtrlEvents.System.Routing
import CtrlEvents.System.Appender
import CtrlEvents.System.BrokerFailure
import CtrlEvents.System.Locations
import CtrlEvents.System.Logging
import CtrlEvents.System.Options
import CtrlEvents.System.Network
import CtrlEvents.System.Messaging
import CtrlEvents.System.Arrival
