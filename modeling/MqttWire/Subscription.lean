import MqttWire.BoundedList
import MqttWire.Packet
import MqttWire.QoS

/-!
# Subscribe and unsubscribe requests

Both name topic filters, one to eight of them, behind a packet identifier.  A subscribe request adds
to each filter the highest quality of service it asks for.  The entries go on the wire in the order
given, which is the order of the broker's answers.
-/

namespace MqttWire

/-- The most topic filters in one request. -/
def maxTopics : Nat := 8

/-- **A topic filter and the highest quality of service** asked for. -/
structure Subscription where
  filter : String
  maxQoS : QoS
deriving DecidableEq

abbrev SubscriptionList := BoundedList Subscription maxTopics

abbrev FilterList := BoundedList String maxTopics

/-- May one request have this many entries? -/
def checkCount (count : Nat) : Except EncodeError Unit :=
  if count = 0 then .error (.violation .noTopics)
  else if count ≤ maxTopics then .ok ()
  else .error (.violation .tooManyTopics)

/-- The bytes that a topic filter takes, which must not be empty. -/
def filterSize (filter : String) : Except EncodeError Nat :=
  if filter.isEmpty then .error (.violation .emptyTopic) else Field.textSize filter

/-! ### Subscribe requests -/

/-- **A request for the messages of some topics.** -/
structure Subscribe where
  packetId : UInt16
  subscriptions : List Subscription
deriving DecidableEq

namespace Subscribe

def remainingLength (s : Subscribe) : Except EncodeError Nat :=
  s.subscriptions.foldlM (fun size entry => return size + (← filterSize entry.filter) + 1) 2

def fields (s : Subscribe) : List Field :=
  .word s.packetId ::
    s.subscriptions.flatMap fun entry => [.text entry.filter, .byte entry.maxQoS.level]

/-- **A subscribe request as a packet.** -/
def packet (s : Subscribe) : Packet where
  validity := checkCount s.subscriptions.length
  header := FixedHeader.ofFlags .subscribe 2
  remainingLength := s.remainingLength
  fields := s.fields

end Subscribe

/-! ### Unsubscribe requests -/

/-- **A request for no more messages of some topics.** -/
structure Unsubscribe where
  packetId : UInt16
  filters : List String
deriving DecidableEq

namespace Unsubscribe

def remainingLength (u : Unsubscribe) : Except EncodeError Nat :=
  u.filters.foldlM (fun size filter => return size + (← filterSize filter)) 2

def fields (u : Unsubscribe) : List Field := .word u.packetId :: u.filters.map .text

/-- **An unsubscribe request as a packet.** -/
def packet (u : Unsubscribe) : Packet where
  validity := checkCount u.filters.length
  header := FixedHeader.ofFlags .unsubscribe 2
  remainingLength := u.remainingLength
  fields := u.fields

end Unsubscribe

end MqttWire
