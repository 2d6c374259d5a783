import MqttWire.Connect.Basic

/-!
# Sequences of calls that build a connect request

A connect request starts with nothing but its client identifier, and calls set the rest, in any
order and as often as one likes.  The flags that one of these calls sets are built in the same way,
out of no flags.
-/

namespace MqttWire

namespace ConnectFlags

/-- **A call that sets a flag.** -/
inductive Call
  | cleanSession
  | willQoS (qos : QoS)
  | willRetain
deriving DecidableEq

def apply (flags : ConnectFlags) : Call → ConnectFlags
  | .cleanSession => flags.cleanSession
  | .willQoS qos => flags.willQoS qos
  | .willRetain => flags.willRetain

/-- **The flags that the calls set,** one after the other. -/
def built (calls : List Call) : ConnectFlags := calls.foldl apply .empty

@[simp] theorem built_concat (calls : List Call) (call : Call) :
    built (calls ++ [call]) = (built calls).apply call := by
  rw [built, List.foldl_append]
  rfl

/-- The level that a call sets. -/
def Call.qos? : Call → Option QoS
  | .willQoS qos => some qos
  | _ => none

end ConnectFlags

namespace Connect

/-- **A call that sets a part of the request.** -/
inductive Call
  | flags (calls : List ConnectFlags.Call)
  | keepAlive (seconds : UInt16)
  | will (topic : String) (message : Bytes)
  | credentials (userName : String) (password : Option Bytes)
deriving DecidableEq

def apply (c : Connect) : Call → Connect
  | .flags calls => c.withFlags (.built calls)
  | .keepAlive seconds => c.withKeepAlive seconds
  | .will topic message => c.withWill topic message
  | .credentials userName password => c.withCredentials userName password

/-- **The request that the calls build,** one after the other. -/
def built (clientId : String) (calls : List Call) : Connect :=
  calls.foldl apply (ofClientId clientId)

@[simp] theorem built_concat (clientId : String) (calls : List Call) (call : Call) :
    built clientId (calls ++ [call]) = (built clientId calls).apply call := by
  rw [built, List.foldl_append]
  rfl

namespace Call

/-- The fields that a call sets: those of one part of the request. -/
inductive Part
  | flags
  | keepAlive
  | will
  | credentials
deriving DecidableEq

def part : Call → Part
  | .flags _ => .flags
  | .keepAlive _ => .keepAlive
  | .will _ _ => .will
  | .credentials _ _ => .credentials

def flags? : Call → Option (List ConnectFlags.Call)
  | .flags calls => some calls
  | _ => none

def keepAlive? : Call → Option UInt16
  | .keepAlive seconds => some seconds
  | _ => none

def will? : Call → Option (String × Bytes)
  | .will topic message => some (topic, message)
  | _ => none

/-- What a call sets of the credentials; that there is no password is set too. -/
def credentials? : Call → Option (String × Option Bytes)
  | .credentials userName password => some (userName, password)
  | _ => none

end Call

end Connect

/-- **What was set last:** by the last of the calls that set it at all. -/
def last? {α β : Type} (get : α → Option β) (calls : List α) : Option β :=
  (calls.filterMap get).getLast?

end MqttWire
