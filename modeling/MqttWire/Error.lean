/-!
# Why a packet cannot be written

Writing a packet fails in one of two ways, and a caller branches on which.  Either the destination
is too short, and the same request fits a longer one; or the request breaks a rule of the wire
format, and no destination helps.  Every rule that can be broken is a `Violation`.

`signedSize` folds both kinds of failure and the size of a success into one signed number: positive
for a size, zero for a short buffer, negative for a broken rule.
-/

namespace MqttWire

/-! ### Broken rules -/

/-- **The rules of the wire format** that a request can break. -/
inductive Violation where
  | remainingLengthTooLarge
  | invalidFlags
  | invalidQoS
  | stringTooLong
  | binaryTooLong
  | emptyTopic
  | incompleteWill
  | passwordWithoutUserName
  | invalidConnectFlags
  | willFlagsWithoutWill
  | invalidControlType
  | noTopics
  | tooManyTopics
deriving DecidableEq

namespace Violation

/-- All rules, in the order of their codes. -/
def all : List Violation :=
  [remainingLengthTooLarge, invalidFlags, invalidQoS, stringTooLong, binaryTooLong, emptyTopic,
    incompleteWill, passwordWithoutUserName, invalidConnectFlags, willFlagsWithoutWill,
    invalidControlType, noTopics, tooManyTopics]

/-- The number of the rule; no two rules share one, and none has zero. -/
def code : Violation → Nat
  | remainingLengthTooLarge => 1
  | invalidFlags => 2
  | invalidQoS => 3
  | stringTooLong => 4
  | binaryTooLong => 5
  | emptyTopic => 6
  | incompleteWill => 7
  | passwordWithoutUserName => 8
  | invalidConnectFlags => 9
  | willFlagsWithoutWill => 10
  | invalidControlType => 11
  | noTopics => 12
  | tooManyTopics => 13

/-- The rule of a code, if there is one. -/
def ofCode? (code : Nat) : Option Violation := all.find? fun rule => rule.code == code

/-- The name of the rule, for logs. -/
def name : Violation → String
  | remainingLengthTooLarge => "RemainingLengthTooLarge"
  | invalidFlags => "InvalidFlags"
  | invalidQoS => "InvalidQoS"
  | stringTooLong => "StringTooLong"
  | binaryTooLong => "BinaryTooLong"
  | emptyTopic => "EmptyTopic"
  | incompleteWill => "IncompleteWill"
  | passwordWithoutUserName => "PasswordWithoutUserName"
  | invalidConnectFlags => "InvalidConnectFlags"
  | willFlagsWithoutWill => "WillFlagsWithoutWill"
  | invalidControlType => "InvalidControlType"
  | noTopics => "NoTopics"
  | tooManyTopics => "TooManyTopics"

/-- What went wrong, in words. -/
def message : Violation → String
  | remainingLengthTooLarge => "remaining length exceeds 268435455"
  | invalidFlags => "invalid fixed header flags"
  | invalidQoS => "invalid QoS level"
  | stringTooLong => "string longer than 65535 bytes"
  | binaryTooLong => "binary field longer than 65535 bytes"
  | emptyTopic => "empty topic"
  | incompleteWill => "will topic and will message must be given together"
  | passwordWithoutUserName => "password given without user name"
  | invalidConnectFlags => "connect flags outside writable bits"
  | willFlagsWithoutWill => "will QoS or retain set without a will"
  | invalidControlType => "invalid control type for this packet"
  | noTopics => "no topics given"
  | tooManyTopics => "more than 8 topics given"

theorem mem_all (v : Violation) : v ∈ all := by
  cases v <;> decide

theorem code_pos (v : Violation) : 0 < v.code := by
  cases v <;> decide

@[simp] theorem ofCode?_code (v : Violation) : ofCode? v.code = some v := by
  cases v <;> rfl

theorem code_injective {v w : Violation} (h : v.code = w.code) : v = w := by
  have hv := ofCode?_code v
  rw [h, ofCode?_code w] at hv
  exact (Option.some.inj hv).symm

end Violation

/-! ### Failures -/

/-- **Why writing failed:** a destination that is too short, or a broken rule. -/
inductive EncodeError where
  | bufferTooSmall
  | violation (rule : Violation)
deriving DecidableEq

namespace EncodeError

/-- Does a longer buffer help? -/
def isRetriable : EncodeError → Bool
  | bufferTooSmall => true
  | violation _ => false

/-- The broken rule, if it is one. -/
def violation? : EncodeError → Option Violation
  | bufferTooSmall => none
  | violation rule => some rule

/-- What went wrong, in words. -/
def message : EncodeError → String
  | bufferTooSmall => "buffer too small"
  | violation rule => "protocol violation: " ++ rule.message

/-- The short form for logs: the kind of failure and the name of the rule. -/
def label : EncodeError → String
  | bufferTooSmall => "BufferTooSmall"
  | violation rule => "ProtocolViolation(" ++ rule.name ++ ")"

end EncodeError

/-- Results can be compared. -/
instance decidableEqExcept {ε α : Type} [DecidableEq ε] [DecidableEq α] :
    DecidableEq (Except ε α)
  | .ok a, .ok b => decidable_of_iff (a = b) (by simp)
  | .error a, .error b => decidable_of_iff (a = b) (by simp)
  | .ok _, .error _ => isFalse nofun
  | .error _, .ok _ => isFalse nofun

/-- **A result as one signed number** of a machine word of `bits` bits: a size as it is, but read
in two's complement; zero for a short buffer; minus the code of a broken rule. -/
def signedSize (bits : Nat) : Except EncodeError Nat → Int
  | .ok size => Int.bmod size (1 <<< bits)
  | .error .bufferTooSmall => 0
  | .error (.violation rule) => -(rule.code : Int)

/-- Sizes below half the word's range stand for themselves. -/
theorem signedSize_ok {bits size : Nat} (h : 2 * size < 1 <<< bits) :
    signedSize bits (.ok size) = size := by
  have hm : (size : Int) % (1 <<< bits : Nat) = size :=
    Int.emod_eq_of_lt (by omega) (by omega)
  rw [signedSize, Int.bmod_def, hm, if_pos (by omega)]

end MqttWire
