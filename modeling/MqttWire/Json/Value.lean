/-!
# Values of a settings document

A settings document is written in a lax form of JSON: a quoted text stands for itself, character by
character, and an unquoted word is kept as it is written until someone asks what it means.  So a
value here is a text, a word, an object or an array, and what a number or a truth value is, is said
by the functions that read one.

The members of an object keep their order and their repetitions; `required` and `optional` read the
values found under one key, and refuse a repetition.
-/

namespace MqttWire.Json

/-- **A value of a document.** -/
inductive Value where
  /-- A quoted text, verbatim. -/
  | text (content : String)
  /-- An unquoted word, verbatim. -/
  | word (content : String)
  | object (members : List (String × Value))
  | array (items : List Value)

namespace Value

/-! ### Reading values -/

def text? : Value → Option String
  | text content => some content
  | _ => none

/-- The word `true` or `false`. -/
def bool? : Value → Option Bool
  | word "true" => some true
  | word "false" => some false
  | _ => none

/-- The word `null` for nothing, and anything else for something. -/
def nullable? {α : Type} (read : Value → Option α) : Value → Option (Option α)
  | word "null" => some none
  | value => (read value).map some

/-- The number that one more digit makes of a number, if it is still at most `limit`. -/
def appendDigit? (limit n : Nat) (c : Char) : Option Nat :=
  let longer := 10 * n + (c.toNat - '0'.toNat)
  if c.isDigit && longer ≤ limit then some longer else none

/-- The number written in decimal, without a leading zero, if it is at most `limit`. -/
def numeral? (limit : Nat) : List Char → Option Nat
  | [] => none
  | ['0'] => some 0
  | '0' :: _ :: _ => none
  | digits => digits.foldlM (appendDigit? limit) 0

/-- A number up to `limit`. -/
def nat? (limit : Nat) : Value → Option Nat
  | word content => numeral? limit content.toList
  | _ => none

/-! ### Members of objects -/

def members? : Value → Option (List (String × Value))
  | object members => some members
  | _ => none

/-- The values under a key, in order. -/
def under (key : String) (members : List (String × Value)) : List Value :=
  (members.filter fun member => member.1 == key).map Prod.snd

/-- The one value that must be there. -/
def required {α : Type} (read : Value → Option α) : List Value → Option α
  | [value] => read value
  | _ => none

/-- The one value that may be there, or else a default. -/
def optional {α : Type} (absent : α) (read : Value → Option α) : List Value → Option α
  | [] => some absent
  | [value] => read value
  | _ => none

end Value

end MqttWire.Json
