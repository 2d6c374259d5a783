import MqttWire.Json.Written
import MqttWire.Settings

/-!
# Documents that give settings

The documents that consist of known members only, each with a value of the kind that its key wants.
The members may stand in any order; nothing keeps one from being given twice, or left out, or a
number from being too large.  When such a document gives no settings is said by `Settings.Faulty`,
and which settings it gives otherwise by `Settings.GivenBy`.
-/

namespace MqttWire

open Json

/-! ### Members in their places -/

/-- A text that may stand between quotes. -/
abbrev Text : Type := { s : String // Quotable s.toList }

def quoted (t : Text) : List Char := '"' :: (t.1.toList ++ ['"'])

/-- **A member and the blanks around its parts.** -/
structure Placed (α : Type) where
  before : Blanks
  member : α
  behindKey : Blanks
  beforeValue : Blanks
  behind : Blanks

/-- **An object of such members.** -/
structure ObjectOf (α : Type) where
  /-- The blanks behind the brace. -/
  inner : Blanks
  placed : List (Placed α)

namespace ObjectOf

variable {α : Type} (o : ObjectOf α)

def members : List α := o.placed.map Placed.member

/-- The object as it is written, if its members have these keys and these values. -/
def layout (key : α → String) (chars : α → List Char) : Layout where
  inner := o.inner
  entries := o.placed.map fun p =>
    ⟨p.before, (key p.member).toList, p.behindKey, p.beforeValue, chars p.member, p.behind⟩

end ObjectOf

/-! ### The will -/

namespace WillSettings

/-- The keys that mean something in a will. -/
def keys : List String := ["topic", "message", "qos", "retain"]

/-- **A member of a will.** -/
inductive Member where
  | topic (text : Text)
  | message (text : Text)
  | qos (n : Nat)
  | retain (on : Bool)

namespace Member

def key : Member → String
  | topic _ => "topic"
  | message _ => "message"
  | qos _ => "qos"
  | retain _ => "retain"

/-- Its value as it is written: numbers in decimal, without leading zeros. -/
def chars : Member → List Char
  | topic text | message text => quoted text
  | qos n => Nat.toDigits 10 n
  | retain on => (toString on).toList

end Member

/-- **These members give no will:** one of them is repeated, or one that must be there is not, or
the quality of service does not fit. -/
inductive Faulty (ms : List Member) : Prop where
  | repeated (h : ¬ (ms.map Member.key).Nodup)
  | noTopic (h : ∀ text, .topic text ∉ ms)
  | noMessage (h : ∀ text, .message text ∉ ms)
  | qosTooLarge (n : Nat) (h : .qos n ∈ ms) (hn : 255 < n)

/-- **The will is the one these members give.** -/
structure GivenBy (w : WillSettings) (ms : List Member) : Prop where
  topic : ∀ text : Text, .topic text ∈ ms → w.topic = text
  message : ∀ text : Text, .message text ∈ ms → w.message = text
  qos : ∀ n, .qos n ∈ ms → w.qos.toNat = n
  qos_absent : (∀ n, .qos n ∉ ms) → w.qos = 0
  retain : ∀ on, .retain on ∈ ms → w.retain = on
  retain_absent : (∀ on, .retain on ∉ ms) → w.retain = false

end WillSettings

/-! ### Settings -/

namespace Settings

/-- The keys that mean something in a settings document. -/
def keys : List String :=
  ["client_id", "keep_alive", "clean_session", "will", "user_name", "password"]

/-- **A member of a settings document;** those that may be left out on purpose may be `null`. -/
inductive Member where
  | clientId (text : Text)
  | keepAlive (n : Nat)
  | cleanSession (on : Bool)
  | will (object : Option (ObjectOf WillSettings.Member))
  | userName (text : Option Text)
  | password (text : Option Text)

namespace Member

def key : Member → String
  | clientId _ => "client_id"
  | keepAlive _ => "keep_alive"
  | cleanSession _ => "clean_session"
  | will _ => "will"
  | userName _ => "user_name"
  | password _ => "password"

/-- Its value as it is written. -/
def chars : Member → List Char
  | clientId text => quoted text
  | keepAlive n => Nat.toDigits 10 n
  | cleanSession on => (toString on).toList
  | will (some object) => (object.layout WillSettings.Member.key WillSettings.Member.chars).chars
  | userName (some text) | password (some text) => quoted text
  | will none | userName none | password none => "null".toList

end Member

/-- **These members give no settings:** one of them is repeated, or the client has no name, or the
will is no will, or the keep-alive does not fit. -/
inductive Faulty (ms : List Member) : Prop where
  | repeated (h : ¬ (ms.map Member.key).Nodup)
  | noClientId (h : ∀ text, .clientId text ∉ ms)
  | badWill (object : ObjectOf WillSettings.Member) (h : .will (some object) ∈ ms)
    (hwill : WillSettings.Faulty object.members)
  | keepAliveTooLarge (n : Nat) (h : .keepAlive n ∈ ms) (hn : 65535 < n)

/-- **The settings are those these members give.** -/
structure GivenBy (s : Settings) (ms : List Member) : Prop where
  clientId : ∀ text : Text, .clientId text ∈ ms → s.clientId = text
  keepAlive : ∀ n, .keepAlive n ∈ ms → s.keepAlive.toNat = n
  keepAlive_absent : (∀ n, .keepAlive n ∉ ms) → s.keepAlive = 60
  cleanSession : ∀ on, .cleanSession on ∈ ms → s.cleanSession = on
  cleanSession_absent : (∀ on, .cleanSession on ∉ ms) → s.cleanSession = true
  will : ∀ object, .will (some object) ∈ ms → ∃ w, s.will = some w ∧ w.GivenBy object.members
  will_null : .will none ∈ ms → s.will = none
  will_absent : (∀ object, .will object ∉ ms) → s.will = none
  userName : ∀ text, .userName text ∈ ms → s.userName = text.map Subtype.val
  userName_absent : (∀ text, .userName text ∉ ms) → s.userName = none
  password : ∀ text, .password text ∈ ms → s.password = text.map Subtype.val
  password_absent : (∀ text, .password text ∉ ms) → s.password = none

/-- **A document of known members,** and the blanks around it. -/
structure Document where
  before : Blanks
  object : ObjectOf Member
  behind : Blanks

namespace Document

def members (d : Document) : List Member := d.object.members

def text (d : Document) : String :=
  (d.object.layout Member.key Member.chars).document d.before d.behind

end Document

end Settings

end MqttWire
