import MqttWire.Proofs.Document
import MqttWire.Proofs.Values
import MqttWire.Settings.Document

/-!
# What a document of known members gives

Such a document is read as its members, in their order, and what they give depends on no more than
which of them are there: where no key is repeated, the reader of a key finds the one member with it
or none (`exists_optional`, `exists_required`).  So the settings are given by the members, unless
these are faulty (`Settings.ofJson?_text`).
-/

namespace MqttWire

open Json
open Json.Value (under required optional)

/-! ### Members under a key -/

section Members

variable {α β γ : Type} {key : α → String} {value : α → Value} {ms : List α} {k : String}
  {read : Value → Option γ} {absent c : γ}

/-- The members as they are read. -/
def pairs (key : α → String) (value : α → Value) (ms : List α) : List (String × Value) :=
  ms.map fun m => (key m, value m)

theorem mem_under_pairs {m : α} (hm : m ∈ ms) (hk : key m = k) :
    value m ∈ under k (pairs key value ms) :=
  Value.mem_under_iff.2 (hk ▸ List.mem_map_of_mem (f := fun m => (key m, value m)) hm)

theorem under_pairs_eq_nil (h : ∀ m ∈ ms, key m ≠ k) : under k (pairs key value ms) = [] :=
  Value.under_eq_nil (List.forall_mem_map.2 h)

/-- Where no key is repeated, there is one member with a key, or none. -/
theorem under_pairs (hnodup : (ms.map key).Nodup) (k : String) :
    ((∀ m ∈ ms, key m ≠ k) ∧ under k (pairs key value ms) = []) ∨
      ∃ m ∈ ms, (∀ m' ∈ ms, key m' = k → m' = m) ∧ key m = k ∧
        under k (pairs key value ms) = [value m] := by
  induction ms with
  | nil => exact .inl ⟨List.forall_mem_nil _, rfl⟩
  | cons m ms ih =>
    obtain ⟨hm, hnodup⟩ := List.nodup_cons.1 hnodup
    rw [pairs, List.map_cons, Value.under_cons]
    by_cases hk : key m = k
    · have hne : ∀ m' ∈ ms, key m' ≠ k := fun m' hm' h =>
        hm (hk.trans h.symm ▸ List.mem_map_of_mem hm')
      refine .inr ⟨m, List.mem_cons_self, ?_, hk, ?_⟩
      · rw [List.forall_mem_cons]
        exact ⟨fun _ => rfl, fun m' hm' h => absurd h (hne m' hm')⟩
      · rw [if_pos hk]
        exact congrArg _ (under_pairs_eq_nil hne)
    · rw [if_neg hk]
      rcases ih hnodup with ⟨hne, hunder⟩ | ⟨m', hm', honly, hkey, hunder⟩
      · exact .inl ⟨List.forall_mem_cons.2 ⟨hk, hne⟩, hunder⟩
      · refine .inr ⟨m', List.mem_cons_of_mem m hm', ?_, hkey, hunder⟩
        rw [List.forall_mem_cons]
        exact ⟨fun h => absurd h hk, honly⟩

variable {make : β → α}

/-- **A member that may be left out:** its value is read, or else the default stands. -/
theorem exists_optional (value : α → Value) (read : Value → Option γ) (P : β → γ → Prop)
    (absent : γ) (hnodup : (ms.map key).Nodup) (hmake : ∀ m, key m = k ↔ ∃ b, make b = m)
    (hread : ∀ b, make b ∈ ms → ∃ c, read (value (make b)) = some c ∧ P b c) :
    ∃ c, optional absent read (under k (pairs key value ms)) = some c ∧
      (∀ b, make b ∈ ms → P b c) ∧ ((∀ b, make b ∉ ms) → c = absent) := by
  have hkey (b : β) : key (make b) = k := (hmake _).2 ⟨b, rfl⟩
  rcases under_pairs hnodup k with ⟨hne, hunder⟩ | ⟨m, hm, honly, hk, hunder⟩
  · exact ⟨absent, by rw [hunder]; rfl, fun b hb => absurd (hkey b) (hne _ hb), fun _ => rfl⟩
  · obtain ⟨b, rfl⟩ := (hmake m).1 hk
    obtain ⟨c, hc, -⟩ := hread b hm
    refine ⟨c, by rw [hunder]; exact hc, fun b' hb' => ?_, fun habsent => absurd hm (habsent b)⟩
    obtain ⟨c', hc', hP⟩ := hread b' hb'
    rw [honly _ hb' (hkey b'), hc] at hc'
    exact Option.some.inj hc' ▸ hP

/-- **A member that must be there:** its value is read. -/
theorem exists_required (value : α → Value) (read : Value → Option γ) (P : β → γ → Prop)
    (hnodup : (ms.map key).Nodup) (hmake : ∀ m, key m = k ↔ ∃ b, make b = m)
    (hread : ∀ b, make b ∈ ms → ∃ c, read (value (make b)) = some c ∧ P b c)
    (hgiven : ∃ b, make b ∈ ms) :
    ∃ c, required read (under k (pairs key value ms)) = some c ∧ ∀ b, make b ∈ ms → P b c := by
  obtain ⟨b, hb⟩ := hgiven
  obtain ⟨absent, -⟩ := hread b hb
  obtain ⟨c, hc, hP, -⟩ := exists_optional value read P absent hnodup hmake hread
  have hne : under k (pairs key value ms) ≠ [] :=
    List.ne_nil_of_mem (mem_under_pairs hb ((hmake _).2 ⟨b, rfl⟩))
  exact ⟨c, (Value.required_eq_optional hne absent).trans hc, hP⟩

/-- Where there must be a member, there is one. -/
theorem exists_mem_of_required (hmake : ∀ m, key m = k ↔ ∃ b, make b = m)
    (h : required read (under k (pairs key value ms)) = some c) : ∃ b, make b ∈ ms := by
  by_contra hnone
  rw [under_pairs_eq_nil] at h
  · cases h
  · intro m hm hk
    obtain ⟨b, rfl⟩ := (hmake m).1 hk
    exact hnone ⟨b, hm⟩

/-- Where every key that is known has one member at most, no key is repeated. -/
theorem nodup_of_length_under_le (value : α → Value) {keys : List String}
    (hkeys : ∀ m ∈ ms, key m ∈ keys)
    (h : ∀ k ∈ keys, (under k (pairs key value ms)).length ≤ 1) : (ms.map key).Nodup := by
  have hnodup := Value.nodup_of_length_under_le (List.forall_mem_map.2 hkeys) h
  rwa [List.map_map] at hnodup

end Members

/-! ### Written members -/

theorem written_quoted (t : Text) : Written (quoted t) (.text t.1) := by
  have h := Written.text t.2
  rwa [String.ofList_toList] at h

theorem written_decimal (n : Nat) :
    Written (Nat.toDigits 10 n) (Value.decimal n) :=
  .word (Value.isWord_toDigits n)

theorem written_bool (on : Bool) : Written (toString on).toList (.word (toString on)) := by
  cases on <;> exact .word (by decide)

theorem written_null : Written "null".toList (.word "null") := .word (by decide)

theorem ObjectOf.written {α : Type} {key : α → String} {chars : α → List Char} {value : α → Value}
    (hkey : ∀ m, Quotable (key m).toList) (h : ∀ m, Written (chars m) (value m)) (o : ObjectOf α) :
    Written (o.layout key chars).chars (.object (pairs key value o.members)) := by
  have hwritten := @Written.object o.inner (o.placed.map fun p =>
    (⟨p.before, (key p.member).toList, p.behindKey, p.beforeValue, chars p.member, p.behind⟩,
      value p.member)) (List.forall_mem_map.2 fun p _ => hkey p.member)
    (List.forall_mem_map.2 fun p _ => h p.member)
  simpa [ObjectOf.layout, pairs, ObjectOf.members, Function.comp_def] using hwritten

namespace WillSettings

namespace Member

/-- What its value is read as. -/
def value : Member → Value
  | topic text | message text => .text text
  | qos n => .decimal n
  | retain on => .word (toString on)

theorem key_mem_keys (m : Member) : m.key ∈ keys := by
  cases m <;> simp [key, keys]

theorem quotable_key (m : Member) : Quotable m.key.toList :=
  have hkeys : ∀ key ∈ keys, Quotable key.toList := by decide
  hkeys _ m.key_mem_keys

theorem written (m : Member) : Written m.chars m.value := by
  cases m with
  | topic text | message text => exact written_quoted text
  | qos n => exact written_decimal n
  | retain on => exact written_bool on

end Member

/-! ### The will -/

theorem ofMembers?_eq_some_iff {members : List (String × Value)} {w : WillSettings} :
    ofMembers? members = some w ↔
      required Value.text? (under "topic" members) = some w.topic ∧
      required Value.text? (under "message" members) = some w.message ∧
      (∃ n, optional 0 (Value.nat? 255) (under "qos" members) = some n ∧ UInt8.ofNat n = w.qos) ∧
      optional false Value.bool? (under "retain" members) = some w.retain := by
  simp only [ofMembers?, bind, pure, Option.bind_eq_some_iff]
  constructor
  · rintro ⟨topic, htopic, message, hmessage, n, hqos, retain, hretain, ⟨⟩⟩
    exact ⟨htopic, hmessage, ⟨n, hqos, rfl⟩, hretain⟩
  · rintro ⟨htopic, hmessage, ⟨n, hqos, hn⟩, hretain⟩
    exact ⟨_, htopic, _, hmessage, n, hqos, _, hretain, by rw [hn]⟩

namespace Member

variable {m : Member}

theorem key_eq_topic : m.key = "topic" ↔ ∃ text, topic text = m := by
  cases m <;> simp [key]

theorem key_eq_message : m.key = "message" ↔ ∃ text, message text = m := by
  cases m <;> simp [key]

theorem key_eq_qos : m.key = "qos" ↔ ∃ n, qos n = m := by
  cases m <;> simp [key]

theorem key_eq_retain : m.key = "retain" ↔ ∃ on, retain on = m := by
  cases m <;> simp [key]

end Member

/-- Members that give a will are not faulty. -/
theorem not_faulty_of_ofMembers? {ms : List Member} {w : WillSettings}
    (h : ofMembers? (pairs Member.key Member.value ms) = some w) : ¬ Faulty ms := by
  obtain ⟨htopic, hmessage, ⟨n, hqos, -⟩, hretain⟩ := ofMembers?_eq_some_iff.1 h
  rintro (hrepeated | hnone | hnone | ⟨n', hn', hlarge⟩)
  · refine hrepeated (nodup_of_length_under_le Member.value
      (fun m _ => m.key_mem_keys) ?_)
    simp only [keys, List.forall_mem_cons]
    exact ⟨Value.length_le_of_required htopic, Value.length_le_of_required hmessage,
      Value.length_le_of_optional hqos, Value.length_le_of_optional hretain, List.forall_mem_nil _⟩
  · obtain ⟨text, htext⟩ := exists_mem_of_required (fun _ => Member.key_eq_topic) htopic
    exact hnone text htext
  · obtain ⟨text, htext⟩ := exists_mem_of_required (fun _ => Member.key_eq_message) hmessage
    exact hnone text htext
  · have hread := Value.read_of_optional hqos (mem_under_pairs hn' rfl)
    rw [Member.value, Value.nat?_decimal, if_neg (by omega)] at hread
    cases hread

/-- Members that are not faulty give a will. -/
theorem exists_givenBy {ms : List Member} (h : ¬ Faulty ms) :
    ∃ w, ofMembers? (pairs Member.key Member.value ms) = some w ∧ w.GivenBy ms := by
  have hnodup : (ms.map Member.key).Nodup := by_contra fun hrepeated => h (.repeated hrepeated)
  obtain ⟨topic, htopic, htopicIs⟩ :=
    exists_required Member.value Value.text? (fun text topic => topic = text.1) hnodup
      (fun _ => Member.key_eq_topic) (fun text _ => ⟨text, rfl, rfl⟩)
      (by_contra fun hnone => h (.noTopic fun text htext => hnone ⟨text, htext⟩))
  obtain ⟨message, hmessage, hmessageIs⟩ :=
    exists_required Member.value Value.text? (fun text message => message = text.1) hnodup
      (fun _ => Member.key_eq_message) (fun text _ => ⟨text, rfl, rfl⟩)
      (by_contra fun hnone => h (.noMessage fun text htext => hnone ⟨text, htext⟩))
  obtain ⟨qos, hqos, hqosIs, hnoQos⟩ :=
    exists_optional Member.value (Value.nat? 255) (fun n qos => qos = n ∧ n ≤ 255) 0 hnodup
      (fun _ => Member.key_eq_qos) fun n hn =>
        Value.exists_nat?_decimal (Nat.not_lt.1 fun hlarge => h (.qosTooLarge n hn hlarge))
  obtain ⟨retain, hretain, hretainIs, hnoRetain⟩ :=
    exists_optional Member.value Value.bool? (fun on retain => retain = on) false hnodup
      (fun _ => Member.key_eq_retain) fun on _ => ⟨on, Value.bool?_toString on, rfl⟩
  refine ⟨⟨topic, message, UInt8.ofNat qos, retain⟩,
    ofMembers?_eq_some_iff.2 ⟨htopic, hmessage, ⟨qos, hqos, rfl⟩, hretain⟩,
    htopicIs, hmessageIs, fun n hn => ?_, fun hnone => ?_, hretainIs, hnoRetain⟩
  · obtain ⟨rfl, hle⟩ := hqosIs n hn
    exact UInt8.toNat_ofNat_of_lt (Nat.lt_succ_of_le hle)
  · rw [hnoQos hnone]
    rfl

end WillSettings

namespace Settings

/-- What a text is read as that may be `null`. -/
def textOrNull : Option Text → Value
  | some text => .text text
  | none => .word "null"

theorem nullable?_textOrNull (text : Option Text) :
    Value.nullable? Value.text? (textOrNull text) = some (text.map Subtype.val) := by
  cases text <;> rfl

namespace Member

/-- What its value is read as. -/
def value : Member → Value
  | clientId text => .text text
  | keepAlive n => .decimal n
  | cleanSession on => .word (toString on)
  | will (some object) =>
    .object (pairs WillSettings.Member.key WillSettings.Member.value object.members)
  | will none => .word "null"
  | userName text | password text => textOrNull text

theorem key_mem_keys (m : Member) : m.key ∈ keys := by
  cases m <;> simp [key, keys]

theorem quotable_key (m : Member) : Quotable m.key.toList :=
  have hkeys : ∀ key ∈ keys, Quotable key.toList := by decide
  hkeys _ m.key_mem_keys

theorem written (m : Member) : Written m.chars m.value := by
  match m with
  | clientId text => exact written_quoted text
  | keepAlive n => exact written_decimal n
  | cleanSession on => exact written_bool on
  | will (some object) =>
    exact object.written WillSettings.Member.quotable_key WillSettings.Member.written
  | will none | userName none | password none => exact written_null
  | userName (some text) | password (some text) => exact written_quoted text

variable {m : Member}

theorem key_eq_client_id : m.key = "client_id" ↔ ∃ text, clientId text = m := by
  cases m <;> simp [key]

theorem key_eq_keep_alive : m.key = "keep_alive" ↔ ∃ n, keepAlive n = m := by
  cases m <;> simp [key]

theorem key_eq_clean_session : m.key = "clean_session" ↔ ∃ on, cleanSession on = m := by
  cases m <;> simp [key]

theorem key_eq_will : m.key = "will" ↔ ∃ object, will object = m := by
  cases m <;> simp [key]

theorem key_eq_user_name : m.key = "user_name" ↔ ∃ text, userName text = m := by
  cases m <;> simp [key]

theorem key_eq_password : m.key = "password" ↔ ∃ text, password text = m := by
  cases m <;> simp [key]

end Member

/-! ### Settings -/

theorem ofMembers?_eq_some_iff {members : List (String × Value)} {s : Settings} :
    ofMembers? members = some s ↔
      required Value.text? (under "client_id" members) = some s.clientId ∧
      (∃ n, optional 60 (Value.nat? 65535) (under "keep_alive" members) = some n ∧
        UInt16.ofNat n = s.keepAlive) ∧
      optional true Value.bool? (under "clean_session" members) = some s.cleanSession ∧
      optional none (Value.nullable? WillSettings.ofValue?) (under "will" members) = some s.will ∧
      optional none (Value.nullable? Value.text?) (under "user_name" members) = some s.userName ∧
      optional none (Value.nullable? Value.text?) (under "password" members) =
        some s.password := by
  simp only [ofMembers?, bind, pure, Option.bind_eq_some_iff]
  constructor
  · rintro ⟨clientId, hclientId, n, hkeepAlive, session, hsession, will, hwill, userName, huserName,
      password, hpassword, ⟨⟩⟩
    exact ⟨hclientId, ⟨n, hkeepAlive, rfl⟩, hsession, hwill, huserName, hpassword⟩
  · rintro ⟨hclientId, ⟨n, hkeepAlive, hn⟩, hsession, hwill, huserName, hpassword⟩
    exact ⟨_, hclientId, n, hkeepAlive, _, hsession, _, hwill, _, huserName, _, hpassword,
      by rw [hn]⟩

/-- Members that give settings are not faulty. -/
theorem not_faulty_of_ofMembers? {ms : List Member} {s : Settings}
    (h : ofMembers? (pairs Member.key Member.value ms) = some s) : ¬ Faulty ms := by
  obtain ⟨hclientId, ⟨n, hkeepAlive, -⟩, hsession, hwill, huserName, hpassword⟩ :=
    ofMembers?_eq_some_iff.1 h
  rintro (hrepeated | hnone | ⟨object, hobject, hfaulty⟩ | ⟨n', hn', hlarge⟩)
  · refine hrepeated (nodup_of_length_under_le Member.value
      (fun m _ => m.key_mem_keys) ?_)
    simp only [keys, List.forall_mem_cons]
    exact ⟨Value.length_le_of_required hclientId, Value.length_le_of_optional hkeepAlive,
      Value.length_le_of_optional hsession, Value.length_le_of_optional hwill,
      Value.length_le_of_optional huserName, Value.length_le_of_optional hpassword,
      List.forall_mem_nil _⟩
  · obtain ⟨text, htext⟩ := exists_mem_of_required (fun _ => Member.key_eq_client_id) hclientId
    exact hnone text htext
  · have hread := Value.read_of_optional hwill (mem_under_pairs hobject rfl)
    obtain ⟨w, hw, -⟩ := Option.map_eq_some_iff.1 hread
    exact WillSettings.not_faulty_of_ofMembers? hw hfaulty
  · have hread := Value.read_of_optional hkeepAlive (mem_under_pairs hn' rfl)
    rw [Member.value, Value.nat?_decimal, if_neg (by omega)] at hread
    cases hread

/-- The will is the one that this object gives, or there is none. -/
def WillGiven : Option (ObjectOf WillSettings.Member) → Option WillSettings → Prop
  | some object, will => ∃ w, will = some w ∧ w.GivenBy object.members
  | none, will => will = none

/-- Members that are not faulty give settings. -/
theorem exists_givenBy {ms : List Member} (h : ¬ Faulty ms) :
    ∃ s, ofMembers? (pairs Member.key Member.value ms) = some s ∧ s.GivenBy ms := by
  have hnodup : (ms.map Member.key).Nodup := by_contra fun hrepeated => h (.repeated hrepeated)
  have hisWill : ∀ object, .will object ∈ ms → ∃ will,
      Value.nullable? WillSettings.ofValue? (Member.will object).value = some will ∧
        WillGiven object will := by
    rintro (_ | o) ho
    · exact ⟨none, rfl, rfl⟩
    · obtain ⟨w, hw, hgiven⟩ := WillSettings.exists_givenBy fun hfaulty => h (.badWill o ho hfaulty)
      exact ⟨some w, Option.map_eq_some_iff.2 ⟨w, hw, rfl⟩, w, rfl, hgiven⟩
  obtain ⟨clientId, hclientId, hclientIdIs⟩ :=
    exists_required Member.value Value.text? (fun text clientId => clientId = text.1) hnodup
      (fun _ => Member.key_eq_client_id) (fun text _ => ⟨text, rfl, rfl⟩)
      (by_contra fun hnone => h (.noClientId fun text htext => hnone ⟨text, htext⟩))
  obtain ⟨n, hkeepAlive, hkeepAliveIs, hnoKeepAlive⟩ :=
    exists_optional Member.value (Value.nat? 65535) (fun n n' => n' = n ∧ n ≤ 65535) 60 hnodup
      (fun _ => Member.key_eq_keep_alive) fun n hn =>
        Value.exists_nat?_decimal (Nat.not_lt.1 fun hlarge => h (.keepAliveTooLarge n hn hlarge))
  obtain ⟨session, hsession, hsessionIs, hnoSession⟩ :=
    exists_optional Member.value Value.bool? (fun on session => session = on) true hnodup
      (fun _ => Member.key_eq_clean_session) fun on _ => ⟨on, Value.bool?_toString on, rfl⟩
  obtain ⟨will, hwill, hwillIs, hnoWill⟩ :=
    exists_optional Member.value (Value.nullable? WillSettings.ofValue?) WillGiven none hnodup
      (fun _ => Member.key_eq_will) hisWill
  obtain ⟨userName, huserName, huserNameIs, hnoUserName⟩ :=
    exists_optional Member.value (Value.nullable? Value.text?)
      (fun text userName => userName = text.map Subtype.val) none hnodup
      (fun _ => Member.key_eq_user_name) fun text _ => ⟨_, nullable?_textOrNull text, rfl⟩
  obtain ⟨password, hpassword, hpasswordIs, hnoPassword⟩ :=
    exists_optional Member.value (Value.nullable? Value.text?)
      (fun text password => password = text.map Subtype.val) none hnodup
      (fun _ => Member.key_eq_password) fun text _ => ⟨_, nullable?_textOrNull text, rfl⟩
  refine ⟨⟨clientId, UInt16.ofNat n, session, will, userName, password⟩,
    ofMembers?_eq_some_iff.2
      ⟨hclientId, ⟨n, hkeepAlive, rfl⟩, hsession, hwill, huserName, hpassword⟩,
    hclientIdIs, fun n' hn' => ?_, fun hnone => ?_, hsessionIs, hnoSession,
    fun o ho => hwillIs (some o) ho, fun ho => hwillIs none ho, hnoWill,
    huserNameIs, hnoUserName, hpasswordIs, hnoPassword⟩
  · obtain ⟨rfl, hle⟩ := hkeepAliveIs n' hn'
    exact UInt16.toNat_ofNat_of_lt (Nat.lt_succ_of_le hle)
  · rw [hnoKeepAlive hnone]
    rfl

/-! ### Documents -/

/-- A document of known members is read as its members. -/
theorem ofJson?_text_eq (d : Document) :
    ofJson? d.text = ofMembers? (pairs Member.key Member.value d.members) := by
  have hparse : Json.parse? d.text = some (.object (pairs Member.key Member.value d.members)) :=
    parse?_document (d.object.written Member.quotable_key Member.written) rfl _ _
  rw [ofJson?, hparse]
  rfl

/-- **What a document of known members gives.**  It gives no settings exactly if its members are
faulty, and the settings that the members give otherwise. -/
theorem ofJson?_text (d : Document) :
    (ofJson? d.text = none ↔ Faulty d.members) ∧
      (¬ Faulty d.members → ∃ s, ofJson? d.text = some s ∧ s.GivenBy d.members) := by
  rw [ofJson?_text_eq]
  refine ⟨⟨fun hnone => ?_, fun hfaulty => ?_⟩, exists_givenBy⟩
  · by_contra h
    obtain ⟨s, hs, -⟩ := exists_givenBy h
    rw [hnone] at hs
    cases hs
  · exact Option.eq_none_iff_forall_ne_some.2 fun s hs => not_faulty_of_ofMembers? hs hfaulty

example :
    let place (m : Member) : Placed Member :=
      ⟨noBlanks, m, noBlanks, ⟨[' '], by simp [isBlank]⟩, noBlanks⟩
    let members := [place (.keepAlive 15), place (.clientId ⟨"a", by decide⟩)]
    let d : Document := ⟨noBlanks, ⟨noBlanks, members⟩, noBlanks⟩
    d.text = "\x7b\"keep_alive\": 15,\"client_id\": \"a\"\x7d" ∧
      ofJson? d.text = some ⟨"a", 15, true, none, none, none⟩ := by
  decide

end Settings

end MqttWire
