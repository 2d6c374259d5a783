import MqttWire.Proofs.Given
import MqttWire.Proofs.Standard
import MqttWire.Proofs.Written

/-!
# Unknown members are ignored

Settings depend on the known members of their document only.  Whatever standard entries with other
keys are put in between, at the top or inside the will, the same settings are read
(`Settings.ofJson?_extended`).

The added entries have values, as all that is standard is read, and under no known key do they show
up (`Extended.exists_members`).  Inside the will this keeps the values under every key, and so the
will; at the top the value under `will` is then another one, but one that is read as the same will.
-/

namespace MqttWire

open Json
open Json.Value (under required optional)

namespace Json

/-! ### The members of entries -/

/-- This member is what the entry stands for. -/
structure Entry.Means (e : Entry) (m : String × Value) : Prop where
  key : Quotable e.key
  name : m.1 = String.ofList e.key
  value : Written e.content.value m.2

theorem Entry.IsWritten.exists_means {e : Entry} (h : e.IsWritten) : ∃ m, e.Means m := by
  obtain ⟨value, hvalue⟩ := h.value
  exact ⟨(_, value), h.key, rfl, hvalue⟩

/-- Entries make an object of their members. -/
theorem written_object {es : List Entry} {ms : List (String × Value)}
    (h : List.Forall₂ Entry.Means es ms) (inner : Blanks) :
    Written (Layout.chars ⟨inner, es⟩) (.object ms) := by
  suffices hmembers : ∃ members : List (Entry × Value), members.map Prod.fst = es ∧
      members.map (fun m => (String.ofList m.1.key, m.2)) = ms ∧
      ∀ m ∈ members, Quotable m.1.key ∧ Written m.1.content.value m.2 by
    obtain ⟨members, rfl, rfl, hmembers⟩ := hmembers
    exact .object inner (fun m hm => (hmembers m hm).1) fun m hm => (hmembers m hm).2
  induction h with
  | nil => exact ⟨[], rfl, rfl, List.forall_mem_nil _⟩
  | @cons e m es ms h _ ih =>
    obtain ⟨members, rfl, rfl, hmembers⟩ := ih
    refine ⟨(e, m.2) :: members, rfl, ?_, List.forall_mem_cons.2 ⟨⟨h.key, h.value⟩, hmembers⟩⟩
    rw [List.map_cons, ← h.name]

/-- An object is written as the entries of its members. -/
theorem exists_layout_of_written {cs : List Char} {ms : List (String × Value)}
    (h : Written cs (.object ms)) :
    ∃ o : Layout, cs = o.chars ∧ List.Forall₂ Entry.Means o.entries ms := by
  cases h with
  | @object inner members hkeys hvalues =>
    refine ⟨⟨inner, members.map Prod.fst⟩, rfl, ?_⟩
    rw [List.forall₂_map_left_iff, List.forall₂_map_right_iff, List.forall₂_same]
    exact fun m hm => ⟨hkeys m hm, rfl, hvalues m hm⟩

theorem isWritten_of_means {es : List Entry} {ms : List (String × Value)}
    (h : List.Forall₂ Entry.Means es ms) : ∀ e ∈ es, e.IsWritten := by
  induction h with
  | nil => exact List.forall_mem_nil _
  | cons h _ ih => exact List.forall_mem_cons.2 ⟨⟨h.key, _, h.value⟩, ih⟩

theorem exists_mem_of_means {es : List Entry} {ms : List (String × Value)}
    (h : List.Forall₂ Entry.Means es ms) : ∀ m ∈ ms, ∃ e ∈ es, e.Means m := by
  induction h with
  | nil => exact List.forall_mem_nil _
  | cons h _ ih =>
    refine List.forall_mem_cons.2 ⟨⟨_, List.mem_cons_self, h⟩, fun m hm => ?_⟩
    obtain ⟨e, he, hmeans⟩ := ih m hm
    exact ⟨e, List.mem_cons_of_mem _ he, hmeans⟩

/-- **What more entries change:** nothing under the keys that are not theirs, where the entries that
are the same have the same keys and related values. -/
theorem Extended.exists_members {keys : List String} {same : Entry → Entry → Prop}
    {R : Value → Value → Prop} {es es' : List Entry}
    (hsame : ∀ e e', same e e' → e.IsWritten →
      ∃ m m', e.Means m ∧ e'.Means m' ∧ m.1 = m'.1 ∧ R m.2 m'.2)
    (h : Extended keys same es es') (hes : ∀ e ∈ es, e.IsWritten) :
    ∃ ms ms', List.Forall₂ Entry.Means es ms ∧ List.Forall₂ Entry.Means es' ms' ∧
      ∀ key ∈ keys, List.Forall₂ R (under key ms) (under key ms') := by
  induction h with
  | nil => exact ⟨[], [], .nil, .nil, fun _ _ => .nil⟩
  | @keep e e' es es' h _ ih =>
    obtain ⟨he, hes⟩ := List.forall_mem_cons.1 hes
    obtain ⟨m, m', hm, hm', hkey, hvalue⟩ := hsame e e' h he
    obtain ⟨ms, ms', hms, hms', hunder⟩ := ih hes
    refine ⟨m :: ms, m' :: ms', .cons hm hms, .cons hm' hms', fun key hmem => ?_⟩
    rw [Value.under_cons, Value.under_cons, hkey]
    split
    · exact .cons hvalue (hunder key hmem)
    · exact hunder key hmem
  | @extra e es es' h hkey _ ih =>
    obtain ⟨m, hm⟩ := h.isWritten.exists_means
    obtain ⟨ms, ms', hms, hms', hunder⟩ := ih hes
    refine ⟨ms, m :: ms', hms, .cons hm hms', fun key hmem => ?_⟩
    -- its key is not known, so it stands under none of the keys
    have hne : m.1 ≠ key := fun heq => hkey (hm.name ▸ heq ▸ hmem)
    rw [Value.under_cons, if_neg hne]
    exact hunder key hmem

/-- They may be put in together, in one place. -/
theorem Extended.insert {keys : List String} {same : Entry → Entry → Prop}
    (hsame : ∀ e, same e e) (front extra back : List Entry)
    (hextra : ∀ e ∈ extra, e.IsStandard ∧ String.ofList e.key ∉ keys) :
    Extended keys same (front ++ back) (front ++ (extra ++ back)) := by
  have hback : Extended keys same back back := by
    induction back with
    | nil => exact .nil
    | cons e back ih => exact .keep (hsame e) ih
  have hbehind : Extended keys same back (extra ++ back) := by
    induction extra with
    | nil => exact hback
    | cons e extra ih =>
      obtain ⟨⟨he, hkey⟩, hextra⟩ := List.forall_mem_cons.1 hextra
      exact .extra he hkey (ih hextra)
  induction front with
  | nil => exact hbehind
  | cons e front ih => exact .keep (hsame e) ih

end Json

/-! ### The will -/

theorem WillSettings.ofMembers?_congr {ms ms' : List (String × Value)}
    (h : ∀ key ∈ keys, under key ms = under key ms') : ofMembers? ms = ofMembers? ms' := by
  simp only [keys, List.forall_mem_cons] at h
  obtain ⟨htopic, hmessage, hqos, hretain, -⟩ := h
  rw [ofMembers?, ofMembers?, htopic, hmessage, hqos, hretain]

namespace Settings

/-- **Entries that are the same but for the will,** in which there may be more entries. -/
inductive SameButWill : Entry → Entry → Prop where
  | refl (e : Entry) : SameButWill e e
  | will {before behind beforeValue behindValue inner : Blanks} {es es' : List Entry}
    (hes : ∀ e ∈ es, e.IsWritten) (h : Extended WillSettings.keys Eq es es') :
    SameButWill ⟨before, "will".toList, behind, beforeValue, Layout.chars ⟨inner, es⟩, behindValue⟩
      ⟨before, "will".toList, behind, beforeValue, Layout.chars ⟨inner, es'⟩, behindValue⟩

/-- **Values that are read alike:** they are equal, or objects that give the same will. -/
inductive Alike : Value → Value → Prop where
  | refl (value : Value) : Alike value value
  | object {ms ms' : List (String × Value)}
    (h : WillSettings.ofMembers? ms = WillSettings.ofMembers? ms') :
    Alike (.object ms) (.object ms')

theorem SameButWill.exists_means {e e' : Entry} (h : SameButWill e e') (he : e.IsWritten) :
    ∃ m m', e.Means m ∧ e'.Means m' ∧ m.1 = m'.1 ∧ Alike m.2 m'.2 := by
  cases h with
  | refl =>
    obtain ⟨m, hm⟩ := he.exists_means
    exact ⟨m, m, hm, hm, rfl, .refl _⟩
  | @will before behind beforeValue behindValue inner es es' hes h =>
    obtain ⟨ms, ms', hms, hms', hunder⟩ := h.exists_members (R := Eq) (fun e e' heq he => by
      obtain ⟨m, hm⟩ := he.exists_means
      exact ⟨m, m, hm, heq ▸ hm, rfl, rfl⟩) hes
    have halike : WillSettings.ofMembers? ms = WillSettings.ofMembers? ms' :=
      WillSettings.ofMembers?_congr fun key hkey => by
        simpa using hunder key hkey
    exact ⟨("will", .object ms), ("will", .object ms'), ⟨he.key, rfl, written_object hms inner⟩,
      ⟨he.key, rfl, written_object hms' inner⟩, rfl, .object halike⟩

/-- A reader that sees no more than the will in an object reads them alike. -/
theorem map_eq_of_alike {γ : Type} {read : Value → Option γ} {values values' : List Value}
    (hread : ∀ ms ms', WillSettings.ofMembers? ms = WillSettings.ofMembers? ms' →
      read (.object ms) = read (.object ms'))
    (h : List.Forall₂ Alike values values') : values.map read = values'.map read := by
  induction h with
  | nil => rfl
  | cons h _ ih =>
    rw [List.map_cons, List.map_cons, ih]
    cases h with
    | refl => rfl
    | object h => rw [hread _ _ h]

theorem ofMembers?_congr {ms ms' : List (String × Value)}
    (h : ∀ key ∈ keys, List.Forall₂ Alike (under key ms) (under key ms')) :
    ofMembers? ms = ofMembers? ms' := by
  simp only [keys, List.forall_mem_cons] at h
  obtain ⟨hclientId, hkeepAlive, hsession, hwill, huserName, hpassword, -⟩ := h
  have hsame {γ : Type} {read : Value → Option γ} (hnone : ∀ ms, read (.object ms) = none) :
      ∀ ms ms', WillSettings.ofMembers? ms = WillSettings.ofMembers? ms' →
        read (.object ms) = read (.object ms') :=
    fun ms ms' _ => (hnone ms).trans (hnone ms').symm
  rw [ofMembers?, ofMembers?,
    Value.required_congr (map_eq_of_alike (hsame fun _ => rfl) hclientId),
    Value.optional_congr (map_eq_of_alike (hsame fun _ => rfl) hkeepAlive),
    Value.optional_congr (map_eq_of_alike (hsame fun _ => rfl) hsession),
    Value.optional_congr (map_eq_of_alike (fun _ _ h => congrArg (Option.map some) h) hwill),
    Value.optional_congr (map_eq_of_alike (hsame fun _ => rfl) huserName),
    Value.optional_congr (map_eq_of_alike (hsame fun _ => rfl) hpassword)]

/-! ### Documents -/

/-- What is read of a document is read of the members of its object. -/
theorem ofJson?_document {o : Layout} {ms : List (String × Value)}
    (hms : List.Forall₂ Entry.Means o.entries ms) (before behind : Blanks) :
    ofJson? (o.document before behind) = ofMembers? ms := by
  rw [ofJson?, parse?_document (written_object hms o.inner) rfl]
  rfl

/-- Only an object gives a will. -/
theorem exists_object_of_nullable? {value : Value} {w : WillSettings}
    (h : Value.nullable? WillSettings.ofValue? value = some (some w)) :
    ∃ ms, value = .object ms := by
  cases value with
  | object ms => exact ⟨ms, rfl⟩
  | text content => cases h
  | array items => cases h
  | word content =>
    unfold Value.nullable? at h
    split at h
    · cases h
    · cases h

/-- A document with settings is an object of entries. -/
theorem exists_document_of_ofJson? {document : String} {s : Settings}
    (h : ofJson? document = some s) :
    ∃ before o behind ms, document = Layout.document o before behind ∧
      List.Forall₂ Entry.Means o.entries ms ∧ ofMembers? ms = some s := by
  obtain ⟨value, hvalue, h⟩ := Option.bind_eq_some_iff.1 h
  obtain ⟨_, hobject, h⟩ := Option.bind_eq_some_iff.1 h
  obtain ⟨-, ⟨before, text, behind⟩, hdocument, hwritten⟩ := parse?_eq_some_iff.1 hvalue
  cases value with
  | object ms =>
    obtain rfl := Option.some.inj hobject
    obtain ⟨o, rfl, hmeans⟩ := exists_layout_of_written hwritten
    refine ⟨before, o, behind, ms, String.toList_inj.1 ?_, hmeans, h⟩
    rw [hdocument, Layout.toList_document]
  | _ => cases hobject

/-- One of them is the will, if there is one. -/
theorem exists_will_of_ofMembers? {es : List Entry} {ms : List (String × Value)} {s : Settings}
    (hms : List.Forall₂ Entry.Means es ms) (h : ofMembers? ms = some s) (hsome : s.will ≠ none) :
    ∃ e ∈ es, e.key = "will".toList ∧ ∃ o : Layout, e.content.value = o.chars ∧ o.IsWritten := by
  obtain ⟨w, hw⟩ := Option.ne_none_iff_exists'.1 hsome
  obtain ⟨-, -, -, hwill, -⟩ := ofMembers?_eq_some_iff.1 h
  rw [hw] at hwill
  rcases Value.optional_eq_some_iff.1 hwill with ⟨-, habsurd⟩ | ⟨value, hunder, hread⟩
  · cases habsurd
  · obtain ⟨wms, rfl⟩ := exists_object_of_nullable? hread
    have hmem : ("will", Value.object wms) ∈ ms :=
      Value.mem_under_iff.1 (hunder ▸ List.mem_singleton_self _)
    obtain ⟨e, he, hmeans⟩ := exists_mem_of_means hms _ hmem
    obtain ⟨o, ho, hentries⟩ := exists_layout_of_written hmeans.value
    have hkey : e.key = "will".toList :=
      String.toList_ofList.symm.trans (congrArg String.toList hmeans.name.symm)
    exact ⟨e, he, hkey, o, ho, isWritten_of_means hentries⟩

/-- **Unknown members are ignored.**  A document with settings is an object of entries, one of which
is the will, if it has one.  Whatever standard entries with other keys are put in between, there or
inside the will, the document gives the same settings. -/
theorem ofJson?_extended {document : String} {s : Settings} (h : ofJson? document = some s) :
    (∃ before o behind, document = Layout.document o before behind ∧ o.IsWritten ∧
      (s.will ≠ none → ∃ e ∈ o.entries, e.key = "will".toList ∧
        ∃ will : Layout, e.content.value = will.chars ∧ will.IsWritten)) ∧
    ∀ (before inner behind : Blanks) (es es' : List Entry),
      document = Layout.document ⟨inner, es⟩ before behind → (∀ e ∈ es, e.IsWritten) →
      Extended keys SameButWill es es' →
      ofJson? (Layout.document ⟨inner, es'⟩ before behind) = some s := by
  constructor
  · obtain ⟨before, o, behind, ms, hdocument, hms, hs⟩ := exists_document_of_ofJson? h
    exact ⟨before, o, behind, hdocument, isWritten_of_means hms, exists_will_of_ofMembers? hms hs⟩
  · rintro before inner behind es es' rfl hes hextended
    obtain ⟨ms, ms', hms, hms', hunder⟩ :=
      hextended.exists_members (fun _ _ => SameButWill.exists_means) hes
    rw [ofJson?_document hms] at h
    rw [ofJson?_document hms', ← ofMembers?_congr hunder, h]

/-- A number at the top and a text inside the will. -/
theorem ofJson?_extended_instance :
    let document := "\x7b\"client_id\":\"a\",\"will\":\x7b\"topic\":\"t\",\"message\":\"m\"\x7d\x7d"
    let s : Settings := ⟨"a", 60, true, some ⟨"t", "m", 0, false⟩, none, none⟩
    ofJson? document = some s ∧
      ofJson? ("\x7b\"client_id\":\"a\",\"x\":-1E5,\"will\":\x7b\"topic\":\"t\"," ++
        "\"x\":\"\\\"\",\"message\":\"m\"\x7d\x7d") = some s := by
  intro document s
  let entry (key : String) (value : List Char) : Entry :=
    ⟨noBlanks, key.toList, noBlanks, noBlanks, value, noBlanks⟩
  let clientId := entry "client_id" ['"', 'a', '"']
  let topic := entry "topic" ['"', 't', '"']
  let message := entry "message" ['"', 'm', '"']
  let text := entry "x" ['"', '\\', '"', '"']
  let digit (d : Char) (h : d.isDigit = true) : Digits :=
    ⟨[d], List.cons_ne_nil _ _, List.forall_mem_singleton.2 h⟩
  let number : Number :=
    ⟨true, digit '1' rfl, by decide, none, some ⟨true, none, digit '5' rfl⟩⟩
  have hclientId : clientId.Means ("client_id", .text "a") :=
    ⟨by decide, rfl, @Written.text ['a'] (by decide)⟩
  have htopic : topic.Means ("topic", .text "t") :=
    ⟨by decide, rfl, @Written.text ['t'] (by decide)⟩
  have hmessage : message.Means ("message", .text "m") :=
    ⟨by decide, rfl, @Written.text ['m'] (by decide)⟩
  have hmembers := List.Forall₂.cons htopic (.cons hmessage .nil)
  have hwill := written_object hmembers noBlanks
  have hx : StandardText ['x'] := .plain (by decide) (by decide) (by decide) .nil
  have hextended : Extended keys SameButWill
      [clientId, entry "will" (Layout.chars ⟨noBlanks, [topic, message]⟩)]
      [clientId, entry "x" number.chars,
        entry "will" (Layout.chars ⟨noBlanks, [topic, text, message]⟩)] :=
    .keep (.refl _) (.extra ⟨hx, .number number⟩ (by decide)
      (.keep (.will (isWritten_of_means hmembers) (.insert (fun _ => rfl) [topic] [text] [message]
        (List.forall_mem_singleton.2
          ⟨⟨hx, @Standard.text ['\\', '"'] (.escape (by decide) .nil)⟩, by decide⟩))) .nil))
  have hes : ∀ e ∈ [clientId, entry "will" (Layout.chars ⟨noBlanks, [topic, message]⟩)],
      e.IsWritten :=
    List.forall_mem_cons.2 ⟨⟨hclientId.key, _, hclientId.value⟩,
      List.forall_mem_singleton.2 ⟨by decide, _, hwill⟩⟩
  have h : ofJson? document = some s := by decide
  have hmore := (ofJson?_extended h).2 noBlanks noBlanks noBlanks _ _
    (String.toList_inj.1 (by rw [Layout.toList_document]; decide)) hes hextended
  refine ⟨h, (congrArg ofJson? (String.toList_inj.1 ?_)).trans hmore⟩
  rw [Layout.toList_document]
  decide

end Settings

end MqttWire
