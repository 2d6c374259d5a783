import MqttWire.Proofs.Document
import MqttWire.Settings

/-!
# Documents that go on or are cut short

A document with a value says where it ends: behind the value only blanks are read, and no part of
the document in front of its last character has a value of its own (`Settings.ofJson?_append`).  So
settings that were cut short are never taken for other settings.
-/

namespace MqttWire

open Json (isBlank parse?)

namespace Json

/-! ### Behind the value -/

/-- Behind the value of a document there are only blanks, and they change nothing. -/
theorem State.run_done_eq_some_iff {value : Value} {cs : List Char} {s : State} :
    (done value).run cs = some s ↔ s = done value ∧ ∀ c ∈ cs, isBlank c = true := by
  induction cs with
  | nil =>
    rw [run_nil, Option.some.injEq, and_iff_left (List.forall_mem_nil _)]
    exact eq_comm
  | cons c cs ih =>
    rw [run_cons, step, continue?, List.forall_mem_cons]
    by_cases hc : isBlank c = true
    · rw [if_pos hc, Option.bind_some, ih, and_iff_right hc]
    · rw [if_neg hc, Option.bind_none]
      constructor
      · intro h
        cases h
      · exact fun h => absurd h.2.1 hc

theorem parse?_append_eq_some_iff {document : String} {value : Value}
    (h : parse? document = some value) (more : String) {value' : Value} :
    parse? (document ++ more) = some value' ↔
      value' = value ∧ ∀ c ∈ more.toList, isBlank c = true := by
  obtain ⟨s, hs, hresult⟩ := Option.bind_eq_some_iff.1 h
  obtain rfl := State.result?_eq_some_iff.1 hresult
  rw [parse?, String.toList_append, State.run_append, hs, Option.bind_some,
    Option.bind_eq_some_iff]
  constructor
  · rintro ⟨s, hs, hresult⟩
    obtain ⟨rfl, hmore⟩ := State.run_done_eq_some_iff.1 hs
    exact ⟨(Option.some.inj hresult).symm, hmore⟩
  · rintro ⟨rfl, hmore⟩
    exact ⟨_, State.run_done_eq_some_iff.2 ⟨rfl, hmore⟩, rfl⟩

end Json

namespace Settings

/-! ### Settings -/

theorem ofJson?_append_eq_some_iff {document : String} {s : Settings}
    (h : ofJson? document = some s) (more : String) {s' : Settings} :
    ofJson? (document ++ more) = some s' ↔ s' = s ∧ ∀ c ∈ more.toList, isBlank c = true := by
  obtain ⟨value, hvalue, h⟩ := Option.bind_eq_some_iff.1 h
  constructor
  · intro h'
    obtain ⟨value', hvalue', h'⟩ := Option.bind_eq_some_iff.1 h'
    obtain ⟨rfl, hmore⟩ := (Json.parse?_append_eq_some_iff hvalue more).1 hvalue'
    rw [h] at h'
    exact ⟨(Option.some.inj h').symm, hmore⟩
  · rintro ⟨rfl, hmore⟩
    exact Option.bind_eq_some_iff.2
      ⟨value, (Json.parse?_append_eq_some_iff hvalue more).2 ⟨rfl, hmore⟩, h⟩

/-- **A document is never misread.**  Where it gives settings, it gives the same settings with
blanks behind it, and none with anything else behind it; and if it does not end in a blank, no part
in front of its end gives any. -/
theorem ofJson?_append {document : String} {s : Settings} (h : ofJson? document = some s) :
    (∀ more : String,
      ((∃ s', ofJson? (document ++ more) = some s') ↔ ∀ c ∈ more.toList, isBlank c = true) ∧
      ((∀ c ∈ more.toList, isBlank c = true) → ofJson? (document ++ more) = some s)) ∧
    ((∀ c ∈ document.toList.getLast?, isBlank c = false) →
      ∀ before behind : String, before ++ behind = document → behind ≠ "" →
        ofJson? before = none) := by
  refine ⟨fun more => ⟨⟨?_, fun hmore => ?_⟩, fun hmore => ?_⟩, ?_⟩
  · rintro ⟨s', hs'⟩
    exact ((ofJson?_append_eq_some_iff h more).1 hs').2
  · exact ⟨s, (ofJson?_append_eq_some_iff h more).2 ⟨rfl, hmore⟩⟩
  · exact (ofJson?_append_eq_some_iff h more).2 ⟨rfl, hmore⟩
  · rintro hlast before behind rfl hbehind
    -- Were there settings already, what is cut off would be blanks, and the last of them
    -- ends the document.
    refine Option.eq_none_iff_forall_ne_some.2 fun s' hs' => ?_
    obtain ⟨-, hblank⟩ := (ofJson?_append_eq_some_iff hs' behind).1 h
    have hne : behind.toList ≠ [] := fun hnil => hbehind (String.toList_eq_nil_iff.1 hnil)
    have hend := hlast (behind.toList.getLast hne) (by
      rw [String.toList_append, List.getLast?_append, List.getLast?_eq_some_getLast hne]
      rfl)
    rw [hblank _ (List.getLast_mem hne)] at hend
    cases hend

/-- A document as it is, with a blank or a brace more, and with a brace less. -/
theorem ofJson?_append_instance :
    let document := "\x7b\"client_id\":\"a\",\"keep_alive\":15"
    let s : Settings := ⟨"a", 15, true, none, none, none⟩
    ofJson? (document ++ "\x7d") = some s ∧ ofJson? (document ++ "\x7d" ++ "\n") = some s ∧
      ofJson? document = none := by
  intro document s
  have h : ofJson? (document ++ "\x7d") = some s := by decide
  obtain ⟨hmore, hless⟩ := ofJson?_append h
  have hblank : ∀ c ∈ "\n".toList, isBlank c = true := List.all_eq_true.1 (by decide)
  have hlast : (document ++ "\x7d").toList.getLast? = some '\x7d' := by decide
  refine ⟨h, (hmore "\n").2 hblank, hless ?_ document "\x7d" rfl (by decide)⟩
  rw [hlast]
  rintro _ ⟨⟩
  rfl

end Settings

end MqttWire
