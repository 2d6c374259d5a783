import Mathlib.Data.List.Induction
import MqttWire.Connect.Building
import MqttWire.Proofs.ConnectFlags

/-!
# What calls can build

Of all calls that build a connect request only the last one of each part counts
(`Connect.built_eq`), and of those that build its flags only the last level and whether the two
others occur (`ConnectFlags.built_eq`).  So the request has every part whole, and the only thing
that can be wrong with it is that its flags speak of a will that was never given
(`Connect.built_validate`).
-/

namespace MqttWire

section Last

variable {α β : Type} {get : α → Option β}

/-- A call more takes the place of what was set before, or leaves it. -/
theorem last?_concat (get : α → Option β) (calls : List α) (call : α) :
    last? get (calls ++ [call]) = (get call).or (last? get calls) := by
  rw [last?, List.filterMap_append, List.getLast?_append]
  cases h : get call with
  | none => simp [h, last?]
  | some b => simp [h]

/-- Nothing was set where no call sets it. -/
theorem last?_eq_none_iff {calls : List α} :
    last? get calls = none ↔ ∀ call ∈ calls, get call = none := by
  rw [last?, List.getLast?_eq_none_iff, List.filterMap_eq_nil_iff]

end Last

/-! ### Flags -/

namespace ConnectFlags

/-- The flags that say: a clean session or not, the level of the will, and whether to retain it. -/
def saying (clean : Bool) (qos : QoS) (retain : Bool) : ConnectFlags :=
  ⟨(if clean then cleanSessionBit else 0) ||| qos.level <<< 3
    ||| (if retain then willRetainBit else 0)⟩

section Saying

variable (clean : Bool) (qos : QoS) (retain : Bool)

@[simp] theorem cleanSession_saying :
    (saying clean qos retain).cleanSession = saying true qos retain := by
  cases clean <;> cases qos <;> cases retain <;> rfl

@[simp] theorem willQoS_saying (qos' : QoS) :
    (saying clean qos retain).willQoS qos' = saying clean qos' retain := by
  cases clean <;> cases qos <;> cases retain <;> cases qos' <;> rfl

@[simp] theorem willRetain_saying :
    (saying clean qos retain).willRetain = saying clean qos true := by
  cases clean <;> cases qos <;> cases retain <;> rfl

/-- Such flags are legal with a will, and without one if they say nothing about it. -/
theorem validate_saying (hasWill : Bool) : (saying clean qos retain).validate hasWill =
    if hasWill = false ∧ (retain = true ∨ qos ≠ .atMostOnce) then
      .error (.violation .willFlagsWithoutWill) else .ok () := by
  cases clean <;> cases qos <;> cases retain <;> cases hasWill <;> rfl

end Saying

/-- **The flags say what the calls asked for,** the level being the one asked for last. -/
theorem built_eq (calls : List Call) : built calls = saying (decide (.cleanSession ∈ calls))
    ((last? Call.qos? calls).getD .atMostOnce) (decide (.willRetain ∈ calls)) := by
  induction calls using List.reverseRecOn with
  | nil => rfl
  | append_singleton calls call ih =>
    rw [built_concat, ih, last?_concat]
    cases call <;> simp [apply, Call.qos?]

end ConnectFlags

namespace Connect

variable {clientId : String} {calls : List Call}

/-- **Every field is the one set by the last call that sets it.** -/
theorem built_eq (clientId : String) (calls : List Call) : built clientId calls =
    { clientId
      keepAlive := (last? Call.keepAlive? calls).getD 0
      willTopic := (last? Call.will? calls).map Prod.fst
      willMessage := (last? Call.will? calls).map Prod.snd
      userName := (last? Call.credentials? calls).map Prod.fst
      password := (last? Call.credentials? calls).bind Prod.snd
      flags := .built ((last? Call.flags? calls).getD []) } := by
  induction calls using List.reverseRecOn with
  | nil => rfl
  | append_singleton calls call ih =>
    rw [built_concat, ih]
    simp only [last?_concat]
    cases call <;> rfl

/-- Calls that set different parts can be made in either order. -/
theorem apply_comm (c : Connect) {a b : Call} (h : a.part ≠ b.part) :
    (c.apply a).apply b = (c.apply b).apply a := by
  cases a <;> cases b <;> first | rfl | exact absurd rfl h

/-- A will and credentials come whole, so that only the flags are left to check. -/
theorem validate_built (clientId : String) (calls : List Call) :
    (built clientId calls).validate =
      (ConnectFlags.built ((last? Call.flags? calls).getD [])).validate
        (last? Call.will? calls).isSome := by
  rw [built_eq, validate]
  cases last? Call.will? calls <;> rcases last? Call.credentials? calls with _ | ⟨_, _ | _⟩ <;> rfl

/-- No will was set where no call gives one. -/
theorem isSome_will_eq_false_iff : (last? Call.will? calls).isSome = false ↔
    ∀ topic message, .will topic message ∉ calls := by
  rw [Option.isSome_eq_false_iff, Option.isNone_iff_eq_none, last?_eq_none_iff]
  constructor
  · intro h topic message hmem
    cases h _ hmem
  · intro h call hmem
    cases call with
    | will topic message => exact absurd hmem (h topic message)
    | _ => rfl

/-- A level above the lowest was set last. -/
theorem getD_qos_ne_iff {flagCalls : List ConnectFlags.Call} :
    (last? ConnectFlags.Call.qos? flagCalls).getD .atMostOnce ≠ .atMostOnce ↔
      ∃ qos, last? ConnectFlags.Call.qos? flagCalls = some qos ∧ 0 < qos.level := by
  cases last? ConnectFlags.Call.qos? flagCalls with
  | none => simp
  | some qos => cases qos <;> simp [QoS.level]

/-- **Calls build a consistent request,** whatever they are and in whatever order they come: every
field is the one that the last call set, the flags are those of the last call that gave any, and
nothing can be wrong but that these ask for a level above the lowest or for the will to be retained
while no call gave a will.  Calls that set different parts commute, wherever they stand. -/
theorem built_validate (clientId : String) (calls : List Call) :
    let c := built clientId calls
    let flagCalls := (last? Call.flags? calls).getD []
    (c.validate = .ok () ∨ c.validate = .error (.violation .willFlagsWithoutWill)) ∧
    (c.validate = .error (.violation .willFlagsWithoutWill) ↔
      (∀ topic message, .will topic message ∉ calls) ∧
      (.willRetain ∈ flagCalls ∨
        ∃ qos, last? ConnectFlags.Call.qos? flagCalls = some qos ∧ 0 < qos.level)) ∧
    c = { clientId
          keepAlive := (last? Call.keepAlive? calls).getD 0
          willTopic := (last? Call.will? calls).map Prod.fst
          willMessage := (last? Call.will? calls).map Prod.snd
          userName := (last? Call.credentials? calls).map Prod.fst
          password := (last? Call.credentials? calls).bind Prod.snd
          flags := .saying (decide (.cleanSession ∈ flagCalls))
            ((last? ConnectFlags.Call.qos? flagCalls).getD .atMostOnce)
            (decide (.willRetain ∈ flagCalls)) } ∧
    ∀ before a b after, calls = before ++ a :: b :: after → a.part ≠ b.part →
      built clientId (before ++ b :: a :: after) = c := by
  intro c flagCalls
  have hvalidate : c.validate = if (last? Call.will? calls).isSome = false ∧
      (.willRetain ∈ flagCalls ∨
        (last? ConnectFlags.Call.qos? flagCalls).getD .atMostOnce ≠ .atMostOnce)
      then .error (.violation .willFlagsWithoutWill) else .ok () := by
    rw [validate_built, ConnectFlags.built_eq, ConnectFlags.validate_saying]
    simp only [decide_eq_true_eq]
    rfl
  refine ⟨?_, ?_, ?_, ?_⟩
  · rw [hvalidate]
    split
    · exact .inr rfl
    · exact .inl rfl
  · rw [← getD_qos_ne_iff, ← isSome_will_eq_false_iff, hvalidate]
    split
    · case isTrue h => exact ⟨fun _ => h, fun _ => rfl⟩
    · case isFalse h => exact ⟨nofun, fun h' => absurd h' h⟩
  · rw [← ConnectFlags.built_eq]
    exact built_eq clientId calls
  · rintro before a b after rfl hne
    simp only [c, built, List.foldl_append, List.foldl_cons, apply_comm _ hne]

/-- A level that is asked for and taken back, credentials that lose their password again, and flags
and a will in either order; the flags alone are not enough. -/
theorem built_validate_instance :
    let flags : Call := .flags [.willQoS .exactlyOnce, .cleanSession, .willQoS .atLeastOnce]
    let will : Call := .will "gone" [1]
    let login : List Call := [.credentials "user" (some [7]), .credentials "user" none]
    (built "id" (login ++ [flags])).validate = .error (.violation .willFlagsWithoutWill) ∧
      (built "id" (login ++ [flags])).password = none ∧
      (built "id" (login ++ [flags])).flags = .saying true .atLeastOnce false ∧
      (built "id" (login ++ [flags, will])).validate = .ok () ∧
      built "id" (login ++ [will, flags]) = built "id" (login ++ [flags, will]) := by
  intro flags will login
  obtain ⟨-, hwithout, hfields, -⟩ := built_validate "id" (login ++ [flags])
  obtain ⟨hwith, hnever, -, hcomm⟩ := built_validate "id" (login ++ [flags, will])
  refine ⟨hwithout.2 ⟨?_, .inr ⟨.atLeastOnce, rfl, by decide⟩⟩, congrArg password hfields,
    congrArg Connect.flags hfields, hwith.resolve_right fun h => ?_,
    hcomm login flags will [] rfl nofun⟩
  · intro topic message h
    simp [login, flags] at h
  · exact (hnever.1 h).1 "gone" [1] (by simp [will])

end Connect

end MqttWire
