import MqttWire.Json.Document

/-!
# Documents as they are written

The form of a document, said apart from the reader: `Written chars value` says that these characters
are a way to write the value.  Each of its clauses is one kind of value, with whatever blanks may
stand inside it; the blanks around a value belong to the place where it stands (`Spaced`).

A member is a key and a value (`Entry`), and an object is a row of members with a comma between any
two (`Layout`).  In an array the commas stand more freely (`Commas`).
-/

namespace MqttWire.Json

/-! ### Blanks and texts -/

/-- Any number of blanks. -/
abbrev Blanks : Type := { cs : List Char // ∀ c ∈ cs, isBlank c = true }

def noBlanks : Blanks := ⟨[], List.forall_mem_nil _⟩

@[simp] theorem coe_noBlanks : (noBlanks : List Char) = [] := rfl

/-- How many backslashes stand at the end. -/
def backslashes (cs : List Char) : Nat := (cs.reverse.takeWhile (· == '\\')).length

/-- **What may stand between quotes:** a quote in it stands behind an odd number of backslashes, and
there is an even number of them at its end. -/
structure Quotable (cs : List Char) : Prop where
  quote : ∀ before behind, cs = before ++ '"' :: behind → backslashes before % 2 = 1
  ends : backslashes cs % 2 = 0

/-- **What may stand for itself without quotes:** it does not start as another value does, and goes
on to a delimiter, the blanks in front of that left out. -/
structure IsWord (cs : List Char) : Prop where
  ne_nil : cs ≠ []
  starts : ∀ c ∈ cs.head?, isBlank c = false ∧ c ∉ ['"', '{', '[']
  ends : ∀ c ∈ cs.getLast?, isBlank c = false
  inside : ∀ c ∈ cs, isDelimiter c = false

theorem isWord_iff {cs : List Char} : IsWord cs ↔ cs ≠ [] ∧
    (cs.head?.all fun c => !isBlank c && decide (c ∉ ['"', '{', '['])) = true ∧
    (cs.getLast?.all fun c => !isBlank c) = true ∧ (cs.all fun c => !isDelimiter c) = true := by
  simp only [Option.all_eq_true, List.all_eq_true, Bool.and_eq_true, Bool.not_eq_true',
    decide_eq_true_eq]
  constructor
  · rintro ⟨hne, hstarts, hends, hinside⟩
    exact ⟨hne, hstarts, hends, hinside⟩
  · rintro ⟨hne, hstarts, hends, hinside⟩
    exact ⟨hne, hstarts, hends, hinside⟩

instance (cs : List Char) : Decidable (IsWord cs) := decidable_of_iff _ isWord_iff.symm

/-! ### Members and items -/

/-- **A written value** and the blanks around it. -/
structure Spaced where
  before : Blanks
  value : List Char
  behind : Blanks

def Spaced.chars (s : Spaced) : List Char := s.before ++ (s.value ++ s.behind)

/-- **A member as it is written.** -/
structure Entry where
  before : Blanks
  key : List Char
  behind : Blanks
  content : Spaced

def Entry.chars (e : Entry) : List Char :=
  e.before ++ '"' :: (e.key ++ '"' :: (e.behind ++ ':' :: e.content.chars))

/-- Rows of characters with a comma between any two. -/
def commaSeparated : List (List Char) → List Char
  | [] => []
  | row :: rows => row ++ rows.flatMap (',' :: ·)

/-- **An object as it is written.** -/
structure Layout where
  /-- The blanks behind the brace. -/
  inner : Blanks
  entries : List Entry

def Layout.chars (o : Layout) : List Char :=
  '{' :: (o.inner ++ (commaSeparated (o.entries.map Entry.chars) ++ ['}']))

/-- **The document of an object,** with these blanks around it. -/
def Layout.document (o : Layout) (before behind : Blanks) : String :=
  String.ofList (Spaced.chars ⟨before, o.chars, behind⟩)

@[simp] theorem Layout.toList_document (o : Layout) (before behind : Blanks) :
    (o.document before behind).toList = Spaced.chars ⟨before, o.chars, behind⟩ :=
  String.toList_ofList

/-- **An item of an array as it is written,** with or without a comma before it. -/
structure Item where
  comma : Bool
  content : Spaced

def Item.chars (i : Item) : List Char := (if i.comma then [','] else []) ++ i.content.chars

/-! ### Values -/

def Value.isWord : Value → Bool
  | word _ => true
  | _ => false

/-- **Where an array needs no commas:** before one of its items, wherever it stands, but not behind
a word, which would go on.  `bare` tells whether this may still be the case, and `afterWord` whether
the item before is a word. -/
def Commas (bare afterWord : Bool) : List (Item × Value) → Prop
  | [] => True
  | (item, value) :: items =>
    (item.comma = false → bare = true ∧ afterWord = false) ∧
      Commas (bare && item.comma) value.isWord items

/-- **The ways to write a value.** -/
inductive Written : List Char → Value → Prop where
  | text {content : List Char} (h : Quotable content) :
    Written ('"' :: (content ++ ['"'])) (.text (String.ofList content))
  | word {content : List Char} (h : IsWord content) :
    Written content (.word (String.ofList content))
  | object (inner : Blanks) {members : List (Entry × Value)}
    (hkeys : ∀ m ∈ members, Quotable m.1.key)
    (hvalues : ∀ m ∈ members, Written m.1.content.value m.2) :
    Written (Layout.chars ⟨inner, members.map Prod.fst⟩)
      (.object (members.map fun m => (String.ofList m.1.key, m.2)))
  | array (inner : Blanks) {items : List (Item × Value)} (hcommas : Commas true false items)
    (hvalues : ∀ i ∈ items, Written i.1.content.value i.2) :
    Written ('[' :: (inner ++ (items.flatMap (fun i => i.1.chars) ++ [']'])))
      (.array (items.map Prod.snd))

end MqttWire.Json
