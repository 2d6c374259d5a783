import MqttWire.Json.Written

/-!
# Standard values

What the standard form of these documents allows as a value: a text whose escapes are in order, a
number, one of three words, an array with a comma between any two items, an object.  All of it is
read here too, and more: the reader looks neither into escapes nor into words.
-/

namespace MqttWire.Json

/-! ### Texts -/

def hexDigits : List Char := "0123456789abcdefABCDEF".toList

/-- **What may stand between the quotes of a standard text:** a quote, a backslash or a character
before the blank only as an escape. -/
inductive StandardText : List Char → Prop where
  | nil : StandardText []
  | plain {c : Char} {cs : List Char} (hc : ' ' ≤ c) (hquote : c ≠ '"') (hescape : c ≠ '\\')
    (h : StandardText cs) : StandardText (c :: cs)
  | escape {c : Char} {cs : List Char} (hc : c ∈ ['"', '\\', '/', 'b', 'f', 'n', 'r', 't'])
    (h : StandardText cs) : StandardText ('\\' :: c :: cs)
  | code {a b c d : Char} {cs : List Char} (hcode : ∀ x ∈ [a, b, c, d], x ∈ hexDigits)
    (h : StandardText cs) : StandardText ('\\' :: 'u' :: a :: b :: c :: d :: cs)

/-! ### Numbers -/

/-- Decimal digits, at least one. -/
abbrev Digits : Type := { ds : List Char // ds ≠ [] ∧ ∀ d ∈ ds, d.isDigit = true }

/-- The part of a number behind its `e`. -/
structure Exponent where
  upper : Bool
  /-- Its sign, if it has one: a minus or a plus. -/
  sign : Option Bool
  digits : Digits

def Exponent.chars (e : Exponent) : List Char :=
  (if e.upper then 'E' else 'e') ::
    ((match e.sign with
      | none => []
      | some minus => [if minus then '-' else '+']) ++ e.digits)

/-- **A number as it is written.** -/
structure Number where
  minus : Bool
  whole : Digits
  no_leading_zero : whole.1.head? = some '0' → whole.1 = ['0']
  fraction : Option Digits
  exponent : Option Exponent

def Number.chars (n : Number) : List Char :=
  (if n.minus then ['-'] else []) ++ (n.whole ++
    (n.fraction.elim [] (fun ds => '.' :: ds) ++ n.exponent.elim [] Exponent.chars))

/-! ### Values -/

/-- **The values of the standard form.** -/
inductive Standard : List Char → Prop where
  | text {content : List Char} (h : StandardText content) : Standard ('"' :: (content ++ ['"']))
  | number (n : Number) : Standard n.chars
  | literal {word : String} (h : word ∈ ["true", "false", "null"]) : Standard word.toList
  | array (inner : Blanks) {items : List Spaced} (h : ∀ i ∈ items, Standard i.value) :
    Standard ('[' :: (inner ++ (commaSeparated (items.map Spaced.chars) ++ [']'])))
  | object (o : Layout) (hkeys : ∀ e ∈ o.entries, StandardText e.key)
    (hvalues : ∀ e ∈ o.entries, Standard e.content.value) : Standard o.chars

/-! ### Entries -/

/-- **An entry that is read,** whatever its value. -/
structure Entry.IsWritten (e : Entry) : Prop where
  key : Quotable e.key
  value : ∃ value, Written e.content.value value

def Layout.IsWritten (o : Layout) : Prop := ∀ e ∈ o.entries, e.IsWritten

/-- **An entry of the standard form.** -/
structure Entry.IsStandard (e : Entry) : Prop where
  key : StandardText e.key
  value : Standard e.content.value

/-- **More entries,** put in anywhere between the others: standard ones, with any keys but these.
The others may be replaced by what is the same. -/
inductive Extended (keys : List String) (same : Entry → Entry → Prop) :
    List Entry → List Entry → Prop where
  | nil : Extended keys same [] []
  | keep {e e' : Entry} {es es' : List Entry} (h : same e e') (hes : Extended keys same es es') :
    Extended keys same (e :: es) (e' :: es')
  | extra {e : Entry} {es es' : List Entry} (h : e.IsStandard) (hkey : String.ofList e.key ∉ keys)
    (hes : Extended keys same es es') : Extended keys same es (e :: es')

end MqttWire.Json
