import MqttWire.Json.Value

/-!
# Reading a settings document

The document is read character by character.  A `State` is all that is known after some of them:
the values that are still open, innermost first, and what may come next.  `State.step` reads one
character, and fails where none of what it could mean is allowed; `parse?` reads a whole document.

The form is laxer than JSON in what it does not look into, and stricter elsewhere:

* a text ends at the first quote behind an even number of backslashes; nothing in it is decoded;
* a word is anything that does not start another value, up to the next comma or closing bracket;
* an object has no comma before its first member and none behind its last;
* in an array a comma stands before every item, but the first item may do without, and a comma
  before the first item leaves that allowance to the next one.

Blanks may stand between all of these.
-/

namespace MqttWire.Json

/-! ### Characters -/

/-- Blanks between tokens: space, line feed, carriage return, tab. -/
def isBlank (c : Char) : Bool := c == ' ' || c == '\n' || c == '\r' || c == '\t'

/-- The characters that end a word. -/
def isDelimiter (c : Char) : Bool := c == ',' || c == '}' || c == ']'

/-! ### Texts under way -/

/-- **A quoted text that is still open.** -/
structure Quoted where
  /-- Its characters so far, the last one first. -/
  reversed : List Char
  /-- It ends in an odd number of backslashes. -/
  escaped : Bool

namespace Quoted

def opened : Quoted := ⟨[], false⟩

/-- Does this character close the text? -/
def closes (q : Quoted) (c : Char) : Bool := c == '"' && !q.escaped

/-- The text with one more character. -/
def push (q : Quoted) (c : Char) : Quoted := ⟨c :: q.reversed, c == '\\' && !q.escaped⟩

def content (q : Quoted) : String := String.ofList q.reversed.reverse

end Quoted

/-! ### States -/

/-- **A value that is still open** while one of its parts is read. -/
inductive Frame where
  /-- An object, with the members before, the last one first, and the key of the value that is
  read. -/
  | member (earlier : List (String × Value)) (key : String)
  /-- An array, with the items before, the last one first; `bare` tells whether an item may still
  come without a comma. -/
  | item (earlier : List Value) (bare : Bool)

/-- **What is known of a document** after some of its characters.  `outer` are the values still open
around the one in question, the innermost first. -/
inductive State where
  /-- A value must come. -/
  | expectValue (outer : List Frame)
  /-- Inside a quoted text. -/
  | inText (content : Quoted) (outer : List Frame)
  /-- Inside a word, of which these are the characters, the last one first. -/
  | inWord (reversed : List Char) (outer : List Frame)
  /-- Behind an opening brace. -/
  | firstKey (outer : List Frame)
  /-- Behind the comma of an object. -/
  | nextKey (earlier : List (String × Value)) (outer : List Frame)
  /-- Inside a key. -/
  | inKey (content : Quoted) (earlier : List (String × Value)) (outer : List Frame)
  /-- Behind a key. -/
  | expectColon (key : String) (earlier : List (String × Value)) (outer : List Frame)
  /-- Behind a member of an object. -/
  | memberEnd (members : List (String × Value)) (outer : List Frame)
  /-- Inside an array, between its items. -/
  | itemEnd (items : List Value) (bare : Bool) (outer : List Frame)
  /-- Behind the document's value. -/
  | done (value : Value)

namespace State

/-- Behind a value: back in what it is a part of. -/
def after (value : Value) : List Frame → State
  | [] => done value
  | .member earlier key :: outer => memberEnd ((key, value) :: earlier) outer
  | .item earlier bare :: outer => itemEnd (value :: earlier) bare outer

/-- Behind the first character of a value. -/
def begin? (c : Char) (outer : List Frame) : Option State :=
  if c = '"' then some (inText .opened outer)
  else if c = '{' then some (firstKey outer)
  else if c = '[' then some (itemEnd [] true outer)
  else if isDelimiter c then none
  else some (inWord [c] outer)

/-- Reads a character behind a value that is complete. -/
def continue? (c : Char) : State → Option State
  | memberEnd members outer =>
    if isBlank c then some (memberEnd members outer)
    else if c = ',' then some (nextKey members outer)
    else if c = '}' then some (after (.object members.reverse) outer)
    else none
  | itemEnd items bare outer =>
    if isBlank c then some (itemEnd items bare outer)
    else if c = ']' then some (after (.array items.reverse) outer)
    else if c = ',' then some (expectValue (.item items bare :: outer))
    else if bare then begin? c (.item items false :: outer)
    else none
  | done value => if isBlank c then some (done value) else none
  | _ => none

/-- The word of these characters, the last one first, without the blanks behind it. -/
def wordOf (reversed : List Char) : Value :=
  .word (String.ofList (reversed.dropWhile isBlank).reverse)

/-- **Reads one character.** -/
def step (s : State) (c : Char) : Option State :=
  match s with
  | expectValue outer => if isBlank c then some (expectValue outer) else begin? c outer
  | inText q outer =>
    if q.closes c then some (after (.text q.content) outer) else some (inText (q.push c) outer)
  | inWord reversed outer =>
    if isDelimiter c then continue? c (after (wordOf reversed) outer)
    else some (inWord (c :: reversed) outer)
  | firstKey outer =>
    if isBlank c then some (firstKey outer)
    else if c = '}' then some (after (.object []) outer)
    else if c = '"' then some (inKey .opened [] outer)
    else none
  | nextKey earlier outer =>
    if isBlank c then some (nextKey earlier outer)
    else if c = '"' then some (inKey .opened earlier outer)
    else none
  | inKey q earlier outer =>
    if q.closes c then some (expectColon q.content earlier outer)
    else some (inKey (q.push c) earlier outer)
  | expectColon key earlier outer =>
    if isBlank c then some (expectColon key earlier outer)
    else if c = ':' then some (expectValue (.member earlier key :: outer))
    else none
  | memberEnd members outer => continue? c (memberEnd members outer)
  | itemEnd items bare outer => continue? c (itemEnd items bare outer)
  | done value => continue? c (done value)

def run (s : State) (cs : List Char) : Option State := cs.foldlM step s

/-- The value of a document that is complete. -/
def result? : State → Option Value
  | done value => some value
  | _ => none

@[simp] theorem run_nil (s : State) : s.run [] = some s := rfl

theorem run_cons (s : State) (c : Char) (cs : List Char) :
    s.run (c :: cs) = (s.step c).bind fun s => s.run cs := rfl

/-- What is read in two parts is read in one. -/
theorem run_append (s : State) (cs ds : List Char) :
    s.run (cs ++ ds) = (s.run cs).bind fun s => s.run ds := by
  simp [run, List.foldlM_append, bind]

end State

/-- **The value of a document.** -/
def parse? (document : String) : Option Value :=
  (State.run (.expectValue []) document.toList).bind State.result?

end MqttWire.Json
