import Mathlib.Data.List.DropRight
import MqttWire.Proofs.Document

/-!
# What is read is written

The converse of `parse?_of_written`.  A state says what must still come: `Completes total s rest`
holds if these characters end a document that is worth `total`, once `s` is what is known of it.
Every step puts one character in front of such a rest (`Completes.cons`), so a run leads back from
the end of the document, where nothing need come, to its beginning, where a value must.
-/

namespace MqttWire.Json

namespace State

/-! ### Blanks in front -/

/-- Any number of blanks, and then `P`. -/
def AfterBlanks (P : List Char → Prop) (rest : List Char) : Prop :=
  ∃ (b : Blanks) (tail : List Char), rest = b ++ tail ∧ P tail

namespace AfterBlanks

variable {P : List Char → Prop} {rest : List Char}

theorem of (h : P rest) : AfterBlanks P rest := ⟨noBlanks, rest, rfl, h⟩

theorem append (b : Blanks) (h : AfterBlanks P rest) : AfterBlanks P (b ++ rest) := by
  obtain ⟨b', tail, rfl, h⟩ := h
  exact ⟨⟨b ++ b', fun c hc => (List.mem_append.1 hc).elim (b.2 c) (b'.2 c)⟩, tail,
    (List.append_assoc b.1 b'.1 tail).symm, h⟩

theorem cons {c : Char} (hc : isBlank c = true) (h : AfterBlanks P rest) :
    AfterBlanks P (c :: rest) :=
  h.append ⟨[c], fun _ hd => List.mem_singleton.1 hd ▸ hc⟩

end AfterBlanks

/-! ### Texts under way -/

/-- What must come inside a text, if `next` must follow its closing quote. -/
def TextRest (next : String → List Char → Prop) (q : Quoted) (rest : List Char) : Prop :=
  ∃ content tail, rest = content ++ '"' :: tail ∧ Closed q.escaped content ∧
    next (q.pushAll content).content tail

namespace TextRest

variable {next : String → List Char → Prop} {q : Quoted} {c : Char} {rest : List Char}

theorem close (hc : q.closes c = true) (h : next q.content rest) :
    TextRest next q (c :: rest) := by
  rw [Quoted.closes, Bool.and_eq_true, beq_iff_eq, Bool.not_eq_true'] at hc
  obtain ⟨rfl, hescaped⟩ := hc
  exact ⟨[], rest, rfl, hescaped, h⟩

/-- A quote that does not close the text stands behind a backslash. -/
theorem push (hc : ¬ q.closes c = true) (h : TextRest next (q.push c) rest) :
    TextRest next q (c :: rest) := by
  rw [Quoted.closes, Bool.and_eq_true, beq_iff_eq, Bool.not_eq_true', not_and,
    Bool.not_eq_false] at hc
  obtain ⟨content, tail, rfl, hcontent, h⟩ := h
  exact ⟨c :: content, tail, rfl, ⟨hc, hcontent⟩, h⟩

theorem opened (h : TextRest next .opened rest) :
    ∃ content tail, rest = content ++ '"' :: tail ∧ Quotable content ∧
      next (String.ofList content) tail := by
  obtain ⟨content, tail, rfl, hcontent, h⟩ := h
  rw [Quoted.content_pushAll_opened] at h
  exact ⟨content, tail, rfl, quotable_iff_closed.2 hcontent, h⟩

end TextRest

/-! ### What must come -/

/-- The member that a written one stands for. -/
def memberOf (m : Entry × Value) : String × Value := (String.ofList m.1.key, m.2)

section Closing

variable (closes : Value → List Char → Prop)

/-- What must come where a value must, if `closes` must follow it. -/
def ValueRest : List Char → Prop :=
  AfterBlanks fun rest => ∃ text value tail,
    rest = text ++ tail ∧ Written text value ∧ closes value tail

/-- What must come behind the members of an object, if `closes` must follow that. -/
def MembersRest (earlier : List (String × Value)) : List Char → Prop :=
  AfterBlanks fun rest => ∃ (members : List (Entry × Value)) (tail : List Char),
    rest = members.flatMap (fun m => ',' :: m.1.chars) ++ '}' :: tail ∧
    (∀ m ∈ members, Quotable m.1.key ∧ Written m.1.content.value m.2) ∧
    closes (.object (earlier.reverse ++ members.map memberOf)) tail

/-- What must come behind the items of an array, if `closes` must follow that. -/
def ItemsRest (earlier : List Value) (bare afterWord : Bool) : List Char → Prop :=
  AfterBlanks fun rest => ∃ (items : List (Item × Value)) (tail : List Char),
    rest = items.flatMap (fun i => i.1.chars) ++ ']' :: tail ∧
    (∀ i ∈ items, Written i.1.content.value i.2) ∧ Commas bare afterWord items ∧
    closes (.array (earlier.reverse ++ items.map Prod.snd)) tail

end Closing

/-- **What must follow a value** for all that is open around it to be closed, and the document to be
worth `total`. -/
def Closes (total : Value) : List Frame → Value → List Char → Prop
  | [], value => fun rest =>
    value.isWord = false ∧ (∀ c ∈ rest, isBlank c = true) ∧ value = total
  | .member earlier key :: outer, value =>
    MembersRest (Closes total outer) ((key, value) :: earlier)
  | .item earlier bare :: outer, value =>
    ItemsRest (Closes total outer) (value :: earlier) bare value.isWord

/-- What must come behind a key. -/
def ColonRest (total : Value) (key : String) (earlier : List (String × Value))
    (outer : List Frame) : List Char → Prop :=
  AfterBlanks fun rest => ∃ tail,
    rest = ':' :: tail ∧ ValueRest (Closes total (.member earlier key :: outer)) tail

/-- What must come where a key must. -/
def KeyRest (total : Value) (earlier : List (String × Value)) (outer : List Frame) :
    List Char → Prop :=
  AfterBlanks fun rest => ∃ key tail, rest = '"' :: (key ++ '"' :: tail) ∧ Quotable key ∧
    ColonRest total (String.ofList key) earlier outer tail

/-- **What must come in a state** for the document to be worth `total`. -/
def Completes (total : Value) : State → List Char → Prop
  | expectValue outer, rest => ValueRest (Closes total outer) rest
  | inText q outer, rest => TextRest (fun text => Closes total outer (.text text)) q rest
  | inWord reversed outer, rest =>
    ∃ more tail, rest = more ++ tail ∧ (∀ c ∈ more, isDelimiter c = false) ∧
      Closes total outer (wordOf (more.reverse ++ reversed)) tail
  | firstKey outer, rest =>
    AfterBlanks (fun rest => ∃ tail, rest = '}' :: tail ∧ Closes total outer (.object []) tail)
      rest ∨ KeyRest total [] outer rest
  | nextKey earlier outer, rest => KeyRest total earlier outer rest
  | inKey q earlier outer, rest => TextRest (fun key => ColonRest total key earlier outer) q rest
  | expectColon key earlier outer, rest => ColonRest total key earlier outer rest
  | memberEnd members outer, rest => MembersRest (Closes total outer) members rest
  | itemEnd items bare outer, rest => ItemsRest (Closes total outer) items bare false rest
  | done value, rest => (∀ c ∈ rest, isBlank c = true) ∧ value = total

variable {total value : Value} {outer : List Frame} {rest : List Char}

/-! ### Behind values -/

/-- Blanks may stand behind a value. -/
theorem Closes.append (b : Blanks) (h : Closes total outer value rest) :
    Closes total outer value (b ++ rest) := by
  match outer, h with
  | [], ⟨hword, hrest, htotal⟩ =>
    exact ⟨hword, fun c hc => (List.mem_append.1 hc).elim (b.2 c) (hrest c), htotal⟩
  | .member _ _ :: _, h => exact AfterBlanks.append b h
  | .item _ _ :: _, h => exact AfterBlanks.append b h

/-- Behind a value that is no word, the state says what must follow. -/
theorem Completes.closes (hword : value.isWord = false)
    (h : Completes total (after value outer) rest) : Closes total outer value rest := by
  match outer, h with
  | [], ⟨hrest, htotal⟩ => exact ⟨hword, hrest, htotal⟩
  | .member _ _ :: _, h => exact h
  | .item _ _ :: _, h =>
    rw [Closes, hword]
    exact h

/-! ### Members and items -/

theorem KeyRest.quote {earlier : List (String × Value)}
    (h : TextRest (fun key => ColonRest total key earlier outer) .opened rest) :
    KeyRest total earlier outer ('"' :: rest) := by
  obtain ⟨key, tail, rfl, hkey, h⟩ := h.opened
  exact .of ⟨key, tail, rfl, hkey, h⟩

/-- Where a key must come, a member must. -/
theorem KeyRest.exists_members {earlier : List (String × Value)}
    (h : KeyRest total earlier outer rest) :
    ∃ (m : Entry × Value) (members : List (Entry × Value)) (tail : List Char),
      rest = m.1.chars ++ (members.flatMap (fun m => ',' :: m.1.chars) ++ '}' :: tail) ∧
      (∀ m' ∈ m :: members, Quotable m'.1.key ∧ Written m'.1.content.value m'.2) ∧
      Closes total outer (.object (earlier.reverse ++ (m :: members).map memberOf)) tail := by
  obtain ⟨before, _, rfl, key, _, rfl, hkey, behind, _, rfl, _, rfl, inner, _, rfl, text, value, _,
    rfl, htext, blanks, _, rfl, members, tail, rfl, hmembers, hclose⟩ := h
  refine ⟨(⟨before, key, behind, inner, text, blanks⟩, value), members, tail, ?_,
    List.forall_mem_cons.2 ⟨⟨hkey, htext⟩, hmembers⟩, ?_⟩
  · simp [Entry.chars, Spaced.chars]
  · rw [List.reverse_cons, List.append_assoc] at hclose
    exact hclose

theorem KeyRest.comma {earlier : List (String × Value)} (h : KeyRest total earlier outer rest) :
    MembersRest (Closes total outer) earlier (',' :: rest) := by
  obtain ⟨m, members, tail, rfl, hmembers, hclose⟩ := h.exists_members
  exact .of ⟨m :: members, tail, by simp, hmembers, hclose⟩

theorem MembersRest.brace {members : List (String × Value)}
    (h : Completes total (after (.object members.reverse) outer) rest) :
    MembersRest (Closes total outer) members ('}' :: rest) := by
  refine .of ⟨[], rest, rfl, List.forall_mem_nil _, ?_⟩
  rw [List.map_nil, List.append_nil]
  exact h.closes rfl

/-- Where a value must come in an array, an item must. -/
theorem ValueRest.item {earlier : List Value} {bare afterWord : Bool} (comma : Bool)
    (hcomma : comma = false → bare = true ∧ afterWord = false)
    (h : ValueRest (Closes total (.item earlier (bare && comma) :: outer)) rest) :
    ItemsRest (Closes total outer) earlier bare afterWord
      ((if comma then [','] else []) ++ rest) := by
  obtain ⟨before, _, rfl, text, value, _, rfl, htext, blanks, _, rfl, items, tail, rfl, hitems,
    hcommas, hclose⟩ := h
  refine .of ⟨(⟨comma, before, text, blanks⟩, value) :: items, tail, ?_,
    List.forall_mem_cons.2 ⟨htext, hitems⟩, ⟨hcomma, hcommas⟩, ?_⟩
  · simp [Item.chars, Spaced.chars]
  · rw [List.reverse_cons, List.append_assoc] at hclose
    exact hclose

theorem ItemsRest.bracket {items : List Value} {bare afterWord : Bool}
    (h : Completes total (after (.array items.reverse) outer) rest) :
    ItemsRest (Closes total outer) items bare afterWord (']' :: rest) := by
  refine .of ⟨[], rest, rfl, List.forall_mem_nil _, trivial, ?_⟩
  rw [List.map_nil, List.append_nil]
  exact h.closes rfl

/-! ### Values -/

/-- Of characters without a delimiter, all but the blanks at their end are a word. -/
theorem exists_word_append {c : Char} {more : List Char} (hblank : isBlank c = false)
    (hstart : c ∉ ['"', '{', '[']) (hinside : ∀ d ∈ c :: more, isDelimiter d = false) :
    ∃ (word : List Char) (b : Blanks), word ++ b = c :: more ∧ IsWord word ∧
      wordOf (more.reverse ++ [c]) = .word (String.ofList word) := by
  have hsplit : (c :: more).rdropWhile isBlank ++ (c :: more).rtakeWhile isBlank = c :: more :=
    List.rdropWhile_append_rtakeWhile
  have hblanks : ∀ d ∈ (c :: more).rtakeWhile isBlank, isBlank d = true := fun d hd =>
    List.mem_takeWhile_imp (List.mem_reverse.1 hd)
  have hne : (c :: more).rdropWhile isBlank ≠ [] := by
    rw [Ne, List.rdropWhile_eq_nil_iff]
    intro hall
    rw [hall c List.mem_cons_self] at hblank
    cases hblank
  refine ⟨_, ⟨_, hblanks⟩, hsplit, ⟨hne, ?_, ?_, ?_⟩, ?_⟩
  · obtain ⟨d, word, hcons⟩ := List.exists_cons_of_ne_nil hne
    rw [hcons] at hsplit ⊢
    obtain rfl := (List.cons.inj hsplit).1
    rintro _ ⟨⟩
    exact ⟨hblank, hstart⟩
  · intro d hd
    obtain ⟨hne, rfl⟩ := List.mem_getLast?_eq_getLast hd
    exact Bool.eq_false_iff.2 (List.rdropWhile_last_not isBlank _ hne)
  · exact fun d hd => hinside d (hsplit ▸ List.mem_append_left _ hd)
  · rw [wordOf, ← List.reverse_cons, List.rdropWhile]

/-- Behind its first character a word goes on as far as no delimiter comes. -/
theorem valueRest_word {c : Char} (hblank : isBlank c = false) (hstart : c ∉ ['"', '{', '['])
    (hc : isDelimiter c = false) (h : Completes total (inWord [c] outer) rest) :
    ValueRest (Closes total outer) (c :: rest) := by
  obtain ⟨more, tail, rfl, hmore, hclose⟩ := h
  obtain ⟨word, b, hsplit, hword, hvalue⟩ :=
    exists_word_append hblank hstart (List.forall_mem_cons.2 ⟨hc, hmore⟩)
  rw [hvalue] at hclose
  refine .of ⟨word, _, b ++ tail, ?_, .word hword, hclose.append b⟩
  rw [← List.append_assoc word, hsplit]
  rfl

/-- Behind its opening brace an object goes on up to the closing one. -/
theorem valueRest_object (h : Completes total (firstKey outer) rest) :
    ValueRest (Closes total outer) ('{' :: rest) := by
  rcases h with ⟨inner, _, rfl, tail, rfl, hclose⟩ | h
  · refine .of ⟨Layout.chars ⟨inner, []⟩, .object [], tail, ?_,
      @Written.object inner [] (List.forall_mem_nil _) (List.forall_mem_nil _), hclose⟩
    simp [Layout.chars, commaSeparated]
  · obtain ⟨m, members, tail, rfl, hmembers, hclose⟩ := h.exists_members
    refine .of ⟨Layout.chars ⟨noBlanks, (m :: members).map Prod.fst⟩, _, tail, ?_,
      .object _ (fun m hm => (hmembers m hm).1) (fun m hm => (hmembers m hm).2), hclose⟩
    simp [Layout.chars, commaSeparated, List.flatMap_map]

/-- Where a value begins, its first character is the front of it. -/
theorem valueRest_of_begin {c : Char} {s : State} (hblank : isBlank c = false)
    (hs : begin? c outer = some s) (h : Completes total s rest) :
    ValueRest (Closes total outer) (c :: rest) := by
  unfold begin? at hs
  split_ifs at hs with hquote hbrace hbracket hc
  all_goals obtain rfl := Option.some.inj hs
  · have htext : TextRest (fun text => Closes total outer (.text text)) .opened rest := h
    obtain ⟨content, tail, rfl, hcontent, hclose⟩ := htext.opened
    exact .of ⟨'"' :: (content ++ ['"']), _, tail, by simp [hquote], .text hcontent, hclose⟩
  · exact hbrace ▸ valueRest_object h
  · obtain ⟨inner, _, rfl, items, tail, rfl, hitems, hcommas, hclose⟩ := h
    refine .of ⟨'[' :: (inner ++ (items.flatMap (fun i => i.1.chars) ++ [']'])), _, tail, ?_,
      .array inner hcommas hitems, hclose⟩
    simp [hbracket]
  · exact valueRest_word hblank (by simp [hquote, hbrace, hbracket]) (Bool.eq_false_iff.2 hc) h

/-! ### Steps -/

theorem not_isDelimiter_of_begin {c : Char} {s : State} (hs : begin? c outer = some s) :
    isDelimiter c = false := by
  unfold begin? at hs
  split_ifs at hs with hquote hbrace hbracket hc
  · rw [hquote]
    rfl
  · rw [hbrace]
    rfl
  · rw [hbracket]
    rfl
  · exact Bool.eq_false_iff.2 hc

theorem membersRest_of_continue {c : Char} {s : State} {members : List (String × Value)}
    (hs : continue? c (memberEnd members outer) = some s) (h : Completes total s rest) :
    MembersRest (Closes total outer) members (c :: rest) := by
  simp only [continue?] at hs
  split_ifs at hs with hblank hcomma hbrace
  all_goals obtain rfl := Option.some.inj hs
  · exact AfterBlanks.cons hblank h
  · exact hcomma ▸ KeyRest.comma h
  · exact hbrace ▸ MembersRest.brace h

/-- Behind a word only a delimiter comes here. -/
theorem itemsRest_of_continue {c : Char} {s : State} {items : List Value} {bare afterWord : Bool}
    (hafter : afterWord = true → isDelimiter c = true)
    (hs : continue? c (itemEnd items bare outer) = some s) (h : Completes total s rest) :
    ItemsRest (Closes total outer) items bare afterWord (c :: rest) := by
  have hword : isDelimiter c = false → afterWord = false := fun hc =>
    Bool.eq_false_iff.2 fun htrue => by rw [hafter htrue] at hc; cases hc
  simp only [continue?] at hs
  split_ifs at hs with hblank hbracket hcomma hbare
  · obtain rfl := Option.some.inj hs
    obtain rfl := hword (not_isDelimiter_of_isBlank hblank)
    exact AfterBlanks.cons hblank h
  · obtain rfl := Option.some.inj hs
    exact hbracket ▸ ItemsRest.bracket h
  · obtain rfl := Option.some.inj hs
    rw [hcomma]
    exact ValueRest.item true (by simp) (by rw [Bool.and_true]; exact h)
  · obtain rfl := hword (not_isDelimiter_of_begin hs)
    exact ValueRest.item false (fun _ => ⟨hbare, rfl⟩)
      (by rw [Bool.and_false]; exact valueRest_of_begin (Bool.eq_false_iff.2 hblank) hs h)

/-- Behind a word, the delimiter at its end belongs to what is open around it. -/
theorem closes_of_continue {c : Char} {s : State} (hc : isDelimiter c = true)
    (hs : continue? c (after value outer) = some s) (h : Completes total s rest) :
    Closes total outer value (c :: rest) := by
  match outer, hs with
  | [], hs =>
    have hblank : ¬ isBlank c = true := fun hblank => by
      rw [not_isDelimiter_of_isBlank hblank] at hc
      cases hc
    rw [after, continue?, if_neg hblank] at hs
    cases hs
  | .member earlier key :: outer, hs => exact membersRest_of_continue hs h
  | .item earlier bare :: outer, hs => exact itemsRest_of_continue (fun _ => hc) hs h

/-- **A step puts its character in front.** -/
theorem Completes.cons {c : Char} {s s' : State} (hs : s.step c = some s')
    (h : Completes total s' rest) : Completes total s (c :: rest) := by
  cases s with
  | expectValue outer =>
    rw [step] at hs
    split_ifs at hs with hblank
    · obtain rfl := Option.some.inj hs
      exact AfterBlanks.cons hblank h
    · exact valueRest_of_begin (Bool.eq_false_iff.2 hblank) hs h
  | inText q outer =>
    show TextRest (fun text => Closes total outer (.text text)) q (c :: rest)
    rw [step] at hs
    split_ifs at hs with hclose
    all_goals obtain rfl := Option.some.inj hs
    · exact TextRest.close hclose (h.closes rfl)
    · exact TextRest.push hclose h
  | inWord reversed outer =>
    rw [step] at hs
    split_ifs at hs with hc
    · exact ⟨[], c :: rest, rfl, List.forall_mem_nil _, closes_of_continue hc hs h⟩
    · obtain rfl := Option.some.inj hs
      obtain ⟨more, tail, rfl, hmore, hclose⟩ := h
      refine ⟨c :: more, tail, rfl, List.forall_mem_cons.2 ⟨Bool.eq_false_iff.2 hc, hmore⟩, ?_⟩
      rw [List.reverse_cons, List.append_assoc]
      exact hclose
  | firstKey outer =>
    rw [step] at hs
    split_ifs at hs with hblank hbrace hquote
    all_goals obtain rfl := Option.some.inj hs
    · exact Or.imp (AfterBlanks.cons hblank) (AfterBlanks.cons hblank) h
    · exact .inl (.of ⟨rest, by rw [hbrace], h.closes rfl⟩)
    · exact .inr (hquote ▸ KeyRest.quote h)
  | nextKey earlier outer =>
    rw [step] at hs
    split_ifs at hs with hblank hquote
    all_goals obtain rfl := Option.some.inj hs
    · exact AfterBlanks.cons hblank h
    · exact hquote ▸ KeyRest.quote h
  | inKey q earlier outer =>
    show TextRest (fun key => ColonRest total key earlier outer) q (c :: rest)
    rw [step] at hs
    split_ifs at hs with hclose
    all_goals obtain rfl := Option.some.inj hs
    · exact TextRest.close hclose h
    · exact TextRest.push hclose h
  | expectColon key earlier outer =>
    rw [step] at hs
    split_ifs at hs with hblank hcolon
    all_goals obtain rfl := Option.some.inj hs
    · exact AfterBlanks.cons hblank h
    · exact .of ⟨rest, by rw [hcolon], h⟩
  | memberEnd members outer => exact membersRest_of_continue hs h
  | itemEnd items bare outer => exact itemsRest_of_continue (by simp) hs h
  | done value =>
    rw [step, continue?] at hs
    split_ifs at hs with hblank
    obtain rfl := Option.some.inj hs
    obtain ⟨hrest, htotal⟩ := h
    exact ⟨List.forall_mem_cons.2 ⟨hblank, hrest⟩, htotal⟩

/-- **A run to the end of a document puts all of it in front.** -/
theorem completes_of_run {s : State} {cs : List Char} (h : s.run cs = some (done total)) :
    Completes total s cs := by
  induction cs generalizing s with
  | nil =>
    obtain rfl := Option.some.inj h
    exact ⟨List.forall_mem_nil _, rfl⟩
  | cons c cs ih =>
    rw [run_cons] at h
    obtain ⟨s', hs', h⟩ := Option.bind_eq_some_iff.1 h
    exact (ih h).cons hs'

end State

/-- **What a document is worth.** -/
theorem parse?_eq_some_iff {document : String} {value : Value} :
    parse? document = some value ↔ value.isWord = false ∧
      ∃ content : Spaced, document.toList = content.chars ∧ Written content.value value := by
  constructor
  · intro h
    obtain ⟨s, hs, hresult⟩ := Option.bind_eq_some_iff.1 h
    obtain rfl := State.result?_eq_some_iff.1 hresult
    obtain ⟨before, _, hchars, text, value, tail, rfl, htext, hword, htail, rfl⟩ :=
      State.completes_of_run hs
    exact ⟨hword, ⟨before, text, tail, htail⟩, hchars, htext⟩
  · rintro ⟨hword, content, hdocument, h⟩
    exact parse?_of_written hdocument h hword

end MqttWire.Json
