import MqttWire.Json.Written

/-!
# Written documents are read

The reader follows the form of a document.  What is written as a value is read from wherever a value
must come, and leads behind that value (`State.reads_of_written`); so a written document is read as
its value (`parse?_of_written`).

A word is the exception: when all of it has been read it might still go on, and only the delimiter
behind it tells that it does not.  `State.Behind` therefore allows for a word under way, and what
comes next is shown to be read there as if the word were complete (`State.Behind.step_eq`).
-/

namespace MqttWire.Json

/-! ### Quoted texts -/

theorem backslashes_append_singleton (cs : List Char) (c : Char) :
    backslashes (cs ++ [c]) = if c = '\\' then backslashes cs + 1 else 0 := by
  by_cases h : c = '\\' <;> simp [backslashes, h]

/-- What may still stand before the closing quote, behind an odd number of backslashes or not. -/
def Closed : Bool → List Char → Prop
  | escaped, [] => escaped = false
  | escaped, c :: cs => (c = '"' → escaped = true) ∧ Closed (c == '\\' && !escaped) cs

instance decidableClosed : ∀ (escaped : Bool) (cs : List Char), Decidable (Closed escaped cs)
  | escaped, [] => inferInstanceAs (Decidable (escaped = false))
  | escaped, c :: cs =>
    have := decidableClosed (c == '\\' && !escaped) cs
    inferInstanceAs (Decidable ((c = '"' → escaped = true) ∧ _))

/-- Backslashes are counted from where the text begins. -/
theorem closed_iff {before cs : List Char} :
    Closed (decide (backslashes before % 2 = 1)) cs ↔
      (∀ between behind, cs = between ++ '"' :: behind →
        backslashes (before ++ between) % 2 = 1) ∧ backslashes (before ++ cs) % 2 = 0 := by
  induction cs generalizing before with
  | nil =>
    simp only [Closed, List.append_nil, decide_eq_false_iff_not]
    constructor
    · intro h
      exact ⟨by simp, by omega⟩
    · rintro ⟨-, h⟩
      omega
  | cons c cs ih =>
    have hnext : (c == '\\' && !decide (backslashes before % 2 = 1)) =
        decide (backslashes (before ++ [c]) % 2 = 1) := by
      rw [backslashes_append_singleton, Bool.eq_iff_iff]
      by_cases hc : c = '\\'
      · simp [hc]
        omega
      · simp [hc]
    rw [Closed, hnext, ih]
    simp only [List.append_assoc, List.singleton_append]
    constructor
    · rintro ⟨hc, hcs, hends⟩
      refine ⟨fun between behind h => ?_, hends⟩
      cases between with
      | nil =>
        obtain ⟨rfl, -⟩ := List.cons.inj h
        rw [List.append_nil]
        exact of_decide_eq_true (hc rfl)
      | cons d between =>
        obtain ⟨rfl, hcs'⟩ := List.cons.inj h
        exact hcs between behind hcs'
    · rintro ⟨hquote, hends⟩
      refine ⟨fun hc => ?_, fun between behind h => ?_, hends⟩
      · have hodd := hquote [] cs (by rw [hc]; rfl)
        rw [List.append_nil] at hodd
        exact decide_eq_true hodd
      · exact hquote (c :: between) behind (by rw [h]; rfl)

theorem quotable_iff_closed {cs : List Char} : Quotable cs ↔ Closed false cs := by
  have h := @closed_iff [] cs
  exact ⟨fun hq => h.2 ⟨hq.quote, hq.ends⟩, fun hc => ⟨(h.1 hc).1, (h.1 hc).2⟩⟩

instance (cs : List Char) : Decidable (Quotable cs) := decidable_of_iff _ quotable_iff_closed.symm

namespace Quoted

/-- The text with all of these characters. -/
def pushAll (q : Quoted) (cs : List Char) : Quoted := cs.foldl push q

@[simp] theorem reversed_pushAll (q : Quoted) (cs : List Char) :
    (q.pushAll cs).reversed = cs.reverse ++ q.reversed := by
  induction cs generalizing q with
  | nil => rfl
  | cons c cs ih =>
    show ((q.push c).pushAll cs).reversed = _
    rw [ih, push, List.reverse_cons, List.append_assoc, List.singleton_append]

theorem content_pushAll_opened (cs : List Char) :
    (opened.pushAll cs).content = String.ofList cs := by
  rw [content, reversed_pushAll, opened, List.append_nil, List.reverse_reverse]

end Quoted

namespace State

/-- A text or a key is read up to the quote behind it. -/
theorem run_quoted (inside : Quoted → State) {closed : Quoted → State}
    (hstep : ∀ q c, (inside q).step c =
      if q.closes c then some (closed q) else some (inside (q.push c)))
    {cs : List Char} {q : Quoted} (h : Closed q.escaped cs) (rest : List Char) :
    (inside q).run (cs ++ '"' :: rest) = (closed (q.pushAll cs)).run rest := by
  induction cs generalizing q with
  | nil =>
    have hcloses : q.closes '"' = true := by
      rw [Quoted.closes, h]
      rfl
    rw [List.nil_append, run_cons, hstep, if_pos hcloses]
    rfl
  | cons c cs ih =>
    obtain ⟨hc, hcs⟩ := h
    have hopen : ¬ q.closes c = true := by
      rw [Quoted.closes, Bool.and_eq_true, beq_iff_eq]
      rintro ⟨rfl, hescaped⟩
      rw [hc rfl] at hescaped
      cases hescaped
    rw [List.cons_append, run_cons, hstep, if_neg hopen, Option.bind_some, ih hcs]
    rfl

theorem result?_eq_some_iff {s : State} {value : Value} :
    s.result? = some value ↔ s = done value := by
  constructor
  · intro h
    cases s with
    | done value' => exact congrArg done (Option.some.inj h)
    | _ => cases h
  · rintro rfl
    rfl

/-! ### Blanks -/

theorem not_isDelimiter_of_isBlank {c : Char} (h : isBlank c = true) : isDelimiter c = false := by
  simp only [isBlank, Bool.or_eq_true, beq_iff_eq] at h
  rcases h with ((rfl | rfl) | rfl) | rfl <;> rfl

/-- A blank changes nothing in this state. -/
def SkipsBlanks (s : State) : Prop := ∀ c, isBlank c = true → s.step c = some s

theorem SkipsBlanks.run_append {s : State} (h : s.SkipsBlanks) (b : Blanks) (rest : List Char) :
    s.run (b ++ rest) = s.run rest := by
  obtain ⟨cs, hcs⟩ := b
  induction cs with
  | nil => rfl
  | cons c cs ih =>
    obtain ⟨hc, hcs⟩ := List.forall_mem_cons.1 hcs
    show s.run (c :: (cs ++ rest)) = _
    rw [run_cons, h c hc]
    exact ih hcs

theorem skipsBlanks_expectValue (outer : List Frame) : (expectValue outer).SkipsBlanks :=
  fun _ hc => if_pos hc

theorem skipsBlanks_firstKey (outer : List Frame) : (firstKey outer).SkipsBlanks :=
  fun _ hc => if_pos hc

theorem skipsBlanks_nextKey (earlier : List (String × Value)) (outer : List Frame) :
    (nextKey earlier outer).SkipsBlanks :=
  fun _ hc => if_pos hc

theorem skipsBlanks_expectColon (key : String) (earlier : List (String × Value))
    (outer : List Frame) : (expectColon key earlier outer).SkipsBlanks :=
  fun _ hc => if_pos hc

theorem skipsBlanks_itemEnd (items : List Value) (bare : Bool) (outer : List Frame) :
    (itemEnd items bare outer).SkipsBlanks :=
  fun _ hc => if_pos hc

theorem step_after (value : Value) (outer : List Frame) (c : Char) :
    (after value outer).step c = continue? c (after value outer) := by
  cases outer with
  | nil => rfl
  | cons frame outer => cases frame <;> rfl

theorem skipsBlanks_after (value : Value) (outer : List Frame) :
    (after value outer).SkipsBlanks := by
  intro c hc
  rw [step_after]
  cases outer with
  | nil => exact if_pos hc
  | cons frame outer => cases frame <;> exact if_pos hc

/-! ### Behind a value -/

/-- **All of a value has been read:** the state behind it, or a word that may still go on. -/
def Behind (value : Value) (outer : List Frame) (s : State) : Prop :=
  s = after value outer ∨ ∃ reversed, wordOf reversed = value ∧ s = inWord reversed outer

variable {value : Value} {outer : List Frame} {s : State}

/-- A delimiter tells that the value does not go on. -/
theorem Behind.step_eq (h : s.Behind value outer) {c : Char} (hc : isDelimiter c = true) :
    s.step c = continue? c (after value outer) := by
  rcases h with rfl | ⟨reversed, rfl, rfl⟩
  · exact step_after value outer c
  · exact if_pos hc

theorem wordOf_cons_of_isBlank {c : Char} (h : isBlank c = true) (reversed : List Char) :
    wordOf (c :: reversed) = wordOf reversed := by
  rw [wordOf, List.dropWhile_cons_of_pos h, wordOf]

/-- Blanks do not lead away from behind a value. -/
theorem Behind.run_blanks (h : s.Behind value outer) (b : Blanks) :
    ∃ s', s.run b = some s' ∧ s'.Behind value outer := by
  rcases h with rfl | ⟨reversed, hword, rfl⟩
  · have hrun := (skipsBlanks_after value outer).run_append b []
    rw [List.append_nil] at hrun
    exact ⟨_, hrun, .inl rfl⟩
  · obtain ⟨cs, hcs⟩ := b
    induction cs generalizing reversed with
    | nil => exact ⟨_, rfl, .inr ⟨reversed, hword, rfl⟩⟩
    | cons c cs ih =>
      obtain ⟨hc, hcs⟩ := List.forall_mem_cons.1 hcs
      have hstep : (inWord reversed outer).step c = some (inWord (c :: reversed) outer) :=
        if_neg (by rw [not_isDelimiter_of_isBlank hc]; decide)
      obtain ⟨s', hs', hbehind⟩ :=
        ih (c :: reversed) ((wordOf_cons_of_isBlank hc reversed).trans hword) hcs
      exact ⟨s', by rw [run_cons, hstep]; exact hs', hbehind⟩

/-! ### Values -/

/-- These characters are read as a value, wherever one must come. -/
def Reads (cs : List Char) (value : Value) : Prop :=
  ∀ outer, ∃ s, (expectValue outer).run cs = some s ∧ s.Behind value outer

/-- Blanks around a value change nothing. -/
theorem Reads.spaced {content : Spaced} (h : Reads content.value value) :
    Reads content.chars value := by
  intro outer
  obtain ⟨s, hs, hbehind⟩ := h outer
  obtain ⟨s', hs', hbehind'⟩ := hbehind.run_blanks content.behind
  refine ⟨s', ?_, hbehind'⟩
  rw [Spaced.chars, (skipsBlanks_expectValue outer).run_append, run_append, hs]
  exact hs'

theorem reads_text {content : List Char} (h : Quotable content) :
    Reads ('"' :: (content ++ ['"'])) (.text (String.ofList content)) := by
  intro outer
  refine ⟨_, ?_, .inl rfl⟩
  show (inText .opened outer).run (content ++ ['"']) = _
  rw [run_quoted (fun q => inText q outer) (fun _ _ => rfl) (quotable_iff_closed.1 h)]
  show some (after (.text _) outer) = _
  rw [Quoted.content_pushAll_opened]

theorem run_inWord {cs : List Char} (h : ∀ c ∈ cs, isDelimiter c = false) (reversed : List Char)
    (outer : List Frame) :
    (inWord reversed outer).run cs = some (inWord (cs.reverse ++ reversed) outer) := by
  induction cs generalizing reversed with
  | nil => rfl
  | cons c cs ih =>
    obtain ⟨hc, hcs⟩ := List.forall_mem_cons.1 h
    have hstep : (inWord reversed outer).step c = some (inWord (c :: reversed) outer) :=
      if_neg (by rw [hc]; decide)
    rw [run_cons, hstep, Option.bind_some, ih hcs, List.reverse_cons, List.append_assoc,
      List.singleton_append]

/-- A word ends where no blank is. -/
theorem wordOf_reverse {cs : List Char} (h : IsWord cs) :
    wordOf cs.reverse = .word (String.ofList cs) := by
  have hlast := h.ends
  rw [← List.reverse_reverse cs, List.getLast?_reverse] at hlast
  rw [wordOf]
  cases hcs : cs.reverse with
  | nil => rw [List.dropWhile_nil, ← hcs, List.reverse_reverse]
  | cons c rest =>
    have hc := hlast c (by rw [hcs]; rfl)
    rw [List.dropWhile_cons_of_neg (by rw [hc]; decide), ← hcs, List.reverse_reverse]

theorem reads_word {content : List Char} (h : IsWord content) :
    Reads content (.word (String.ofList content)) := by
  intro outer
  refine ⟨_, ?_, .inr ⟨content.reverse, wordOf_reverse h, rfl⟩⟩
  obtain ⟨c, cs, rfl⟩ := List.exists_cons_of_ne_nil h.ne_nil
  obtain ⟨hblank, hstart⟩ := h.starts c rfl
  obtain ⟨hc, hcs⟩ := List.forall_mem_cons.1 h.inside
  simp only [List.mem_cons, List.not_mem_nil, or_false, not_or] at hstart
  have hstep : (expectValue outer).step c = some (inWord [c] outer) := by
    simp only [step, begin?, hblank, hstart, hc, if_false, Bool.false_eq_true]
  rw [run_cons, hstep, Option.bind_some, run_inWord hcs, List.reverse_cons]

/-! ### Objects -/

/-- A member is read behind a comma. -/
theorem run_entry {e : Entry} (hkey : Quotable e.key) (h : Reads e.content.value value)
    (earlier : List (String × Value)) (outer : List Frame) :
    ∃ s, (nextKey earlier outer).run e.chars = some s ∧
      s.Behind value (.member earlier (String.ofList e.key) :: outer) := by
  obtain ⟨s, hs, hbehind⟩ := h.spaced (.member earlier (String.ofList e.key) :: outer)
  refine ⟨s, ?_, hbehind⟩
  rw [Entry.chars, (skipsBlanks_nextKey earlier outer).run_append]
  show (inKey .opened earlier outer).run _ = _
  rw [run_quoted (fun q => inKey q earlier outer) (fun _ _ => rfl)
    (quotable_iff_closed.1 hkey)]
  show (expectColon _ earlier outer).run _ = _
  rw [Quoted.content_pushAll_opened, (skipsBlanks_expectColon _ earlier outer).run_append]
  exact hs

/-- The first member of an object is read as one behind a comma. -/
theorem run_firstKey (e : Entry) (rest : List Char) (outer : List Frame) :
    (firstKey outer).run (e.chars ++ rest) = (nextKey [] outer).run (e.chars ++ rest) := by
  rw [Entry.chars, List.append_assoc, (skipsBlanks_firstKey outer).run_append,
    (skipsBlanks_nextKey [] outer).run_append]
  rfl

/-- The members behind another one are read up to the brace. -/
theorem Behind.run_entries {members : List (Entry × Value)}
    (hkeys : ∀ m ∈ members, Quotable m.1.key) (h : ∀ m ∈ members, Reads m.1.content.value m.2)
    {earlier : List (String × Value)} {key : String}
    (hs : s.Behind value (.member earlier key :: outer)) :
    s.run (members.flatMap (fun m => ',' :: m.1.chars) ++ ['}']) =
      some (after (.object (((key, value) :: earlier).reverse ++
        members.map fun m => (String.ofList m.1.key, m.2))) outer) := by
  induction members generalizing s value earlier key with
  | nil =>
    rw [List.flatMap_nil, List.nil_append, run_cons, hs.step_eq rfl, List.map_nil, List.append_nil]
    rfl
  | cons m members ih =>
    obtain ⟨hkey, hkeys⟩ := List.forall_mem_cons.1 hkeys
    obtain ⟨hm, hmembers⟩ := List.forall_mem_cons.1 h
    obtain ⟨s', hs', hbehind⟩ := run_entry hkey hm ((key, value) :: earlier) outer
    rw [List.flatMap_cons, List.cons_append, List.cons_append, run_cons, hs.step_eq rfl]
    show (nextKey ((key, value) :: earlier) outer).run _ = _
    rw [List.append_assoc, run_append, hs', Option.bind_some, ih hkeys hmembers hbehind]
    simp

theorem reads_object (inner : Blanks) {members : List (Entry × Value)}
    (hkeys : ∀ m ∈ members, Quotable m.1.key) (h : ∀ m ∈ members, Reads m.1.content.value m.2) :
    Reads (Layout.chars ⟨inner, members.map Prod.fst⟩)
      (.object (members.map fun m => (String.ofList m.1.key, m.2))) := by
  intro outer
  refine ⟨_, ?_, .inl rfl⟩
  show (firstKey outer).run _ = _
  rw [(skipsBlanks_firstKey outer).run_append]
  cases members with
  | nil => rfl
  | cons m members =>
    obtain ⟨hkey, hkeys⟩ := List.forall_mem_cons.1 hkeys
    obtain ⟨hm, hmembers⟩ := List.forall_mem_cons.1 h
    obtain ⟨s, hs, hbehind⟩ := run_entry hkey hm [] outer
    have hrest := hbehind.run_entries hkeys hmembers
    simp only [List.map_cons, commaSeparated, List.flatMap_map, List.append_assoc]
    rw [run_firstKey, run_append, hs]
    exact hrest

/-! ### Arrays -/

/-- No value starts with a blank or a delimiter. -/
theorem exists_cons_of_written {cs : List Char} (h : Written cs value) :
    ∃ c rest, cs = c :: rest ∧ isBlank c = false ∧ isDelimiter c = false := by
  cases h with
  | text | object | array => exact ⟨_, _, rfl, rfl, rfl⟩
  | word h =>
    obtain ⟨c, rest, rfl⟩ := List.exists_cons_of_ne_nil h.ne_nil
    exact ⟨c, rest, rfl, (h.starts c rfl).1, h.inside c List.mem_cons_self⟩

/-- Where an item may come without a comma, it is read as one behind a comma. -/
theorem run_itemEnd_of_bare {content : Spaced} (h : Written content.value value)
    (items : List Value) (outer : List Frame) (rest : List Char) :
    (itemEnd items true outer).run (content.chars ++ rest) =
      (expectValue (.item items false :: outer)).run (content.chars ++ rest) := by
  obtain ⟨c, cs, hcs, hblank, hdelimiter⟩ := exists_cons_of_written h
  have hc : c ≠ ']' ∧ c ≠ ',' := by
    constructor <;> rintro rfl <;> cases hdelimiter
  rw [Spaced.chars, List.append_assoc, (skipsBlanks_itemEnd items true outer).run_append,
    (skipsBlanks_expectValue _).run_append, hcs]
  simp only [List.cons_append, run_cons, step, continue?, hblank, hc, if_false, if_true,
    Bool.false_eq_true]

/-- **Between the items of an array:** behind the last one, which may be a word that goes on. -/
def Between (items : List Value) (bare afterWord : Bool) (outer : List Frame) (s : State) : Prop :=
  s = itemEnd items bare outer ∨
    afterWord = true ∧ ∃ reversed earlier, wordOf reversed :: earlier = items ∧
      s = inWord reversed (.item earlier bare :: outer)

theorem Behind.between {earlier : List Value} {bare : Bool}
    (h : s.Behind value (.item earlier bare :: outer)) :
    s.Between (value :: earlier) bare value.isWord outer := by
  rcases h with rfl | ⟨reversed, rfl, rfl⟩
  · exact .inl rfl
  · exact .inr ⟨rfl, reversed, earlier, rfl, rfl⟩

variable {items : List Value} {bare afterWord : Bool}

theorem Between.step_eq (h : s.Between items bare afterWord outer) {c : Char}
    (hc : isDelimiter c = true) : s.step c = continue? c (itemEnd items bare outer) := by
  rcases h with rfl | ⟨-, reversed, earlier, rfl, rfl⟩
  · rfl
  · exact if_pos hc

/-- The items are read up to the bracket. -/
theorem Between.run_items {more : List (Item × Value)}
    (h : ∀ i ∈ more, Written i.1.content.value i.2 ∧ Reads i.1.content.value i.2)
    (hs : s.Between items bare afterWord outer) (hcommas : Commas bare afterWord more) :
    s.run (more.flatMap (fun i => i.1.chars) ++ [']']) =
      some (after (.array (items.reverse ++ more.map Prod.snd)) outer) := by
  induction more generalizing s items bare afterWord with
  | nil =>
    rw [List.flatMap_nil, List.nil_append, run_cons, hs.step_eq rfl, List.map_nil, List.append_nil]
    rfl
  | cons i more ih =>
    obtain ⟨⟨comma, content⟩, value⟩ := i
    obtain ⟨⟨hwritten, hreads⟩, hmore⟩ := List.forall_mem_cons.1 h
    obtain ⟨hcomma, hcommas⟩ := hcommas
    rw [List.flatMap_cons, List.append_assoc]
    cases comma with
    | true =>
      obtain ⟨s', hs', hbehind⟩ := hreads.spaced (.item items bare :: outer)
      rw [Bool.and_true] at hcommas
      rw [Item.chars, if_pos rfl, List.append_assoc, List.singleton_append, run_cons,
        hs.step_eq rfl]
      show (expectValue (.item items bare :: outer)).run _ = _
      rw [run_append, hs', Option.bind_some, ih hmore hbehind.between hcommas]
      simp
    | false =>
      obtain ⟨rfl, rfl⟩ := hcomma rfl
      obtain ⟨s', hs', hbehind⟩ := hreads.spaced (.item items false :: outer)
      obtain rfl := hs.resolve_right fun hword => by cases hword.1
      rw [Item.chars, if_neg Bool.false_ne_true, List.nil_append, run_itemEnd_of_bare hwritten,
        run_append, hs', Option.bind_some, ih hmore hbehind.between hcommas]
      simp

theorem reads_array (inner : Blanks) {items : List (Item × Value)}
    (hcommas : Commas true false items)
    (h : ∀ i ∈ items, Written i.1.content.value i.2 ∧ Reads i.1.content.value i.2) :
    Reads ('[' :: (inner ++ (items.flatMap (fun i => i.1.chars) ++ [']'])))
      (.array (items.map Prod.snd)) := by
  intro outer
  refine ⟨_, ?_, .inl rfl⟩
  show (itemEnd [] true outer).run _ = _
  rw [(skipsBlanks_itemEnd [] true outer).run_append, Between.run_items h (.inl rfl) hcommas]
  rfl

/-- **A written value is read,** wherever one must come. -/
theorem reads_of_written {cs : List Char} (h : Written cs value) : Reads cs value := by
  induction h with
  | text h => exact reads_text h
  | word h => exact reads_word h
  | object inner hkeys _ ih => exact reads_object inner hkeys ih
  | array inner hcommas hvalues ih =>
    exact reads_array inner hcommas fun i hi => ⟨hvalues i hi, ih i hi⟩

end State

/-- **A written document is read.**  Only a word cannot be all of one: it would go on. -/
theorem parse?_of_written {document : String} {content : Spaced} {value : Value}
    (hdocument : document.toList = content.chars) (h : Written content.value value)
    (hword : value.isWord = false) : parse? document = some value := by
  obtain ⟨s, hs, hbehind⟩ := (State.reads_of_written h).spaced []
  rcases hbehind with rfl | ⟨reversed, rfl, rfl⟩
  · rw [parse?, hdocument, hs]
    rfl
  · cases hword

theorem parse?_document {o : Layout} {value : Value} (h : Written o.chars value)
    (hword : value.isWord = false) (before behind : Blanks) :
    parse? (o.document before behind) = some value :=
  parse?_of_written (o.toList_document before behind) h hword

end MqttWire.Json
