import RingTape.Proofs.Printing

/-!
Where the tokens of a source text stand. The text is the texts of its tokens, one after the other, with blanks and
comments between them, and each token is at the place that is found by counting lines and columns. The tokens with
single blanks between them are read as the same tokens again.
-/

namespace RingTape

set_option autoImplicit false

/-- The place after the given characters: lines are counted by line feeds, columns from the last one on. -/
def Location.after (chars : List Char) : Location :=
  ⟨1 + chars.count '\n', 1 + (chars.reverse.takeWhile fun char => char ≠ '\n').length⟩

theorem Location.after_append (chars : List Char) (char : Char) :
    Location.after (chars ++ [char]) = (Location.after chars).advance char := by
  by_cases line : char = '\n'
  · subst line
    simp [after, advance, List.count_append, Nat.add_assoc]
  · have other : List.count '\n' [char] = 0 := by simp [line]
    simp [after, advance, line, List.count_append, other, Nat.add_assoc]

/-- What may stand between tokens: blanks and comments. Only the end of the text ends a comment without line feed. -/
inductive Gap (atEnd : Bool) : List Char → Prop where
  | nothing : Gap atEnd []
  | blank {char : Char} {rest : List Char} (isBlank : Text.isBlank char = true) (further : Gap atEnd rest) :
      Gap atEnd (char :: rest)
  | comment {body rest : List Char} (oneLine : '\n' ∉ body) (further : Gap atEnd rest) :
      Gap atEnd ('#' :: body ++ '\n' :: rest)
  | lastComment {body : List Char} (oneLine : '\n' ∉ body) (last : atEnd = true) : Gap atEnd ('#' :: body)

theorem Gap.append {atEnd : Bool} {first second : List Char} (gap : Gap false first) (further : Gap atEnd second) :
    Gap atEnd (first ++ second) := by
  induction gap with
  | nothing => exact further
  | blank isBlank _ induction => exact .blank isBlank induction
  | comment oneLine _ induction =>
      rw [List.append_assoc, List.cons_append]
      exact .comment oneLine induction
  | lastComment _ last => cases last

/-- The text begins with the given tokens, each after a gap and at its place. -/
inductive Laid : List Char → List (Located Token) → Prop where
  | nothing : Laid [] []
  | token {chars gap : List Char} {tokens : List (Located Token)} (token : Token) (before : Laid chars tokens)
      (between : Gap false gap) :
      Laid (chars ++ gap ++ token.text.toList) (tokens ++ [⟨token, Location.after (chars ++ gap)⟩])

namespace Token

/-- Whether the token is no literal without its second quote. -/
def isClosed : Token → Bool
  | .string _ closed => closed
  | .numeral (.char _ closed) => closed
  | _ => true

theorem text_ofChar? {char : Char} {token : Token} (found : ofChar? char = some token) :
    token.text.toList = [char] := by
  unfold ofChar? at found
  split at found <;> cases found <;> rfl

theorem isClosed_ofChar? {char : Char} {token : Token} (found : ofChar? char = some token) :
    token.isClosed = true := by
  unfold ofChar? at found
  split at found <;> cases found <;> rfl

theorem text_ofWord (word : List Char) : (ofWord word).text.toList = word := by
  unfold ofWord
  split
  · rfl
  · rfl
  · rfl
  · rfl
  · split_ifs <;> simp [text, Numeral.text]
  · rfl

theorem isClosed_ofWord (word : List Char) : (ofWord word).isClosed = true := by
  unfold ofWord
  split
  · rfl
  · rfl
  · rfl
  · rfl
  · split_ifs <;> rfl
  · rfl

theorem text_token (quote : Quote) (raw : List Char) (closed : Bool) :
    (quote.token raw closed).text.toList = quote.char :: (raw ++ if closed then [quote.char] else []) := by
  cases quote <;> cases closed <;> simp [Quote.token, text, Numeral.text, quoted, Quote.char]

theorem isClosed_token (quote : Quote) (raw : List Char) (closed : Bool) :
    (quote.token raw closed).isClosed = closed := by
  cases quote <;> rfl

end Token

namespace Scanner

theorem feed_blank (here : Location) (before : Array (Located Token)) :
    feed ⟨.gap, here, before⟩ ' ' = ⟨.gap, here.advance ' ', before⟩ := by
  simp [feed, begin, enter, Token.ofChar?, Quote.ofChar?, Text.isBlank, Text.blankRanges]

/-- The text of a token is read as that token, and a blank after it does no harm unless a quote is open. -/
def Rereads (token : Token) : Prop :=
  ∀ here before, (token.text.toList.foldl feed ⟨.gap, here, before⟩).finish = before.toList ++ [⟨token, here⟩] ∧
    (token.isClosed = true → ∃ there,
      feed (token.text.toList.foldl feed ⟨.gap, here, before⟩) ' ' = ⟨.gap, there, before.push ⟨token, here⟩⟩)

theorem rereads_ofChar? {char : Char} {token : Token} (found : Token.ofChar? char = some token) :
    Rereads token := by
  intro here before
  have taken : token.text.toList.foldl feed ⟨.gap, here, before⟩ =
      ⟨.gap, here.advance char, before.push ⟨token, here⟩⟩ := by
    rw [Token.text_ofChar? found, List.foldl_cons, List.foldl_nil]
    simp only [feed, begin, enter, found]
  rw [taken]
  exact ⟨by simp [finish], fun _ => ⟨_, feed_blank _ _⟩⟩

theorem rereads_ofWord {word : List Char} (filled : word ≠ []) (plain : ∀ char ∈ word, endsWord char = false) :
    Rereads (Token.ofWord word) := by
  intro here before
  have taken : ∃ there, word.foldl feed ⟨.gap, here, before⟩ = ⟨.word word.reverse here, there, before⟩ := by
    cases word with
    | nil => exact absurd rfl filled
    | cons first rest =>
        obtain ⟨there, taken⟩ := foldl_word rest (fun char among => plain char (List.mem_cons_of_mem _ among)) [first]
          here (here.advance first) before
        refine ⟨there, ?_⟩
        rw [List.foldl_cons, List.reverse_cons, ← taken]
        simp only [feed, begin, enter_word (plain first List.mem_cons_self)]
  obtain ⟨there, taken⟩ := taken
  rw [Token.text_ofWord, taken]
  refine ⟨by simp [finish], fun _ => ⟨there.advance ' ', ?_⟩⟩
  have ended : feed ⟨.word word.reverse here, there, before⟩ ' ' =
      feed ⟨.gap, there, before.push ⟨Token.ofWord word, here⟩⟩ ' ' := by
    simp [feed, show endsWord ' ' = true from rfl]
  rw [ended, feed_blank]

end Scanner

theorem Quote.char_of_ofChar? {char : Char} {quote : Quote} (found : ofChar? char = some quote) :
    char = quote.char := by
  unfold ofChar? at found
  split at found <;> cases found <;> rfl

/-- The characters of a literal that has been begun, latest first, and whether the next one is escaped. -/
def Quote.Opens (quote : Quote) (reversed : List Char) (escaped : Bool) : Prop :=
  ∀ start here before, ∃ there, reversed.reverse.foldl Scanner.feed ⟨.quoted quote [] false start, here, before⟩ =
    ⟨.quoted quote reversed escaped start, there, before⟩

namespace Scanner

theorem opens_nil (quote : Quote) : quote.Opens [] false :=
  fun _ here _ => ⟨here, rfl⟩

/-- A literal goes on with a character after which it is still open. -/
theorem opens_cons {quote : Quote} {reversed : List Char} {escaped next : Bool} {char : Char}
    (opens : quote.Opens reversed escaped)
    (goesOn : ∀ start here before, feed ⟨.quoted quote reversed escaped start, here, before⟩ char =
      ⟨.quoted quote (char :: reversed) next start, here.advance char, before⟩) :
    quote.Opens (char :: reversed) next := by
  intro start here before
  obtain ⟨there, taken⟩ := opens start here before
  refine ⟨there.advance char, ?_⟩
  rw [List.reverse_cons, List.foldl_append, taken, List.foldl_cons, List.foldl_nil, goesOn]

theorem feed_quote (quote : Quote) (here : Location) (before : Array (Located Token)) :
    feed ⟨.gap, here, before⟩ quote.char = ⟨.quoted quote [] false here, here.advance quote.char, before⟩ := by
  cases quote <;> rfl

theorem rereads_open {quote : Quote} {reversed : List Char} {escaped : Bool} (opens : quote.Opens reversed escaped) :
    Rereads (quote.token reversed.reverse false) := by
  intro here before
  obtain ⟨there, taken⟩ := opens here (here.advance quote.char) before
  rw [Token.text_token, Token.isClosed_token]
  simp only [Bool.false_eq_true, if_false, List.append_nil, List.foldl_cons, feed_quote, taken]
  exact ⟨rfl, fun closed => absurd closed (by decide)⟩

theorem rereads_closed {quote : Quote} {reversed : List Char} (opens : quote.Opens reversed false) :
    Rereads (quote.token reversed.reverse true) := by
  intro here before
  obtain ⟨there, taken⟩ := opens here (here.advance quote.char) before
  have closed : (quote.token reversed.reverse true).text.toList.foldl feed ⟨.gap, here, before⟩ =
      ⟨.gap, there.advance quote.char, before.push ⟨quote.token reversed.reverse true, here⟩⟩ := by
    rw [Token.text_token]
    simp only [if_true, List.foldl_cons, List.foldl_append, List.foldl_nil, feed_quote, taken]
    simp [feed]
  rw [closed]
  exact ⟨by simp [finish], fun _ => ⟨_, feed_blank _ _⟩⟩

/-- What the scanner is inside of, as the characters after those that it has read as tokens. -/
def Mode.Spells (mode : Mode) (read rest : List Char) : Prop :=
  match mode with
  | .gap => Gap false rest
  | .comment => ∃ gap body, rest = gap ++ '#' :: body ∧ Gap false gap ∧ '\n' ∉ body
  | .word reversed start => ∃ gap, rest = gap ++ reversed.reverse ∧ Gap false gap ∧
      start = Location.after (read ++ gap) ∧ reversed ≠ [] ∧ ∀ char ∈ reversed, endsWord char = false
  | .quoted quote reversed escaped start => ∃ gap, rest = gap ++ quote.char :: reversed.reverse ∧ Gap false gap ∧
      start = Location.after (read ++ gap) ∧ quote.Opens reversed escaped

/-- The tokens are closed and can be read again. -/
def Settled (tokens : Array (Located Token)) : Prop :=
  ∀ located ∈ tokens.toList, located.value.isClosed = true ∧ Rereads located.value

theorem Settled.push {tokens : Array (Located Token)} (settled : Settled tokens) {token : Token} (start : Location)
    (closed : token.isClosed = true) (rereads : Rereads token) : Settled (tokens.push ⟨token, start⟩) := by
  intro located among
  rw [Array.toList_push, List.mem_append, List.mem_singleton] at among
  rcases among with old | rfl
  · exact settled located old
  · exact ⟨closed, rereads⟩

/-- The scanner after the given characters. -/
structure Covers (scanner : Scanner) (chars : List Char) : Prop where
  here : scanner.here = Location.after chars
  settled : Settled scanner.tokens
  split : ∃ read rest, chars = read ++ rest ∧ Laid read scanner.tokens.toList ∧ scanner.mode.Spells read rest

section Step

variable {read gap : List Char} {tokens : Array (Located Token)} (laid : Laid read tokens.toList)
  (between : Gap false gap) (settled : Settled tokens)

include laid between

/-- One more token after the ones that have been found. -/
theorem laid_push (token : Token) {start : Location} (place : start = Location.after (read ++ gap)) :
    Laid (read ++ gap ++ token.text.toList) (tokens.push ⟨token, start⟩).toList := by
  rw [Array.toList_push, place]
  exact .token token laid between

include settled

/-- A character outside of tokens. -/
theorem covers_begin (char : Char) :
    (begin tokens (Location.after (read ++ gap)) char).Covers (read ++ gap ++ [char]) := by
  have place := Location.after_append (read ++ gap) char
  have together := List.append_assoc read gap [char]
  cases single : Token.ofChar? char with
  | some token =>
      have begun : begin tokens (Location.after (read ++ gap)) char =
          ⟨.gap, (Location.after (read ++ gap)).advance char, tokens.push ⟨token, Location.after (read ++ gap)⟩⟩ := by
        simp only [begin, enter, single]
      rw [begun]
      have pushed := laid_push laid between token rfl
      rw [Token.text_ofChar? single] at pushed
      exact ⟨place.symm, settled.push _ (Token.isClosed_ofChar? single) (rereads_ofChar? single),
        read ++ gap ++ [char], [], (List.append_nil _).symm, pushed, .nothing⟩
  | none =>
      -- No token is complete yet: the character goes to the gap, or begins what comes after it.
      suffices begun : ∃ mode, enter char (Location.after (read ++ gap)) = (none, mode) ∧
          mode.Spells read (gap ++ [char]) by
        obtain ⟨mode, entered, spells⟩ := begun
        simp only [begin, entered]
        exact ⟨place.symm, settled, read, gap ++ [char], together, laid, spells⟩
      cases opening : Quote.ofChar? char with
      | some quote =>
          have same : char = quote.char := Quote.char_of_ofChar? opening
          refine ⟨.quoted quote [] false (Location.after (read ++ gap)), ?_, ?_⟩
          · simp only [enter, single, opening]
          · exact ⟨gap, by rw [same]; rfl, between, rfl, opens_nil quote⟩
      | none =>
          by_cases blank : Text.isBlank char = true
          · refine ⟨.gap, ?_, between.append (.blank blank .nothing)⟩
            simp only [enter, single, opening, blank, if_true]
          · by_cases comment : char = '#'
            · refine ⟨.comment, ?_, gap, [], by rw [comment], between, List.not_mem_nil⟩
              simp only [enter, single, opening, if_neg blank, if_pos comment]
            · have plain : endsWord char = false := by simp [endsWord, single, opening, blank, comment]
              refine ⟨.word [char] (Location.after (read ++ gap)), enter_word plain _, gap, rfl, between, rfl, ?_, ?_⟩
              · exact List.cons_ne_nil _ _
              · intro other among
                rw [List.mem_singleton.mp among]
                exact plain

end Step

theorem covers_initial : initial.Covers [] := by
  refine ⟨rfl, ?_, [], [], rfl, .nothing, .nothing⟩
  intro located among
  cases among

/-- One more character. -/
theorem Covers.feed {scanner : Scanner} {chars : List Char} (covers : scanner.Covers chars) (char : Char) :
    (scanner.feed char).Covers (chars ++ [char]) := by
  obtain ⟨mode, here, tokens⟩ := scanner
  obtain ⟨place, settled, read, rest, rfl, laid, spells⟩ := covers
  simp only at place settled laid spells
  subst place
  have next := Location.after_append (read ++ rest) char
  have together := List.append_assoc read rest [char]
  cases mode with
  | gap => exact covers_begin laid spells settled char
  | comment =>
      obtain ⟨gap, body, rfl, between, oneLine⟩ := spells
      refine ⟨next.symm, settled, read, _, together, laid, ?_⟩
      by_cases line : char = '\n'
      · have ended : Gap false ('#' :: body ++ '\n' :: []) := .comment oneLine .nothing
        simpa [Scanner.feed, line, Mode.Spells] using between.append ended
      · simp only [Scanner.feed, line, if_false]
        refine ⟨gap, body ++ [char], by simp, between, ?_⟩
        simpa [line] using ⟨oneLine, Ne.symm line⟩
  | word reversed start =>
      obtain ⟨gap, rfl, between, started, filled, plain⟩ := spells
      by_cases ends : endsWord char = true
      · have filledWord : reversed.reverse ≠ [] := by simpa using filled
        have plainWord : ∀ char ∈ reversed.reverse, endsWord char = false := by simpa using plain
        have pushed := laid_push laid between (Token.ofWord reversed.reverse) started
        rw [Token.text_ofWord] at pushed
        -- The word is complete, and no gap has begun after it.
        have further := covers_begin pushed .nothing
          (settled.push start (Token.isClosed_ofWord _) (rereads_ofWord filledWord plainWord)) char
        simpa [Scanner.feed, ends] using further
      · simp only [Scanner.feed, ends, if_false, Bool.false_eq_true]
        refine ⟨next.symm, settled, read, _, together, laid, gap, by simp, between, started, List.cons_ne_nil _ _, ?_⟩
        intro other among
        rcases List.mem_cons.mp among with rfl | old
        · exact Bool.not_eq_true _ ▸ ends
        · exact plain other old
  | quoted quote reversed escaped start =>
      obtain ⟨gap, rfl, between, started, opens⟩ := spells
      have goesOn {following : Bool} (opensNext : quote.Opens (char :: reversed) following) :
          Covers ⟨.quoted quote (char :: reversed) following start,
            (Location.after (read ++ (gap ++ quote.char :: reversed.reverse))).advance char, tokens⟩
            (read ++ (gap ++ quote.char :: reversed.reverse) ++ [char]) :=
        ⟨next.symm, settled, read, _, together, laid, gap, by simp, between, started, opensNext⟩
      cases escaped with
      | true =>
          simp only [Scanner.feed, if_true]
          exact goesOn (opens_cons opens fun _ _ _ => by simp [Scanner.feed])
      | false =>
          by_cases closing : char = quote.char
          · subst closing
            have pushed := laid_push laid between (quote.token reversed.reverse true) started
            rw [Token.text_token, if_pos rfl] at pushed
            simp only [Scanner.feed, if_true, if_false, Bool.false_eq_true]
            refine ⟨next.symm, settled.push start (Token.isClosed_token _ _ _) (rereads_closed opens), _, [],
              (List.append_nil _).symm, ?_, .nothing⟩
            simpa using pushed
          · simp only [Scanner.feed, closing, if_false, Bool.false_eq_true]
            exact goesOn (opens_cons opens fun _ _ _ => by simp [Scanner.feed, closing])

theorem Covers.foldl {scanner : Scanner} {chars : List Char} (covers : scanner.Covers chars) (further : List Char) :
    (further.foldl Scanner.feed scanner).Covers (chars ++ further) := by
  induction further generalizing scanner chars with
  | nil =>
      rw [List.append_nil]
      exact covers
  | cons char rest induction =>
      have result := induction (covers.feed char)
      rw [List.append_assoc, List.singleton_append] at result
      exact result

/-- The tokens of a whole text: only the last one may be open, and what follows it is a gap. -/
structure Finished (tokens : List (Located Token)) (chars : List Char) : Prop where
  laid : ∃ read gap, chars = read ++ gap ∧ Laid read tokens ∧ Gap true gap
  closed : ∀ located ∈ tokens.dropLast, located.value.isClosed = true
  rereads : ∀ located ∈ tokens, Rereads located.value

section Finish

variable {read rest : List Char} {tokens : Array (Located Token)} (laid : Laid read tokens.toList)
  (settled : Settled tokens)

include laid settled

theorem finished_of_gap (gap : Gap true rest) : Finished tokens.toList (read ++ rest) := by
  refine ⟨⟨read, rest, rfl, laid, gap⟩, ?_, ?_⟩
  · intro located among
    exact (settled located (List.mem_of_mem_dropLast among)).1
  · intro located among
    exact (settled located among).2

/-- One more token ends with the text. -/
theorem finished_of_token {gap : List Char} {token : Token} {start : Location}
    (same : rest = gap ++ token.text.toList) (between : Gap false gap)
    (started : start = Location.after (read ++ gap)) (last : Rereads token) :
    Finished (tokens.toList ++ [⟨token, start⟩]) (read ++ rest) := by
  refine ⟨⟨read ++ rest, [], (List.append_nil _).symm, ?_, .nothing⟩, ?_, ?_⟩
  · rw [same, started, ← List.append_assoc]
    exact .token token laid between
  · intro located among
    rw [List.dropLast_concat] at among
    exact (settled located among).1
  · intro located among
    rcases List.mem_append.mp among with old | new
    · exact (settled located old).2
    · rw [List.mem_singleton.mp new]
      exact last

end Finish

theorem Covers.finish {scanner : Scanner} {chars : List Char} (covers : scanner.Covers chars) :
    Finished scanner.finish chars := by
  obtain ⟨mode, here, tokens⟩ := scanner
  obtain ⟨_, settled, read, rest, rfl, laid, spells⟩ := covers
  cases mode with
  | gap =>
      have atEnd : Gap true (rest ++ []) := Gap.append spells .nothing
      rw [List.append_nil] at atEnd
      rw [Scanner.finish, List.append_nil]
      exact finished_of_gap laid settled atEnd
  | comment =>
      obtain ⟨gap, body, rfl, between, oneLine⟩ := spells
      rw [Scanner.finish, List.append_nil]
      exact finished_of_gap laid settled (between.append (.lastComment oneLine rfl))
  | word reversed start =>
      obtain ⟨gap, same, between, started, filled, plain⟩ := spells
      have rereadsWord : Rereads (Token.ofWord reversed.reverse) :=
        rereads_ofWord (by simpa using filled) (by simpa using plain)
      exact finished_of_token laid settled (by rw [same, Token.text_ofWord]) between started rereadsWord
  | quoted quote reversed escaped start =>
      obtain ⟨gap, same, between, started, opens⟩ := spells
      exact finished_of_token laid settled (by simp [same, Token.text_token]) between started (rereads_open opens)

/-- Tokens that can be read again are read again from their texts with blanks between them. -/
theorem reread_all (tokens : List Token) (rereads : ∀ token ∈ tokens, Rereads token)
    (closed : ∀ token ∈ tokens.dropLast, token.isClosed = true) (here : Location) (before : Array (Located Token)) :
    ∃ located, ((" ".intercalate (tokens.map Token.text)).toList.foldl Scanner.feed ⟨.gap, here, before⟩).finish =
      before.toList ++ located ∧ located.map Located.value = tokens := by
  have blankText : " ".toList = [' '] := rfl
  rw [String.toList_intercalate, List.map_map, blankText]
  induction tokens generalizing here before with
  | nil => exact ⟨[], by simp [Scanner.finish], rfl⟩
  | cons token rest induction =>
      obtain ⟨alone, spaced⟩ := rereads token List.mem_cons_self here before
      cases rest with
      | nil => exact ⟨[⟨token, here⟩], by simpa [List.intercalate] using alone, rfl⟩
      | cons second rest =>
          obtain ⟨there, blank⟩ := spaced (closed token (by simp))
          obtain ⟨located, taken, values⟩ := induction
            (fun other among => rereads other (List.mem_cons_of_mem _ among))
            (fun other among => closed other (by simp [among])) there (before.push ⟨token, here⟩)
          refine ⟨⟨token, here⟩ :: located, ?_, by rw [List.map_cons, values]⟩
          rw [List.map_cons, List.map_cons, List.intercalate_cons_cons, List.foldl_append, List.foldl_append]
          rw [List.map_cons] at taken
          simp only [Function.comp_apply, List.foldl_cons, List.foldl_nil, blank] at taken ⊢
          rw [taken]
          simp

end Scanner

namespace TokenList

theorem tokens_scan (source : String) :
    (scan source).tokens = (source.toList.foldl Scanner.feed ⟨.gap, Location.start, #[]⟩).finish :=
  rfl

/--
Scanning loses nothing. A source text is the texts of its tokens, in order, with gaps before, between and after them;
each token is at the place found by counting, and so is the end of the text. The texts of the tokens with blanks
between them are read as the same tokens, and only the last token can be a literal without its second quote.
-/
theorem scan_is_lossless (source : String) :
    (∃ read gap, source.toList = read ++ gap ∧ Laid read (scan source).tokens ∧ Gap true gap) ∧
      (scan source).finish = Location.after source.toList ∧
      (scan (" ".intercalate ((scan source).tokens.map fun located => located.value.text))).tokens.map Located.value =
        (scan source).tokens.map Located.value ∧
      ∀ located ∈ (scan source).tokens.dropLast, located.value.isClosed = true := by
  have covers := Scanner.covers_initial.foldl source.toList
  rw [List.nil_append] at covers
  obtain ⟨laid, closed, rereads⟩ := covers.finish
  refine ⟨laid, covers.here, ?_, closed⟩
  have tokensReread : ∀ token ∈ (scan source).tokens.map Located.value, Scanner.Rereads token := by
    intro token among
    obtain ⟨located, member, rfl⟩ := List.mem_map.mp among
    exact rereads located member
  have tokensClosed : ∀ token ∈ ((scan source).tokens.map Located.value).dropLast, token.isClosed = true := by
    intro token among
    rw [← List.map_dropLast] at among
    obtain ⟨located, member, rfl⟩ := List.mem_map.mp among
    exact closed located member
  obtain ⟨located, taken, values⟩ := Scanner.reread_all _ tokensReread tokensClosed Location.start #[]
  rw [List.map_map] at taken
  rw [← values, tokens_scan, ← Function.comp_def Token.text Located.value, taken]
  rfl

end TokenList

end RingTape
