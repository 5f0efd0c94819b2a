import Mathlib
import RingTape.Proofs.Decimal
import RingTape.Proofs.Parsing

/-!
Code written as text and read again. An instruction is written as its text, a block as its braces around the
terminator and the members, with a blank between members. What is read is the code that was written, up to the
places where it stands.
-/

namespace RingTape

set_option autoImplicit false

namespace Code

mutual

/-- The code as text. -/
def render : Code → String
  | .instruction single => single.text
  | .block ⟨gate, first, others, _⟩ =>
      "\x7b" ++ gate.terminator.toString ++ " ".intercalate (first.render :: renderAll others) ++ "\x7d"

def renderAll : List Code → List String
  | [] => []
  | code :: rest => code.render :: renderAll rest

end

mutual

/-- The code without the places where it stands. -/
def bare : Code → Code
  | .instruction single => .instruction { single with location := .unknown }
  | .block ⟨gate, first, others, _⟩ => .block ⟨gate, first.bare, bareAll others, .unknown⟩

def bareAll : List Code → List Code
  | [] => []
  | code :: rest => code.bare :: bareAll rest

end

theorem renderAll_eq (codes : List Code) : renderAll codes = codes.map render := by
  induction codes with
  | nil => rfl
  | cons code rest induction => rw [renderAll, induction, List.map_cons]

theorem bareAll_eq (codes : List Code) : bareAll codes = codes.map bare := by
  induction codes with
  | nil => rfl
  | cons code rest induction => rw [bareAll, induction, List.map_cons]

end Code

/-- The operation can be written: it has no memory literal, and its constant is no negative number. -/
def Op.Writable (op : Op) : Prop :=
  (∀ tree, op ≠ .setMemory tree) ∧ ∀ value, op.operand? = some (.constant value) → 0 ≤ value.toInt

def Code.Writable (code : Code) : Prop :=
  code.Throughout (fun instruction => instruction.op.Writable) fun _ => True

namespace Scanner

/-- Between tokens, the scanner takes the text as whole tokens that are as described. -/
def Scans (text : List Char) (holds : List (Located Token) → Prop) : Prop :=
  ∀ here before, ∃ there located,
    text.foldl feed ⟨.gap, here, before⟩ = ⟨.gap, there, before ++ located⟩ ∧ holds located.toList

theorem Scans.append {first second : List Char} {one two both : List (Located Token) → Prop}
    (scans : Scans first one) (further : Scans second two)
    (together : ∀ tokens others, one tokens → two others → both (tokens ++ others)) : Scans (first ++ second) both := by
  intro here before
  obtain ⟨middle, located, taken, held⟩ := scans here before
  obtain ⟨there, others, takenOthers, heldOthers⟩ := further middle (before ++ located)
  refine ⟨there, located ++ others, ?_, ?_⟩
  · rw [List.foldl_append, taken, takenOthers, Array.append_assoc]
  · rw [Array.toList_append]
    exact together _ _ held heldOthers

theorem scans_char {char : Char} {token : Token} {holds : List (Located Token) → Prop}
    (found : Token.ofChar? char = some token) (held : ∀ location, holds [⟨token, location⟩]) :
    Scans [char] holds := by
  intro here before
  refine ⟨here.advance char, #[⟨token, here⟩], ?_, held here⟩
  simp only [List.foldl_cons, List.foldl_nil, feed, begin, enter, found]
  rfl

theorem scans_blank : Scans [' '] fun tokens => tokens = [] := by
  intro here before
  exact ⟨here.advance ' ', #[], by simp [feed, begin, enter, Token.ofChar?, Quote.ofChar?, Text.isBlank,
    Text.blankRanges], rfl⟩

/-- A word goes on to the character that ends it. -/
theorem foldl_word (word : List Char) (plain : ∀ char ∈ word, endsWord char = false) (reversed : List Char)
    (start here : Location) (before : Array (Located Token)) :
    ∃ there, word.foldl feed ⟨.word reversed start, here, before⟩ =
      ⟨.word (word.reverse ++ reversed) start, there, before⟩ := by
  induction word generalizing reversed here with
  | nil => exact ⟨here, rfl⟩
  | cons char rest induction =>
      obtain ⟨there, taken⟩ := induction (fun other among => plain other (List.mem_cons_of_mem _ among))
        (char :: reversed) (here.advance char)
      refine ⟨there, ?_⟩
      have step : feed ⟨.word reversed start, here, before⟩ char =
          ⟨.word (char :: reversed) start, here.advance char, before⟩ := by
        simp [feed, plain char List.mem_cons_self]
      rw [List.foldl_cons, step, taken, List.reverse_cons, List.append_assoc, List.singleton_append]

theorem enter_word {char : Char} (plain : endsWord char = false) (here : Location) :
    enter char here = (none, .word [char] here) := by
  simp only [endsWord, Bool.or_eq_false_iff, decide_eq_false_iff_not] at plain
  obtain ⟨⟨⟨notBlank, noToken⟩, noQuote⟩, noComment⟩ := plain
  rw [Option.isSome_eq_false_iff, Option.isNone_iff_eq_none] at noToken noQuote
  simp [enter, noToken, noQuote, notBlank, noComment]

/-- A word is one token if a character follows that ends it. -/
theorem scans_word {word rest : List Char} {last : Char} {holds further : List (Located Token) → Prop}
    (filled : word ≠ []) (plain : ∀ char ∈ word, endsWord char = false) (ends : endsWord last = true)
    (scans : Scans (last :: rest) further)
    (together : ∀ location others, further others → holds (⟨Token.ofWord word, location⟩ :: others)) :
    Scans (word ++ last :: rest) holds := by
  intro here before
  cases word with
  | nil => exact absurd rfl filled
  | cons first word =>
      have begun : feed ⟨.gap, here, before⟩ first = ⟨.word [first] here, here.advance first, before⟩ := by
        simp only [feed, begin, enter_word (plain first List.mem_cons_self)]
      obtain ⟨middle, taken⟩ := foldl_word word (fun char among => plain char (List.mem_cons_of_mem _ among)) [first]
        here (here.advance first) before
      -- The last character is taken as if it stood after the finished word.
      have finished : feed ⟨.word (word.reverse ++ [first]) here, middle, before⟩ last =
          feed ⟨.gap, middle, before.push ⟨Token.ofWord (first :: word), here⟩⟩ last := by
        simp [feed, ends]
      obtain ⟨there, located, takenRest, held⟩ := scans middle (before.push ⟨Token.ofWord (first :: word), here⟩)
      refine ⟨there, #[⟨Token.ofWord (first :: word), here⟩] ++ located, ?_, ?_⟩
      · rw [List.foldl_cons] at takenRest
        simp only [List.foldl_append, List.foldl_cons, begun, taken, finished, takenRest]
        simp
      · rw [Array.toList_append]
        exact together here _ held

end Scanner

section Digits

theorem endsWord_of_isDigit {char : Char} (digit : char.isDigit = true) : Scanner.endsWord char = false := by
  obtain ⟨value, small, rfl⟩ := exists_digit digit
  interval_cases value <;> cbv

theorem radixOf_digits {digits : List Char} (decimal : ∀ char ∈ digits, char.isDigit = true) :
    Literal.radixOf digits = (10, digits) := by
  unfold Literal.radixOf
  split
  all_goals first
    | rfl
    | (have wrong := decimal _ (List.mem_cons_of_mem _ List.mem_cons_self); simp at wrong)

theorem integer_decimalDigits {number : Nat} {value : Num} (exact : Num.ofInt? number = some value) :
    Literal.integer (String.ofList (decimalDigits number)) = .ok value := by
  have all : (decimalDigits number).all (Text.isDigit 10) = true :=
    List.all_eq_true.mpr isDigit_ten_of_mem_decimalDigits
  have filled : (decimalDigits number).isEmpty = false := List.isEmpty_eq_false_iff.mpr (decimalDigits_ne_nil number)
  rw [Literal.integer, String.toList_ofList, radixOf_digits isDigit_of_mem_decimalDigits]
  simp only [filled, all, valueOf_decimalDigits, exact, Bool.not_false, Bool.true_and, if_true]

theorem ofWord_digits {digits : List Char} (filled : digits ≠ []) (decimal : ∀ char ∈ digits, char.isDigit = true) :
    Token.ofWord digits = .numeral (.integer (String.ofList digits)) := by
  unfold Token.ofWord
  split
  · simp at decimal
  · simp at decimal
  · simp at decimal
  · simp at decimal
  · rw [if_pos (decimal _ List.mem_cons_self)]
  · exact absurd rfl filled

end Digits

/-- The word is one token, a keyword. -/
def Keyword.isWord (word : String) : Bool :=
  !word.toList.isEmpty && word.toList.all (fun char => !Scanner.endsWord char) &&
    Token.ofWord word.toList == .keyword word

theorem Keyword.of_isWord {word : String} (isWord : Keyword.isWord word = true) :
    word.toList ≠ [] ∧ (∀ char ∈ word.toList, Scanner.endsWord char = false) ∧
      Token.ofWord word.toList = .keyword word := by
  simpa [Keyword.isWord, and_assoc] using isWord

theorem Keyword.all_isWord : (nullaryWords ++ unaryWords).all isWord = true := by
  cbv

/-- The keyword tables read back the name of an operation. -/
theorem Op.named (op : Op) (notMemory : ∀ tree, op ≠ .setMemory tree) :
    (∃ operand, op = .setValue operand) ∨
      (Keyword.isWord op.name = true ∧ op.operand? = none ∧ Keyword.nullary? op.name = some op) ∨
        ∃ operand, Keyword.isWord op.name = true ∧ op.operand? = some operand ∧ Keyword.unary? op.name operand = some op := by
  have word (name : String) (known : (Keyword.nullaryWords ++ Keyword.unaryWords).contains name = true) :
      Keyword.isWord name = true := List.all_eq_true.mp Keyword.all_isWord name (List.contains_iff_mem.mp known)
  cases op with
  | setValue operand => exact .inl ⟨operand, rfl⟩
  | setMemory tree => exact absurd rfl (notMemory tree)
  | leave => exact .inr (.inl ⟨word _ rfl, rfl, rfl⟩)
  | increment => exact .inr (.inl ⟨word _ rfl, rfl, rfl⟩)
  | decrement => exact .inr (.inl ⟨word _ rfl, rfl, rfl⟩)
  | invert => exact .inr (.inl ⟨word _ rfl, rfl, rfl⟩)
  | setAccumulator operand => exact .inr (.inr ⟨operand, word _ rfl, rfl, rfl⟩)
  | setCondition operand => exact .inr (.inr ⟨operand, word _ rfl, rfl, rfl⟩)
  | arithmetic operation operand =>
      cases operation <;> exact .inr (.inr ⟨operand, word _ rfl, rfl, rfl⟩)
  | connect connective operand =>
      cases connective <;> exact .inr (.inr ⟨operand, word _ rfl, rfl, rfl⟩)
  | compare comparison operand =>
      cases comparison <;> exact .inr (.inr ⟨operand, word _ rfl, rfl, rfl⟩)
  | move direction =>
      cases direction with
      | back count => exact .inr (.inr ⟨count, word _ rfl, rfl, rfl⟩)
      | forward count => exact .inr (.inr ⟨count, word _ rfl, rfl, rfl⟩)
      | _ => exact .inr (.inl ⟨word _ rfl, rfl, rfl⟩)
  | edit change => cases change <;> exact .inr (.inl ⟨word _ rfl, rfl, rfl⟩)
  | input format => cases format <;> exact .inr (.inl ⟨word _ rfl, rfl, rfl⟩)
  | output format => cases format <;> exact .inr (.inl ⟨word _ rfl, rfl, rfl⟩)

open Grammar Scanner

/-- No token begins a memory literal but a number. -/
def Plain (tokens : List (Located Token)) : Prop :=
  ∀ token ∈ tokens, token.value.beginsMemory = true → token.value.isNumeral = true

theorem Plain.append {first second : List (Located Token)} (one : Plain first) (two : Plain second) :
    Plain (first ++ second) := by
  intro token among
  rcases List.mem_append.mp among with among | among
  · exact one token among
  · exact two token among

theorem Plain.cons {token : Located Token} {rest : List (Located Token)}
    (one : token.value.beginsMemory = true → token.value.isNumeral = true) (others : Plain rest) :
    Plain (token :: rest) :=
  List.forall_mem_cons.mpr ⟨one, others⟩

/-- Where there are only numbers, there is nothing to make room for. -/
theorem Plain.roomy {tokens : List (Located Token)} (plain : Plain tokens) : Roomy tokens := by
  rintro taken literal inside written
  cases written with
  | number location number further => exact MemoryLiteral.faithful_number _
  | strings strings further =>
      obtain ⟨raw, location, others, rfl⟩ := Reading.exists_cons_of_strings strings
      have wrong := plain _ (inside.subset (List.mem_cons_self)) rfl
      cases wrong
  | group opened closed inner further =>
      have wrong := plain _ (inside.subset (List.mem_cons_self)) rfl
      cases wrong

theorem ofChar?_terminator (gate : Gate) : Token.ofChar? gate.terminator = some (.terminator gate) := by
  cases gate <;> rfl

theorem endsWord_terminator (gate : Gate) : endsWord gate.terminator = true := by
  cases gate <;> rfl

theorem scans_terminator (gate : Gate) :
    Scans [gate.terminator] fun tokens => Terminator tokens gate ∧ Plain tokens :=
  scans_char (ofChar?_terminator gate) fun location => ⟨.present gate location, by simp [Plain, Token.beginsMemory]⟩

/-- An operand is one word, and as a token it is the operand again. -/
theorem argument_ofWord {operand : Operand} (natural : ∀ value, operand = .constant value → 0 ≤ value.toInt) :
    operand.text.toList ≠ [] ∧ (∀ char ∈ operand.text.toList, endsWord char = false) ∧
      Argument (Token.ofWord operand.text.toList) operand := by
  cases operand with
  | register name =>
      have plain : name.text.toList.all (fun char => !endsWord char) = true := by cases name <;> cbv
      refine ⟨by cases name <;> decide, by simpa [Operand.text] using plain, ?_⟩
      cases name
      · exact .register .accumulator
      · exact .register .active
  | constant value =>
      obtain ⟨number, text, exact⟩ := text_of_natural (natural value rfl)
      have word : (Operand.constant value).text.toList = decimalDigits number := by
        rw [Operand.text, text, String.toList_ofList]
      rw [word, ofWord_digits (decimalDigits_ne_nil number) isDigit_of_mem_decimalDigits]
      refine ⟨decimalDigits_ne_nil number, ?_, .number (.integer (integer_decimalDigits exact))⟩
      exact fun char among => endsWord_of_isDigit (isDigit_of_mem_decimalDigits char among)

theorem Grammar.Argument.isNumeral {token : Token} {operand : Operand} (argument : Argument token operand)
    (begins : token.beginsMemory = true) : token.isNumeral = true := by
  cases argument with
  | register name => cases begins
  | number number =>
      obtain ⟨numeral, rfl, _⟩ := number.numeral
      rfl

/-- A blank, an operand and the terminator after it. -/
theorem scans_operand {operand : Operand} (natural : ∀ value, operand = .constant value → 0 ≤ value.toInt)
    (gate : Gate) :
    Scans (' ' :: (operand.text.toList ++ [gate.terminator])) fun tokens => ∃ token place final,
      tokens = ⟨token, place⟩ :: final ∧ Argument token operand ∧ Terminator final gate ∧ Plain tokens := by
  obtain ⟨filled, plain, argument⟩ := argument_ofWord natural
  refine scans_blank.append (scans_word filled plain (endsWord_terminator gate) (scans_terminator gate) ?_)
    (fun _ _ nothing held => by rw [nothing]; exact held)
  rintro location others ⟨terminator, plainOthers⟩
  exact ⟨_, location, others, rfl, argument, terminator, plainOthers.cons argument.isNumeral⟩

/-- The tokens are the code as it was written, up to the places. -/
def Writes (codes : List Code) (tokens : List (Located Token)) : Prop :=
  ∃ read, Containers tokens read ∧ read.map Code.bare = codes.map Code.bare ∧ Plain tokens

theorem Writes.append {codes others : List Code} {tokens further : List (Located Token)}
    (writes : Writes codes tokens) (more : Writes others further) : Writes (codes ++ others) (tokens ++ further) := by
  obtain ⟨read, written, same, plain⟩ := writes
  obtain ⟨readOthers, writtenOthers, sameOthers, plainOthers⟩ := more
  refine ⟨read ++ readOthers, written.append writtenOthers, ?_, plain.append plainOthers⟩
  rw [List.map_append, List.map_append, same, sameOthers]

theorem writes_single {instruction : Instruction} {tokens : List (Located Token)} {location : Location}
    (single : Single tokens { instruction with location := location }) (plain : Plain tokens) :
    Writes [.instruction instruction] tokens := by
  have alone := Containers.instruction single .none
  rw [List.append_nil] at alone
  exact ⟨_, alone, rfl, plain⟩

theorem text_nullary {instruction : Instruction} (none : instruction.op.operand? = none) :
    instruction.text.toList = instruction.op.name.toList ++ [instruction.gate.terminator] := by
  simp [Instruction.text, none]

theorem text_unary {instruction : Instruction} {operand : Operand} (some : instruction.op.operand? = some operand) :
    instruction.text.toList =
      instruction.op.name.toList ++ ' ' :: (operand.text.toList ++ [instruction.gate.terminator]) := by
  simp [Instruction.text, some]

/-- An instruction that is written is read again, whatever the tables and the scanner make of its name. -/
theorem scans_instruction {instruction : Instruction} (writable : instruction.op.Writable) :
    Scans instruction.text.toList (Writes [.instruction instruction]) := by
  rcases instruction with ⟨op, gate, location⟩
  obtain ⟨notMemory, natural⟩ := writable
  rcases op.named notMemory with ⟨operand, rfl⟩ | ⟨word, none, known⟩ | ⟨operand, word, some, known⟩
  · have dot : Scans ".".toList fun tokens => ∃ place, tokens = [⟨.dot, place⟩] :=
      scans_char rfl fun place => ⟨place, rfl⟩
    rw [text_unary rfl]
    refine dot.append (scans_operand (fun value same => natural value (congrArg some same)) gate) ?_
    rintro _ _ ⟨place, rfl⟩ ⟨token, next, final, rfl, argument, terminator, plain⟩
    exact writes_single (.assign place next argument terminator) (plain.cons (by simp [Token.beginsMemory]))
  · obtain ⟨filled, plain, spelled⟩ := Keyword.of_isWord word
    rw [text_nullary none]
    refine scans_word filled plain (endsWord_terminator gate) (scans_terminator gate) ?_
    rintro place others ⟨terminator, plainOthers⟩
    rw [spelled]
    exact writes_single (.nullary place known terminator) (plainOthers.cons (by simp [Token.beginsMemory]))
  · obtain ⟨filled, plain, spelled⟩ := Keyword.of_isWord word
    rw [text_unary some]
    refine scans_word filled plain rfl (scans_operand (fun value same => natural value (same ▸ some)) gate) ?_
    rintro place others ⟨token, next, final, rfl, argument, terminator, plainOthers⟩
    rw [spelled]
    exact writes_single (.unary place next argument known terminator) (plainOthers.cons (by simp [Token.beginsMemory]))

/-- Members are written one after the other, with blanks between them. -/
theorem scans_members {members : List Code}
    (each : ∀ member ∈ members, Scans member.render.toList (Writes [member])) :
    Scans (" ".intercalate (members.map Code.render)).toList (Writes members) := by
  rw [String.toList_intercalate, List.map_map]
  induction members with
  | nil => exact fun here before => ⟨here, #[], by simp, [], .none, rfl, by simp [Plain]⟩
  | cons first rest induction =>
      have one := each first List.mem_cons_self
      have others := induction fun member among => each member (List.mem_cons_of_mem _ among)
      cases rest with
      | nil => simpa [List.intercalate] using one
      | cons second rest =>
          rw [List.map_cons, List.map_cons, List.intercalate_cons_cons]
          have spaced := scans_blank.append others fun _ _ nothing writes => by rw [nothing]; exact writes
          rw [List.append_assoc]
          exact one.append spaced fun _ _ writes more => writes.append more

/-- A block is its braces around what its members are. -/
theorem writes_block {gate : Gate} {first : Code} {others : List Code} {start inner : List (Located Token)}
    (location opened closed : Location) (terminator : Terminator start gate) (plain : Plain start)
    (writes : Writes (first :: others) inner) :
    Writes [.block ⟨gate, first, others, location⟩]
      (⟨.openBlock, opened⟩ :: (start ++ (inner ++ [⟨.closeBlock, closed⟩]))) := by
  obtain ⟨read, written, same, plainInner⟩ := writes
  cases read with
  | nil => cases same
  | cons head tail =>
      rw [List.map_cons, List.map_cons, List.cons.injEq] at same
      refine ⟨_, .block opened closed terminator written .none, ?_, ?_⟩
      · simp only [List.map_cons, List.map_nil, Code.bare, Code.bareAll_eq, same.1, same.2]
      · refine Plain.cons (by simp [Token.beginsMemory]) (plain.append (plainInner.append ?_))
        exact Plain.cons (by simp [Token.beginsMemory]) (by simp [Plain])

/-- Code that is written is read again. -/
theorem scans_render {code : Code} (writable : code.Writable) : Scans code.render.toList (Writes [code]) := by
  induction writable with
  | instruction instruction holds =>
      rw [Code.render]
      exact scans_instruction holds
  | block block _ _ induction =>
      rcases block with ⟨gate, first, others, location⟩
      have opening : Scans "\x7b".toList fun tokens => ∃ place, tokens = [⟨.openBlock, place⟩] :=
        scans_char rfl fun place => ⟨place, rfl⟩
      have closing : Scans "\x7d".toList fun tokens => ∃ place, tokens = [⟨.closeBlock, place⟩] :=
        scans_char rfl fun place => ⟨place, rfl⟩
      have text : (Code.block ⟨gate, first, others, location⟩).render.toList = "\x7b".toList ++ ([gate.terminator] ++
          ((" ".intercalate ((first :: others).map Code.render)).toList ++ "\x7d".toList)) := by
        simp [Code.render, Code.renderAll_eq]
      have ended : Scans ((" ".intercalate ((first :: others).map Code.render)).toList ++ "\x7d".toList) fun tokens =>
          ∃ inner closed, tokens = inner ++ [⟨.closeBlock, closed⟩] ∧ Writes (first :: others) inner := by
        refine (scans_members induction).append closing ?_
        rintro inner _ writes ⟨closed, rfl⟩
        exact ⟨inner, closed, rfl, writes⟩
      have started : Scans ([gate.terminator] ++ ((" ".intercalate ((first :: others).map Code.render)).toList ++
          "\x7d".toList)) fun tokens => ∀ opened,
            Writes [.block ⟨gate, first, others, location⟩] (⟨.openBlock, opened⟩ :: tokens) := by
        refine (scans_terminator gate).append ended ?_
        rintro start _ ⟨terminator, plain⟩ ⟨inner, closed, rfl, writes⟩ opened
        exact writes_block location opened closed terminator plain writes
      rw [text]
      refine opening.append started ?_
      rintro _ _ ⟨opened, rfl⟩ writes
      exact writes opened

/-- The root of what is read from written code is the code, up to the places. -/
theorem describes_of_writes {root : Block Code} {tokens : List (Located Token)}
    (writes : Writes [.block root] tokens) :
    ∃ read : Block Code, (Code.block read).bare = (Code.block root).bare ∧
      Describes tokens ⟨read, none, none, none⟩ := by
  obtain ⟨codes, written, same, _⟩ := writes
  rw [List.map_singleton, List.map_eq_singleton_iff] at same
  obtain ⟨code, rfl, same⟩ := same
  cases code with
  | instruction single =>
      rw [Code.bare, Code.bare] at same
      cases same
  | block read =>
      have parts := Parts.more (.block written) .none
      rw [List.append_nil] at parts
      exact ⟨read, same, _, parts, rfl, rfl, rfl, rfl⟩

/-- Written code is read as it was, up to the places, with no memory and no seeds. -/
theorem Code.read_render (root : Block Code) (writable : (Code.block root).Writable) :
    ∃ draft, Draft.read (Code.block root).render = .ok draft ∧
      (Code.block draft.root).bare = (Code.block root).bare ∧
        draft.memory = none ∧ draft.accumulator = none ∧ draft.condition = none := by
  obtain ⟨finish, located, taken, writes⟩ := scans_render writable Location.start #[]
  have scanned : (TokenList.scan (Code.block root).render).tokens = located.toList := by
    rw [TokenList.scan, initial, taken]
    simp [Scanner.finish]
  obtain ⟨read, same, described⟩ := describes_of_writes writes
  obtain ⟨_, _, _, plain⟩ := writes
  refine ⟨⟨read, none, none, none⟩, ?_, same, rfl, rfl, rfl⟩
  apply Draft.read_of_describes
  · rw [scanned]
    exact plain.roomy
  · rw [scanned]
    exact described

/-- Names that begin alike, with and without operands, and a block in a block. -/
def Code.sampleRoot : Block Code :=
  ⟨.whenTrue, .instruction ⟨.move .previous, .always, .unknown⟩,
    [.block ⟨.whenFalse, .instruction ⟨.move (.back (.constant 0x7FFFFFFFFFFFFFFF)), .whenFalse, .unknown⟩,
        [.instruction ⟨.edit .insertBefore, .always, .unknown⟩], .unknown⟩,
      .instruction ⟨.compare .atMost (.register .active), .whenTrue, .unknown⟩,
      .instruction ⟨.setValue (.constant 0), .always, .unknown⟩], .unknown⟩

theorem Code.read_render_sampleRoot :
    (Code.block sampleRoot).Writable ∧
      (Code.block sampleRoot).render = "\x7b?<; \x7b!< 9223372036854775807! <+;\x7d <= m? . 0;\x7d" ∧
        ∃ draft, Draft.read "\x7b?<; \x7b!< 9223372036854775807! <+;\x7d <= m? . 0;\x7d" = .ok draft ∧
          (Code.block draft.root).bare = Code.block sampleRoot ∧ draft.memory = none ∧ draft.accumulator = none ∧
            draft.condition = none := by
  have writable : (Code.block sampleRoot).Writable := by
    refine .block _ trivial ?_
    simp only [sampleRoot, Block.members, List.forall_mem_cons]
    refine ⟨.instruction _ ?_, .block _ trivial ?_, .instruction _ ?_, .instruction _ ?_, by simp⟩
    · exact ⟨by simp, by simp [Op.operand?]⟩
    · simp only [Block.members, List.forall_mem_cons]
      exact ⟨.instruction _ ⟨by simp, by simp [Op.operand?]⟩, .instruction _ ⟨by simp, by simp [Op.operand?]⟩,
        by simp⟩
    · exact ⟨by simp, by simp [Op.operand?]⟩
    · exact ⟨by simp, by simp [Op.operand?]⟩
  have text : (Code.block sampleRoot).render = "\x7b?<; \x7b!< 9223372036854775807! <+;\x7d <= m? . 0;\x7d" := by cbv
  have read := read_render sampleRoot writable
  rw [text] at read
  exact ⟨writable, text, read⟩

end RingTape
