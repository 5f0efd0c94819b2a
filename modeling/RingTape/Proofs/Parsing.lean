import Mathlib
import RingTape.Proofs.Grammar

/-!
Reading accepts just the texts of the grammar, and gives what they stand for. Without problems, every reading
took tokens that derive its value; conversely the tokens of a phrase are taken without problems, whatever
follows that cannot belong to the phrase.
-/

namespace RingTape

set_option autoImplicit false

namespace Reading

open Grammar

/-- Unless there were problems, what was taken derives what was read. -/
def Earns {α : Type} (reading : Reading α) (tokens : List (Located Token))
    (derives : List (Located Token) → α → Prop) : Prop :=
  reading.problems = [] →
    ∃ taken value, tokens = taken ++ reading.rest ∧ reading.value = some value ∧ derives taken value

section Rules

variable {α β : Type} {tokens : List (Located Token)}

theorem earns_ofExcept {taken rest : List (Located Token)} {outcome : Except Problem α}
    {derives : List (Located Token) → α → Prop} (location : Location) (split : tokens = taken ++ rest)
    (derived : ∀ value, outcome = .ok value → derives taken value) :
    (ofExcept location rest outcome).Earns tokens derives := by
  intro clean
  cases outcome with
  | error problem => cases clean
  | ok value => exact ⟨taken, value, split, rfl, derived value rfl⟩

theorem Earns.map {reading : Reading α} {derives : List (Located Token) → α → Prop}
    {result : List (Located Token) → β → Prop} {change : α → β} (earns : reading.Earns tokens derives)
    (changed : ∀ taken value, derives taken value → result taken (change value)) :
    (reading.map change).Earns tokens result := by
  intro clean
  obtain ⟨taken, value, split, read, derived⟩ := earns clean
  exact ⟨taken, change value, split, by rw [Reading.map, read, Option.map_some], changed taken value derived⟩

/-- What is read second is what was left by the first. -/
theorem Earns.cons {head : Reading α} {tail : Reading (List α)} {one : List (Located Token) → α → Prop}
    {many all : List (Located Token) → List α → Prop} (first : head.Earns tokens one)
    (second : ∀ taken value, tokens = taken ++ head.rest → one taken value → tail.Earns head.rest many)
    (together : ∀ taken value others values, one taken value → many others values →
      all (taken ++ others) (value :: values)) : (head.cons tail).Earns tokens all := by
  intro clean
  obtain ⟨headClean, tailClean⟩ := List.append_eq_nil_iff.mp clean
  obtain ⟨taken, value, split, read, derived⟩ := first headClean
  obtain ⟨others, values, further, readOthers, derivedOthers⟩ := second taken value split derived tailClean
  refine ⟨taken ++ others, value :: values, ?_, ?_, together _ _ _ _ derived derivedOthers⟩
  · rw [List.append_assoc, split]
    exact congrArg _ further
  · simp only [Reading.cons, read, readOthers, Option.bind_some, Option.map_some]

/-- What was taken stands at the front. -/
theorem Earns.ahead {reading : Reading α} {derives : List (Located Token) → α → Prop}
    (earns : reading.Earns tokens derives) :
    reading.Earns tokens fun taken value => taken <+: tokens ∧ derives taken value := by
  intro clean
  obtain ⟨taken, value, split, read, derived⟩ := earns clean
  exact ⟨taken, value, split, read, ⟨_, split.symm⟩, derived⟩

theorem Earns.after {reading : Reading α} {derives : List (Located Token) → α → Prop} {token : Located Token}
    (earns : reading.Earns tokens fun taken => derives (token :: taken)) :
    reading.Earns (token :: tokens) derives := by
  intro clean
  obtain ⟨taken, value, split, read, derived⟩ := earns clean
  exact ⟨token :: taken, value, congrArg (token :: ·) split, read, derived⟩

end Rules

theorem terminator_gate (tokens : List (Located Token)) :
    ∃ final, tokens = final ++ (gate tokens).2 ∧ Terminator final (gate tokens).1 := by
  unfold gate
  split
  · exact ⟨[_], rfl, .present _ _⟩
  · exact ⟨[], rfl, .absent⟩

theorem earns_gated {tokens : List (Located Token)} {op : Reading Op} {derives : List (Located Token) → Op → Prop}
    {result : List (Located Token) → Instruction → Prop} (location : Location) (earns : op.Earns tokens derives)
    (finished : ∀ taken value final gate, derives taken value → Terminator final gate →
      result (taken ++ final) ⟨value, gate, location⟩) : (gated location op).Earns tokens result := by
  intro clean
  obtain ⟨taken, value, split, read, derived⟩ := earns clean
  obtain ⟨final, further, terminator⟩ := terminator_gate op.rest
  refine ⟨taken ++ final, ⟨value, (gate op.rest).1, location⟩, ?_, ?_, finished _ _ _ _ derived terminator⟩
  · rw [List.append_assoc, split]
    exact congrArg _ further
  · simp only [gated, read, Option.map_some]

theorem earns_strings (finish : Location) (tokens : List (Located Token)) :
    (strings finish tokens).Earns tokens Strings := by
  fun_induction strings finish tokens with
  | case1 raw closed location joint rest piece induction =>
      intro clean
      obtain ⟨own, others⟩ := List.append_eq_nil_iff.mp clean
      have first : piece.Earns (⟨.string raw closed, location⟩ :: ⟨.concat, joint⟩ :: rest)
          fun _ bytes => stringBytes raw closed = .ok bytes :=
        earns_ofExcept location (List.singleton_append ..).symm fun _ read => read
      obtain ⟨_, bytes, _, readFirst, decoded⟩ := first own
      obtain ⟨taken, more, split, read, derived⟩ := induction others
      obtain ⟨rfl, escaped⟩ := stringBytes_eq_ok_iff.mp decoded
      refine ⟨_, bytes ++ more, ?_, ?_, .more location joint escaped derived⟩
      · simp only [append, List.cons_append, List.cons.injEq, true_and]
        exact split
      · simp only [append, readFirst, read, Option.bind_some, Option.map_some]
  | case2 raw closed location rest piece other =>
      have split : (⟨.string raw closed, location⟩ :: rest : List (Located Token)) =
          [⟨.string raw closed, location⟩] ++ rest := rfl
      refine earns_ofExcept location split ?_
      intro bytes decoded
      obtain ⟨rfl, escaped⟩ := stringBytes_eq_ok_iff.mp decoded
      exact .last location escaped
  | case3 token location rest _ => exact fun clean => by cases clean
  | case4 => exact fun clean => by cases clean

/-- The tokens are one memory literal, which stands for this tree. -/
def Denotes (taken : List (Located Token)) (tree : CellTree) : Prop :=
  ∃ literal, Literals taken [literal] ∧ tree = literal.tree

/-- The tokens are literals and then a closing parenthesis; the literals stand for these trees. -/
def ClosesMemory (taken : List (Located Token)) (trees : List CellTree) : Prop :=
  ∃ inner closed literals, taken = inner ++ [⟨.closeMemory, closed⟩] ∧ Literals inner literals ∧
    trees = MemoryLiteral.trees literals

theorem Denotes.length_pos {taken : List (Located Token)} {tree : CellTree} (denotes : Denotes taken tree) :
    0 < taken.length := by
  obtain ⟨literal, written, _⟩ := denotes
  exact written.length_le

theorem Denotes.closes {taken others : List (Located Token)} {tree : CellTree} {trees : List CellTree}
    (denotes : Denotes taken tree) (closes : ClosesMemory others trees) :
    ClosesMemory (taken ++ others) (tree :: trees) := by
  obtain ⟨literal, written, rfl⟩ := denotes
  obtain ⟨inner, closed, literals, rfl, further, rfl⟩ := closes
  exact ⟨taken ++ inner, closed, literal :: literals, (List.append_assoc _ _ _).symm, written.append further,
    by rw [MemoryLiteral.trees]⟩

theorem earns_group {rest : List (Located Token)} {children : Reading (List CellTree)} (location : Location)
    (earns : children.Earns rest ClosesMemory) :
    (group location children).Earns (⟨.openMemory, location⟩ :: rest) Denotes := by
  intro clean
  have childrenClean : children.problems = [] := by
    unfold group at clean
    split at clean
    · exact clean
    · split at clean
      · exact clean
      · exact (List.append_eq_nil_iff.mp clean).1
  obtain ⟨taken, trees, split, read, inner, closed, members, rfl, written, rfl⟩ := earns childrenClean
  unfold group at clean ⊢
  simp only [read] at clean ⊢
  cases made : CellTree.ofChildren (MemoryLiteral.trees members) with
  | error fault => simp [made] at clean
  | ok tree =>
      refine ⟨⟨.openMemory, location⟩ :: (inner ++ [⟨.closeMemory, closed⟩]), tree, ?_, rfl, .group members,
        .group location closed written .none, ?_⟩
      · rw [List.cons_append]
        exact congrArg _ split
      · rw [MemoryLiteral.tree, CellTree.gather_of_ofChildren made]

theorem earns_leaf (location : Location) (rest : List (Located Token)) (number : Numeral) :
    ((ofExcept location rest number.value).map CellTree.leaf).Earns (⟨.numeral number, location⟩ :: rest) Denotes := by
  have split : (⟨.numeral number, location⟩ :: rest : List (Located Token)) =
      [⟨.numeral number, location⟩] ++ rest := rfl
  have read : (ofExcept location rest number.value).Earns (⟨.numeral number, location⟩ :: rest)
      fun taken value => taken = [⟨.numeral number, location⟩] ∧ Number (.numeral number) value :=
    earns_ofExcept location split fun value evaluated => ⟨rfl, (number_iff number value).mpr evaluated⟩
  refine read.map ?_
  rintro taken value ⟨rfl, written⟩
  exact ⟨.number value, .number location written .none, by rw [MemoryLiteral.tree]⟩

theorem earns_ofBytes (finish : Location) (tokens : List (Located Token)) :
    ((strings finish tokens).map CellTree.ofBytes).Earns tokens Denotes := by
  refine (earns_strings finish tokens).map ?_
  intro taken bytes written
  have single := Literals.strings written .none
  rw [List.append_nil] at single
  exact ⟨.bytes bytes, single, by rw [MemoryLiteral.tree]⟩

/-- One literal is taken off, and the rest needs less fuel. -/
theorem earns_literal {tokens : List (Located Token)} {fuel : Nat} {first : Reading CellTree}
    {more : Reading (List CellTree)} (enough : tokens.length ≤ fuel + 1) (one : first.Earns tokens Denotes)
    (further : first.rest.length ≤ fuel → more.Earns first.rest ClosesMemory) :
    (first.cons more).Earns tokens ClosesMemory := by
  refine one.cons ?_ fun _ _ _ _ denotes closes => denotes.closes closes
  intro taken tree split denotes
  have positive := denotes.length_pos
  rw [split, List.length_append] at enough
  exact further (by omega)

/-- Reading with enough fuel ends at the closing parenthesis. -/
theorem earns_items (finish : Location) (fuel : Nat) (opened : Location) (tokens : List (Located Token))
    (enough : tokens.length ≤ fuel) : (items finish fuel opened tokens).Earns tokens ClosesMemory := by
  fun_induction items finish fuel opened tokens with
  | case1 => exact fun clean => by cases clean
  | case2 opened rest filled =>
      rw [Nat.le_zero_eq, List.length_eq_zero_iff] at enough
      exact absurd enough filled
  | case3 fuel opened location rest => exact fun _ => ⟨[_], [], rfl, rfl, [], location, [], rfl, .none, rfl⟩
  | case4 fuel opened location rest tree inner more =>
      exact earns_literal enough (earns_group location (inner (Nat.le_of_succ_le_succ enough))) more
  | case5 fuel opened location rest raw closed bytes more =>
      exact earns_literal enough (earns_ofBytes finish _) more
  | case6 fuel opened location rest number more =>
      apply earns_literal enough (earns_leaf location rest number)
      intro shorter
      have left : ((ofExcept location rest number.value).map CellTree.leaf).rest = rest := by
        cases number.value <;> rfl
      rw [left] at shorter ⊢
      exact more shorter
  | case7 fuel opened location rest other _ _ _ _ more => exact fun clean => by simp [cons, ofExcept] at clean

theorem earns_memory (finish : Location) (token : Located Token) (rest : List (Located Token)) :
    (memory finish token rest).Earns (token :: rest) Denotes := by
  rcases token with ⟨token, location⟩
  unfold memory
  split
  · rename_i isOpen
    cases isOpen
    exact earns_group location (earns_items finish _ _ rest (Nat.le_refl _))
  · exact earns_ofBytes finish _
  · rename_i number isNumeral
    cases isNumeral
    exact earns_leaf location rest number
  · exact fun clean => by cases clean

/-- The token and what was taken after it are an instruction once a terminator is added. -/
def Completes (first : Located Token) (taken : List (Located Token)) (op : Op) : Prop :=
  ∀ final gate, Terminator final gate → Single (first :: (taken ++ final)) ⟨op, gate, first.location⟩

theorem earns_nullary (word : String) (location : Location) (rest : List (Located Token)) :
    (nullary word location rest).Earns rest (Completes ⟨.keyword word, location⟩) := by
  refine earns_ofExcept location (List.nil_append rest).symm ?_
  intro op read final gate terminator
  split at read
  · cases read
    exact .nullary location (by assumption) terminator
  · cases read

theorem earns_operation (word : String) (location : Location) (rest : List (Located Token)) :
    (operation word location rest).Earns rest (Completes ⟨.keyword word, location⟩) := by
  unfold operation
  split
  · exact earns_nullary word location []
  · rename_i next after
    split
    · exact earns_nullary word location (next :: after)
    · exact fun clean => by cases clean
    · rename_i operand read
      refine earns_ofExcept location (List.singleton_append ..).symm ?_
      intro op known final gate terminator
      split at known
      · cases known
        exact .unary location next.location ((argument_iff _ _).mpr read) (by assumption) terminator
      · cases known

theorem isNumeral_of_operand? {token : Token} (none : operand? token = none) : token.isNumeral = false := by
  cases token <;> simp_all [operand?, Token.isNumeral]

theorem earns_assignment (finish location : Location) (rest : List (Located Token)) :
    (assignment finish location rest).Earns rest fun taken => Single (⟨.dot, location⟩ :: taken) := by
  unfold assignment
  split
  · exact fun clean => by cases clean
  · rename_i next after
    split
    · rename_i operand read
      have earns : (ofExcept next.location after operand).Earns (next :: after)
          fun taken value => taken = [next] ∧ Argument next.value value :=
        earns_ofExcept next.location (List.singleton_append ..).symm
          fun value evaluated => ⟨rfl, (argument_iff _ _).mpr (evaluated ▸ read)⟩
      have assigns : ((ofExcept next.location after operand).map Op.setValue).Earns (next :: after)
          (Completes ⟨.dot, location⟩) := by
        refine earns.map ?_
        rintro taken value ⟨rfl, argument⟩ final gate terminator
        exact .assign location next.location argument terminator
      exact earns_gated location assigns fun _ _ _ _ completes terminator => completes _ _ terminator
    · rename_i notOperand
      split_ifs
      · -- The token is no operand, so the literal that begins with it is no number.
        have fills : ((memory finish next after).map Op.setMemory).Earns (next :: after)
            (Completes ⟨.dot, location⟩) := by
          refine (earns_memory finish next after).ahead.map ?_
          rintro taken tree ⟨ahead, literal, written, rfl⟩ final gate terminator
          refine .fill location written ?_ terminator
          cases taken with
          | nil => exact absurd written.length_le (by simp)
          | cons first others =>
              rw [written.isNumber_eq, (List.cons_prefix_cons.mp ahead).1]
              exact isNumeral_of_operand? notOperand
        exact earns_gated location fills fun _ _ _ _ completes terminator => completes _ _ terminator
      · exact fun clean => by cases clean
      · exact fun clean => by cases clean

theorem earns_instruction (finish : Location) (token : Located Token) (rest : List (Located Token)) :
    (instruction finish token rest).Earns (token :: rest) Single := by
  rcases token with ⟨token, location⟩
  unfold instruction
  split
  · rename_i isDot
    cases isDot
    exact (earns_assignment finish location rest).after
  · rename_i word isKeyword
    cases isKeyword
    exact (earns_gated location (earns_operation word location rest)
      fun _ _ _ _ completes terminator => completes _ _ terminator).after
  · exact fun clean => by cases clean

/-- The tokens are containers and then a closing brace; there was something exactly if there are members. -/
def ClosesBlock (taken : List (Located Token)) (body : Body) : Prop :=
  ∃ inner closed, taken = inner ++ [⟨.closeBlock, closed⟩] ∧ Containers inner body.members ∧
    body.attempted = !body.members.isEmpty

theorem earns_close {start rest : List (Located Token)} {gate : Gate} {body : Reading Body} (location : Location)
    (terminator : Terminator start gate) (earns : body.Earns rest ClosesBlock) :
    (close gate location body).Earns (⟨.openBlock, location⟩ :: (start ++ rest)) fun taken block =>
      Containers taken [.block block] := by
  intro clean
  have bodyClean : body.problems = [] := by
    unfold close at clean
    split at clean
    · exact clean
    · exact clean
    · exact clean
    · exact (List.append_eq_nil_iff.mp clean).1
  obtain ⟨taken, ⟨members, attempted⟩, split, read, inner, closed, rfl, written, agrees⟩ := earns bodyClean
  cases members with
  | nil =>
      simp only [List.isEmpty_nil, Bool.not_true] at agrees
      subst agrees
      simp [close, read] at clean
  | cons first others =>
      refine ⟨⟨.openBlock, location⟩ :: (start ++ (inner ++ [⟨.closeBlock, closed⟩])),
        ⟨gate, first, others, location⟩, ?_, ?_, .block location closed terminator written .none⟩
      · rw [List.cons_append, List.append_assoc]
        simp only [close, read]
        exact congrArg _ (congrArg _ split)
      · simp only [close, read]

theorem earns_join {tokens : List (Located Token)} {fuel : Nat} {member : Reading Code} {rest : Reading Body}
    (enough : tokens.length ≤ fuel + 1) (one : member.Earns tokens fun taken code => Containers taken [code])
    (further : member.rest.length ≤ fuel → rest.Earns member.rest ClosesBlock) :
    (join member rest).Earns tokens ClosesBlock := by
  intro clean
  obtain ⟨headClean, tailClean⟩ := List.append_eq_nil_iff.mp clean
  obtain ⟨taken, code, split, read, written⟩ := one headClean
  have positive := written.length_le
  obtain ⟨others, body, splitRest, readRest, inner, closed, rfl, members, _⟩ := further
    (by rw [split, List.length_append] at enough; simp only [List.length_singleton] at positive; omega) tailClean
  refine ⟨taken ++ (inner ++ [⟨.closeBlock, closed⟩]), ⟨code :: body.members, true⟩, ?_, ?_, taken ++ inner, closed,
    (List.append_assoc _ _ _).symm, written.append members, rfl⟩
  · rw [split, List.append_assoc]
    exact congrArg _ splitRest
  · simp only [join, read, readRest, Option.map_some, Option.toList_some, List.singleton_append]

/-- Reading with enough fuel ends at the closing brace. -/
theorem earns_members (finish : Location) (fuel : Nat) (opened : Location) (tokens : List (Located Token))
    (enough : tokens.length ≤ fuel) : (members finish fuel opened tokens).Earns tokens ClosesBlock := by
  fun_induction members finish fuel opened tokens with
  | case1 => exact fun clean => by cases clean
  | case2 opened rest filled =>
      rw [Nat.le_zero_eq, List.length_eq_zero_iff] at enough
      exact absurd enough filled
  | case3 fuel opened location rest => exact fun _ => ⟨[_], ⟨[], false⟩, rfl, rfl, [], location, rfl, .none, rfl⟩
  | case4 fuel opened location rest gate after gated inner body more =>
      obtain ⟨start, split, terminator⟩ := terminator_gate rest
      rw [gated] at split terminator
      subst split
      have within : after.length ≤ fuel := by
        simp only [List.length_cons, List.length_append] at enough
        omega
      have one := earns_close location terminator (body within)
      exact earns_join enough (one.map fun _ _ written => written) more
  | case5 fuel opened location rest other _ _ member more =>
      refine earns_join enough ((earns_instruction finish ⟨other, location⟩ rest).map ?_) more
      intro taken instruction single
      have alone := Containers.instruction single .none
      rw [List.append_nil] at alone
      exact alone

theorem earns_block (finish opened : Location) (rest : List (Located Token)) :
    (block finish opened rest).Earns (⟨.openBlock, opened⟩ :: rest) fun taken block =>
      Containers taken [.block block] := by
  obtain ⟨start, split, terminator⟩ := terminator_gate rest
  have earns := earns_close opened terminator (earns_members finish _ opened (gate rest).2 (Nat.le_refl _))
  rw [← split] at earns
  exact earns

/-- Whether the token, after a phrase, would belong to it. -/
def continues : Token → Bool
  | .terminator _ => true
  | .register _ => true
  | .numeral _ => true
  | .concat => true
  | _ => false

/-- The phrase before these tokens is at its end. -/
def Stops (rest : List (Located Token)) : Prop :=
  ∀ token ∈ rest.head?, continues token.value = false

theorem gate_append {final rest : List (Located Token)} {closing : Gate} (terminator : Terminator final closing)
    (stops : Stops rest) : gate (final ++ rest) = (closing, rest) := by
  cases terminator with
  | present gate location => rfl
  | absent =>
      rcases rest with _ | ⟨⟨token, location⟩, rest⟩
      · rfl
      · have stopping : continues token = false := stops _ rfl
        cases token with
        | terminator gate => cases stopping
        | _ => rfl

theorem gated_append {final rest : List (Located Token)} {closing : Gate} {op : Op} (location : Location)
    (terminator : Terminator final closing) (stops : Stops rest) :
    gated location ⟨some op, final ++ rest, []⟩ = ⟨some ⟨op, closing, location⟩, rest, []⟩ := by
  simp only [gated, gate_append terminator stops, Option.map_some]

theorem strings_append (finish : Location) {taken rest : List (Located Token)} {bytes : List UInt8}
    (written : Strings taken bytes) (apart : ∀ token ∈ rest.head?, token.value ≠ .concat) :
    strings finish (taken ++ rest) = ⟨some bytes, rest, []⟩ := by
  induction written with
  | last location read =>
      have decoded := stringBytes_eq_ok_iff.mpr ⟨rfl, read⟩
      rw [List.singleton_append, strings, decoded]
      · rfl
      · rintro joint further rfl
        exact apart _ rfl rfl
  | more location joint read further induction =>
      have decoded := stringBytes_eq_ok_iff.mpr ⟨rfl, read⟩
      rw [List.cons_append, List.cons_append, strings, induction, decoded]
      rfl

theorem head_ne_concat {tokens rest : List (Located Token)} {literals : List MemoryLiteral}
    (written : Literals tokens literals) (apart : ∀ token ∈ rest.head?, token.value ≠ .concat) :
    ∀ token ∈ (tokens ++ rest).head?, token.value ≠ .concat := by
  cases written with
  | none => exact apart
  | number location number _ =>
      obtain ⟨numeral, rfl, _⟩ := number.numeral
      rintro _ ⟨rfl⟩ same
      cases same
  | strings strings _ =>
      cases strings <;> (rintro _ ⟨rfl⟩ same; cases same)
  | group opened closed _ _ =>
      rintro _ ⟨rfl⟩ same
      cases same

theorem group_eq {members : List MemoryLiteral} (location : Location)
    (faithful : (MemoryLiteral.group members).Faithful) (rest : List (Located Token)) :
    group location ⟨some (MemoryLiteral.trees members), rest, []⟩ =
      ⟨some (MemoryLiteral.group members).tree, rest, []⟩ := by
  simp only [group, faithful.made members rfl]

theorem exists_cons_of_strings {taken : List (Located Token)} {bytes : List UInt8} (written : Strings taken bytes) :
    ∃ raw location others, taken = ⟨.string raw true, location⟩ :: others := by
  cases written with
  | last location _ => exact ⟨_, location, _, rfl⟩
  | more location _ _ _ => exact ⟨_, location, _, rfl⟩

/-- The literals of a group are read, whatever follows the closing parenthesis. -/
theorem items_append (finish : Location) {inner : List (Located Token)} {literals : List MemoryLiteral}
    (written : Literals inner literals) (roomy : Roomy inner) (fuel : Nat) (enough : inner.length < fuel)
    (opened closed : Location) (rest : List (Located Token)) :
    items finish fuel opened (inner ++ ⟨.closeMemory, closed⟩ :: rest) =
      ⟨some (MemoryLiteral.trees literals), rest, []⟩ := by
  induction written generalizing fuel opened closed rest with
  | none =>
      obtain ⟨fuel, rfl⟩ := Nat.exists_eq_add_one_of_ne_zero (Nat.ne_zero_of_lt enough)
      rfl
  | number location number further induction =>
      obtain ⟨fuel, rfl⟩ := Nat.exists_eq_add_one_of_ne_zero (Nat.ne_zero_of_lt enough)
      obtain ⟨numeral, rfl, read⟩ := number.numeral
      rw [List.length_cons] at enough
      rw [List.cons_append, items, read, induction roomy.tail fuel (by omega), MemoryLiteral.trees,
        MemoryLiteral.tree]
      rfl
  | @strings taken others bytes literals strings further induction =>
      obtain ⟨fuel, rfl⟩ := Nat.exists_eq_add_one_of_ne_zero (Nat.ne_zero_of_lt enough)
      have positive := strings.length_pos
      rw [List.length_append] at enough
      have apart : ∀ token ∈ (others ++ ⟨.closeMemory, closed⟩ :: rest).head?, token.value ≠ .concat := by
        apply head_ne_concat further
        rintro _ ⟨rfl⟩ same
        cases same
      have own := strings_append finish strings apart
      obtain ⟨raw, location, more, rfl⟩ := exists_cons_of_strings strings
      rw [List.cons_append] at own
      rw [List.append_assoc, List.cons_append, items, own]
      simp only [Reading.map, Option.map_some]
      rw [induction roomy.right fuel (by omega), MemoryLiteral.trees, MemoryLiteral.tree]
      rfl
  | @group inner others members literals location ending inside further within induction =>
      obtain ⟨fuel, rfl⟩ := Nat.exists_eq_add_one_of_ne_zero (Nat.ne_zero_of_lt enough)
      simp only [List.length_cons, List.length_append] at enough
      have faithful : (MemoryLiteral.group members).Faithful := by
        refine roomy _ _ ⟨[], others, ?_⟩ (.group location ending inside .none)
        simp
      rw [List.cons_append, List.append_assoc, List.cons_append, items]
      simp only [within roomy.tail.left fuel (by omega) location ending, group_eq location faithful]
      rw [induction roomy.tail.right.tail fuel (by omega), MemoryLiteral.trees]
      rfl

/-- A literal is read, whatever follows that does not prolong it. -/
theorem memory_append (finish : Location) {taken rest : List (Located Token)} {literal : MemoryLiteral}
    (written : Literals taken [literal]) (roomy : Roomy taken)
    (apart : ∀ token ∈ rest.head?, token.value ≠ .concat) :
    ∃ token others, taken = token :: others ∧ token.value.beginsMemory = true ∧
      memory finish token (others ++ rest) = ⟨some literal.tree, rest, []⟩ := by
  generalize whole : [literal] = literals at written
  cases written with
  | none => cases whole
  | number location number further =>
      cases whole
      cases Literals.eq_nil further
      obtain ⟨numeral, rfl, read⟩ := number.numeral
      refine ⟨_, _, rfl, rfl, ?_⟩
      simp only [memory, read, MemoryLiteral.tree]
      rfl
  | strings strings further =>
      cases whole
      cases Literals.eq_nil further
      have own := strings_append finish strings apart
      obtain ⟨raw, location, more, rfl⟩ := exists_cons_of_strings strings
      rw [List.cons_append] at own
      refine ⟨_, _, List.append_nil _, rfl, ?_⟩
      simp only [memory, own, MemoryLiteral.tree]
      rfl
  | group location closed inside further =>
      cases whole
      cases Literals.eq_nil further
      refine ⟨_, _, rfl, rfl, ?_⟩
      simp only [memory, List.append_assoc, List.singleton_append]
      rw [items_append finish inside roomy.tail.left _ (by simp) location closed rest]
      exact group_eq location (roomy _ _ List.infix_rfl (.group location closed inside .none)) rest

theorem operand?_of_stops {final rest : List (Located Token)} {closing : Gate} (terminator : Terminator final closing)
    (stops : Stops rest) : ∀ token ∈ (final ++ rest).head?, operand? token.value = none ∧ token.value ≠ .concat := by
  cases terminator with
  | present gate location =>
      rintro _ ⟨rfl⟩
      exact ⟨rfl, by simp⟩
  | absent =>
      intro token first
      have stopping := stops token first
      cases value : token.value <;> simp_all [continues, operand?]

/-- An instruction is read, whatever follows that does not prolong it. -/
theorem instruction_append (finish : Location) {taken rest : List (Located Token)} {read : Instruction}
    (written : Single taken read) (roomy : Roomy taken) (stops : Stops rest) :
    ∃ token others, taken = token :: others ∧ (token.value = .dot ∨ ∃ word, token.value = .keyword word) ∧
      instruction finish token (others ++ rest) = ⟨some read, rest, []⟩ := by
  cases written with
  | @nullary word op final gate location known terminator =>
      refine ⟨_, _, rfl, .inr ⟨word, rfl⟩, ?_⟩
      have plain : operation word location (final ++ rest) = nullary word location (final ++ rest) := by
        have ending := operand?_of_stops terminator stops
        cases following : final ++ rest with
        | nil => rfl
        | cons next after =>
            rw [following] at ending
            simp only [operation, (ending next rfl).1]
      simp only [instruction, plain, nullary, known]
      exact gated_append location terminator stops
  | @unary word token operand op final gate location place argument known terminator =>
      refine ⟨_, _, rfl, .inr ⟨word, rfl⟩, ?_⟩
      have operated := (argument_iff token operand).mp argument
      simp only [instruction, List.cons_append, operation, operated, known]
      exact gated_append location terminator stops
  | @assign token operand final gate location place argument terminator =>
      refine ⟨_, _, rfl, .inl rfl, ?_⟩
      have operated := (argument_iff token operand).mp argument
      simp only [instruction, List.cons_append, assignment, operated]
      exact gated_append location terminator stops
  | @fill taken final literal gate location memory compound terminator =>
      refine ⟨_, _, rfl, .inl rfl, ?_⟩
      obtain ⟨token, others, rfl, begins, own⟩ := memory_append finish memory roomy.tail.left
        fun token first => (operand?_of_stops terminator stops token first).2
      rw [memory.isNumber_eq] at compound
      have notOperand : operand? token.value = none := by
        cases value : token.value <;> simp_all [operand?, Token.beginsMemory, Token.isNumeral]
      simp only [instruction, List.cons_append, List.append_assoc, assignment, notOperand, begins, if_true, own]
      exact gated_append location terminator stops

theorem stops_containers {tokens rest : List (Located Token)} {codes : List Code} (written : Containers tokens codes)
    (stops : Stops rest) : Stops (tokens ++ rest) := by
  cases written with
  | none => exact stops
  | instruction single _ =>
      cases single <;> (rintro _ ⟨rfl⟩; rfl)
  | block opened closed _ _ _ =>
      rintro _ ⟨rfl⟩
      rfl

theorem stops_close (closed : Location) (rest : List (Located Token)) : Stops (⟨.closeBlock, closed⟩ :: rest) := by
  rintro _ ⟨rfl⟩
  rfl

/-- The members of a block are read, whatever follows the closing brace. -/
theorem members_append (finish : Location) {inner : List (Located Token)} {codes : List Code}
    (written : Containers inner codes) (roomy : Roomy inner) (fuel : Nat) (enough : inner.length < fuel)
    (opened closed : Location) (rest : List (Located Token)) :
    members finish fuel opened (inner ++ ⟨.closeBlock, closed⟩ :: rest) =
      ⟨some ⟨codes, !codes.isEmpty⟩, rest, []⟩ := by
  induction written generalizing fuel opened closed rest with
  | none =>
      obtain ⟨fuel, rfl⟩ := Nat.exists_eq_add_one_of_ne_zero (Nat.ne_zero_of_lt enough)
      rfl
  | @instruction taken others single codes written further induction =>
      obtain ⟨fuel, rfl⟩ := Nat.exists_eq_add_one_of_ne_zero (Nat.ne_zero_of_lt enough)
      have positive := written.length_pos
      rw [List.length_append] at enough
      obtain ⟨⟨token, location⟩, more, rfl, begins, own⟩ := instruction_append finish written roomy.left
        (stops_containers further (stops_close closed rest))
      have later := induction roomy.right fuel (by omega) opened closed rest
      rw [List.append_assoc, List.cons_append]
      rcases begins with rfl | ⟨word, rfl⟩
      all_goals
        simp only [members, own, Reading.map, Option.map_some, later]
        rfl
  | @block start inner others opening first more codes location ending terminator inside further within induction =>
      obtain ⟨fuel, rfl⟩ := Nat.exists_eq_add_one_of_ne_zero (Nat.ne_zero_of_lt enough)
      simp only [List.length_cons, List.length_append] at enough
      have started := gate_append terminator (stops_containers inside
        (stops_close ending (others ++ ⟨.closeBlock, closed⟩ :: rest)))
      have body := within roomy.tail.right.left fuel (by omega) location ending
        (others ++ ⟨.closeBlock, closed⟩ :: rest)
      have later := induction roomy.tail.right.right.tail fuel (by omega) opened closed rest
      simp only [List.cons_append, List.append_assoc, members, started, body, close, Reading.map, later]
      rfl

/-- A block is read, whatever follows. -/
theorem block_append (finish : Location) {taken : List (Located Token)} {read : Block Code}
    (written : Containers taken [.block read]) (roomy : Roomy taken) (rest : List (Located Token)) :
    ∃ opened others, taken = ⟨.openBlock, opened⟩ :: others ∧
      block finish opened (others ++ rest) = ⟨some read, rest, []⟩ := by
  generalize whole : [Code.block read] = codes at written
  cases written with
  | none => cases whole
  | instruction _ _ => cases whole
  | @block start inner others opening first more codes location ending terminator inside further =>
      cases whole
      cases Containers.eq_nil further
      refine ⟨location, _, rfl, ?_⟩
      have started := gate_append terminator (stops_containers inside (stops_close ending rest))
      have body := members_append finish inside roomy.tail.right.left (inner ++ ⟨.closeBlock, ending⟩ :: rest).length (by simp)
        location ending rest
      simp only [block, List.append_assoc, List.cons_append, List.nil_append, started, body, close]

end Reading

namespace Outline

open Grammar

/-- The outline holds just these parts. -/
structure Holds (outline : Outline) (parts : List Part) : Prop where
  hasBlock : outline.hasBlock = outline.root.isSome
  root : parts.filterMap Part.block? = outline.root.toList
  memory : parts.filterMap Part.tree? = outline.memory.toList
  accumulator : parts.filterMap Part.accumulator? = outline.accumulator.toList
  condition : parts.filterMap Part.condition? = outline.condition.toList

theorem holds_nothing : ({} : Outline).Holds [] :=
  ⟨rfl, rfl, rfl, rfl, rfl⟩

theorem noteIf_eq_nil {condition : Bool} {problem : Problem} {location : Location} :
    noteIf condition problem location = [] ↔ condition = false := by
  cases condition <;> simp [noteIf]

/-- The outline with one more part. -/
def add (outline : Outline) : Part → Outline
  | .block root => { outline with hasBlock := true, root := outline.root.or (some root) }
  | .memory literal => { outline with memory := outline.memory.or (some literal.tree) }
  | .accumulator value => { outline with accumulator := outline.accumulator.or (some value) }
  | .condition value => { outline with condition := outline.condition.or (some (value != 0)) }

/-- Whether there is a part of the same kind. -/
def has (outline : Outline) : Part → Bool
  | .block _ => outline.hasBlock
  | .memory _ => outline.memory.isSome
  | .accumulator _ => outline.accumulator.isSome
  | .condition _ => outline.condition.isSome

theorem holds_add {outline : Outline} {before : List Part} {part : Part} (holds : outline.Holds before)
    (missing : outline.has part = false) : (outline.add part).Holds (before ++ [part]) := by
  have ⟨hasBlock, root, memory, accumulator, condition⟩ := holds
  cases part with
  | block added =>
      rw [has, hasBlock] at missing
      have none := Option.isNone_iff_eq_none.mp (Option.isSome_eq_false_iff.mp missing)
      constructor <;> simp [add, Part.block?, Part.tree?, Part.accumulator?, Part.condition?, *]
  | memory literal =>
      have none := Option.isNone_iff_eq_none.mp (Option.isSome_eq_false_iff.mp missing)
      constructor <;> simp [add, Part.block?, Part.tree?, Part.accumulator?, Part.condition?, *]
  | accumulator value =>
      have none := Option.isNone_iff_eq_none.mp (Option.isSome_eq_false_iff.mp missing)
      constructor <;> simp [add, Part.block?, Part.tree?, Part.accumulator?, Part.condition?, *]
  | condition value =>
      have none := Option.isNone_iff_eq_none.mp (Option.isSome_eq_false_iff.mp missing)
      constructor <;> simp [add, Part.block?, Part.tree?, Part.accumulator?, Part.condition?, *]

theorem earns_seed (name : String) (location : Location) (rest : List (Located Token)) :
    (seed name location rest).Earns rest fun taken value =>
      ∃ token place, taken = [⟨token, place⟩] ∧ Number token value := by
  unfold seed
  split
  · rename_i number place rest
    exact Reading.earns_ofExcept place (List.singleton_append ..).symm
      fun value read => ⟨_, place, rfl, (number_iff number value).mpr read⟩
  · exact fun clean => by cases clean

/-- A part that was read without problems is one of the grammar, of a kind that was missing. -/
theorem readPart_sound (finish : Location) {outline : Outline} {token : Located Token}
    {rest : List (Located Token)} (roomy : Roomy (token :: rest))
    (clean : (readPart finish outline token rest).problems = []) :
    ∃ taken part, token :: rest = taken ++ (readPart finish outline token rest).rest ∧ Piece taken part ∧
      outline.has part = false ∧ (readPart finish outline token rest).outline = outline.add part := by
  rcases token with ⟨token, location⟩
  unfold readPart at clean ⊢
  split at clean
  · rename_i isOpen
    cases isOpen
    obtain ⟨first, blockClean⟩ := List.append_eq_nil_iff.mp clean
    obtain ⟨taken, root, split, read, written⟩ := Reading.earns_block finish location rest blockClean
    refine ⟨taken, .block root, split, .block written, noteIf_eq_nil.mp first, ?_⟩
    simp only [read, add]
  · rename_i isName
    cases isName
    obtain ⟨first, seedClean⟩ := List.append_eq_nil_iff.mp clean
    obtain ⟨_, value, split, read, number, place, rfl, written⟩ := earns_seed "a:" location rest seedClean
    refine ⟨[_, _], .accumulator value, congrArg _ split, .accumulator location place written,
      noteIf_eq_nil.mp first, ?_⟩
    simp only [read, add]
  · rename_i isName
    cases isName
    obtain ⟨first, seedClean⟩ := List.append_eq_nil_iff.mp clean
    obtain ⟨_, value, split, read, number, place, rfl, written⟩ := earns_seed "c:" location rest seedClean
    refine ⟨[_, _], .condition value, congrArg _ split, .condition location place written,
      noteIf_eq_nil.mp first, ?_⟩
    simp only [read, add, Option.map_some]
  · rename_i notBlock notAccumulator notCondition
    split at clean
    · rename_i begins
      obtain ⟨earlier, populated⟩ := List.append_eq_nil_iff.mp clean
      obtain ⟨first, memoryClean⟩ := List.append_eq_nil_iff.mp earlier
      obtain ⟨taken, tree, split, read, literal, written, rfl⟩ :=
        Reading.earns_memory finish ⟨token, location⟩ rest memoryClean
      rw [split] at roomy
      have faithful := roomy.left _ _ List.infix_rfl written
      have positive : 0 < literal.snapshot.value := by
        have filled := noteIf_eq_nil.mp populated
        rw [read, Option.any_some, decide_eq_false_iff_not, Int64.not_le, faithful.value_eq] at filled
        exact filled
      refine ⟨taken, .memory literal, ?_, .memory written positive, noteIf_eq_nil.mp first, ?_⟩
      · simp only [begins, if_true]
        exact split
      · simp only [begins, if_true, read, add]
    · cases clean

theorem readAll_sound (finish : Location) (fuel : Nat) {outline : Outline} {before : List Part}
    {tokens : List (Located Token)} (enough : tokens.length ≤ fuel) (holds : outline.Holds before)
    (roomy : Roomy tokens) (clean : (readAll finish fuel outline tokens).2 = []) :
    ∃ parts, Parts tokens parts ∧ (readAll finish fuel outline tokens).1.Holds (before ++ parts) := by
  induction fuel generalizing outline before tokens with
  | zero =>
      cases List.eq_nil_of_length_eq_zero (Nat.le_zero.mp enough)
      exact ⟨[], .none, by rw [List.append_nil]; exact holds⟩
  | succ fuel induction =>
      cases tokens with
      | nil => exact ⟨[], .none, by rw [List.append_nil]; exact holds⟩
      | cons token rest =>
          obtain ⟨partClean, restClean⟩ := List.append_eq_nil_iff.mp clean
          obtain ⟨taken, part, split, piece, missing, added⟩ := readPart_sound finish roomy partClean
          have positive := piece.length_pos
          rw [split, List.length_append] at enough
          rw [split] at roomy
          have further := holds_add holds missing
          rw [← added] at further
          obtain ⟨parts, written, all⟩ := induction (by omega) further roomy.right restClean
          refine ⟨part :: parts, ?_, ?_⟩
          · rw [split]
            exact .more piece written
          · rw [List.append_cons]
            exact all

/-- At most one part of each kind. -/
def Sparse (parts : List Part) : Prop :=
  (parts.filterMap Part.block?).length ≤ 1 ∧ (parts.filterMap Part.tree?).length ≤ 1 ∧
    (parts.filterMap Part.accumulator?).length ≤ 1 ∧ (parts.filterMap Part.condition?).length ≤ 1

theorem length_toList_le {α : Type} {before rest : List Part} {part : Part} {kind : Part → Option α} {held : Option α}
    {value : α} (holds : before.filterMap kind = held.toList) (isKind : kind part = some value)
    (few : ((before ++ part :: rest).filterMap kind).length ≤ 1) : held.isSome = false := by
  rw [List.filterMap_append, List.filterMap_cons_some isKind, holds, List.length_append, List.length_cons] at few
  cases held with
  | none => rfl
  | some value =>
      simp only [Option.toList_some, List.length_singleton] at few
      omega

/-- Where there is at most one part of each kind, the next one finds its place free. -/
theorem has_eq_false {outline : Outline} {before parts : List Part} {part : Part} (holds : outline.Holds before)
    (sparse : Sparse (before ++ part :: parts)) : outline.has part = false := by
  obtain ⟨blocks, trees, accumulators, conditions⟩ := sparse
  cases part with
  | block root =>
      rw [has, holds.hasBlock]
      exact length_toList_le holds.root rfl blocks
  | memory literal => exact length_toList_le holds.memory rfl trees
  | accumulator value => exact length_toList_le holds.accumulator rfl accumulators
  | condition value => exact length_toList_le holds.condition rfl conditions

theorem seed_append (name : String) (location place : Location) {token : Token} {value : Num}
    (number : Number token value) (rest : List (Located Token)) :
    seed name location (⟨token, place⟩ :: rest) = ⟨some value, rest, []⟩ := by
  obtain ⟨numeral, rfl, read⟩ := number.numeral
  rw [seed, read]
  rfl

theorem readPart_memory (finish : Location) (outline : Outline) {token : Token} (location : Location)
    (rest : List (Located Token)) (begins : token.beginsMemory = true) :
    readPart finish outline ⟨token, location⟩ rest =
      let memory := Reading.memory finish ⟨token, location⟩ rest
      ⟨{ outline with memory := outline.memory.or memory.value }, memory.rest,
        noteIf outline.memory.isSome .repeatedMemory location ++ memory.problems
          ++ noteIf (memory.value.any fun tree => tree.value ≤ 0) .emptyMemory location⟩ := by
  cases token with
  | openMemory => rfl
  | string raw closed => rfl
  | numeral number => rfl
  | _ => cases begins

/-- A part of the grammar is read, if its place is free. -/
theorem readPart_complete (finish : Location) (outline : Outline) {taken rest : List (Located Token)} {part : Part}
    (piece : Piece taken part) (roomy : Roomy taken) (apart : ∀ token ∈ rest.head?, token.value ≠ .concat)
    (missing : outline.has part = false) :
    ∃ token others, taken = token :: others ∧
      readPart finish outline token (others ++ rest) = ⟨outline.add part, rest, []⟩ := by
  cases piece with
  | block container =>
      have free : outline.hasBlock = false := missing
      obtain ⟨opened, others, rfl, read⟩ := Reading.block_append finish container roomy rest
      refine ⟨_, _, rfl, ?_⟩
      simp only [readPart, read, free]
      rfl
  | @memory taken literal memory populated =>
      have free : outline.memory.isSome = false := missing
      have filled : ¬ literal.tree.value ≤ 0 := by
        rw [(roomy _ _ List.infix_rfl memory).value_eq, Int64.not_le]
        exact populated
      obtain ⟨⟨token, location⟩, others, rfl, begins, read⟩ := Reading.memory_append finish memory roomy apart
      refine ⟨_, _, rfl, ?_⟩
      rw [readPart_memory finish outline location (others ++ rest) begins]
      simp only [read, free, Option.any_some, decide_eq_false filled]
      rfl
  | accumulator location place number =>
      have free : outline.accumulator.isSome = false := missing
      refine ⟨_, _, rfl, ?_⟩
      simp only [readPart, List.singleton_append, seed_append _ _ _ number, free]
      rfl
  | condition location place number =>
      have free : outline.condition.isSome = false := missing
      refine ⟨_, _, rfl, ?_⟩
      simp only [readPart, List.singleton_append, seed_append _ _ _ number, free]
      rfl

theorem parts_head_ne_concat {tokens : List (Located Token)} {parts : List Part} (written : Parts tokens parts) :
    ∀ token ∈ tokens.head?, token.value ≠ .concat := by
  induction written with
  | none => simp
  | more piece further induction =>
      cases piece with
      | block container =>
          obtain ⟨opened, others, rfl⟩ := container.opens
          rintro _ ⟨rfl⟩ same
          cases same
      | memory memory _ => exact Reading.head_ne_concat memory induction
      | accumulator location place number =>
          rintro _ ⟨rfl⟩ same
          cases same
      | condition location place number =>
          rintro _ ⟨rfl⟩ same
          cases same

theorem readAll_complete (finish : Location) {tokens : List (Located Token)} {parts : List Part}
    (written : Parts tokens parts) (roomy : Roomy tokens) (fuel : Nat) (enough : tokens.length ≤ fuel)
    {outline : Outline} {before : List Part} (holds : outline.Holds before) (sparse : Sparse (before ++ parts)) :
    ∃ final, readAll finish fuel outline tokens = (final, []) ∧ final.Holds (before ++ parts) := by
  induction written generalizing fuel outline before with
  | none =>
      refine ⟨outline, ?_, by rw [List.append_nil]; exact holds⟩
      cases fuel <;> rfl
  | @more taken rest part parts piece further induction =>
      have positive := piece.length_pos
      rw [List.length_append] at enough
      obtain ⟨fuel, rfl⟩ := Nat.exists_eq_add_one_of_ne_zero (by omega : fuel ≠ 0)
      have missing := has_eq_false holds sparse
      obtain ⟨token, others, rfl, read⟩ := readPart_complete finish outline piece roomy.left
        (parts_head_ne_concat further) missing
      rw [List.append_cons] at sparse
      obtain ⟨final, later, all⟩ := induction roomy.right fuel (by omega) (holds_add holds missing) sparse
      refine ⟨final, ?_, ?_⟩
      · rw [List.cons_append, readAll, read]
        simp only [later, List.append_nil]
      · rw [List.append_cons]
        exact all

end Outline

namespace Draft

/-- Reading succeeds if nothing is wrong with the parts and one of them is a block. -/
theorem read_eq_ok {source : String} {draft : Draft} :
    read source = .ok draft ↔
      ∃ outline, Outline.readAll (TokenList.scan source).finish (TokenList.scan source).tokens.length {}
          (TokenList.scan source).tokens = (outline, []) ∧ outline.hasBlock = true ∧ outline.root = some draft.root ∧
        outline.memory = draft.memory ∧ outline.accumulator = draft.accumulator ∧
          outline.condition = draft.condition := by
  unfold read
  dsimp only
  generalize Outline.readAll (TokenList.scan source).finish (TokenList.scan source).tokens.length {}
    (TokenList.scan source).tokens = result
  rcases result with ⟨⟨hasBlock, root, memory, accumulator, condition⟩, problems⟩
  rcases draft with ⟨draftRoot, draftMemory, draftAccumulator, draftCondition⟩
  cases root <;> cases problems <;> cases hasBlock <;> simp [Outline.noteIf]

theorem eq_of_toList_eq {α : Type} {first second : Option α} (same : first.toList = second.toList) :
    first = second := by
  simpa using congrArg List.head? same

theorem describes_of_read {source : String} {draft : Draft} (roomy : Grammar.Roomy (TokenList.scan source).tokens)
    (ok : read source = .ok draft) : Grammar.Describes (TokenList.scan source).tokens draft := by
  obtain ⟨outline, ran, _, root, memory, accumulator, condition⟩ := read_eq_ok.mp ok
  have sound := Outline.readAll_sound (TokenList.scan source).finish (TokenList.scan source).tokens.length
    (Nat.le_refl _) Outline.holds_nothing roomy
  rw [ran] at sound
  obtain ⟨parts, written, holds⟩ := sound rfl
  refine ⟨parts, written, ?_, ?_, ?_, ?_⟩
  · rw [← Option.toList_some, ← root]
    exact holds.root
  · rw [← memory]
    exact holds.memory
  · rw [← accumulator]
    exact holds.accumulator
  · rw [← condition]
    exact holds.condition

theorem read_of_describes {source : String} {draft : Draft} (roomy : Grammar.Roomy (TokenList.scan source).tokens)
    (described : Grammar.Describes (TokenList.scan source).tokens draft) : read source = .ok draft := by
  obtain ⟨parts, written, root, memory, accumulator, condition⟩ := described
  have sparse : Outline.Sparse ([] ++ parts) := by
    refine ⟨?_, ?_, ?_, ?_⟩
    · rw [List.nil_append, root, List.length_singleton]
    · rw [List.nil_append, memory]
      exact Option.length_toList_le
    · rw [List.nil_append, accumulator]
      exact Option.length_toList_le
    · rw [List.nil_append, condition]
      exact Option.length_toList_le
  obtain ⟨outline, ran, holds⟩ := Outline.readAll_complete (TokenList.scan source).finish written roomy
    (TokenList.scan source).tokens.length (Nat.le_refl _) Outline.holds_nothing sparse
  have found : outline.root = some draft.root := by
    apply eq_of_toList_eq
    rw [← holds.root]
    exact root
  refine read_eq_ok.mpr ⟨outline, ran, ?_, found, ?_, ?_, ?_⟩
  · rw [holds.hasBlock, found, Option.isSome_some]
  · exact eq_of_toList_eq (holds.memory.symm.trans memory)
  · exact eq_of_toList_eq (holds.accumulator.symm.trans accumulator)
  · exact eq_of_toList_eq (holds.condition.symm.trans condition)

/--
A text is accepted just if its tokens are of the grammar, and is read as what they stand for; the trees of its
literals have the shapes that are written. A text is in memory, so its size is a number of the machine.
-/
theorem read_exactly_grammar (source : String) (fits : source.utf8ByteSize < 2 ^ 63) :
    (∀ draft, read source = .ok draft ↔ Grammar.Describes (TokenList.scan source).tokens draft) ∧
      ∀ taken literal, taken <:+: (TokenList.scan source).tokens → Grammar.Literals taken [literal] →
        literal.tree.snapshot = literal.snapshot := by
  have roomy := Grammar.roomy_of_weigh (Nat.lt_of_le_of_lt (weigh_scan source) fits)
  refine ⟨fun draft => ⟨describes_of_read roomy, read_of_describes roomy⟩, ?_⟩
  intro taken literal inside written
  exact (roomy taken literal inside written).shape

/-- A text with every kind of part, a literal that is assigned, and a block in a block. -/
def sampleText : String :=
  "c: F (\"ab\" & \"c\" (1 'x')) \x7b? \x7b! + a; \x7d .(\"z\" 2) <= T \x7d a: 0x10"

def sampleDraft : Draft where
  root := ⟨.whenTrue,
    .block ⟨.whenFalse, .instruction ⟨.arithmetic .add (.register .accumulator), .always, ⟨1, 33⟩⟩, [], ⟨1, 30⟩⟩,
    [.instruction ⟨.setMemory (MemoryLiteral.group [.bytes [0x7A], .number 2]).tree, .always, ⟨1, 40⟩⟩,
      .instruction ⟨.compare .atMost (.constant 1), .always, ⟨1, 49⟩⟩], ⟨1, 27⟩⟩
  memory := some (MemoryLiteral.group [.bytes [0x61, 0x62, 0x63], .group [.number 1, .number 0x78]]).tree
  accumulator := some 0x10
  condition := some false

theorem sampleText_exactly_grammar :
    sampleText.utf8ByteSize < 2 ^ 63 ∧ Grammar.Describes (TokenList.scan sampleText).tokens sampleDraft ∧
      ∀ draft, ¬ Grammar.Describes (TokenList.scan "\x7b; \x7d 5").tokens draft := by
  have small : sampleText.utf8ByteSize < 2 ^ 63 := by decide +kernel
  have tiny : "\x7b; \x7d 5".utf8ByteSize < 2 ^ 63 := by decide +kernel
  have accepted : read sampleText = .ok sampleDraft := by cbv
  refine ⟨small, ((read_exactly_grammar sampleText small).1 sampleDraft).mp accepted, ?_⟩
  intro draft described
  have read := ((read_exactly_grammar _ tiny).1 draft).mpr described
  cbv at read
  cases read

end Draft

end RingTape
