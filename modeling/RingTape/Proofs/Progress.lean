import RingTape.Proofs.Literals

/-!
Reading a text always comes to an end. Whatever is wrong with the tokens, a procedure that begins at a token
takes that token, none goes back or past the end, and every round of a loop that is not its last one takes a
token. So each loop makes finitely many rounds, and counting the rounds down from the number of tokens never
cuts one short: with any larger count the readings are the same.
-/

namespace RingTape

set_option autoImplicit false

/-- At least one of the tokens has been taken, and what is left is an end piece of them. -/
def Advances (tokens left : List (Located Token)) : Prop :=
  ∃ token rest, tokens = token :: rest ∧ left <:+ rest

theorem advances_cons {token : Located Token} {rest left : List (Located Token)} (ends : left <:+ rest) :
    Advances (token :: rest) left :=
  ⟨token, rest, rfl, ends⟩

theorem Advances.length_lt {tokens left : List (Located Token)} (advances : Advances tokens left) :
    left.length < tokens.length := by
  obtain ⟨token, rest, rfl, ends⟩ := advances
  exact Nat.lt_succ_of_le ends.length_le

/-- The rounds of a loop from a state on: what each of them gives, and the state in which the loop is left. -/
inductive Rounds {σ β : Type} (round : σ → Option (β × σ)) : σ → List β → σ → Prop where
  | last {state : σ} : round state = none → Rounds round state [] state
  | again {state next final : σ} {result : β} {results : List β} :
      round state = some (result, next) → Rounds round next results final →
        Rounds round state (result :: results) final

/-- A loop that takes a token in every round but the last is left after finitely many rounds. -/
theorem exists_rounds {σ β : Type} {round : σ → Option (β × σ)} {tokens : σ → List (Located Token)}
    (advances : ∀ state result next, round state = some (result, next) → Advances (tokens state) (tokens next))
    (state : σ) : ∃ results final, Rounds round state results final := by
  generalize size : (tokens state).length = count
  induction count using Nat.strong_induction_on generalizing state with
  | _ count induction =>
      cases step : round state with
      | none => exact ⟨[], state, .last step⟩
      | some outcome =>
          obtain ⟨result, next⟩ := outcome
          have fewer := (advances state result next step).length_lt
          obtain ⟨results, final, rounds⟩ := induction _ (size ▸ fewer) next rfl
          exact ⟨result :: results, final, .again step rounds⟩

namespace Reading

variable {finish : Location}

theorem rest_ofExcept {α : Type} (location : Location) (rest : List (Located Token))
    (outcome : Except Problem α) : (ofExcept location rest outcome).rest = rest := by
  cases outcome <;> rfl

theorem rest_map {α β : Type} (change : α → β) (reading : Reading α) : (reading.map change).rest = reading.rest :=
  rfl

theorem rest_group (location : Location) (children : Reading (List CellTree)) :
    (group location children).rest = children.rest := by
  unfold group
  split
  · rfl
  · split <;> rfl

theorem rest_close (gate : Gate) (location : Location) (body : Reading Body) :
    (close gate location body).rest = body.rest := by
  unfold close
  split <;> rfl

theorem suffix_items (finish : Location) (fuel : Nat) (opened : Location) (tokens : List (Located Token)) :
    (items finish fuel opened tokens).rest <:+ tokens := by
  fun_induction items finish fuel opened tokens with
  | case1 => exact List.suffix_rfl
  | case2 => exact List.suffix_rfl
  | case3 => exact List.suffix_cons _ _
  | case4 fuel opened location rest tree inner more =>
      have within : tree.rest <:+ rest := by
        rw [rest_group]
        exact inner
      exact (more.trans within).trans (List.suffix_cons _ _)
  | case5 fuel opened location rest raw closed bytes more =>
      exact (more.trans (suffix_strings finish raw closed location rest)).trans (List.suffix_cons _ _)
  | case6 fuel opened location rest number more => exact more.trans (List.suffix_cons _ _)
  | case7 fuel opened location rest other _ _ _ _ more => exact more.trans (List.suffix_cons _ _)

theorem suffix_memory (finish : Location) (token : Located Token) (rest : List (Located Token)) :
    (memory finish token rest).rest <:+ rest := by
  rcases token with ⟨token, location⟩
  unfold memory
  split
  · rw [rest_group]
    exact suffix_items finish _ _ rest
  · rename_i raw closed isString
    cases isString
    exact suffix_strings finish raw closed location rest
  · rw [rest_map, rest_ofExcept]
  · exact List.suffix_rfl

theorem suffix_gated {tokens : List (Located Token)} {op : Reading Op} (location : Location)
    (ends : op.rest <:+ tokens) : (gated location op).rest <:+ tokens :=
  (suffix_gate op.rest).trans ends

theorem suffix_assignment (finish location : Location) (rest : List (Located Token)) :
    (assignment finish location rest).rest <:+ rest := by
  unfold assignment
  split
  · exact List.suffix_rfl
  · split
    · apply suffix_gated
      rw [rest_map, rest_ofExcept]
      exact List.suffix_cons _ _
    · split_ifs
      · exact suffix_gated location ((suffix_memory finish _ _).trans (List.suffix_cons _ _))
      · exact List.suffix_rfl
      · exact List.suffix_cons _ _

theorem suffix_instruction (finish : Location) (token : Located Token) (rest : List (Located Token)) :
    (instruction finish token rest).rest <:+ rest := by
  unfold instruction
  split
  · exact suffix_assignment finish _ rest
  · exact suffix_gated _ (within_operation _ _ rest).suffix
  · exact List.suffix_rfl

theorem suffix_members (finish : Location) (fuel : Nat) (opened : Location) (tokens : List (Located Token)) :
    (members finish fuel opened tokens).rest <:+ tokens := by
  fun_induction members finish fuel opened tokens with
  | case1 => exact List.suffix_rfl
  | case2 => exact List.suffix_rfl
  | case3 => exact List.suffix_cons _ _
  | case4 fuel opened location rest gate after gated inner body more =>
      have past : after <:+ rest := by
        have ends := suffix_gate rest
        rw [gated] at ends
        exact ends
      have within : inner.rest <:+ after := by
        rw [rest_close]
        exact body
      exact ((more.trans within).trans past).trans (List.suffix_cons _ _)
  | case5 fuel opened location rest other _ _ member more =>
      exact (more.trans (suffix_instruction finish _ rest)).trans (List.suffix_cons _ _)

theorem suffix_block (finish opened : Location) (rest : List (Located Token)) :
    (block finish opened rest).rest <:+ rest := by
  rw [block, rest_close]
  exact (suffix_members finish _ opened _).trans (suffix_gate rest)

/-- Where the count covers all tokens, a larger one changes nothing. -/
theorem items_succ (finish : Location) (fuel : Nat) (opened : Location) (tokens : List (Located Token))
    (enough : tokens.length ≤ fuel) : items finish (fuel + 1) opened tokens = items finish fuel opened tokens := by
  fun_induction items finish fuel opened tokens with
  | case1 => rfl
  | case2 opened rest filled =>
      rw [Nat.le_zero_eq, List.length_eq_zero_iff] at enough
      exact absurd enough filled
  | case3 => rfl
  | case4 fuel opened location rest tree inner more =>
      have short : rest.length ≤ fuel := Nat.le_of_succ_le_succ enough
      have within : tree.rest <:+ rest := by
        rw [rest_group]
        exact suffix_items finish fuel location rest
      rw [items, inner short]
      exact congrArg tree.cons (more (within.length_le.trans short))
  | case5 fuel opened location rest raw closed bytes more =>
      have short : rest.length ≤ fuel := Nat.le_of_succ_le_succ enough
      have within := suffix_strings finish raw closed location rest
      exact congrArg (bytes.map CellTree.ofBytes).cons (more (within.length_le.trans short))
  | case6 fuel opened location rest number more =>
      rw [items, more (Nat.le_of_succ_le_succ enough)]
  | case7 fuel opened location rest other _ _ _ _ more =>
      rw [items, more (Nat.le_of_succ_le_succ enough)] <;> assumption

theorem members_succ (finish : Location) (fuel : Nat) (opened : Location) (tokens : List (Located Token))
    (enough : tokens.length ≤ fuel) :
    members finish (fuel + 1) opened tokens = members finish fuel opened tokens := by
  fun_induction members finish fuel opened tokens with
  | case1 => rfl
  | case2 opened rest filled =>
      rw [Nat.le_zero_eq, List.length_eq_zero_iff] at enough
      exact absurd enough filled
  | case3 => rfl
  | case4 fuel opened location rest gate after gated inner body more =>
      have short : rest.length ≤ fuel := Nat.le_of_succ_le_succ enough
      have past : after.length ≤ rest.length := by
        have ends := (suffix_gate rest).length_le
        rw [gated] at ends
        exact ends
      have within : inner.rest.length ≤ after.length := by
        rw [rest_close]
        exact (suffix_members finish fuel location after).length_le
      rw [members, gated]
      dsimp only
      rw [body (past.trans short)]
      exact congrArg (join (inner.map Code.block)) (more ((within.trans past).trans short))
  | case5 fuel opened location rest other _ _ member more =>
      have short : rest.length ≤ fuel := Nat.le_of_succ_le_succ enough
      have within := (suffix_instruction finish ⟨other, location⟩ rest).length_le
      rw [members]
      · exact congrArg (join (member.map Code.instruction)) (more (within.trans short))
      · assumption
      · assumption

/-- The count of rounds never ends a loop over the literals of a group. -/
theorem items_eq_of_enough {fuel : Nat} (opened : Location) {tokens : List (Located Token)}
    (enough : tokens.length ≤ fuel) : items finish fuel opened tokens = items finish tokens.length opened tokens := by
  induction fuel, enough using Nat.le_induction with
  | base => rfl
  | succ fuel enough induction => rw [items_succ finish fuel opened tokens enough, induction]

/-- The count of rounds never ends a loop over the members of a block. -/
theorem members_eq_of_enough {fuel : Nat} (opened : Location) {tokens : List (Located Token)}
    (enough : tokens.length ≤ fuel) :
    members finish fuel opened tokens = members finish tokens.length opened tokens := by
  induction fuel, enough using Nat.le_induction with
  | base => rfl
  | succ fuel enough induction => rw [members_succ finish fuel opened tokens enough, induction]

/-- One string of a sequence of strings, if another one is to follow. -/
def stringRound : List (Located Token) → Option (Reading (List UInt8) × List (Located Token))
  | ⟨.string raw closed, location⟩ :: ⟨.concat, place⟩ :: rest =>
      some (ofExcept location (⟨.concat, place⟩ :: rest) (stringBytes raw closed), rest)
  | _ => none

/-- One literal of a group. The loop is left at the closing parenthesis and at the end of the text. -/
def itemRound (finish : Location) : List (Located Token) → Option (Reading CellTree × List (Located Token))
  | [] => none
  | token :: rest =>
      if token.value = .closeMemory then none
      else some (memory finish token rest, (memory finish token rest).rest)

/-- What the last round of a group makes of the tokens where the loop is left. -/
def itemsLeft (opened : Location) : List (Located Token) → Reading (List CellTree)
  | [] => ⟨none, [], [⟨.unclosedMemory, opened⟩]⟩
  | _ :: rest => ⟨some [], rest, []⟩

/-- A member of a block, which is a block or an instruction. -/
def member (finish : Location) (token : Located Token) (rest : List (Located Token)) : Reading Code :=
  if token.value = .openBlock then (block finish token.location rest).map Code.block
  else (instruction finish token rest).map Code.instruction

/-- One member of a block. The loop is left at the closing brace and at the end of the text. -/
def memberRound (finish : Location) : List (Located Token) → Option (Reading Code × List (Located Token))
  | [] => none
  | token :: rest =>
      if token.value = .closeBlock then none
      else some (member finish token rest, (member finish token rest).rest)

/-- What the last round of a block makes of the tokens where the loop is left. -/
def membersLeft (opened : Location) : List (Located Token) → Reading Body
  | [] => ⟨none, [], [⟨.unclosedBlock, opened⟩]⟩
  | _ :: rest => ⟨some ⟨[], false⟩, rest, []⟩

theorem suffix_member (finish : Location) (token : Located Token) (rest : List (Located Token)) :
    (member finish token rest).rest <:+ rest := by
  unfold member
  split
  · exact suffix_block finish _ rest
  · exact suffix_instruction finish token rest

theorem advances_stringRound (tokens : List (Located Token)) (piece : Reading (List UInt8))
    (left : List (Located Token)) (round : stringRound tokens = some (piece, left)) : Advances tokens left := by
  unfold stringRound at round
  split at round
  · cases round
    exact advances_cons (List.suffix_cons _ _)
  · cases round

theorem advances_itemRound (tokens : List (Located Token)) (reading : Reading CellTree)
    (left : List (Located Token)) (round : itemRound finish tokens = some (reading, left)) :
    Advances tokens left := by
  unfold itemRound at round
  split at round
  · cases round
  · split at round <;> cases round
    exact advances_cons (suffix_memory finish _ _)

theorem advances_memberRound (tokens : List (Located Token)) (reading : Reading Code)
    (left : List (Located Token)) (round : memberRound finish tokens = some (reading, left)) :
    Advances tokens left := by
  unfold memberRound at round
  split at round
  · cases round
  · split at round <;> cases round
    exact advances_cons (suffix_member finish _ _)

/-- The strings are those of the rounds, and then those read where the loop is left. -/
theorem strings_eq_of_rounds {tokens final : List (Located Token)} {pieces : List (Reading (List UInt8))}
    (rounds : Rounds stringRound tokens pieces final) :
    strings finish tokens = pieces.foldr Reading.append (strings finish final) := by
  induction rounds with
  | last => rfl
  | again round _ induction =>
      unfold stringRound at round
      split at round
      · cases round
        rw [strings, induction]
        rfl
      · cases round

theorem items_of_itemRound_none {fuel : Nat} (opened : Location) {tokens : List (Located Token)}
    (enough : tokens.length ≤ fuel) (round : itemRound finish tokens = none) :
    items finish fuel opened tokens = itemsLeft opened tokens := by
  rw [items_eq_of_enough opened enough]
  unfold itemRound at round
  split at round
  · rfl
  · split at round
    · rename_i token rest isClose
      rcases token with ⟨token, location⟩
      cases isClose
      rfl
    · cases round

/-- A round reads the literal at a token, whatever the token is. -/
theorem items_unroll {fuel : Nat} (opened : Location) {token : Located Token} {rest : List (Located Token)}
    (enough : rest.length ≤ fuel) (other : token.value ≠ .closeMemory) :
    items finish (fuel + 1) opened (token :: rest) =
      (memory finish token rest).cons (items finish fuel opened (memory finish token rest).rest) := by
  rcases token with ⟨token, location⟩
  cases token with
  | closeMemory => exact absurd rfl other
  | openMemory =>
      rw [items, items_eq_of_enough location enough]
      rfl
  | numeral number =>
      have left : (memory finish ⟨.numeral number, location⟩ rest).rest = rest :=
        rest_ofExcept location rest number.value
      rw [left]
      rfl
  | _ => rfl

theorem items_of_itemRound_some {fuel : Nat} (opened : Location) {tokens left : List (Located Token)}
    {reading : Reading CellTree} (enough : tokens.length ≤ fuel + 1)
    (round : itemRound finish tokens = some (reading, left)) :
    items finish (fuel + 1) opened tokens = reading.cons (items finish fuel opened left) := by
  unfold itemRound at round
  split at round
  · cases round
  · split at round
    case isTrue => cases round
    case isFalse other =>
      cases round
      exact items_unroll opened (Nat.le_of_succ_le_succ enough) other

/-- The literals of a group are those of the rounds, whatever the count. -/
theorem items_eq_of_rounds (opened : Location) {tokens final : List (Located Token)}
    {readings : List (Reading CellTree)} (rounds : Rounds (itemRound finish) tokens readings final) {fuel : Nat}
    (enough : tokens.length ≤ fuel) :
    items finish fuel opened tokens = readings.foldr Reading.cons (itemsLeft opened final) := by
  induction rounds generalizing fuel with
  | last round => exact items_of_itemRound_none opened enough round
  | @again tokens left final reading readings round _ induction =>
      have fewer := (advances_itemRound tokens reading left round).length_lt
      obtain ⟨fuel, rfl⟩ : ∃ less, fuel = less + 1 := ⟨fuel - 1, by omega⟩
      rw [items_of_itemRound_some opened enough round, induction (by omega)]
      rfl

theorem members_of_memberRound_none {fuel : Nat} (opened : Location) {tokens : List (Located Token)}
    (enough : tokens.length ≤ fuel) (round : memberRound finish tokens = none) :
    members finish fuel opened tokens = membersLeft opened tokens := by
  rw [members_eq_of_enough opened enough]
  unfold memberRound at round
  split at round
  · rfl
  · split at round
    · rename_i token rest isClose
      rcases token with ⟨token, location⟩
      cases isClose
      rfl
    · cases round

/-- A round reads the block or the instruction at a token, whatever the token is. -/
theorem members_unroll {fuel : Nat} (opened : Location) {token : Located Token} {rest : List (Located Token)}
    (enough : rest.length ≤ fuel) (other : token.value ≠ .closeBlock) :
    members finish (fuel + 1) opened (token :: rest) =
      join (member finish token rest) (members finish fuel opened (member finish token rest).rest) := by
  rcases token with ⟨token, location⟩
  cases token with
  | closeBlock => exact absurd rfl other
  | openBlock =>
      cases opening : gate rest with
      | mk gate after =>
          have past : after.length ≤ rest.length := by
            have ends := (suffix_gate rest).length_le
            rw [opening] at ends
            exact ends
          have inner : member finish ⟨.openBlock, location⟩ rest =
              (close gate location (members finish after.length location after)).map Code.block := by
            simp only [member, block, opening, if_true]
          rw [members, opening, inner]
          dsimp only
          rw [members_eq_of_enough location (past.trans enough), rest_map]
  | _ => rfl

theorem members_of_memberRound_some {fuel : Nat} (opened : Location) {tokens left : List (Located Token)}
    {reading : Reading Code} (enough : tokens.length ≤ fuel + 1)
    (round : memberRound finish tokens = some (reading, left)) :
    members finish (fuel + 1) opened tokens = join reading (members finish fuel opened left) := by
  unfold memberRound at round
  split at round
  · cases round
  · split at round
    case isTrue => cases round
    case isFalse other =>
      cases round
      exact members_unroll opened (Nat.le_of_succ_le_succ enough) other

/-- The members of a block are those of the rounds, whatever the count. -/
theorem members_eq_of_rounds (opened : Location) {tokens final : List (Located Token)}
    {readings : List (Reading Code)} (rounds : Rounds (memberRound finish) tokens readings final) {fuel : Nat}
    (enough : tokens.length ≤ fuel) :
    members finish fuel opened tokens = readings.foldr join (membersLeft opened final) := by
  induction rounds generalizing fuel with
  | last round => exact members_of_memberRound_none opened enough round
  | @again tokens left final reading readings round _ induction =>
      have fewer := (advances_memberRound tokens reading left round).length_lt
      obtain ⟨fuel, rfl⟩ : ∃ less, fuel = less + 1 := ⟨fuel - 1, by omega⟩
      rw [members_of_memberRound_some opened enough round, induction (by omega)]
      rfl

end Reading

namespace Outline

variable {finish : Location}

theorem suffix_readPart (outline : Outline) (token : Located Token) (rest : List (Located Token)) :
    (outline.readPart finish token rest).rest <:+ rest := by
  unfold readPart
  split
  · exact Reading.suffix_block finish _ rest
  · exact suffix_seed _ _ rest
  · exact suffix_seed _ _ rest
  · split
    · exact Reading.suffix_memory finish token rest
    · exact List.suffix_rfl

/-- One part of a program, with the problems met in it. The loop is left at the end of the text only. -/
def partRound (finish : Location) :
    Outline × List (Located Token) → Option (List (Located Problem) × Outline × List (Located Token))
  | (_, []) => none
  | (outline, token :: rest) =>
      let part := outline.readPart finish token rest
      some (part.problems, part.outline, part.rest)

theorem advances_partRound (state : Outline × List (Located Token)) (problems : List (Located Problem))
    (next : Outline × List (Located Token)) (round : partRound finish state = some (problems, next)) :
    Advances state.2 next.2 := by
  unfold partRound at round
  split at round
  · cases round
  · cases round
    exact advances_cons (suffix_readPart _ _ _)

/-- The outline and the problems are those of the rounds, whatever the count. -/
theorem readAll_eq_of_rounds {state final : Outline × List (Located Token)}
    {problems : List (List (Located Problem))} (rounds : Rounds (partRound finish) state problems final) {fuel : Nat}
    (enough : state.2.length ≤ fuel) :
    final.2 = [] ∧ readAll finish fuel state.1 state.2 = (final.1, problems.flatten) := by
  induction rounds generalizing fuel with
  | last round =>
      unfold partRound at round
      split at round
      · exact ⟨rfl, by cases fuel <;> rfl⟩
      · cases round
  | @again state next final noted problems round _ induction =>
      have fewer := (advances_partRound state noted next round).length_lt
      obtain ⟨fuel, rfl⟩ : ∃ less, fuel = less + 1 := ⟨fuel - 1, by omega⟩
      obtain ⟨atEnd, read⟩ := induction (show next.2.length ≤ fuel by omega)
      refine ⟨atEnd, ?_⟩
      unfold partRound at round
      split at round
      · cases round
      · cases round
        rw [readAll]
        dsimp only at read ⊢
        rw [read]
        rfl

end Outline

/-- Reading takes tokens as long as it goes on. -/
structure Progress (finish : Location) : Prop where
  /-- Procedures that begin at a token, the first of `token :: rest`, take it. -/
  block : ∀ token rest, Advances (token :: rest) (Reading.block finish token.location rest).rest
  instruction : ∀ token rest, Advances (token :: rest) (Reading.instruction finish token rest).rest
  number : ∀ token rest (outcome : Except Problem Num),
    Advances (token :: rest) (Reading.ofExcept token.location rest outcome).rest
  memoryBlock : ∀ token rest, Advances (token :: rest)
    (Reading.group token.location (Reading.items finish rest.length token.location rest)).rest
  literal : ∀ token rest, Advances (token :: rest) (Reading.memory finish token rest).rest
  part : ∀ outline token rest, Advances (token :: rest) (Outline.readPart finish outline token rest).rest
  strings : ∀ raw closed location rest, Advances (⟨.string raw closed, location⟩ :: rest)
    (Reading.strings finish (⟨.string raw closed, location⟩ :: rest)).rest
  /-- The others, at any token or at the end, go neither back nor past the end. -/
  anyStrings : ∀ tokens, (Reading.strings finish tokens).rest <:+ tokens
  gate : ∀ tokens, (Reading.gate tokens).2 <:+ tokens
  operation : ∀ word location tokens, (Reading.operation word location tokens).rest <:+ tokens
  assignment : ∀ location tokens, (Reading.assignment finish location tokens).rest <:+ tokens
  seed : ∀ name location tokens, (Outline.seed name location tokens).rest <:+ tokens
  /-- Every round of a loop that is not its last one takes a token. -/
  stringRound : ∀ tokens piece left, Reading.stringRound tokens = some (piece, left) → Advances tokens left
  itemRound : ∀ tokens reading left, Reading.itemRound finish tokens = some (reading, left) → Advances tokens left
  memberRound : ∀ tokens reading left,
    Reading.memberRound finish tokens = some (reading, left) → Advances tokens left
  partRound : ∀ state problems next, Outline.partRound finish state = some (problems, next) →
    Advances state.2 next.2
  /-- The loops end, and what they give does not depend on the count of rounds. -/
  stringLoop : ∀ tokens, ∃ pieces final, Rounds Reading.stringRound tokens pieces final ∧
    Reading.strings finish tokens = pieces.foldr Reading.append (Reading.strings finish final)
  itemLoop : ∀ opened tokens, ∃ readings final, Rounds (Reading.itemRound finish) tokens readings final ∧
    ∀ fuel, tokens.length ≤ fuel →
      Reading.items finish fuel opened tokens = readings.foldr Reading.cons (Reading.itemsLeft opened final)
  memberLoop : ∀ opened tokens, ∃ readings final, Rounds (Reading.memberRound finish) tokens readings final ∧
    ∀ fuel, tokens.length ≤ fuel →
      Reading.members finish fuel opened tokens = readings.foldr Reading.join (Reading.membersLeft opened final)
  partLoop : ∀ outline tokens, ∃ problems last,
    Rounds (Outline.partRound finish) (outline, tokens) problems (last, []) ∧
      ∀ fuel, tokens.length ≤ fuel → Outline.readAll finish fuel outline tokens = (last, problems.flatten)

theorem reading_always_advances (finish : Location) : Progress finish where
  block token rest := advances_cons (Reading.suffix_block finish token.location rest)
  instruction token rest := advances_cons (Reading.suffix_instruction finish token rest)
  number token rest outcome := by
    apply advances_cons
    rw [Reading.rest_ofExcept]
  memoryBlock token rest := by
    apply advances_cons
    rw [Reading.rest_group]
    exact Reading.suffix_items finish rest.length token.location rest
  literal token rest := advances_cons (Reading.suffix_memory finish token rest)
  part outline token rest := advances_cons (outline.suffix_readPart token rest)
  strings raw closed location rest := advances_cons (Reading.suffix_strings finish raw closed location rest)
  anyStrings tokens := (Reading.within_strings finish tokens).suffix
  gate tokens := Reading.suffix_gate tokens
  operation word location tokens := (Reading.within_operation word location tokens).suffix
  assignment location tokens := Reading.suffix_assignment finish location tokens
  seed name location tokens := Outline.suffix_seed name location tokens
  stringRound := Reading.advances_stringRound
  itemRound := Reading.advances_itemRound
  memberRound := Reading.advances_memberRound
  partRound := Outline.advances_partRound
  stringLoop tokens := by
    obtain ⟨pieces, final, rounds⟩ := exists_rounds Reading.advances_stringRound tokens
    exact ⟨pieces, final, rounds, Reading.strings_eq_of_rounds rounds⟩
  itemLoop opened tokens := by
    obtain ⟨readings, final, rounds⟩ := exists_rounds (Reading.advances_itemRound) tokens
    exact ⟨readings, final, rounds, fun _ enough => Reading.items_eq_of_rounds opened rounds enough⟩
  memberLoop opened tokens := by
    obtain ⟨readings, final, rounds⟩ := exists_rounds (Reading.advances_memberRound) tokens
    exact ⟨readings, final, rounds, fun _ enough => Reading.members_eq_of_rounds opened rounds enough⟩
  partLoop outline tokens := by
    obtain ⟨problems, ⟨last, left⟩, rounds⟩ := exists_rounds (Outline.advances_partRound) (outline, tokens)
    have atEnd := (Outline.readAll_eq_of_rounds rounds (Nat.le_refl _)).1
    dsimp only at atEnd
    subst atEnd
    exact ⟨problems, last, rounds, fun _ enough => (Outline.readAll_eq_of_rounds rounds enough).2⟩

end RingTape
