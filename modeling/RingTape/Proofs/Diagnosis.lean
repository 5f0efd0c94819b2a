import RingTape.Proofs.Parsing

/-!
What is reported of a source text that is rejected. A reading that gives nothing has noted a problem, every problem
stands at a token of the text or at its end, and making a group of literals never fails. So a text is either accepted
with all that is written in it, or rejected with at least one diagnostic.
-/

namespace RingTape

set_option autoImplicit false

namespace Reading

/-- Where nothing was read, a problem was noted. -/
def Complains {α : Type} (reading : Reading α) : Prop :=
  reading.value = none → reading.problems ≠ []

theorem Earns.complains {α : Type} {reading : Reading α} {tokens : List (Located Token)}
    {derives : List (Located Token) → α → Prop} (earns : reading.Earns tokens derives) : reading.Complains := by
  intro nothing clean
  obtain ⟨_, value, _, read, _⟩ := earns clean
  rw [nothing] at read
  cases read

/-- What is left is fit to be read on, and what was noted is permitted. -/
structure Notes {α : Type} (reading : Reading α) (fit : List (Located Token) → Prop)
    (permitted : Located Problem → Prop) : Prop where
  rest : fit reading.rest
  problems : ∀ problem ∈ reading.problems, permitted problem

/-- The outcome is not that memory cannot be made. -/
def Plainly {α : Type} (outcome : Except Problem α) : Prop :=
  ∀ fault, outcome ≠ .error (.memory fault)

/--
Which problems may be noted of fit tokens: any but a fault of memory at any token, and also that one where the group
that begins there cannot be made.
-/
structure Permits (finish : Location) (fit : List (Located Token) → Prop)
    (permitted : Located Problem → Prop) : Prop where
  suffix : ∀ {rest tokens : List (Located Token)}, rest <:+ tokens → fit tokens → fit rest
  token : ∀ {token : Located Token} {rest : List (Located Token)} {problem : Problem}, fit (token :: rest) →
    (∀ fault, problem ≠ .memory fault) → permitted ⟨problem, token.location⟩
  ending : ∀ {problem : Problem}, (∀ fault, problem ≠ .memory fault) → permitted ⟨problem, finish⟩
  group : ∀ {location : Location} {rest : List (Located Token)} {fuel : Nat} {trees : List CellTree} {fault : Fault},
    fit (⟨.openMemory, location⟩ :: rest) → (items finish fuel location rest).value = some trees →
      CellTree.ofChildren trees = .error fault → permitted ⟨.memory fault, location⟩

theorem plainly_mapError {α : Type} (outcome : Except LiteralError α) : Plainly (outcome.mapError Problem.literal) := by
  intro fault same
  cases outcome <;> cases same

theorem plainly_value (number : Numeral) : Plainly number.value := by
  unfold Numeral.value
  split
  · exact plainly_mapError _
  · exact fun _ same => by cases same
  · exact plainly_mapError _
  · exact fun _ same => by cases same

theorem plainly_stringBytes (raw : String) (closed : Bool) : Plainly (stringBytes raw closed) := by
  unfold stringBytes
  split
  · exact plainly_mapError _
  · exact fun _ same => by cases same

theorem Plainly.map {α β : Type} {outcome : Except Problem α} (plainly : Plainly outcome) (change : α → β) :
    Plainly (outcome.map change) := by
  intro fault same
  cases outcome with
  | ok value => cases same
  | error problem =>
      cases same
      exact plainly fault rfl

theorem plainly_operand? {token : Token} {operand : Except Problem Operand} (found : operand? token = some operand) :
    Plainly operand := by
  unfold operand? at found
  split at found
  · cases found
    exact fun _ same => by cases same
  · cases found
    exact (plainly_value _).map Operand.constant
  · cases found

section Rules

variable {α β : Type} {finish : Location} {fit : List (Located Token) → Prop} {permitted : Located Problem → Prop}

theorem Notes.map {reading : Reading α} (notes : reading.Notes fit permitted) (change : α → β) :
    (reading.map change).Notes fit permitted :=
  ⟨notes.rest, notes.problems⟩

theorem Notes.cons {head : Reading α} {tail : Reading (List α)} (first : head.Notes fit permitted)
    (second : tail.Notes fit permitted) : (head.cons tail).Notes fit permitted :=
  ⟨second.rest, List.forall_mem_append.mpr ⟨first.problems, second.problems⟩⟩

theorem Notes.append {head tail : Reading (List α)} (first : head.Notes fit permitted)
    (second : tail.Notes fit permitted) : (head.append tail).Notes fit permitted :=
  ⟨second.rest, List.forall_mem_append.mpr ⟨first.problems, second.problems⟩⟩

theorem Notes.join {member : Reading Code} {rest : Reading Body} (first : member.Notes fit permitted)
    (second : rest.Notes fit permitted) : (join member rest).Notes fit permitted :=
  ⟨second.rest, List.forall_mem_append.mpr ⟨first.problems, second.problems⟩⟩

theorem Notes.close {body : Reading Body} (notes : body.Notes fit permitted) (gate : Gate) {location : Location}
    (empty : permitted ⟨.emptyBlock, location⟩) : (close gate location body).Notes fit permitted := by
  unfold Reading.close
  split
  · exact ⟨notes.rest, notes.problems⟩
  · exact ⟨notes.rest, notes.problems⟩
  · exact ⟨notes.rest, notes.problems⟩
  · refine ⟨notes.rest, List.forall_mem_append.mpr ⟨notes.problems, ?_⟩⟩
    exact List.forall_mem_singleton.mpr empty

variable (permits : Permits finish fit permitted)

include permits

/-- A check of a token, after which the reading goes on behind it or at it. -/
theorem notes_ofExcept {token : Located Token} {further rest : List (Located Token)} {outcome : Except Problem α}
    (fits : fit (token :: further)) (ends : rest <:+ token :: further) (plainly : Plainly outcome) :
    (ofExcept token.location rest outcome).Notes fit permitted := by
  refine ⟨?_, ?_⟩
  · cases outcome <;> exact permits.suffix ends fits
  · cases outcome with
    | ok value => exact fun _ among => by cases among
    | error problem =>
        refine List.forall_mem_singleton.mpr (permits.token fits ?_)
        exact fun fault same => plainly fault (congrArg Except.error same)

theorem Notes.gated {op : Reading Op} (notes : op.Notes fit permitted) (location : Location) :
    (gated location op).Notes fit permitted :=
  ⟨permits.suffix (suffix_gate op.rest) notes.rest, notes.problems⟩

theorem notes_strings {tokens : List (Located Token)} (fits : fit tokens) :
    (strings finish tokens).Notes fit permitted := by
  fun_induction strings finish tokens with
  | case1 raw closed location joint rest piece induction =>
      have past : rest <:+ ⟨.string raw closed, location⟩ :: ⟨.concat, joint⟩ :: rest :=
        (List.suffix_cons _ _).trans (List.suffix_cons _ _)
      exact (notes_ofExcept permits fits (List.suffix_cons _ _) (plainly_stringBytes raw closed)).append
        (induction (permits.suffix past fits))
  | case2 raw closed location rest piece other =>
      exact notes_ofExcept permits fits (List.suffix_cons _ _) (plainly_stringBytes raw closed)
  | case3 token location rest _ =>
      exact ⟨fits, List.forall_mem_singleton.mpr (permits.token fits fun _ same => by cases same)⟩
  | case4 =>
      exact ⟨fits, List.forall_mem_singleton.mpr (permits.ending fun _ same => by cases same)⟩

theorem notes_group {location : Location} {rest : List (Located Token)} {fuel : Nat}
    (fits : fit (⟨.openMemory, location⟩ :: rest)) (notes : (items finish fuel location rest).Notes fit permitted) :
    (group location (items finish fuel location rest)).Notes fit permitted := by
  unfold group
  split
  · exact ⟨notes.rest, notes.problems⟩
  · rename_i trees read
    split
    · exact ⟨notes.rest, notes.problems⟩
    · rename_i fault failed
      refine ⟨notes.rest, List.forall_mem_append.mpr ⟨notes.problems, ?_⟩⟩
      exact List.forall_mem_singleton.mpr (permits.group fits read failed)

-- What is not closed is reported at its opening token, so that place is permitted from the start.
theorem notes_items (fuel : Nat) {opened : Location} {tokens : List (Located Token)} (fits : fit tokens)
    (unclosed : permitted ⟨.unclosedMemory, opened⟩) :
    (items finish fuel opened tokens).Notes fit permitted := by
  fun_induction items finish fuel opened tokens with
  | case1 _ opened => exact ⟨fits, by simpa using unclosed⟩
  | case2 opened rest _ => exact ⟨fits, fun _ among => by cases among⟩
  | case3 fuel opened location rest =>
      exact ⟨permits.suffix (List.suffix_cons _ _) fits, fun _ among => by cases among⟩
  | case4 fuel opened location rest tree inner more =>
      have later := permits.suffix (List.suffix_cons _ _) fits
      have unclosedInner : permitted ⟨.unclosedMemory, location⟩ := permits.token fits fun _ same => by cases same
      have first := notes_group permits fits (inner later unclosedInner)
      exact first.cons (more first.rest unclosed)
  | case5 fuel opened location rest raw closed bytes more =>
      have first := (notes_strings permits fits).map CellTree.ofBytes
      exact first.cons (more first.rest unclosed)
  | case6 fuel opened location rest number more =>
      have first := (notes_ofExcept permits fits (List.suffix_cons _ _) (plainly_value number)).map CellTree.leaf
      exact first.cons (more (permits.suffix (List.suffix_cons _ _) fits) unclosed)
  | case7 fuel opened location rest other _ _ _ _ more =>
      have first : (ofExcept location rest (.error (.notLiteral other)) : Reading CellTree).Notes fit permitted :=
        notes_ofExcept permits fits (List.suffix_cons _ _) fun _ same => by cases same
      exact first.cons (more (permits.suffix (List.suffix_cons _ _) fits) unclosed)

theorem notes_memory {token : Located Token} {rest : List (Located Token)} (fits : fit (token :: rest)) :
    (memory finish token rest).Notes fit permitted := by
  rcases token with ⟨token, location⟩
  unfold memory
  split
  · rename_i isOpen
    cases isOpen
    have unclosed : permitted ⟨.unclosedMemory, location⟩ := permits.token fits fun _ same => by cases same
    exact notes_group permits fits (notes_items permits _ (permits.suffix (List.suffix_cons _ _) fits) unclosed)
  · exact (notes_strings permits fits).map CellTree.ofBytes
  · exact (notes_ofExcept permits fits (List.suffix_cons _ _) (plainly_value _)).map CellTree.leaf
  · exact notes_ofExcept permits fits (List.suffix_cons _ _) fun _ same => by cases same

theorem notes_nullary {word : String} {token : Located Token} {rest : List (Located Token)}
    (fits : fit (token :: rest)) : (nullary word token.location rest).Notes fit permitted := by
  refine notes_ofExcept permits fits (List.suffix_cons _ _) ?_
  intro fault same
  split at same <;> cases same

theorem notes_operation {word : String} {token : Located Token} {rest : List (Located Token)}
    (fits : fit (token :: rest)) : (operation word token.location rest).Notes fit permitted := by
  unfold operation
  split
  · exact notes_nullary permits fits
  · rename_i next after
    have fitsNext := permits.suffix (List.suffix_cons _ _) fits
    split
    · exact notes_nullary permits fits
    · rename_i problem found
      refine ⟨permits.suffix (List.suffix_cons _ _) fitsNext, List.forall_mem_singleton.mpr ?_⟩
      exact permits.token fitsNext fun fault same => plainly_operand? found fault (congrArg Except.error same)
    · refine notes_ofExcept permits fits ((List.suffix_cons _ _).trans (List.suffix_cons _ _)) ?_
      intro fault same
      split at same <;> cases same

theorem notes_assignment {token : Located Token} {rest : List (Located Token)} (fits : fit (token :: rest)) :
    (assignment finish token.location rest).Notes fit permitted := by
  have plainly : Plainly (.error .badMemoryValue : Except Problem Instruction) := fun _ same => by cases same
  unfold assignment
  split
  · exact notes_ofExcept permits fits (List.suffix_cons _ _) plainly
  · rename_i next after
    have fitsNext := permits.suffix (List.suffix_cons _ _) fits
    split
    · rename_i operand found
      have value := notes_ofExcept permits fitsNext (List.suffix_cons _ _) (plainly_operand? found)
      exact (value.map Op.setValue).gated permits token.location
    · split_ifs
      · exact ((notes_memory permits fitsNext).map Op.setMemory).gated permits token.location
      · exact notes_ofExcept permits fits (List.suffix_cons _ _) plainly
      · exact notes_ofExcept permits fits ((List.suffix_cons _ _).trans (List.suffix_cons _ _)) plainly

theorem notes_instruction {token : Located Token} {rest : List (Located Token)} (fits : fit (token :: rest)) :
    (instruction finish token rest).Notes fit permitted := by
  unfold instruction
  split
  · exact notes_assignment permits fits
  · exact (notes_operation permits fits).gated permits token.location
  · exact notes_ofExcept permits fits (List.suffix_cons _ _) fun _ same => by cases same

theorem notes_members (fuel : Nat) {opened : Location} {tokens : List (Located Token)} (fits : fit tokens)
    (unclosed : permitted ⟨.unclosedBlock, opened⟩) :
    (members finish fuel opened tokens).Notes fit permitted := by
  fun_induction members finish fuel opened tokens with
  | case1 _ opened => exact ⟨fits, by simpa using unclosed⟩
  | case2 opened rest _ => exact ⟨fits, fun _ among => by cases among⟩
  | case3 fuel opened location rest =>
      exact ⟨permits.suffix (List.suffix_cons _ _) fits, fun _ among => by cases among⟩
  | case4 fuel opened location rest gate after gated inner body more =>
      have shorter : after <:+ rest := by
        have ends := suffix_gate rest
        rw [gated] at ends
        exact ends
      have later := permits.suffix (shorter.trans (List.suffix_cons _ _)) fits
      have unclosedInner : permitted ⟨.unclosedBlock, location⟩ := permits.token fits fun _ same => by cases same
      have empty : permitted ⟨.emptyBlock, location⟩ := permits.token fits fun _ same => by cases same
      have first := ((body later unclosedInner).close gate empty).map Code.block
      exact first.join (more first.rest unclosed)
  | case5 fuel opened location rest other _ _ member more =>
      have first := (notes_instruction permits fits).map Code.instruction
      exact first.join (more first.rest unclosed)

theorem notes_block {token : Located Token} {rest : List (Located Token)} (fits : fit (token :: rest)) :
    (block finish token.location rest).Notes fit permitted := by
  have later := permits.suffix ((suffix_gate rest).trans (List.suffix_cons _ _)) fits
  have unclosed : permitted ⟨.unclosedBlock, token.location⟩ := permits.token fits fun _ same => by cases same
  have empty : permitted ⟨.emptyBlock, token.location⟩ := permits.token fits fun _ same => by cases same
  exact (notes_members permits _ later unclosed).close _ empty

theorem notes_seed (name : String) {token : Located Token} {rest : List (Located Token)}
    (fits : fit (token :: rest)) : (Outline.seed name token.location rest).Notes fit permitted := by
  unfold Outline.seed
  split
  · rename_i number place rest
    exact notes_ofExcept permits (permits.suffix (List.suffix_cons _ _) fits) (List.suffix_cons _ _)
      (plainly_value number)
  · exact notes_ofExcept permits fits (List.suffix_cons _ _) fun _ same => by cases same

theorem notes_readPart (outline : Outline) {token : Located Token} {rest : List (Located Token)}
    (fits : fit (token :: rest)) :
    fit (outline.readPart finish token rest).rest ∧
      ∀ problem ∈ (outline.readPart finish token rest).problems, permitted problem := by
  have atToken : ∀ (condition : Bool) (problem : Problem), (∀ fault, problem ≠ .memory fault) →
      ∀ noted ∈ Outline.noteIf condition problem token.location, permitted noted := by
    intro condition problem plain
    cases condition with
    | false => exact fun _ among => by cases among
    | true => exact List.forall_mem_singleton.mpr (permits.token fits plain)
  unfold Outline.readPart
  split
  · have block := notes_block permits fits
    exact ⟨block.rest, List.forall_mem_append.mpr ⟨atToken _ _ (fun _ same => by cases same), block.problems⟩⟩
  · have seed := notes_seed permits "a:" fits
    exact ⟨seed.rest, List.forall_mem_append.mpr ⟨atToken _ _ (fun _ same => by cases same), seed.problems⟩⟩
  · have seed := notes_seed permits "c:" fits
    exact ⟨seed.rest, List.forall_mem_append.mpr ⟨atToken _ _ (fun _ same => by cases same), seed.problems⟩⟩
  · split
    · have memory := notes_memory permits fits
      refine ⟨memory.rest, List.forall_mem_append.mpr ⟨List.forall_mem_append.mpr ⟨?_, memory.problems⟩, ?_⟩⟩
      · exact atToken _ _ fun _ same => by cases same
      · exact atToken _ _ fun _ same => by cases same
    · exact ⟨permits.suffix (List.suffix_cons _ _) fits, atToken true _ fun _ same => by cases same⟩

/-- All parts of a text are read with permitted problems only. -/
theorem notes_readAll (fuel : Nat) (outline : Outline) {tokens : List (Located Token)} (fits : fit tokens) :
    ∀ problem ∈ (outline.readAll finish fuel tokens).2, permitted problem := by
  induction fuel generalizing outline tokens with
  | zero => exact fun _ among => by cases among
  | succ fuel induction =>
      cases tokens with
      | nil => exact fun _ among => by cases among
      | cons token rest =>
          obtain ⟨further, noted⟩ := notes_readPart permits outline fits
          exact List.forall_mem_append.mpr ⟨noted, induction _ further⟩

end Rules

/-- The places at which the tokens of a text begin, and the place of its end. -/
def atTokens (source : String) (location : Location) : Prop :=
  location ∈ (TokenList.scan source).tokens.map Located.location ∨ location = (TokenList.scan source).finish

theorem permits_atTokens (source : String) :
    Permits (TokenList.scan source).finish (fun rest => rest <:+ (TokenList.scan source).tokens)
      fun problem => atTokens source problem.location where
  suffix shorter ends := shorter.trans ends
  token ends _ := .inl (List.mem_map_of_mem (ends.subset List.mem_cons_self))
  ending _ := .inr rfl
  group ends _ _ := .inl (List.mem_map.mpr ⟨_, ends.subset List.mem_cons_self, rfl⟩)

/-- Where there is room for all literals, a group can be made of those in it. -/
theorem ofChildren_of_items {finish opened : Location} {fuel : Nat} {tokens : List (Located Token)}
    {trees : List CellTree} (light : weigh tokens < 2 ^ 63)
    (read : (items finish fuel opened tokens).value = some trees) : ∃ tree, CellTree.ofChildren trees = .ok tree := by
  obtain ⟨few, rooted⟩ := (within_items finish fuel opened tokens light).usable trees read
  have intact : ∀ child ∈ trees, child.Intact := fun child among => CellTree.intact_of_rooted (rooted child among)
  obtain ⟨tree, made, _⟩ := CellTree.rooted_ofChildren intact (by omega)
  exact ⟨tree, made⟩

theorem permits_made (finish : Location) :
    Permits finish (fun rest => weigh rest < 2 ^ 63) fun problem => ∀ fault, problem.value ≠ .memory fault where
  suffix shorter light := weigh_lt_of_suffix light shorter
  token _ plain := plain
  ending plain := plain
  group light read failed := by
    rw [weigh_cons] at light
    obtain ⟨tree, made⟩ := ofChildren_of_items (by omega) read
    rw [made] at failed
    cases failed

/-- Every procedure of reading says what is wrong when it gives nothing, whatever it is given to read. -/
structure Candid (finish : Location) : Prop where
  strings (tokens : List (Located Token)) : (strings finish tokens).Complains
  items (fuel : Nat) (opened : Location) (tokens : List (Located Token)) (enough : tokens.length ≤ fuel) :
    (items finish fuel opened tokens).Complains
  memory (token : Located Token) (rest : List (Located Token)) : (memory finish token rest).Complains
  operation (word : String) (location : Location) (rest : List (Located Token)) :
    (operation word location rest).Complains
  assignment (location : Location) (rest : List (Located Token)) : (assignment finish location rest).Complains
  instruction (token : Located Token) (rest : List (Located Token)) : (instruction finish token rest).Complains
  members (fuel : Nat) (opened : Location) (tokens : List (Located Token)) (enough : tokens.length ≤ fuel) :
    (members finish fuel opened tokens).Complains
  block (opened : Location) (rest : List (Located Token)) : (block finish opened rest).Complains
  seed (name : String) (location : Location) (rest : List (Located Token)) :
    (Outline.seed name location rest).Complains

theorem candid (finish : Location) : Candid finish where
  strings tokens := (earns_strings finish tokens).complains
  items fuel opened tokens enough := (earns_items finish fuel opened tokens enough).complains
  memory token rest := (earns_memory finish token rest).complains
  operation word location rest := (earns_operation word location rest).complains
  assignment location rest := (earns_assignment finish location rest).complains
  instruction token rest := (earns_instruction finish token rest).complains
  members fuel opened tokens enough := (earns_members finish fuel opened tokens enough).complains
  block opened rest := (earns_block finish opened rest).complains
  seed name location rest := (Outline.earns_seed name location rest).complains

end Reading

namespace Outline

/-- The block that was met was read, and the memory has a cell for the head. -/
structure Ready (outline : Outline) : Prop where
  root : outline.hasBlock = true → outline.root.isSome = true
  memory : ∀ tree, outline.memory = some tree → 0 < tree.value

theorem ready_nothing : ({} : Outline).Ready where
  root met := by cases met
  memory _ held := by cases held

theorem ready_readPart (finish : Location) {outline : Outline} {token : Located Token} {rest : List (Located Token)}
    (ready : outline.Ready) (clean : (readPart finish outline token rest).problems = []) :
    (readPart finish outline token rest).outline.Ready := by
  unfold readPart at clean ⊢
  split at clean
  · obtain ⟨_, blockClean⟩ := List.append_eq_nil_iff.mp clean
    obtain ⟨_, root, _, read, _⟩ := Reading.earns_block finish token.location rest blockClean
    refine ⟨fun _ => ?_, ready.memory⟩
    simp only [read, Option.isSome_or, Option.isSome_some, Bool.or_true]
  · exact ⟨ready.root, ready.memory⟩
  · exact ⟨ready.root, ready.memory⟩
  · split at clean
    · rename_i begins
      have filled := noteIf_eq_nil.mp (List.append_eq_nil_iff.mp clean).2
      simp only [begins, if_true]
      refine ⟨ready.root, or_cases ready.memory ?_⟩
      intro tree read
      rw [read, Option.any_some, decide_eq_false_iff_not, Int64.not_le] at filled
      exact filled
    · cases clean

theorem ready_readAll (finish : Location) (fuel : Nat) {outline : Outline} (tokens : List (Located Token))
    (ready : outline.Ready) (clean : (readAll finish fuel outline tokens).2 = []) :
    (readAll finish fuel outline tokens).1.Ready := by
  induction fuel generalizing outline tokens with
  | zero => exact ready
  | succ fuel induction =>
      cases tokens with
      | nil => exact ready
      | cons token rest =>
          obtain ⟨partClean, restClean⟩ := List.append_eq_nil_iff.mp clean
          exact induction _ (ready_readPart finish ready partClean) restClean

end Outline

namespace Draft

/-- What a text is rejected with is all that was noted; without a block there is something to note. -/
theorem read_eq_error {source : String} {problems : List (Located Problem)} (failed : read source = .error problems) :
    ∃ outline noted, Outline.readAll (TokenList.scan source).finish (TokenList.scan source).tokens.length {}
        (TokenList.scan source).tokens = (outline, noted) ∧
      problems = noted ++ Outline.noteIf (!outline.hasBlock) .missingBlock (TokenList.scan source).finish ∧
        (problems = [] → outline.root = none) := by
  unfold read at failed
  dsimp only at failed
  generalize Outline.readAll (TokenList.scan source).finish (TokenList.scan source).tokens.length {}
    (TokenList.scan source).tokens = result at failed ⊢
  rcases result with ⟨outline, noted⟩
  refine ⟨outline, noted, rfl, ?_⟩
  dsimp only at failed
  split at failed
  · cases failed
  · rename_i some_nil
    cases failed
    refine ⟨rfl, fun clean => ?_⟩
    cases root : outline.root with
    | none => rfl
    | some block => exact absurd clean (some_nil block root)

theorem nonempty_of_read {source : String} {problems : List (Located Problem)}
    (failed : read source = .error problems) : problems ≠ [] := by
  obtain ⟨outline, noted, ran, rfl, rootless⟩ := read_eq_error failed
  intro clean
  -- Nothing noted means that a block was met, and a block that was met without problems was read.
  obtain ⟨nothing, met⟩ := List.append_eq_nil_iff.mp clean
  have ready := Outline.ready_readAll (TokenList.scan source).finish (TokenList.scan source).tokens.length
    (TokenList.scan source).tokens Outline.ready_nothing
  rw [ran] at ready
  have held := (ready nothing).root (by simpa using Outline.noteIf_eq_nil.mp met)
  rw [rootless clean] at held
  cases held

theorem permitted_of_read {source : String} {problems : List (Located Problem)}
    {fit : List (Located Token) → Prop} {permitted : Located Problem → Prop}
    (permits : Reading.Permits (TokenList.scan source).finish fit permitted) (fits : fit (TokenList.scan source).tokens)
    (failed : read source = .error problems) : ∀ problem ∈ problems, permitted problem := by
  obtain ⟨outline, noted, ran, rfl, _⟩ := read_eq_error failed
  have among := Reading.notes_readAll permits (TokenList.scan source).tokens.length {} fits
  rw [ran] at among
  refine List.forall_mem_append.mpr ⟨among, ?_⟩
  cases outline.hasBlock with
  | true => exact fun _ none => by cases none
  | false => exact List.forall_mem_singleton.mpr (permits.ending fun _ same => by cases same)

theorem positive_of_read {source : String} {draft : Draft} (ok : read source = .ok draft) :
    ∀ tree, draft.memory = some tree → 0 < tree.value := by
  obtain ⟨outline, ran, _, _, memory, _⟩ := read_eq_ok.mp ok
  have ready := Outline.ready_readAll (TokenList.scan source).finish (TokenList.scan source).tokens.length
    (TokenList.scan source).tokens Outline.ready_nothing
  rw [ran] at ready
  rw [← memory]
  exact (ready rfl).memory

end Draft

/-- A cell that is there and has room for children has a first one, or is given it. -/
theorem Store.child_of_positive {store : Store} {id : CellId} {node : Cell} (found : store.cell? id = some node)
    (positive : 0 < node.value) : ∃ head reached, child id store = .ok head reached := by
  rw [child, run_bind_ok (run_cell_of_some found)]
  rcases node with ⟨own, value, ⟨forward, backward⟩⟩
  cases forward with
  | cons anchor others => exact ⟨anchor.id, store, rfl⟩
  | nil =>
      simp only [if_neg (Int64.not_le.mpr positive)]
      exact ⟨_, _, rfl⟩

namespace Program

/-- Memory whose root has a child is all that a program needs. -/
theorem ofDraft_of_positive {draft : Draft} (positive : ∀ tree, draft.memory = some tree → 0 < tree.value) :
    ∃ program, ofDraft draft = .ok program := by
  have filled : 0 < (draft.memory.getD CellTree.initial).value := by
    cases held : draft.memory with
    | none => decide
    | some tree => exact positive tree held
  unfold ofDraft ofParts
  rw [if_neg (Int64.not_le.mpr filled)]
  generalize draft.memory.getD CellTree.initial = tree at filled ⊢
  unfold CellTree.value CellTree.cell? at filled
  cases found : tree.store.cell? tree.root with
  | none =>
      rw [found] at filled
      exact absurd filled (by decide)
  | some node =>
      rw [found] at filled
      obtain ⟨head, reached, ran⟩ := Store.child_of_positive found filled
      rw [ran]
      exact ⟨_, rfl⟩

end Program

/-- Whether an instruction or a block begins with the token, if it is not in a literal. -/
def Token.beginsCode : Token → Bool
  | .openBlock => true
  | .dot => true
  | .keyword word => word != "a:" && word != "c:"
  | _ => false

/-- The places of the tokens that begin code. -/
def codePlaces (tokens : List (Located Token)) : List Location :=
  (tokens.filter fun token => token.value.beginsCode).map Located.location

namespace Code

mutual

/-- The places of all the code, each block before its members. -/
def places : Code → List Location
  | .instruction single => [single.location]
  | .block ⟨_, first, others, location⟩ => location :: (first.places ++ placesAll others)

def placesAll : List Code → List Location
  | [] => []
  | code :: rest => code.places ++ placesAll rest

end

end Code

namespace Grammar

@[simp] theorem codePlaces_nil : codePlaces [] = [] := rfl

@[simp] theorem codePlaces_append (first second : List (Located Token)) :
    codePlaces (first ++ second) = codePlaces first ++ codePlaces second := by
  simp only [codePlaces, List.filter_append, List.map_append]

theorem codePlaces_cons {token : Token} (begins : token.beginsCode = true) (location : Location)
    (rest : List (Located Token)) : codePlaces (⟨token, location⟩ :: rest) = location :: codePlaces rest := by
  simp only [codePlaces, List.filter_cons, begins, if_true, List.map_cons]

theorem codePlaces_skip {token : Token} (plain : token.beginsCode = false) (location : Location)
    (rest : List (Located Token)) : codePlaces (⟨token, location⟩ :: rest) = codePlaces rest := by
  simp only [codePlaces, List.filter_cons, plain, Bool.false_eq_true, if_false]

theorem Number.beginsCode_eq {token : Token} {value : Num} (number : Number token value) :
    token.beginsCode = false := by
  cases number <;> rfl

theorem Argument.beginsCode_eq {token : Token} {operand : Operand} (argument : Argument token operand) :
    token.beginsCode = false := by
  cases argument with
  | register name => rfl
  | number number => exact number.beginsCode_eq

theorem Terminator.codePlaces_eq {tokens : List (Located Token)} {gate : Gate} (terminator : Terminator tokens gate) :
    codePlaces tokens = [] := by
  cases terminator <;> rfl

theorem Strings.codePlaces_eq {tokens : List (Located Token)} {bytes : List UInt8} (strings : Strings tokens bytes) :
    codePlaces tokens = [] := by
  induction strings with
  | last location read => rfl
  | more location joint read further induction => exact induction

theorem Literals.codePlaces_eq {tokens : List (Located Token)} {literals : List MemoryLiteral}
    (written : Literals tokens literals) : codePlaces tokens = [] := by
  induction written with
  | none => rfl
  | number location number further induction => rw [codePlaces_skip number.beginsCode_eq, induction]
  | strings strings further induction => rw [codePlaces_append, strings.codePlaces_eq, induction, List.append_nil]
  | group opened closed inside further inner induction =>
      rw [codePlaces_skip rfl, codePlaces_append, inner, codePlaces_skip rfl, induction, List.append_nil]

/-- The names of the seeds are no keywords of instructions. -/
theorem beginsCode_keyword {word : String} (accumulator : word ≠ "a:") (condition : word ≠ "c:") :
    (Token.keyword word).beginsCode = true := by
  simp only [Token.beginsCode, Bool.and_eq_true, bne_iff_ne]
  exact ⟨accumulator, condition⟩

theorem Single.codePlaces_eq {tokens : List (Located Token)} {instruction : Instruction}
    (single : Single tokens instruction) : codePlaces tokens = [instruction.location] := by
  cases single with
  | @nullary word _ _ _ location known terminator =>
      have begins : (Token.keyword word).beginsCode = true :=
        beginsCode_keyword (by rintro rfl; cases known) (by rintro rfl; cases known)
      rw [codePlaces_cons begins, terminator.codePlaces_eq]
  | @unary word _ _ _ _ _ location place argument known terminator =>
      have begins : (Token.keyword word).beginsCode = true :=
        beginsCode_keyword (by rintro rfl; cases known) (by rintro rfl; cases known)
      rw [codePlaces_cons begins, codePlaces_skip argument.beginsCode_eq, terminator.codePlaces_eq]
  | assign location place argument terminator =>
      rw [codePlaces_cons rfl, codePlaces_skip argument.beginsCode_eq, terminator.codePlaces_eq]
  | fill location memory compound terminator =>
      rw [codePlaces_cons rfl, codePlaces_append, memory.codePlaces_eq, terminator.codePlaces_eq, List.append_nil]

theorem Containers.codePlaces_eq {tokens : List (Located Token)} {codes : List Code}
    (written : Containers tokens codes) : codePlaces tokens = Code.placesAll codes := by
  induction written with
  | none => rfl
  | instruction single further induction =>
      rw [codePlaces_append, single.codePlaces_eq, induction, Code.placesAll, Code.places]
  | block opened closed terminator inside further inner induction =>
      rw [codePlaces_cons rfl, codePlaces_append, terminator.codePlaces_eq, codePlaces_append, inner,
        codePlaces_skip rfl, induction, Code.placesAll, Code.placesAll, Code.places, List.nil_append, List.cons_append]

theorem Parts.codePlaces_eq {tokens : List (Located Token)} {parts : List Part} (written : Parts tokens parts) :
    codePlaces tokens = Code.placesAll ((parts.filterMap Part.block?).map Code.block) := by
  induction written with
  | none => rfl
  | more piece further induction =>
      rw [codePlaces_append, induction]
      cases piece with
      | block container =>
          simp only [container.codePlaces_eq, List.filterMap_cons, Part.block?, List.map_cons, Code.placesAll,
            List.append_nil]
      | memory memory populated => rw [memory.codePlaces_eq, List.nil_append, List.filterMap_cons_none rfl]
      | accumulator location place number =>
          rw [codePlaces_skip rfl, codePlaces_skip number.beginsCode_eq, codePlaces_nil, List.nil_append,
            List.filterMap_cons_none rfl]
      | condition location place number =>
          rw [codePlaces_skip rfl, codePlaces_skip number.beginsCode_eq, codePlaces_nil, List.nil_append,
            List.filterMap_cons_none rfl]

theorem Describes.codePlaces_eq {tokens : List (Located Token)} {draft : Draft} (described : Describes tokens draft) :
    codePlaces tokens = (Code.block draft.root).places := by
  obtain ⟨parts, written, root, _⟩ := described
  rw [written.codePlaces_eq, root, List.map_singleton, Code.placesAll, Code.placesAll, List.append_nil]

end Grammar

namespace Program

/--
A text is accepted, or is rejected with a diagnostic at least, each at a token of the text or at its end. Nothing that
was read in part is passed over: every procedure says what is wrong when it gives nothing, groups of literals are
always made, and an accepted text has all the code and the literals that are written in it.
-/
theorem parse_leaves_nothing_unsaid (source : String) :
    ((∃ program, parse source = .ok program) ∨
      ∃ problems, parse source = .error (.parse problems) ∧ HostError.diagnostics problems ≠ [] ∧
        ∀ diagnostic ∈ HostError.diagnostics problems, Reading.atTokens source diagnostic.location) ∧
    (∀ problems, Draft.read source = .error problems → problems ≠ []) ∧
    (∀ finish, Reading.Candid finish) ∧
    (source.utf8ByteSize < 2 ^ 63 →
      (∀ finish fuel opened rest trees, rest <:+ (TokenList.scan source).tokens →
        (Reading.items finish fuel opened rest).value = some trees → ∃ tree, CellTree.ofChildren trees = .ok tree) ∧
      (∀ problems, Draft.read source = .error problems → ∀ problem ∈ problems, ∀ fault,
        problem.value ≠ .memory fault) ∧
      ∀ draft, Draft.read source = .ok draft → Grammar.Describes (TokenList.scan source).tokens draft ∧
        (Code.block draft.root).places = codePlaces (TokenList.scan source).tokens) := by
  refine ⟨?_, fun _ failed => Draft.nonempty_of_read failed, Reading.candid, ?_⟩
  · unfold parse
    cases read : Draft.read source with
    | ok draft => exact .inl (ofDraft_of_positive (Draft.positive_of_read read))
    | error problems =>
        refine .inr ⟨problems, rfl, ?_, ?_⟩
        · exact fun none => Draft.nonempty_of_read read (List.map_eq_nil_iff.mp none)
        · intro diagnostic among
          obtain ⟨problem, noted, rfl⟩ := List.mem_map.mp among
          exact Draft.permitted_of_read (Reading.permits_atTokens source) List.suffix_rfl read problem noted
  · intro fits
    have light := Nat.lt_of_le_of_lt (weigh_scan source) fits
    refine ⟨?_, ?_, ?_⟩
    · intro finish fuel opened rest trees ends read
      exact Reading.ofChildren_of_items (weigh_lt_of_suffix light ends) read
    · exact fun problems failed => Draft.permitted_of_read (Reading.permits_made _) light failed
    · intro draft accepted
      have described := Draft.describes_of_read (Grammar.roomy_of_weigh light) accepted
      exact ⟨described, described.codePlaces_eq.symm⟩

/-- A group that is never closed, with tokens in it that are no literals, and no block. -/
def flawedText : String :=
  "(1 \x7b foo 2"

theorem flawedText_leaves_nothing_unsaid :
    (∃ problems, parse flawedText = .error (.parse problems) ∧ HostError.diagnostics problems ≠ [] ∧
        ∀ diagnostic ∈ HostError.diagnostics problems, Reading.atTokens flawedText diagnostic.location) ∧
      Draft.sampleText.utf8ByteSize < 2 ^ 63 ∧ Draft.read Draft.sampleText = .ok Draft.sampleDraft ∧
        (Code.block Draft.sampleDraft.root).places = codePlaces (TokenList.scan Draft.sampleText).tokens := by
  have small : Draft.sampleText.utf8ByteSize < 2 ^ 63 := by decide +kernel
  have accepted : Draft.read Draft.sampleText = .ok Draft.sampleDraft := by cbv
  have rejected : ∀ program, parse flawedText ≠ .ok program := by
    intro program parsed
    cbv at parsed
    cases parsed
  refine ⟨?_, small, accepted, ?_⟩
  · obtain ⟨program, parsed⟩ | reported := (parse_leaves_nothing_unsaid flawedText).1
    · exact absurd parsed (rejected program)
    · exact reported
  · exact (((parse_leaves_nothing_unsaid Draft.sampleText).2.2.2 small).2.2 _ accepted).2

end Program

end RingTape
