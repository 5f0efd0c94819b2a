import RingTape.Proofs.Diagnosis
import RingTape.Proofs.Printing

/-!
Where the tokens of a text stand has no influence on what it means. Reading commutes with forgetting places, and so
does running: two texts with the same tokens are both rejected, for the same reasons, or describe programs that do the
same and differ at most in the places they report.
-/

namespace RingTape

set_option autoImplicit false

/-- The same without its place. -/
def Located.bare {α : Type} (item : Located α) : Located α :=
  { item with location := .unknown }

theorem bare_eq_of_values {α : Type} {first second : List (Located α)}
    (same : first.map Located.value = second.map Located.value) :
    first.map Located.bare = second.map Located.bare := by
  have forget : (Located.bare : Located α → Located α) = (fun value => ⟨value, .unknown⟩) ∘ Located.value := rfl
  rw [forget, ← List.map_map, ← List.map_map, same]

theorem values_eq_of_bare {α : Type} {first second : List (Located α)}
    (same : first.map Located.bare = second.map Located.bare) :
    first.map Located.value = second.map Located.value := by
  have forget : (Located.value : Located α → α) = Located.value ∘ Located.bare := rfl
  rw [forget, ← List.map_map, ← List.map_map, same]

def Instruction.bare (instruction : Instruction) : Instruction :=
  { instruction with location := .unknown }

def Block.bare (block : Block Code) : Block Code :=
  ⟨block.gate, block.first.bare, block.others.map Code.bare, .unknown⟩

theorem Code.bare_instruction (instruction : Instruction) :
    (Code.instruction instruction).bare = .instruction instruction.bare := by
  rw [bare, Instruction.bare]

theorem Code.bare_block (block : Block Code) : (Code.block block).bare = .block block.bare := by
  rcases block with ⟨gate, first, others, location⟩
  rw [bare, bareAll_eq, Block.bare]

theorem Block.members_bare (block : Block Code) : block.bare.members = block.members.map Code.bare := by
  rw [members, members, bare, List.map_cons]

namespace Reading

variable {α β γ : Type}

/-- The reading without places, given how to forget those in what was read. -/
def bare (forget : α → β) (reading : Reading α) : Reading β :=
  ⟨reading.value.map forget, reading.rest.map Located.bare, reading.problems.map Located.bare⟩

theorem bare_ofExcept (location : Location) (rest : List (Located Token)) (outcome : Except Problem α) :
    (ofExcept location rest outcome).bare id = ofExcept .unknown (rest.map Located.bare) outcome := by
  cases outcome <;> rfl

theorem bare_map {reading : Reading α} {δ : Type} {change : α → γ} {forget : γ → δ} {forgetFirst : α → β}
    {changeLast : β → δ} (commutes : forget ∘ change = changeLast ∘ forgetFirst) :
    (reading.map change).bare forget = (reading.bare forgetFirst).map changeLast := by
  simp only [map, bare, Option.map_map, commutes]

theorem forget_id (change : α → β) : id ∘ change = change ∘ id :=
  rfl

theorem bare_cons (head : Reading α) (tail : Reading (List α)) :
    (head.cons tail).bare id = (head.bare id).cons (tail.bare id) := by
  simp only [cons, bare, Option.map_id_fun, id, List.map_append]

theorem bare_append (head tail : Reading (List α)) :
    (head.append tail).bare id = (head.bare id).append (tail.bare id) := by
  simp only [append, bare, Option.map_id_fun, id, List.map_append]

theorem bare_strings (finish : Location) (tokens : List (Located Token)) :
    (strings finish tokens).bare id = strings .unknown (tokens.map Located.bare) := by
  fun_induction strings finish tokens with
  | case1 raw closed location joint rest piece induction =>
      simp only [bare_append, induction, piece, bare_ofExcept, List.map_cons, Located.bare, strings]
  | case2 raw closed location rest piece other =>
      simp only [piece, bare_ofExcept]
      cases rest with
      | nil => rfl
      | cons next rest =>
          rcases next with ⟨next, place⟩
          simp only [List.map_cons, Located.bare]
          rw [strings]
          rintro _ _ ⟨⟩
          exact other _ _ rfl
  | case3 token location rest other =>
      simp only [List.map_cons, Located.bare]
      rw [strings]
      · rfl
      · exact other
  | case4 => rfl

theorem bare_group (location : Location) (children : Reading (List CellTree)) :
    (group location children).bare id = group .unknown (children.bare id) := by
  rcases children with ⟨_ | trees, rest, problems⟩
  · rfl
  · simp only [group, bare, Option.map_id_fun, id]
    cases CellTree.ofChildren trees with
    | ok tree => rfl
    | error fault => simp [Located.bare]

theorem bare_items (finish : Location) (fuel : Nat) (opened : Location) (tokens : List (Located Token)) :
    (items finish fuel opened tokens).bare id = items .unknown fuel .unknown (tokens.map Located.bare) := by
  fun_induction items finish fuel opened tokens with
  | case1 fuel opened => cases fuel <;> rfl
  | case2 opened rest filled =>
      cases rest with
      | nil => exact absurd rfl filled
      | cons token rest => rfl
  | case3 fuel opened location rest => rfl
  | case4 fuel opened location rest tree inner more =>
      -- The second call starts where the first one ended, so its tokens are those that the bare group leaves.
      have first : tree.bare id = group .unknown (items .unknown fuel .unknown (rest.map Located.bare)) := by
        rw [bare_group, inner]
      have left : tree.rest.map Located.bare = (tree.bare id).rest := rfl
      rw [bare_cons, more, left, first]
      rfl
  | case5 fuel opened location rest raw closed bytes more =>
      have first := bare_strings finish (⟨.string raw closed, location⟩ :: rest)
      have left : bytes.rest.map Located.bare = (bytes.bare id).rest := rfl
      rw [bare_cons, bare_map (forget_id CellTree.ofBytes), more, left, first]
      rfl
  | case6 fuel opened location rest number more =>
      rw [bare_cons, bare_map (forget_id CellTree.leaf), more, bare_ofExcept]
      rfl
  | case7 fuel opened location rest other notClose notOpen notString notNumeral more =>
      rw [bare_cons, more, bare_ofExcept, List.map_cons, Located.bare, items]
      · exact notClose
      · exact notOpen
      · exact notString
      · exact notNumeral

theorem bare_memory (finish : Location) (token : Located Token) (rest : List (Located Token)) :
    (memory finish token rest).bare id = memory .unknown token.bare (rest.map Located.bare) := by
  rcases token with ⟨token, location⟩
  unfold memory
  cases token with
  | openMemory => simp only [bare_group, bare_items, Located.bare, List.length_map]
  | string raw closed =>
      simp only [bare_map (forget_id CellTree.ofBytes), bare_strings, List.map_cons, Located.bare]
  | numeral number => simp only [bare_map (forget_id CellTree.leaf), bare_ofExcept, Located.bare]
  | _ => simp only [bare_ofExcept, Located.bare]

theorem bare_gate (tokens : List (Located Token)) :
    gate (tokens.map Located.bare) = ((gate tokens).1, (gate tokens).2.map Located.bare) := by
  rcases tokens with _ | ⟨⟨token, location⟩, rest⟩
  · rfl
  · cases token <;> rfl

theorem bare_gated (location : Location) (op : Reading Op) :
    (gated location op).bare Instruction.bare = gated .unknown (op.bare id) := by
  simp only [gated, bare, bare_gate, Option.map_id_fun, id, Option.map_map]
  rfl

theorem bare_nullary (word : String) (location : Location) (rest : List (Located Token)) :
    (nullary word location rest).bare id = nullary word .unknown (rest.map Located.bare) := by
  rw [nullary, bare_ofExcept, nullary]

theorem bare_operation (word : String) (location : Location) (rest : List (Located Token)) :
    (operation word location rest).bare id = operation word .unknown (rest.map Located.bare) := by
  rcases rest with _ | ⟨⟨next, place⟩, after⟩
  · exact bare_nullary word location []
  · simp only [operation, List.map_cons, Located.bare]
    split
    · exact bare_nullary word location _
    · rfl
    · exact bare_ofExcept _ _ _

theorem bare_assignment (finish location : Location) (rest : List (Located Token)) :
    (assignment finish location rest).bare Instruction.bare =
      assignment .unknown .unknown (rest.map Located.bare) := by
  rcases rest with _ | ⟨⟨next, place⟩, after⟩
  · rfl
  · simp only [assignment, List.map_cons, Located.bare]
    split
    · rw [bare_gated, bare_map (forget_id Op.setValue), bare_ofExcept]
    · split_ifs
      · rw [bare_gated, bare_map (forget_id Op.setMemory), bare_memory]
        rfl
      · rfl
      · rfl

theorem bare_instruction (finish : Location) (token : Located Token) (rest : List (Located Token)) :
    (instruction finish token rest).bare Instruction.bare =
      instruction .unknown token.bare (rest.map Located.bare) := by
  rcases token with ⟨token, location⟩
  unfold instruction
  cases token with
  | dot => exact bare_assignment finish location rest
  | keyword word => simp only [bare_gated, bare_operation, Located.bare]
  | _ => rfl

def Body.bare (body : Body) : Body :=
  ⟨body.members.map Code.bare, body.attempted⟩

theorem bare_join (member : Reading Code) (rest : Reading Body) :
    (join member rest).bare Body.bare = join (member.bare Code.bare) (rest.bare Body.bare) := by
  rcases member with ⟨member, _, _⟩
  rcases rest with ⟨body, _, _⟩
  cases member <;> cases body <;> simp [join, bare, Body.bare]

theorem bare_close (gate : Gate) (location : Location) (body : Reading Body) :
    (close gate location body).bare Block.bare = close gate .unknown (body.bare Body.bare) := by
  rcases body with ⟨_ | ⟨_ | ⟨first, others⟩, _ | _⟩, rest, problems⟩
  · rfl
  · simp [close, bare, Body.bare, Located.bare]
  · rfl
  · rfl
  · rfl

theorem bare_members (finish : Location) (fuel : Nat) (opened : Location) (tokens : List (Located Token)) :
    (members finish fuel opened tokens).bare Body.bare = members .unknown fuel .unknown (tokens.map Located.bare) := by
  fun_induction members finish fuel opened tokens with
  | case1 fuel opened => cases fuel <;> rfl
  | case2 opened rest filled =>
      cases rest with
      | nil => exact absurd rfl filled
      | cons token rest => rfl
  | case3 fuel opened location rest => rfl
  | case4 fuel opened location rest gate after gated inner body more =>
      have start : Reading.gate (rest.map Located.bare) = (gate, after.map Located.bare) := by
        rw [bare_gate, gated]
      have first : inner.bare Block.bare =
          close gate .unknown (members .unknown fuel .unknown (after.map Located.bare)) := by
        rw [bare_close, body]
      have left : inner.rest.map Located.bare = (inner.bare Block.bare).rest := rfl
      have commutes : Code.bare ∘ Code.block = Code.block ∘ Block.bare := funext Code.bare_block
      rw [bare_join, bare_map commutes, more, left, first, List.map_cons, Located.bare, members, start]
  | case5 fuel opened location rest other notClose notOpen member more =>
      have first := bare_instruction finish ⟨other, location⟩ rest
      have left : member.rest.map Located.bare = (member.bare Instruction.bare).rest := rfl
      have commutes : Code.bare ∘ Code.instruction = Code.instruction ∘ Instruction.bare :=
        funext Code.bare_instruction
      rw [bare_join, bare_map commutes, more, left, first, List.map_cons, Located.bare, members]
      · exact notClose
      · exact notOpen

theorem bare_block (finish opened : Location) (rest : List (Located Token)) :
    (block finish opened rest).bare Block.bare = block .unknown .unknown (rest.map Located.bare) := by
  simp only [block, bare_close, bare_members, bare_gate, List.length_map]

end Reading

namespace Outline

def bare (outline : Outline) : Outline :=
  { outline with root := outline.root.map Block.bare }

def Extended.bare (extended : Extended) : Extended :=
  ⟨extended.outline.bare, extended.rest.map Located.bare, extended.problems.map Located.bare⟩

theorem bare_noteIf (condition : Bool) (problem : Problem) (location : Location) :
    (noteIf condition problem location).map Located.bare = noteIf condition problem .unknown := by
  cases condition <;> rfl

theorem bare_seed (name : String) (location : Location) (rest : List (Located Token)) :
    (seed name location rest).bare id = seed name .unknown (rest.map Located.bare) := by
  rcases rest with _ | ⟨⟨next, place⟩, after⟩
  · rfl
  · cases next with
    | numeral number => exact Reading.bare_ofExcept _ _ _
    | _ => rfl

theorem bare_readPart (finish : Location) (outline : Outline) (token : Located Token) (rest : List (Located Token)) :
    (readPart finish outline token rest).bare =
      readPart .unknown outline.bare token.bare (rest.map Located.bare) := by
  rcases token with ⟨token, location⟩
  unfold readPart
  simp only [Located.bare]
  split
  · simp only [← Reading.bare_block finish location, Extended.bare, bare, Reading.bare, List.map_append, bare_noteIf,
      Option.map_or]
  · simp only [← bare_seed _ location, Extended.bare, bare, Reading.bare, List.map_append, bare_noteIf,
      Option.map_id_fun, id]
  · simp only [← bare_seed _ location, Extended.bare, bare, Reading.bare, List.map_append, bare_noteIf,
      Option.map_id_fun, id]
  · split
    · have memory := Reading.bare_memory finish ⟨token, location⟩ rest
      simp only [Located.bare] at memory
      simp only [← memory, Extended.bare, bare, Reading.bare, List.map_append, bare_noteIf, Option.map_id_fun, id]
    · rfl

theorem bare_readAll (finish : Location) (fuel : Nat) (outline : Outline) (tokens : List (Located Token)) :
    readAll .unknown fuel outline.bare (tokens.map Located.bare) =
      ((readAll finish fuel outline tokens).1.bare, (readAll finish fuel outline tokens).2.map Located.bare) := by
  induction fuel generalizing outline tokens with
  | zero => rfl
  | succ fuel induction =>
      cases tokens with
      | nil => rfl
      | cons token rest =>
          have part := bare_readPart finish outline token rest
          rw [List.map_cons, readAll, ← part]
          simp only [Extended.bare, induction, readAll, List.map_append]

end Outline

namespace Draft

/-- The draft without the places of its code. -/
def bare (draft : Draft) : Draft :=
  { draft with root := draft.root.bare }

/-- What a text is read as, once all of its parts are. -/
def conclude (finish : Location) (outline : Outline) (noted : List (Located Problem)) :
    Except (List (Located Problem)) Draft :=
  match outline.root, noted ++ Outline.noteIf (!outline.hasBlock) .missingBlock finish with
  | some root, [] => .ok ⟨root, outline.memory, outline.accumulator, outline.condition⟩
  | _, problems => .error problems

theorem read_eq_conclude (source : String) :
    read source = conclude (TokenList.scan source).finish
      (Outline.readAll (TokenList.scan source).finish (TokenList.scan source).tokens.length {}
        (TokenList.scan source).tokens).1
      (Outline.readAll (TokenList.scan source).finish (TokenList.scan source).tokens.length {}
        (TokenList.scan source).tokens).2 :=
  rfl

/-- Both accepted as the same but for places, or both rejected with the same problems but for places. -/
inductive Agree : Except (List (Located Problem)) Draft → Except (List (Located Problem)) Draft → Prop
  | accepted {draft draft' : Draft} (same : draft.bare = draft'.bare) : Agree (.ok draft) (.ok draft')
  | rejected {problems problems' : List (Located Problem)}
      (same : problems.map Located.value = problems'.map Located.value) : Agree (.error problems) (.error problems')

theorem agree_conclude (finish finish' : Location) {left right : Outline} {noted noted' : List (Located Problem)}
    (outlines : left.bare = right.bare) (problems : noted.map Located.bare = noted'.map Located.bare) :
    Agree (conclude finish left noted) (conclude finish' right noted') := by
  rcases left with ⟨hasBlock, root, memory, accumulator, condition⟩
  rcases right with ⟨_, root', _, _, _⟩
  simp only [Outline.bare, Outline.mk.injEq] at outlines
  obtain ⟨rfl, roots, rfl, rfl, rfl⟩ := outlines
  have values : (noted ++ Outline.noteIf (!hasBlock) .missingBlock finish).map Located.value =
      (noted' ++ Outline.noteIf (!hasBlock) .missingBlock finish').map Located.value := by
    apply values_eq_of_bare
    rw [List.map_append, List.map_append, problems, Outline.bare_noteIf, Outline.bare_noteIf]
  unfold conclude
  dsimp only
  generalize noted ++ Outline.noteIf (!hasBlock) .missingBlock finish = all at values ⊢
  generalize noted' ++ Outline.noteIf (!hasBlock) .missingBlock finish' = all' at values ⊢
  cases root with
  | none =>
      cases root' with
      | none => exact .rejected values
      | some block => cases roots
  | some block =>
      cases root' with
      | none => cases roots
      | some block' =>
          cases all with
          | nil =>
              cases List.map_eq_nil_iff.mp values.symm
              refine .accepted ?_
              rw [bare, bare, Option.some.inj roots]
          | cons problem others =>
              cases all' with
              | nil => cases values
              | cons problem' others' => exact .rejected values

theorem agree_of_tokens {first second : String}
    (same : (TokenList.scan first).tokens.map Located.value = (TokenList.scan second).tokens.map Located.value) :
    Agree (read first) (read second) := by
  have long : (TokenList.scan first).tokens.length = (TokenList.scan second).tokens.length := by
    rw [← List.length_map, same, List.length_map]
  have ran := Outline.bare_readAll (TokenList.scan first).finish (TokenList.scan first).tokens.length {}
    (TokenList.scan first).tokens
  rw [bare_eq_of_values same, long, Outline.bare_readAll (TokenList.scan second).finish, ← long, Prod.mk.injEq] at ran
  rw [read_eq_conclude, read_eq_conclude, ← long]
  exact agree_conclude _ _ ran.1.symm ran.2.symm

end Draft

def Abort.bare (abort : Abort) : Abort :=
  { abort with location := .unknown }

namespace Verdict

def bare : Verdict → Verdict
  | .flow kind => .flow kind
  | .abort cause => .abort cause.bare

theorem ending_bare (verdict : Verdict) : verdict.bare.ending = verdict.ending := by
  cases verdict <;> rfl

theorem abort?_bare (verdict : Verdict) : verdict.bare.abort? = verdict.abort?.map Abort.bare := by
  cases verdict <;> rfl

end Verdict

/-- A result of running code without the place of an abort. -/
def bareResult (result : Verdict × Machine) : Verdict × Machine :=
  (result.1.bare, result.2)

theorem Instruction.visit_bare (limit : Option Nat) (instruction : Instruction) (machine : Machine) :
    instruction.bare.visit limit machine = bareResult (instruction.visit limit machine) := by
  rcases instruction with ⟨op, gate, location⟩
  rw [bare]
  simp only [visit]
  split
  · rfl
  · by_cases admitted : gate.admits machine.registers.condition = true
    · rw [if_pos admitted, if_pos admitted]
      cases Machine.perform op { machine with steps := machine.steps + 1 } with
      | ok flow reached => rfl
      | error reason reached => rfl
    · rw [if_neg admitted, if_neg admitted]
      rfl

namespace Code

/-- What one turn of a block does with its next member, given what all members and all turns do with less budget. -/
theorem cycle_bare_succ {limit : Option Nat} {budget : Nat}
    (runs : ∀ code machine, run limit budget (bare code) machine = (run limit budget code machine).map bareResult)
    (cycles : ∀ members rest machine, cycle limit budget (members.map bare) (rest.map bare) machine =
      (cycle limit budget members rest machine).map bareResult) (members rest : List Code) (machine : Machine) :
    cycle limit (budget + 1) (members.map bare) (rest.map bare) machine =
      (cycle limit (budget + 1) members rest machine).map bareResult := by
  cases rest with
  | nil => exact cycles members members machine
  | cons code rest =>
      rw [List.map_cons, cycle, cycle, runs]
      rcases run limit budget code machine with _ | ⟨⟨_ | _ | _⟩ | cause, reached⟩
      · rfl
      · exact cycles members rest reached
      · rfl
      · rfl
      · rfl

theorem run_bare_both (limit : Option Nat) (budget : Nat) :
    (∀ code machine, run limit budget (bare code) machine = (run limit budget code machine).map bareResult) ∧
      ∀ members rest machine, cycle limit budget (members.map bare) (rest.map bare) machine =
        (cycle limit budget members rest machine).map bareResult := by
  induction budget with
  | zero =>
      refine ⟨?_, fun _ _ _ => ?_⟩
      · intro code machine
        cases code with
        | instruction single =>
            rw [bare_instruction, run, run, Instruction.visit_bare]
            rfl
        | block loop =>
            rw [bare_block, run, run]
            rfl
      · rw [cycle, cycle]
        rfl
  | succ budget induction =>
      obtain ⟨runs, cycles⟩ := induction
      refine ⟨?_, cycle_bare_succ runs cycles⟩
      intro code machine
      cases code with
      | instruction single =>
          rw [bare_instruction, run, run, Instruction.visit_bare]
          rfl
      | block loop =>
          rw [bare_block, run, run, Block.members_bare, cycles]
          have gate : loop.bare.gate = loop.gate := rfl
          rw [gate]
          split_ifs <;> rfl

end Code

namespace Program

/-- The program without the places of its code and of its abort. -/
def bare (program : Program) : Program :=
  { program with root := program.root.bare, abort := program.abort.map Abort.bare }

/-- The same program in the same state, but for the places of its code and of its abort. -/
structure Matches (first second : Program) : Prop where
  root : (Code.block first.root).bare = (Code.block second.root).bare
  store : first.store = second.store
  memoryRoot : first.memoryRoot = second.memoryRoot
  registers : first.registers = second.registers
  hasRun : first.hasRun = second.hasRun
  steps : first.steps = second.steps
  reason : first.abort.map Abort.reason = second.abort.map Abort.reason

theorem matches_of_bare {first second : Program} (same : first.bare = second.bare) : first.Matches second := by
  have reason (program : Program) : program.abort.map Abort.reason = program.bare.abort.map Abort.reason := by
    rw [bare, Option.map_map]
    rfl
  have causes : first.abort.map Abort.reason = second.abort.map Abort.reason := by
    rw [reason, same, ← reason]
  simp only [bare, Program.mk.injEq] at same
  obtain ⟨root, store, memoryRoot, registers, hasRun, steps, _⟩ := same
  refine ⟨?_, store, memoryRoot, registers, hasRun, steps, causes⟩
  rw [Code.bare_block, Code.bare_block, root]

theorem ofDraft_bare (draft : Draft) : ofDraft draft.bare = (ofDraft draft).map bare := by
  unfold ofDraft ofParts Draft.bare
  dsimp only
  split_ifs
  · rfl
  · split <;> rfl

theorem run_eq_finished {program : Program} (fresh : program.hasRun = false) (streams : Streams) (limit : Option Nat)
    (budget : Nat) :
    program.run streams limit budget = .ok ((Code.run limit budget (.block program.root) (program.machine streams)).map
      fun result => program.finished result.1 result.2) := by
  rw [run, fresh]
  rfl

theorem matches_finished {first second : Program} (same : first.bare = second.bare) {verdict verdict' : Verdict}
    (alike : verdict.bare = verdict'.bare) (machine : Machine) :
    (first.finished verdict machine).1 = (second.finished verdict' machine).1 ∧
      (first.finished verdict machine).2.1.Matches (second.finished verdict' machine).2.1 := by
  refine ⟨?_, matches_of_bare ?_⟩
  · simp only [finished]
    rw [← verdict.ending_bare, alike, verdict'.ending_bare]
  · simp only [finished, bare, ← Verdict.abort?_bare, alike]
    simp only [bare, Program.mk.injEq] at same
    rw [same.1, same.2.2.1]

/-- Programs that are the same but for places run out of every budget together, or end alike. -/
theorem run_of_bare {first second : Program} (same : first.bare = second.bare) (fresh : first.hasRun = false)
    (streams : Streams) (limit : Option Nat) (budget : Nat) :
    (first.run streams limit budget = .ok none ∧ second.run streams limit budget = .ok none) ∨
      ∃ ending after after' left, first.run streams limit budget = .ok (some (ending, after, left)) ∧
        second.run streams limit budget = .ok (some (ending, after', left)) ∧ after.Matches after' := by
  obtain ⟨root, store, _, registers, hasRun, _, _⟩ := matches_of_bare same
  have machine : first.machine streams = second.machine streams := by rw [Program.machine, store, registers]; rfl
  have ran := (Code.run_bare_both limit budget).1 (.block first.root) (first.machine streams)
  rw [root, machine, (Code.run_bare_both limit budget).1] at ran
  rw [run_eq_finished fresh, run_eq_finished (hasRun ▸ fresh), machine]
  generalize Code.run limit budget (.block first.root) (second.machine streams) = left at ran ⊢
  generalize Code.run limit budget (.block second.root) (second.machine streams) = right at ran ⊢
  cases left with
  | none =>
      cases right with
      | none => exact .inl ⟨rfl, rfl⟩
      | some result => cases ran
  | some result =>
      cases right with
      | none => cases ran
      | some result' =>
          rcases result with ⟨verdict, reached⟩
          rcases result' with ⟨verdict', reached'⟩
          simp only [Option.map_some, bareResult, Option.some.injEq, Prod.mk.injEq] at ran
          obtain ⟨alike, rfl⟩ := ran
          obtain ⟨ending, after⟩ := matches_finished same alike.symm reached'
          refine .inr ⟨(first.finished verdict reached').1, _, _, reached'.streams, rfl, ?_, after⟩
          rw [ending]
          rfl

theorem diagnostics_of_values {problems problems' : List (Located Problem)}
    (same : problems.map Located.value = problems'.map Located.value) :
    (HostError.diagnostics problems).map (fun diagnostic => (diagnostic.message, diagnostic.help)) =
      (HostError.diagnostics problems').map fun diagnostic => (diagnostic.message, diagnostic.help) := by
  have forget (problems : List (Located Problem)) :
      (HostError.diagnostics problems).map (fun diagnostic => (diagnostic.message, diagnostic.help)) =
        (problems.map Located.value).map fun problem => (problem.message, problem.help?) := by
    rw [HostError.diagnostics, List.map_map, List.map_map]
    rfl
  rw [forget, forget, same]

/--
Two texts with the same tokens are both rejected, with the same messages and hints in the same order, or both accepted
as the same code, memory and seeds. The programs then run forever together or end in the same way, in the same state
and with the same streams; only the places of their code and of an abort may differ.
-/
theorem layout_never_matters (first second : String)
    (same : (TokenList.scan first).tokens.map Located.value = (TokenList.scan second).tokens.map Located.value) :
    (∃ problems problems', parse first = .error (.parse problems) ∧ parse second = .error (.parse problems') ∧
      (HostError.diagnostics problems).map (fun diagnostic => (diagnostic.message, diagnostic.help)) =
        (HostError.diagnostics problems').map fun diagnostic => (diagnostic.message, diagnostic.help)) ∨
    ∃ draft draft' program program', Draft.read first = .ok draft ∧ Draft.read second = .ok draft' ∧
      (Code.block draft.root).bare = (Code.block draft'.root).bare ∧ draft.memory = draft'.memory ∧
      draft.accumulator = draft'.accumulator ∧ draft.condition = draft'.condition ∧
      parse first = .ok program ∧ parse second = .ok program' ∧ program.Matches program' ∧
      program.snapshot = program'.snapshot ∧
      ∀ streams limit budget,
        (program.run streams limit budget = .ok none ∧ program'.run streams limit budget = .ok none) ∨
          ∃ ending after after' left, program.run streams limit budget = .ok (some (ending, after, left)) ∧
            program'.run streams limit budget = .ok (some (ending, after', left)) ∧ after.Matches after' := by
  have agree := Draft.agree_of_tokens same
  generalize read : Draft.read first = outcome at agree
  generalize read' : Draft.read second = outcome' at agree
  cases agree with
  | rejected values =>
      exact .inl ⟨_, _, by rw [parse, read], by rw [parse, read'], diagnostics_of_values values⟩
  | @accepted draft draft' alike =>
      obtain ⟨program, made⟩ := ofDraft_of_positive (Draft.positive_of_read read)
      obtain ⟨program', made'⟩ := ofDraft_of_positive (Draft.positive_of_read read')
      have parsed : parse first = .ok program := by rw [parse, read, ← made]
      have parsed' : parse second = .ok program' := by rw [parse, read', ← made']
      have bared : program.bare = program'.bare := by
        have both := ofDraft_bare draft
        rw [alike, ofDraft_bare, made, made'] at both
        exact (Except.ok.inj both).symm
      have matched := matches_of_bare bared
      simp only [Draft.bare, Draft.mk.injEq] at alike
      refine .inr ⟨draft, draft', program, program', rfl, rfl, ?_, alike.2.1, alike.2.2.1, alike.2.2.2, parsed, parsed',
        matched, ?_, run_of_bare bared (hasRun_of_parse parsed)⟩
      · rw [Code.bare_block, Code.bare_block, alike.1]
      · rw [snapshot, snapshot, matched.store, matched.memoryRoot]

/-- The sample text on several lines, with other blanks and with comments. -/
def spreadText : String :=
  "c:\nF # seed\n(\"ab\"&\"c\"\n  (1 'x')\n)\x7b?\x7b!+ a;\x7d # inner\n.(\"z\" 2)<= T\x7da: 0x10"

/-- The flawed text on several lines. -/
def spreadFlaws : String :=
  "( # never closed\n1\x7b\nfoo\n2"

theorem layout_never_matters_spreadText :
    (TokenList.scan Draft.sampleText).tokens.map Located.value = (TokenList.scan spreadText).tokens.map Located.value ∧
      (∃ program program', parse Draft.sampleText = .ok program ∧ parse spreadText = .ok program' ∧
        program.Matches program') ∧
      (TokenList.scan flawedText).tokens.map Located.value = (TokenList.scan spreadFlaws).tokens.map Located.value ∧
      ∃ problems problems', parse flawedText = .error (.parse problems) ∧
        parse spreadFlaws = .error (.parse problems') ∧
          (HostError.diagnostics problems).map (fun diagnostic => (diagnostic.message, diagnostic.help)) =
            (HostError.diagnostics problems').map fun diagnostic => (diagnostic.message, diagnostic.help) := by
  have same : (TokenList.scan Draft.sampleText).tokens.map Located.value =
      (TokenList.scan spreadText).tokens.map Located.value := by cbv
  have flawedSame : (TokenList.scan flawedText).tokens.map Located.value =
      (TokenList.scan spreadFlaws).tokens.map Located.value := by cbv
  refine ⟨same, ?_, flawedSame, ?_⟩
  · obtain ⟨problems, _, failed, _⟩ | ⟨_, _, program, program', accepted⟩ := layout_never_matters _ _ same
    · cbv at failed
      cases failed
    · exact ⟨program, program', accepted.2.2.2.2.2.2.1, accepted.2.2.2.2.2.2.2.1, accepted.2.2.2.2.2.2.2.2.1⟩
  · obtain rejected | ⟨draft, _, _, _, read, _⟩ := layout_never_matters _ _ flawedSame
    · exact rejected
    · cbv at read
      cases read

end Program

end RingTape
