import RingTape.Proofs.Literals

/-!
The grammar of source texts, over lists of tokens, with what each phrase stands for. A memory literal stands
for a tree; that tree has the shape that is written: a number is a leaf, strings are a ring of bytes, and a
group is a ring of the trees in it.
-/

namespace RingTape

set_option autoImplicit false

inductive MemoryLiteral where
  | number (value : Num)
  | bytes (content : List UInt8)
  | group (members : List MemoryLiteral)

/-- The tree that holds copies of the given trees, as far as there is room for them. -/
def CellTree.gather (children : List CellTree) : CellTree :=
  match pushAll children (leaf 0) with
  | .ok () tree => tree
  | .error _ tree => tree

namespace CellTree

theorem gather_of_ofChildren {children : List CellTree} {tree : CellTree} (made : ofChildren children = .ok tree) :
    gather children = tree := by
  unfold ofChildren at made
  unfold gather
  split at made
  · cases made
    simp only [*]
  · cases made

end CellTree

namespace MemoryLiteral

def isNumber : MemoryLiteral → Bool
  | .number _ => true
  | _ => false

mutual

/-- The tree that the literal stands for. -/
def tree : MemoryLiteral → CellTree
  | .number value => CellTree.leaf value
  | .bytes content => CellTree.ofBytes content
  | .group members => CellTree.gather (trees members)

def trees : List MemoryLiteral → List CellTree
  | [] => []
  | literal :: rest => literal.tree :: trees rest

end

mutual

/-- The shape that is written in the literal. -/
def snapshot : MemoryLiteral → Snapshot
  | .number value => Snapshot.leaf value
  | .bytes content => Snapshot.ringOf (content.map Num.ofByte)
  | .group members => Snapshot.ringOfShapes (snapshots members)

def snapshots : List MemoryLiteral → List Snapshot
  | [] => []
  | literal :: rest => literal.snapshot :: snapshots rest

end

theorem trees_eq (literals : List MemoryLiteral) : trees literals = literals.map tree := by
  induction literals with
  | nil => rfl
  | cons literal rest induction => rw [trees, induction, List.map_cons]

theorem snapshots_eq (literals : List MemoryLiteral) : snapshots literals = literals.map snapshot := by
  induction literals with
  | nil => rfl
  | cons literal rest induction => rw [snapshots, induction, List.map_cons]

/-- The literal can be made into its tree, which is whole and has the shape that is written. -/
structure Faithful (literal : MemoryLiteral) : Prop where
  rooted : literal.tree.store.Rooted literal.tree.root
  shape : literal.tree.snapshot = literal.snapshot
  made : ∀ members, literal = .group members → CellTree.ofChildren (trees members) = .ok literal.tree

theorem faithful_number (value : Num) : (number value).Faithful where
  rooted := by
    rw [tree]
    exact CellTree.rooted_leaf value
  shape := by rw [tree, snapshot, CellTree.snapshot_leaf]
  made := by simp

theorem faithful_bytes {content : List UInt8} (short : content.length < 2 ^ 63) : (bytes content).Faithful where
  rooted := by
    rw [tree]
    exact CellTree.rooted_ofBytes short
  shape := by rw [tree, snapshot, CellTree.snapshot_ofBytes]
  made := by simp

theorem faithful_group {members : List MemoryLiteral} (faithful : ∀ literal ∈ members, literal.Faithful)
    (short : members.length < 2 ^ 63) : (group members).Faithful := by
  have intact : ∀ child ∈ trees members, child.Intact := by
    intro child among
    rw [trees_eq, List.mem_map] at among
    obtain ⟨literal, member, rfl⟩ := among
    exact CellTree.intact_of_rooted (faithful literal member).rooted
  have shapes : (trees members).map CellTree.snapshot = snapshots members := by
    rw [trees_eq, snapshots_eq, List.map_map]
    exact List.map_congr_left fun literal member => (faithful literal member).shape
  obtain ⟨made, ran, rooted, shape⟩ :=
    CellTree.rooted_ofChildren intact (by rw [trees_eq, List.length_map]; exact short)
  have same : (group members).tree = made := by rw [tree, CellTree.gather_of_ofChildren ran]
  rw [shapes] at shape
  refine ⟨?_, ?_, ?_⟩
  · rw [same]
    exact rooted
  · rw [same, shape, snapshot]
  · rintro _ ⟨rfl⟩
    rw [same, ran]

/-- The value of the root is the one that is written. -/
theorem Faithful.value_eq {literal : MemoryLiteral} (faithful : literal.Faithful) :
    literal.tree.value = literal.snapshot.value := by
  rw [← faithful.shape, CellTree.value_snapshot]

end MemoryLiteral

namespace Grammar

/-- A literal that stands for a number. -/
inductive Number : Token → Num → Prop
  | integer {text : String} {value : Num} (read : Literal.integer text = .ok value) :
      Number (.numeral (.integer text)) value
  | truth (value : Bool) : Number (.numeral (.truth value)) (Num.ofBool value)
  | char {raw : String} {value : Num} (read : Literal.char raw = .ok value) : Number (.numeral (.char raw true)) value

inductive Argument : Token → Operand → Prop
  | register (name : Register) : Argument (.register name) (.register name)
  | number {token : Token} {value : Num} (number : Number token value) : Argument token (.constant value)

/-- Closed string literals joined by `&`. -/
inductive Strings : List (Located Token) → List UInt8 → Prop
  | last {raw : String} {bytes : List UInt8} (location : Location) (read : Literal.escapes raw = .ok bytes) :
      Strings [⟨.string raw true, location⟩] bytes
  | more {raw : String} {bytes others : List UInt8} {rest : List (Located Token)} (location joint : Location)
      (read : Literal.escapes raw = .ok bytes) (further : Strings rest others) :
      Strings (⟨.string raw true, location⟩ :: ⟨.concat, joint⟩ :: rest) (bytes ++ others)

/-- Memory literals, one after the other. -/
inductive Literals : List (Located Token) → List MemoryLiteral → Prop
  | none : Literals [] []
  | number {token : Token} {value : Num} {rest : List (Located Token)} {literals : List MemoryLiteral}
      (location : Location) (number : Number token value) (further : Literals rest literals) :
      Literals (⟨token, location⟩ :: rest) (.number value :: literals)
  | strings {taken rest : List (Located Token)} {bytes : List UInt8} {literals : List MemoryLiteral}
      (strings : Strings taken bytes) (further : Literals rest literals) :
      Literals (taken ++ rest) (.bytes bytes :: literals)
  | group {inner rest : List (Located Token)} {members literals : List MemoryLiteral} (opened closed : Location)
      (inside : Literals inner members) (further : Literals rest literals) :
      Literals (⟨.openMemory, opened⟩ :: (inner ++ ⟨.closeMemory, closed⟩ :: rest)) (.group members :: literals)

/-- A terminator that may be left out. -/
inductive Terminator : List (Located Token) → Gate → Prop
  | absent : Terminator [] .always
  | present (gate : Gate) (location : Location) : Terminator [⟨.terminator gate, location⟩] gate

/-- One instruction. A number after the dot is an argument, so a memory literal there is none. -/
inductive Single : List (Located Token) → Instruction → Prop
  | nullary {word : String} {op : Op} {final : List (Located Token)} {gate : Gate} (location : Location)
      (known : Keyword.nullary? word = some op) (terminator : Terminator final gate) :
      Single (⟨.keyword word, location⟩ :: final) ⟨op, gate, location⟩
  | unary {word : String} {token : Token} {operand : Operand} {op : Op} {final : List (Located Token)} {gate : Gate}
      (location place : Location) (argument : Argument token operand) (known : Keyword.unary? word operand = some op)
      (terminator : Terminator final gate) :
      Single (⟨.keyword word, location⟩ :: ⟨token, place⟩ :: final) ⟨op, gate, location⟩
  | assign {token : Token} {operand : Operand} {final : List (Located Token)} {gate : Gate}
      (location place : Location) (argument : Argument token operand) (terminator : Terminator final gate) :
      Single (⟨.dot, location⟩ :: ⟨token, place⟩ :: final) ⟨.setValue operand, gate, location⟩
  | fill {taken final : List (Located Token)} {literal : MemoryLiteral} {gate : Gate} (location : Location)
      (memory : Literals taken [literal]) (compound : literal.isNumber = false) (terminator : Terminator final gate) :
      Single (⟨.dot, location⟩ :: (taken ++ final)) ⟨.setMemory literal.tree, gate, location⟩

/-- Blocks and instructions, one after the other; no block is empty. -/
inductive Containers : List (Located Token) → List Code → Prop
  | none : Containers [] []
  | instruction {taken rest : List (Located Token)} {instruction : Instruction} {codes : List Code}
      (single : Single taken instruction) (further : Containers rest codes) :
      Containers (taken ++ rest) (.instruction instruction :: codes)
  | block {start inner rest : List (Located Token)} {gate : Gate} {first : Code} {others codes : List Code}
      (opened closed : Location) (terminator : Terminator start gate) (inside : Containers inner (first :: others))
      (further : Containers rest codes) :
      Containers (⟨.openBlock, opened⟩ :: (start ++ (inner ++ ⟨.closeBlock, closed⟩ :: rest)))
        (.block ⟨gate, first, others, opened⟩ :: codes)

/-- What stands at the top of a source text. -/
inductive Part where
  | block (root : Block Code)
  | memory (literal : MemoryLiteral)
  | accumulator (value : Num)
  | condition (value : Num)

namespace Part

def block? : Part → Option (Block Code)
  | .block root => some root
  | _ => none

def tree? : Part → Option CellTree
  | .memory literal => some literal.tree
  | _ => none

def accumulator? : Part → Option Num
  | .accumulator value => some value
  | _ => none

def condition? : Part → Option Bool
  | .condition value => some (value != 0)
  | _ => none

end Part

/-- One part of a source text. Memory must have a cell, and a seed is one number. -/
inductive Piece : List (Located Token) → Part → Prop
  | block {taken : List (Located Token)} {root : Block Code} (container : Containers taken [.block root]) :
      Piece taken (.block root)
  | memory {taken : List (Located Token)} {literal : MemoryLiteral} (memory : Literals taken [literal])
      (populated : 0 < literal.snapshot.value) : Piece taken (.memory literal)
  | accumulator {token : Token} {value : Num} (location place : Location) (number : Number token value) :
      Piece [⟨.keyword "a:", location⟩, ⟨token, place⟩] (.accumulator value)
  | condition {token : Token} {value : Num} (location place : Location) (number : Number token value) :
      Piece [⟨.keyword "c:", location⟩, ⟨token, place⟩] (.condition value)

/-- The parts of a source text, one after the other. -/
inductive Parts : List (Located Token) → List Part → Prop
  | none : Parts [] []
  | more {taken rest : List (Located Token)} {part : Part} {parts : List Part} (piece : Piece taken part)
      (further : Parts rest parts) : Parts (taken ++ rest) (part :: parts)

/-- The tokens are parts in any order: one block, and at most one of each other kind. -/
def Describes (tokens : List (Located Token)) (draft : Draft) : Prop :=
  ∃ parts, Parts tokens parts ∧ parts.filterMap Part.block? = [draft.root] ∧
    parts.filterMap Part.tree? = draft.memory.toList ∧
      parts.filterMap Part.accumulator? = draft.accumulator.toList ∧
        parts.filterMap Part.condition? = draft.condition.toList

theorem mapError_eq_ok_iff {α ε δ : Type} {change : ε → δ} {outcome : Except ε α} {value : α} :
    outcome.mapError change = .ok value ↔ outcome = .ok value := by
  cases outcome <;> simp [Except.mapError]

theorem map_eq_ok_iff {α β ε : Type} {change : α → β} {outcome : Except ε α} {value : β} :
    outcome.map change = .ok value ↔ ∃ earlier, outcome = .ok earlier ∧ change earlier = value := by
  cases outcome <;> simp [Except.map]

theorem number_iff (numeral : Numeral) (value : Num) :
    Number (.numeral numeral) value ↔ numeral.value = .ok value := by
  constructor
  · intro number
    cases number with
    | integer read => exact mapError_eq_ok_iff.mpr read
    | truth value => rfl
    | char read => exact mapError_eq_ok_iff.mpr read
  · intro read
    unfold Numeral.value at read
    split at read
    · exact .integer (mapError_eq_ok_iff.mp read)
    · cases read
      exact .truth _
    · exact .char (mapError_eq_ok_iff.mp read)
    · cases read

theorem Number.numeral {token : Token} {value : Num} (number : Number token value) :
    ∃ numeral, token = .numeral numeral ∧ numeral.value = .ok value := by
  cases number with
  | integer read => exact ⟨_, rfl, mapError_eq_ok_iff.mpr read⟩
  | truth value => exact ⟨_, rfl, rfl⟩
  | char read => exact ⟨_, rfl, mapError_eq_ok_iff.mpr read⟩

theorem argument_iff (token : Token) (operand : Operand) :
    Argument token operand ↔ Reading.operand? token = some (.ok operand) := by
  constructor
  · intro argument
    cases argument with
    | register name => rfl
    | number number =>
        obtain ⟨numeral, rfl, read⟩ := number.numeral
        rw [Reading.operand?, read]
        rfl
  · intro read
    unfold Reading.operand? at read
    split at read
    · cases read
      exact .register _
    · simp only [Option.some.injEq, map_eq_ok_iff] at read
      obtain ⟨value, evaluated, rfl⟩ := read
      exact .number ((number_iff _ _).mpr evaluated)
    · cases read

theorem stringBytes_eq_ok_iff {raw : String} {closed : Bool} {bytes : List UInt8} :
    stringBytes raw closed = .ok bytes ↔ closed = true ∧ Literal.escapes raw = .ok bytes := by
  cases closed <;> simp [stringBytes, mapError_eq_ok_iff]

theorem Strings.length_le {tokens : List (Located Token)} {bytes : List UInt8} (strings : Strings tokens bytes) :
    bytes.length ≤ weigh tokens := by
  induction strings with
  | last location read =>
      have short := length_stringBytes (stringBytes_eq_ok_iff.mpr ⟨rfl, read⟩)
      simp only [weigh_cons, Token.weight]
      omega
  | more location joint read further induction =>
      have short := length_stringBytes (stringBytes_eq_ok_iff.mpr ⟨rfl, read⟩)
      simp only [weigh_cons, Token.weight, List.length_append]
      omega

theorem Strings.length_pos {tokens : List (Located Token)} {bytes : List UInt8} (strings : Strings tokens bytes) :
    0 < tokens.length := by
  cases strings <;> exact Nat.succ_pos _

theorem length_le_weigh (tokens : List (Located Token)) : tokens.length ≤ weigh tokens := by
  induction tokens with
  | nil => exact Nat.le_refl _
  | cons token rest induction =>
      have positive := token.value.weight_pos
      rw [List.length_cons, weigh_cons]
      omega

/-- Each literal takes a token at least. -/
theorem Literals.length_le {tokens : List (Located Token)} {literals : List MemoryLiteral}
    (written : Literals tokens literals) : literals.length ≤ tokens.length := by
  induction written with
  | none => exact Nat.le_refl _
  | number location number further induction =>
      simp only [List.length_cons]
      omega
  | strings strings further induction =>
      have positive : 0 < _ := strings.length_pos
      simp only [List.length_cons, List.length_append]
      omega
  | group opened closed inside further inner induction =>
      simp only [List.length_cons, List.length_append]
      omega

theorem Literals.eq_nil {tokens : List (Located Token)} (written : Literals tokens []) : tokens = [] := by
  cases written
  rfl

theorem Literals.append {first second : List (Located Token)} {literals others : List MemoryLiteral}
    (written : Literals first literals) (further : Literals second others) :
    Literals (first ++ second) (literals ++ others) := by
  induction written with
  | none => exact further
  | number location number _ induction => exact .number location number induction
  | strings strings _ induction =>
      rw [List.append_assoc]
      exact .strings strings induction
  | group opened closed inside _ _ induction =>
      rw [List.cons_append, List.append_assoc, List.cons_append]
      exact .group opened closed inside induction

/-- Only a number begins with a numeral. -/
theorem Literals.isNumber_eq {token : Located Token} {rest : List (Located Token)} {literal : MemoryLiteral}
    (written : Literals (token :: rest) [literal]) : literal.isNumber = token.value.isNumeral := by
  generalize whole : token :: rest = tokens at written
  cases written with
  | number location number _ =>
      obtain ⟨numeral, rfl, _⟩ := number.numeral
      cases whole
      rfl
  | strings strings _ =>
      cases strings <;> cases whole <;> rfl
  | group opened closed _ _ =>
      cases whole
      rfl

/-- Literals that fit into memory stand for trees of the shapes that are written. -/
theorem Literals.faithful {tokens : List (Located Token)} {literals : List MemoryLiteral}
    (written : Literals tokens literals) (light : weigh tokens < 2 ^ 63) :
    ∀ literal ∈ literals, literal.Faithful := by
  induction written with
  | none => simp
  | number location number further induction =>
      rw [weigh_cons] at light
      rw [List.forall_mem_cons]
      exact ⟨MemoryLiteral.faithful_number _, induction (by omega)⟩
  | strings strings further induction =>
      have short := strings.length_le
      rw [weigh_append] at light
      rw [List.forall_mem_cons]
      exact ⟨MemoryLiteral.faithful_bytes (by omega), induction (by omega)⟩
  | group opened closed inside further inner induction =>
      have few := inside.length_le.trans (length_le_weigh _)
      simp only [weigh_cons, weigh_append] at light
      rw [List.forall_mem_cons]
      exact ⟨MemoryLiteral.faithful_group (inner (by omega)) (by omega), induction (by omega)⟩

/-- There is room for every literal that is written anywhere in the tokens. -/
def Roomy (tokens : List (Located Token)) : Prop :=
  ∀ taken literal, taken <:+: tokens → Literals taken [literal] → literal.Faithful

theorem Roomy.of_infix {tokens taken : List (Located Token)} (roomy : Roomy tokens) (within : taken <:+: tokens) :
    Roomy taken :=
  fun _ literal inside written => roomy _ literal (inside.trans within) written

theorem Roomy.left {first second : List (Located Token)} (roomy : Roomy (first ++ second)) : Roomy first :=
  roomy.of_infix (List.prefix_append first second).isInfix

theorem Roomy.right {first second : List (Located Token)} (roomy : Roomy (first ++ second)) : Roomy second :=
  roomy.of_infix (List.suffix_append first second).isInfix

theorem Roomy.tail {token : Located Token} {rest : List (Located Token)} (roomy : Roomy (token :: rest)) :
    Roomy rest :=
  roomy.of_infix (List.suffix_cons token rest).isInfix

theorem roomy_of_weigh {tokens : List (Located Token)} (light : weigh tokens < 2 ^ 63) : Roomy tokens := by
  rintro taken literal ⟨before, after, split⟩ written
  rw [← split, weigh_append, weigh_append] at light
  exact written.faithful (by omega) literal (List.mem_singleton_self literal)

theorem Single.length_pos {tokens : List (Located Token)} {instruction : Instruction}
    (single : Single tokens instruction) : 0 < tokens.length := by
  cases single <;> exact Nat.succ_pos _

/-- Each container takes a token at least. -/
theorem Containers.length_le {tokens : List (Located Token)} {codes : List Code}
    (written : Containers tokens codes) : codes.length ≤ tokens.length := by
  induction written with
  | none => exact Nat.le_refl _
  | instruction single further induction =>
      have positive := single.length_pos
      simp only [List.length_cons, List.length_append]
      omega
  | block opened closed terminator inside further inner induction =>
      simp only [List.length_cons, List.length_append]
      omega

theorem Containers.eq_nil {tokens : List (Located Token)} (written : Containers tokens []) : tokens = [] := by
  cases written
  rfl

theorem Containers.opens {tokens : List (Located Token)} {root : Block Code}
    (written : Containers tokens [.block root]) : ∃ opened others, tokens = ⟨.openBlock, opened⟩ :: others := by
  cases written with
  | block opened closed _ _ _ => exact ⟨opened, _, rfl⟩

theorem Containers.append {first second : List (Located Token)} {codes others : List Code}
    (written : Containers first codes) (further : Containers second others) :
    Containers (first ++ second) (codes ++ others) := by
  induction written with
  | none => exact further
  | instruction single _ induction =>
      rw [List.append_assoc]
      exact .instruction single induction
  | block opened closed terminator inside _ _ induction =>
      simp only [List.cons_append, List.append_assoc]
      exact .block opened closed terminator inside induction

theorem Piece.length_pos {tokens : List (Located Token)} {part : Part} (piece : Piece tokens part) :
    0 < tokens.length := by
  cases piece with
  | block container => exact container.length_le
  | memory memory _ => exact memory.length_le
  | accumulator _ _ _ => exact Nat.succ_pos _
  | condition _ _ _ => exact Nat.succ_pos _

end Grammar

end RingTape
