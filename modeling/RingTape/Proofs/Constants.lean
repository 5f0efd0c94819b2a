import RingTape.Proofs.Parsing

/-!
No number in a source text is negative: integers have no sign, truth values and characters are small, and a
ring has as many cells as are written. So the constants of the code, the literals it copies, the memory and the
seed of the accumulator begin at 0.
-/

namespace RingTape

set_option autoImplicit false

/-- No value in the tree is negative. -/
inductive Content.Natural : Content → Prop where
  | node {value : Num} {children : List Content} (own : 0 ≤ value.toInt)
      (below : ∀ child ∈ children, Natural child) : Natural (.node value children)

namespace Content

theorem natural_zero : zero.Natural :=
  .node (by decide) (by simp)

theorem natural_replicate_zero (count : Nat) : ∀ child ∈ List.replicate count zero, child.Natural := by
  intro child among
  rw [List.eq_of_mem_replicate among]
  exact natural_zero

theorem natural_blank {value : Num} (own : 0 ≤ value.toInt) : (blank value).Natural :=
  .node own (natural_replicate_zero _)

end Content

namespace Snapshot

theorem contents_eq (snapshots : List Snapshot) : contents snapshots = snapshots.map content := by
  induction snapshots with
  | nil => rfl
  | cons snapshot rest induction => rw [contents, induction, List.map_cons]

/-- The children that are not materialised are 0, so only those that are can be negative. -/
theorem natural_content {snapshot : Snapshot} (own : 0 ≤ snapshot.value.toInt)
    (ahead : ∀ child ∈ snapshot.forward, child.content.Natural)
    (behind : ∀ child ∈ snapshot.backward, child.content.Natural) : snapshot.content.Natural := by
  rcases snapshot with ⟨value, materialized, forward, backward⟩
  rw [content, contents_eq, contents_eq]
  apply Content.Natural.node own
  intro child among
  rw [List.mem_append, List.mem_append, List.mem_reverse, List.mem_map, List.mem_map] at among
  rcases among with (⟨shape, there, rfl⟩ | blank) | ⟨shape, there, rfl⟩
  · exact ahead shape there
  · exact Content.natural_replicate_zero _ child blank
  · exact behind shape there

theorem natural_leaf {value : Num} (own : 0 ≤ value.toInt) : (leaf value).content.Natural :=
  natural_content own (by simp [leaf]) (by simp [leaf])

theorem natural_ringOfShapes {shapes : List Snapshot} (short : shapes.length < 2 ^ 63)
    (each : ∀ shape ∈ shapes, shape.content.Natural) : (ringOfShapes shapes).content.Natural := by
  have own : 0 ≤ (Int64.ofNat shapes.length).toInt := by
    rw [Int64.toInt_ofNat_of_lt short]
    omega
  exact natural_content own each (by simp [ringOfShapes])

end Snapshot

theorem Num.ofByte_natural (byte : UInt8) : 0 ≤ (Num.ofByte byte).toInt := by
  have small := byte.toNat_lt
  rw [ofByte, Int64.toInt_ofNat_of_lt (by omega)]
  omega

theorem Snapshot.natural_bytes {bytes : List UInt8} (short : bytes.length < 2 ^ 63) :
    (ringOf (bytes.map Num.ofByte)).content.Natural := by
  have ring : ringOf (bytes.map Num.ofByte) = ringOfShapes ((bytes.map Num.ofByte).map leaf) := by
    simp [ringOf, ringOfShapes]
  rw [ring]
  apply natural_ringOfShapes
  · simpa using short
  · intro shape among
    rw [List.map_map, List.mem_map] at among
    obtain ⟨byte, _, rfl⟩ := among
    exact natural_leaf (Num.ofByte_natural byte)

/-- No constant of the operation is negative, nor is any value in its literal. -/
structure Op.Natural (op : Op) : Prop where
  constant : ∀ value, op.operand? = some (.constant value) → 0 ≤ value.toInt
  literal : ∀ tree, op = .setMemory tree → tree.snapshot.content.Natural

namespace Grammar

theorem Number.natural {token : Token} {value : Num} (number : Number token value) : 0 ≤ value.toInt := by
  cases number with
  | integer read =>
      unfold Literal.integer at read
      dsimp only at read
      split at read
      case isFalse => cases read
      case isTrue =>
        split at read
        case h_2 => cases read
        case h_1 found =>
          cases read
          unfold Num.ofInt? Num.least Num.greatest at found
          split at found
          case isFalse => cases found
          case isTrue fits =>
            cases found
            rw [Int64.toInt_ofInt_of_le (by omega) (by omega)]
            omega
  | truth value => cases value <;> decide
  | char read =>
      unfold Literal.char at read
      split at read <;> cases read
      exact Num.ofByte_natural _

theorem Argument.natural {token : Token} {value : Num} (argument : Argument token (.constant value)) :
    0 ≤ value.toInt := by
  cases argument with
  | number number => exact number.natural

theorem Literals.natural {tokens : List (Located Token)} {literals : List MemoryLiteral}
    (written : Literals tokens literals) (light : weigh tokens < 2 ^ 63) :
    ∀ literal ∈ literals, literal.snapshot.content.Natural := by
  induction written with
  | none => simp
  | number location number further induction =>
      rw [weigh_cons] at light
      rw [List.forall_mem_cons, MemoryLiteral.snapshot]
      exact ⟨Snapshot.natural_leaf number.natural, induction (by omega)⟩
  | strings strings further induction =>
      have short := strings.length_le
      rw [weigh_append] at light
      rw [List.forall_mem_cons, MemoryLiteral.snapshot]
      exact ⟨Snapshot.natural_bytes (by omega), induction (by omega)⟩
  | group opened closed inside further inner induction =>
      have few := inside.length_le.trans (length_le_weigh _)
      simp only [weigh_cons, weigh_append] at light
      rw [List.forall_mem_cons, MemoryLiteral.snapshot, MemoryLiteral.snapshots_eq]
      constructor
      · apply Snapshot.natural_ringOfShapes
        · rw [List.length_map]
          omega
        · intro shape among
          obtain ⟨literal, member, rfl⟩ := List.mem_map.mp among
          exact inner (by omega) literal member
      · exact induction (by omega)

/-- The tree of a literal has the shape that is written, so it has no negative value either. -/
theorem Literals.natural_tree {tokens : List (Located Token)} {literal : MemoryLiteral}
    (written : Literals tokens [literal]) (light : weigh tokens < 2 ^ 63) :
    literal.tree.snapshot.content.Natural := by
  have among := List.mem_singleton_self literal
  rw [(written.faithful light literal among).shape]
  exact written.natural light literal among

theorem natural_nullary {word : String} {op : Op} (known : Keyword.nullary? word = some op) : op.Natural := by
  unfold Keyword.nullary? at known
  split at known <;> cases known <;> exact ⟨by simp [Op.operand?], by simp⟩

theorem natural_unary {word : String} {operand : Operand} {op : Op} (known : Keyword.unary? word operand = some op)
    (own : ∀ value, operand = .constant value → 0 ≤ value.toInt) : op.Natural := by
  unfold Keyword.unary? at known
  split at known <;> cases known <;> exact ⟨by simpa [Op.operand?] using own, by simp⟩

theorem Single.natural {tokens : List (Located Token)} {instruction : Instruction} (single : Single tokens instruction)
    (light : weigh tokens < 2 ^ 63) : instruction.op.Natural := by
  cases single with
  | nullary location known terminator => exact natural_nullary known
  | unary location place argument known terminator =>
      apply natural_unary known
      intro value same
      subst same
      exact argument.natural
  | assign location place argument terminator =>
      constructor
      · intro value same
        cases same
        exact argument.natural
      · simp
  | fill location memory compound terminator =>
      rw [weigh_cons, weigh_append] at light
      constructor
      · simp [Op.operand?]
      · intro tree same
        cases same
        exact memory.natural_tree (by omega)

theorem Containers.natural {tokens : List (Located Token)} {codes : List Code} (written : Containers tokens codes)
    (light : weigh tokens < 2 ^ 63) :
    ∀ code ∈ codes, code.Throughout (fun single => single.op.Natural) fun _ => True := by
  induction written with
  | none => simp
  | instruction single further induction =>
      rw [weigh_append] at light
      rw [List.forall_mem_cons]
      exact ⟨.instruction _ (single.natural (by omega)), induction (by omega)⟩
  | block opened closed terminator inside further inner induction =>
      simp only [weigh_cons, weigh_append] at light
      rw [List.forall_mem_cons]
      exact ⟨.block _ trivial (inner (by omega)), induction (by omega)⟩

/-- What a part of a source text holds is not negative. -/
def Part.Natural : Part → Prop
  | .block root => (Code.block root).Throughout (fun single => single.op.Natural) fun _ => True
  | .memory literal => literal.tree.snapshot.content.Natural
  | .accumulator value => 0 ≤ value.toInt
  | .condition _ => True

theorem Piece.natural {tokens : List (Located Token)} {part : Part} (piece : Piece tokens part)
    (light : weigh tokens < 2 ^ 63) : part.Natural := by
  cases piece with
  | block container => exact container.natural light _ (List.mem_singleton_self _)
  | memory memory populated => exact memory.natural_tree light
  | accumulator location place number => exact number.natural
  | condition location place number => trivial

theorem Parts.natural {tokens : List (Located Token)} {parts : List Part} (written : Parts tokens parts)
    (light : weigh tokens < 2 ^ 63) : ∀ part ∈ parts, part.Natural := by
  induction written with
  | none => simp
  | more piece further induction =>
      rw [weigh_append] at light
      rw [List.forall_mem_cons]
      exact ⟨piece.natural (by omega), induction (by omega)⟩

end Grammar

theorem CellTree.natural_initial : initial.snapshot.content.Natural := by
  have ring : initial.snapshot = Snapshot.ringOfShapes [Snapshot.leaf 0] := rfl
  rw [ring]
  apply Snapshot.natural_ringOfShapes (by decide)
  intro shape among
  rw [List.mem_singleton.mp among]
  exact Snapshot.natural_leaf (by decide)

/-- No number that a program begins with is negative. -/
structure Draft.Natural (draft : Draft) : Prop where
  root : (Code.block draft.root).Throughout (fun single => single.op.Natural) fun _ => True
  memory : (draft.memory.getD CellTree.initial).snapshot.content.Natural
  accumulator : 0 ≤ (draft.accumulator.getD 0).toInt

theorem Draft.natural_of_read {source : String} {draft : Draft} (short : source.utf8ByteSize < 2 ^ 63)
    (read : Draft.read source = .ok draft) : draft.Natural := by
  have light := Nat.lt_of_le_of_lt (weigh_scan source) short
  obtain ⟨parts, written, root, memory, accumulator, _⟩ := describes_of_read (Grammar.roomy_of_weigh light) read
  have each := written.natural light
  constructor
  · obtain ⟨part, among, same⟩ := List.mem_filterMap.mp (root ▸ List.mem_singleton_self draft.root)
    have natural := each part among
    cases part <;> cases same
    exact natural
  · cases found : draft.memory with
    | none => exact CellTree.natural_initial
    | some tree =>
        obtain ⟨part, among, same⟩ := List.mem_filterMap.mp (memory ▸ Option.mem_toList.mpr found)
        have natural := each part among
        cases part <;> cases same
        exact natural
  · cases found : draft.accumulator with
    | none => decide
    | some value =>
        obtain ⟨part, among, same⟩ := List.mem_filterMap.mp (accumulator ▸ Option.mem_toList.mpr found)
        have natural := each part among
        cases part <;> cases same
        exact natural

end RingTape
