import RingTape.Proofs.Frames
import RingTape.Proofs.Safety
import RingTape.Proofs.Shape

/-!
The memory that a source text describes. Every literal of a text that fits into memory is one sound tree,
wherever it stands; the bound is needed because the number of children is the value of their parent.
-/

namespace RingTape

set_option autoImplicit false

theorem Store.trees_replace_top {store : Store} {top : Cell} {rest : List Cell} (first : store.trees = top :: rest)
    (distinct : store.ids.Nodup) (value : Num) (ring : Ring Cell) (pool : Pool) :
    (store.replace top.id value ring pool).trees = top.withRing value ring :: rest := by
  rw [Store.ids, first, Cell.forestIds_cons] at distinct
  have itself := top.id_mem_ids
  simp only [Store.replace, Cell.forestReplace, Cell.forestAmend_eq, first, List.map_cons, Cell.amend_self]
  congr 1
  refine (List.map_congr_left fun tree among => ?_).trans (List.map_id' rest)
  apply Cell.amend_of_not_mem
  intro below
  have later := (Cell.mem_forestIds_iff_mem_ids rest top.id).mpr ⟨tree, among, below⟩
  exact (List.nodup_append.mp distinct).2.2 _ itself _ later rfl

/-- Of two trees, the one is not in the other. -/
theorem Store.not_mem_of_pair {store : Store} (sound : store.Sound) {top branch : Cell}
    (pair : store.trees = [branch, top]) : top.id ∉ branch.ids := by
  intro below
  have spread := sound.distinct
  rw [Store.ids, pair, Cell.forestIds_cons, Cell.forestIds_cons] at spread
  exact (List.nodup_append.mp spread).2.2 _ below _ (List.mem_append_left _ top.id_mem_ids) rfl

namespace CellTree

/-- A store that holds one tree, whose top counts so many children. -/
structure Complete (tree : CellTree) (count : Nat) : Prop where
  sound : tree.store.Sound
  top : ∃ top, tree.store.trees = [top] ∧ top.id = tree.root ∧ top.value.toInt = count

theorem Complete.rooted {tree : CellTree} {count : Nat} (complete : tree.Complete count) :
    tree.store.Rooted tree.root := by
  obtain ⟨top, alone, same, _⟩ := complete.top
  exact ⟨complete.sound, by simp [alone, same]⟩

theorem intact_of_rooted {tree : CellTree} (rooted : tree.store.Rooted tree.root) : tree.Intact :=
  ⟨(Store.wellFormed_iff_sound _).mpr rooted.sound, (Store.contains_iff _).mpr rooted.root_mem⟩

theorem rooted_leaf (value : Num) : (leaf value).store.Rooted (leaf value).root :=
  ⟨Store.sound_plant Store.sound_empty value, rfl⟩

theorem rooted_ofBytes {bytes : List UInt8} (short : bytes.length < 2 ^ 63) :
    (ofBytes bytes).store.Rooted (ofBytes bytes).root :=
  Store.rooted_plantBytes bytes short

/-- A tree put into a complete ring comes last in it. -/
theorem complete_graft {store : Store} (sound : store.Sound) {top branch : Cell}
    (pair : store.trees = [branch, top]) {shapes : List Snapshot} (shape : top.snapshot = Snapshot.ringOfShapes shapes)
    (room : shapes.length + 1 < 2 ^ 63) :
    ∃ reached, Store.insertChild top.id branch.id store = .ok () reached ∧
      Complete ⟨reached, top.id⟩ (shapes.length + 1) ∧
        (⟨reached, top.id⟩ : CellTree).snapshot = Snapshot.ringOfShapes (shapes ++ [branch.snapshot]) := by
  have isTop : branch ∈ store.trees := by simp [pair]
  have inside : top ∈ store.nodes := Store.tree_mem_nodes (by simp [pair])
  have apart := Store.not_mem_of_pair sound pair
  have counted := Cell.toInt_value_of_shapes shape (by omega)
  have sized := Cell.size_of_shapes shape (by omega)
  have roomy : top.value.toInt < Num.greatest := by
    unfold Num.greatest
    omega
  have increased := Num.toInt_add_one roomy
  obtain ⟨wide, between, ran, grown, entered⟩ :=
    Store.run_insertChild sound inside isTop apart (by omega)
  -- The ring was complete, so it did not grow on the way.
  have same : wide = top.ring := grown.eq_of_full (sound.rings top inside) sized
  subst same
  have whole : top.withRing top.value top.ring = top := Cell.mk_fields top
  have grafted : Store.Grafted (top.withRing top.value top.ring) branch _ :=
    Store.grafted_graftedRing grown.fits (by rw [whole]; omega) (by rw [whole]; exact roomy) entered
  have last := grafted.ring_of_full grown.fits (by rw [whole]; exact sized)
    (by rw [whole]; unfold Num.places; omega)
  have different : top.id ≠ branch.id := fun same =>
    apart ((Cell.mem_ids _ _).mpr ⟨branch, Cell.mem_nodes_self branch, same.symm⟩)
  have alone : (store.uprooted branch.id).trees = [top] := by
    simp [Store.uprooted, Cell.without, pair, different]
  have trees := Store.trees_replace_top alone (Cell.ForestSound.uproot sound isTop).distinct (top.value + 1)
    (Store.graftedRing (top.withRing top.value top.ring) branch) between
  refine ⟨_, ran, ⟨sound.graft inside isTop apart grown grafted, _, trees, rfl, ?_⟩, ?_⟩
  · rw [Cell.value_withRing, increased, counted]
    rfl
  · refine (snapshot_of_top trees rfl).trans ?_
    rw [last, whole]
    exact Cell.snapshot_append_shape shape branch room

/-- A copy of the child stands beside the trees of the store, and it remains to graft it into the root. -/
structure Prepared (tree child : CellTree) (beside : Store) (copy : Cell) : Prop where
  sound : beside.Sound
  trees : beside.trees = copy :: tree.store.trees
  shape : copy.snapshot = child.snapshot
  grafts : ∀ reached, Store.insertChild tree.root copy.id beside = .ok () reached →
    push child tree = .ok () ⟨reached, tree.root⟩
  refuses : ∀ fault reached, Store.insertChild tree.root copy.id beside = .error fault reached →
    push child tree = .error fault ⟨reached, tree.root⟩

/-- What is put in is a copy, so all that matters of a child is that it is intact, and its shape. -/
theorem exists_prepared {tree child : CellTree} (sound : tree.store.Sound) (intact : child.Intact) :
    ∃ beside copy, Prepared tree child beside copy := by
  obtain ⟨image, imageInside, sameImage⟩ := Store.exists_node_of_mem_ids intact.root_mem
  have found : child.store.cell? child.root = some image := by
    rw [← sameImage, Store.cell?_of_mem intact.sound.distinct imageInside]
  let fresh := tree.store.pool.take.1
  let planted := (tree.store.plant 0).2
  have plantedSound : planted.Sound := Store.sound_plant sound 0
  have plantedTrees : planted.trees = Cell.leaf fresh 0 :: tree.store.trees := rfl
  have seedling : Cell.leaf fresh 0 ∈ planted.nodes :=
    Store.tree_mem_nodes (by simp [plantedTrees])
  have filled := Store.run_overwrite plantedSound seedling image
  have allocated : Store.alloc 0 tree.store = .ok fresh planted := rfl
  have copied : Store.copyFrom fresh child.store child.root planted = Store.overwrite fresh image planted := by
    rw [Store.copyFrom, found]
  refine ⟨_, _, ?_, Store.trees_replace_top plantedTrees plantedSound.distinct image.value
    (planted.copyOver (Cell.leaf fresh 0) image).1.ring (planted.copyOver (Cell.leaf fresh 0) image).2, ?_, ?_, ?_⟩
  · exact plantedSound.overwrite seedling fun node below =>
      intact.sound.rings node (Cell.forestNodes_subset _ _ imageInside _ below)
  · rw [Store.snapshot_copyOver planted (Cell.leaf fresh 0) image, snapshot, cell?, found]
  · intro reached grafted
    simp only [push]
    rw [run_bind_ok allocated, run_bind_ok (copied.trans filled)]
    have entered : Store.insertChild tree.root fresh _ = _ := grafted
    rw [entered]
  · intro fault reached refused
    simp only [push]
    rw [run_bind_ok allocated, run_bind_ok (copied.trans filled)]
    have failed : Store.insertChild tree.root fresh _ = _ := refused
    rw [failed]

theorem complete_push {tree child : CellTree} {shapes : List Snapshot} (complete : tree.Complete shapes.length)
    (shape : tree.snapshot = Snapshot.ringOfShapes shapes) (intact : child.Intact)
    (room : shapes.length + 1 < 2 ^ 63) :
    ∃ reached, push child tree = .ok () reached ∧ reached.Complete (shapes.length + 1) ∧
      reached.snapshot = Snapshot.ringOfShapes (shapes ++ [child.snapshot]) := by
  obtain ⟨sound, top, alone, same, _⟩ := complete
  obtain ⟨beside, copy, prepared⟩ := exists_prepared sound intact
  rw [snapshot_of_top alone same] at shape
  obtain ⟨reached, grafted, result, grown⟩ := complete_graft prepared.sound (alone ▸ prepared.trees) shape room
  rw [same] at grafted result grown
  rw [prepared.shape] at grown
  exact ⟨⟨reached, tree.root⟩, prepared.grafts reached grafted, result, grown⟩

theorem complete_pushAll {children : List CellTree} (intact : ∀ child ∈ children, child.Intact) {tree : CellTree}
    {shapes : List Snapshot} (complete : tree.Complete shapes.length)
    (shape : tree.snapshot = Snapshot.ringOfShapes shapes) (room : shapes.length + children.length < 2 ^ 63) :
    ∃ reached, pushAll children tree = .ok () reached ∧ reached.Complete (shapes.length + children.length) ∧
      reached.snapshot = Snapshot.ringOfShapes (shapes ++ children.map snapshot) := by
  induction children generalizing tree shapes with
  | nil => exact ⟨tree, rfl, complete, by simpa using shape⟩
  | cons child rest induction =>
      rw [List.length_cons] at room
      obtain ⟨between, pushed, begun, shown⟩ :=
        complete_push complete shape (intact child List.mem_cons_self) (by omega)
      have longer : (shapes ++ [child.snapshot]).length = shapes.length + 1 := by simp
      rw [← longer] at begun
      obtain ⟨reached, ran, all, final⟩ := induction
        (fun other among => intact other (List.mem_cons_of_mem _ among)) begun shown (by omega)
      refine ⟨reached, ?_, ?_, ?_⟩
      · show EStateM.bind (push child) (fun _ => pushAll rest) tree = _
        rw [EStateM.bind, pushed]
        exact ran
      · rw [List.length_cons, show shapes.length + (rest.length + 1) = shapes.length + 1 + rest.length by omega,
          ← longer]
        exact all
      · rw [final, List.map_cons, List.append_assoc, List.singleton_append]

/-- Grouping intact trees never fails and gives one tree, which shows their shapes in order. -/
theorem rooted_ofChildren {children : List CellTree} (intact : ∀ child ∈ children, child.Intact)
    (short : children.length < 2 ^ 63) :
    ∃ tree, ofChildren children = .ok tree ∧ tree.store.Rooted tree.root ∧
      tree.snapshot = Snapshot.ringOfShapes (children.map snapshot) := by
  have bare : (leaf 0).Complete ([] : List Snapshot).length := ⟨(rooted_leaf 0).sound, _, rfl, rfl, rfl⟩
  obtain ⟨tree, ran, complete, shown⟩ := complete_pushAll intact bare (snapshot_leaf 0) (by simpa using short)
  refine ⟨tree, ?_, complete.rooted, shown⟩
  rw [ofChildren, ran]

end CellTree

/-- How many bytes of a source text the token takes at least: one, and the body if it is a string. -/
def Token.weight : Token → Nat
  | .string raw _ => 1 + (Text.Utf8.encode raw.toList).length
  | _ => 1

def weigh (tokens : List (Located Token)) : Nat :=
  (tokens.map fun token => token.value.weight).sum

@[simp] theorem weigh_nil : weigh [] = 0 := rfl

@[simp] theorem weigh_cons (token : Located Token) (rest : List (Located Token)) :
    weigh (token :: rest) = token.value.weight + weigh rest := rfl

@[simp] theorem weigh_append (first second : List (Located Token)) :
    weigh (first ++ second) = weigh first + weigh second := by
  simp [weigh]

theorem Token.weight_pos (token : Token) : 0 < token.weight := by
  cases token <;> simp only [weight] <;> omega

namespace Scanner

/-- What the token in the making will weigh. -/
def Mode.weight : Mode → Nat
  | .gap => 0
  | .comment => 0
  | .word _ _ => 1
  | .quoted _ reversed _ _ => 1 + (Text.Utf8.encode reversed.reverse).length

def weight (scanner : Scanner) : Nat :=
  weigh scanner.tokens.toList + scanner.mode.weight

theorem length_encode_pos (char : Char) : 0 < (Text.Utf8.encode [char]).length := by
  simp [Text.Utf8.encode, String.length_utf8EncodeChar, Char.utf8Size_pos]

theorem length_encode_append (first second : List Char) :
    (Text.Utf8.encode (first ++ second)).length =
      (Text.Utf8.encode first).length + (Text.Utf8.encode second).length := by
  simp [Text.Utf8.encode]

theorem weight_ofChar? {char : Char} {token : Token} (found : Token.ofChar? char = some token) :
    token.weight = 1 := by
  unfold Token.ofChar? at found
  split at found <;> cases found <;> rfl

theorem weight_ofWord (word : List Char) : (Token.ofWord word).weight = 1 := by
  unfold Token.ofWord
  split <;> try rfl
  split <;> rfl

theorem weight_token (quote : Quote) (raw : List Char) (closed : Bool) :
    (quote.token raw closed).weight ≤ 1 + (Text.Utf8.encode raw).length := by
  cases quote with
  | single => exact Nat.le_add_right _ _
  | double => simp [Quote.token, Token.weight]

theorem weight_begin (tokens : Array (Located Token)) (here : Location) (char : Char) :
    (begin tokens here char).weight ≤ weigh tokens.toList + 1 := by
  unfold begin enter
  cases found : Token.ofChar? char with
  | some token => simp [weight, Mode.weight, weight_ofChar? found]
  | none =>
      cases Quote.ofChar? char with
      | some quote => simp [weight, Mode.weight, Text.Utf8.encode]
      | none =>
          dsimp only
          split_ifs <;> simp [weight, Mode.weight]

/-- No character adds more to the tokens than the bytes it takes. -/
theorem weight_feed (scanner : Scanner) (char : Char) :
    (scanner.feed char).weight ≤ scanner.weight + (Text.Utf8.encode [char]).length := by
  have positive := length_encode_pos char
  unfold feed
  cases mode : scanner.mode with
  | gap =>
      have begun := weight_begin scanner.tokens scanner.here char
      simp only [weight, mode, Mode.weight] at begun ⊢
      omega
  | comment =>
      dsimp only
      split_ifs <;> simp [weight, mode, Mode.weight]
  | word reversed start =>
      -- A word is one token from its first character on, so the characters after that add nothing.
      dsimp only
      split_ifs
      · have begun := weight_begin (scanner.tokens.push ⟨Token.ofWord reversed.reverse, start⟩) scanner.here char
        have finished := weight_ofWord reversed.reverse
        simp only [Array.toList_push, weigh_append, weigh_cons, weigh_nil, finished] at begun
        simp only [weight, mode, Mode.weight] at begun ⊢
        omega
      · simp [weight, mode, Mode.weight]
  | quoted quote reversed escaped start =>
      have longer := length_encode_append reversed.reverse [char]
      have whole := weight_token quote reversed.reverse true
      dsimp only
      split_ifs <;> simp only [weight, mode, Mode.weight, List.reverse_cons, Array.toList_push, weigh_append,
        weigh_cons, weigh_nil] <;> omega

theorem weight_foldl (text : List Char) (scanner : Scanner) :
    (text.foldl feed scanner).weight ≤ scanner.weight + (Text.Utf8.encode text).length := by
  induction text generalizing scanner with
  | nil => exact Nat.le_add_right _ _
  | cons char rest induction =>
      have one := weight_feed scanner char
      have further := induction (scanner.feed char)
      have whole := length_encode_append [char] rest
      rw [List.singleton_append] at whole
      rw [List.foldl_cons]
      omega

theorem weigh_finish (scanner : Scanner) : weigh scanner.finish ≤ scanner.weight := by
  unfold finish weight
  cases mode : scanner.mode with
  | gap => simp [Mode.weight]
  | comment => simp [Mode.weight]
  | word reversed start => simp [Mode.weight, weight_ofWord]
  | quoted quote reversed escaped start => simpa [Mode.weight] using weight_token quote reversed.reverse false

end Scanner

theorem length_encode_toList (source : String) :
    (Text.Utf8.encode source.toList).length = source.utf8ByteSize := by
  rw [String.utf8ByteSize, ← String.utf8Encode_toList, List.utf8Encode, List.size_toByteArray]
  rfl

theorem weigh_scan (source : String) : weigh (TokenList.scan source).tokens ≤ source.utf8ByteSize := by
  have finished := Scanner.weigh_finish (source.toList.foldl Scanner.feed Scanner.initial)
  have scanned := Scanner.weight_foldl source.toList Scanner.initial
  rw [length_encode_toList] at scanned
  have start : Scanner.initial.weight = 0 := rfl
  show weigh (source.toList.foldl Scanner.feed Scanner.initial).finish ≤ _
  omega

/-- An escape stands for one byte and takes at least two. -/
theorem length_decodeBytes {raw bytes : List UInt8} (decoded : Literal.decodeBytes raw = .ok bytes) :
    bytes.length ≤ raw.length := by
  have onward {rest : List UInt8} {byte : UInt8} (further : ∀ {bytes}, Literal.decodeBytes rest = .ok bytes →
      bytes.length ≤ rest.length) {bytes : List UInt8}
      (decoded : (Literal.decodeBytes rest).map (byte :: ·) = .ok bytes) : bytes.length ≤ rest.length + 1 := by
    cases outcome : Literal.decodeBytes rest with
    | error problem => simp [outcome, Except.map] at decoded
    | ok more =>
        rw [outcome] at decoded
        cases decoded
        exact Nat.succ_le_succ (further outcome)
  fun_induction Literal.decodeBytes raw generalizing bytes with
  | case1 =>
      cases decoded
      exact Nat.le_refl _
  | case2 letter rest _ induction => exact onward induction decoded
  | case4 letter _ high low rest upper lower _ _ induction =>
      have shorter := onward induction decoded
      simp only [List.length_cons]
      omega
  | case7 letter _ next rest _ byte _ induction =>
      have shorter := onward induction decoded
      simp only [List.length_cons]
      omega
  | _ => cases decoded

theorem length_stringBytes {raw : String} {closed : Bool} {bytes : List UInt8}
    (read : stringBytes raw closed = .ok bytes) : bytes.length ≤ (Text.Utf8.encode raw.toList).length := by
  unfold stringBytes Literal.escapes at read
  split at read
  · cases decoded : Literal.decodeBytes (Text.Utf8.encode raw.toList) with
    | error problem => simp [decoded, Except.mapError] at read
    | ok result =>
        rw [decoded] at read
        cases read
        exact length_decodeBytes decoded
  · cases read

theorem weigh_le_of_suffix {rest tokens : List (Located Token)} (ends : rest <:+ tokens) :
    weigh rest ≤ weigh tokens := by
  obtain ⟨taken, rfl⟩ := ends
  rw [weigh_append]
  exact Nat.le_add_left _ _

theorem weigh_lt_of_suffix {rest tokens : List (Located Token)} {bound : Nat} (light : weigh tokens < bound)
    (ends : rest <:+ tokens) : weigh rest < bound :=
  Nat.lt_of_le_of_lt (weigh_le_of_suffix ends) light

/-- All memory literals in the code are intact. -/
def Code.Intact (code : Code) : Prop :=
  code.Throughout (fun instruction => instruction.op.Intact) fun _ => True

namespace Reading

/-- What is left is an end piece of the tokens, and what was read is as described. -/
structure Within {α : Type} (reading : Reading α) (tokens : List (Located Token)) (holds : α → Prop) : Prop where
  suffix : reading.rest <:+ tokens
  usable : ∀ value, reading.value = some value → holds value

section Rules

variable {α β : Type} {tokens further : List (Located Token)}

theorem Within.later {reading : Reading α} {holds : α → Prop} (within : reading.Within further holds)
    (ends : further <:+ tokens) : reading.Within tokens holds :=
  ⟨within.suffix.trans ends, within.usable⟩

theorem Within.imp {reading : Reading α} {holds weaker : α → Prop} (within : reading.Within tokens holds)
    (implies : ∀ value, holds value → weaker value) : reading.Within tokens weaker :=
  ⟨within.suffix, fun value read => implies value (within.usable value read)⟩

theorem within_none {reading : Reading α} {holds : α → Prop} (ends : reading.rest <:+ tokens)
    (none : reading.value = none) : reading.Within tokens holds :=
  ⟨ends, fun value read => by rw [none] at read; cases read⟩

theorem within_ofExcept {holds : α → Prop} {outcome : Except Problem α} (location : Location)
    (ends : further <:+ tokens) (usable : ∀ value, outcome = .ok value → holds value) :
    (ofExcept location further outcome).Within tokens holds := by
  cases outcome with
  | ok value => exact ⟨ends, fun _ read => by cases read; exact usable value rfl⟩
  | error problem => exact within_none ends rfl

theorem Within.map {reading : Reading α} {holds : α → Prop} {result : β → Prop} {change : α → β}
    (within : reading.Within tokens holds) (changed : ∀ value, holds value → result (change value)) :
    (reading.map change).Within tokens result := by
  refine ⟨within.suffix, ?_⟩
  intro value read
  obtain ⟨earlier, was, rfl⟩ := Option.map_eq_some_iff.mp read
  exact changed earlier (within.usable earlier was)

theorem Within.cons {first : Reading α} {rest : Reading (List α)} {one : α → Prop} {many all : List α → Prop}
    (head : first.Within tokens one) (tail : rest.Within first.rest many)
    (together : ∀ value values, one value → many values → all (value :: values)) :
    (first.cons rest).Within tokens all := by
  refine ⟨tail.suffix.trans head.suffix, ?_⟩
  intro values read
  obtain ⟨value, isFirst, read⟩ := Option.bind_eq_some_iff.mp read
  obtain ⟨others, areRest, rfl⟩ := Option.map_eq_some_iff.mp read
  exact together value others (head.usable value isFirst) (tail.usable others areRest)

theorem Within.append {first rest : Reading (List α)} {one many all : List α → Prop}
    (head : first.Within tokens one) (tail : rest.Within tokens many)
    (together : ∀ values others, one values → many others → all (values ++ others)) :
    (first.append rest).Within tokens all := by
  refine ⟨tail.suffix, ?_⟩
  intro values read
  obtain ⟨value, isFirst, read⟩ := Option.bind_eq_some_iff.mp read
  obtain ⟨others, areRest, rfl⟩ := Option.map_eq_some_iff.mp read
  exact together value others (head.usable value isFirst) (tail.usable others areRest)

end Rules

/-- The bytes of joined strings are no more than the strings weigh. -/
theorem within_strings (finish : Location) (tokens : List (Located Token)) :
    (strings finish tokens).Within tokens fun bytes => bytes.length ≤ weigh tokens := by
  fun_induction strings finish tokens with
  | case1 raw closed location place rest piece induction =>
      have own : piece.Within (⟨.string raw closed, location⟩ :: ⟨.concat, place⟩ :: rest)
          fun bytes => bytes.length ≤ (Text.Utf8.encode raw.toList).length :=
        within_ofExcept location (List.suffix_cons _ _) fun _ => length_stringBytes
      have ends : rest <:+ ⟨.string raw closed, location⟩ :: ⟨.concat, place⟩ :: rest :=
        (List.suffix_cons _ _).trans (List.suffix_cons _ _)
      refine own.append (induction.later ends) ?_
      intro values others short shorter
      simp only [List.length_append, weigh_cons, Token.weight]
      omega
  | case2 raw closed location rest piece other =>
      refine (within_ofExcept location (List.suffix_cons _ _) fun _ => length_stringBytes).imp ?_
      intro bytes short
      simp only [weigh_cons, Token.weight]
      omega
  | case3 token location rest _ => exact within_none List.suffix_rfl rfl
  | case4 => exact within_none List.suffix_rfl rfl

theorem within_group {tokens : List (Located Token)} {children : Reading (List CellTree)} (location : Location)
    (within : children.Within tokens fun trees =>
      trees.length < 2 ^ 63 ∧ ∀ tree ∈ trees, tree.store.Rooted tree.root) :
    (group location children).Within tokens fun tree => tree.store.Rooted tree.root := by
  unfold group
  cases read : children.value with
  | none => exact within_none within.suffix rfl
  | some trees =>
      have ⟨short, rooted⟩ := within.usable trees read
      obtain ⟨tree, ran, whole, _⟩ := CellTree.rooted_ofChildren
        (fun child among => CellTree.intact_of_rooted (rooted child among)) short
      simp only [ran]
      exact ⟨within.suffix, fun _ same => by cases same; exact whole⟩

theorem within_leaf (location : Location) (rest : List (Located Token)) (number : Numeral) :
    ((ofExcept location rest number.value).map CellTree.leaf).Within rest
      fun tree => tree.store.Rooted tree.root := by
  have read : (ofExcept location rest number.value).Within rest fun _ => True :=
    within_ofExcept location List.suffix_rfl fun _ _ => trivial
  exact read.map fun value _ => CellTree.rooted_leaf value

theorem suffix_strings (finish : Location) (raw : String) (closed : Bool) (location : Location)
    (rest : List (Located Token)) :
    (strings finish (⟨.string raw closed, location⟩ :: rest)).rest <:+ rest := by
  unfold strings
  dsimp only
  split
  · exact (within_strings finish _).suffix.trans (List.suffix_cons _ _)
  · cases stringBytes raw closed <;> exact List.suffix_rfl

/-- The trees are whole, and no more than the tokens they were read from. -/
def Gathered (tokens : List (Located Token)) (trees : List CellTree) : Prop :=
  trees.length ≤ weigh tokens ∧ ∀ tree ∈ trees, tree.store.Rooted tree.root

/-- One more tree takes one more token. -/
theorem within_gathered {token : Located Token} {rest : List (Located Token)} {first : Reading CellTree}
    {more : Reading (List CellTree)} (head : first.Within rest fun tree => tree.store.Rooted tree.root)
    (tail : more.Within first.rest (Gathered first.rest)) :
    (first.cons more).Within (token :: rest) (Gathered (token :: rest)) := by
  refine (head.later (List.suffix_cons token rest)).cons tail ?_
  rintro tree trees rooted ⟨few, all⟩
  have lighter := weigh_le_of_suffix head.suffix
  have positive := token.value.weight_pos
  refine ⟨?_, ?_⟩
  · simp only [List.length_cons, weigh_cons]
    omega
  · intro other among
    rcases List.mem_cons.mp among with rfl | among
    · exact rooted
    · exact all other among

theorem within_items (finish : Location) (fuel : Nat) (opened : Location) (tokens : List (Located Token))
    (light : weigh tokens < 2 ^ 63) : (items finish fuel opened tokens).Within tokens (Gathered tokens) := by
  fun_induction items finish fuel opened tokens with
  | case1 => exact within_none List.suffix_rfl rfl
  | case2 => exact within_none List.suffix_rfl rfl
  | case3 fuel opened location rest =>
      refine ⟨List.suffix_cons _ _, ?_⟩
      rintro trees same
      cases same
      exact ⟨Nat.zero_le _, by simp⟩
  | case4 fuel opened location rest tree inner more =>
      have restLight := weigh_lt_of_suffix light (List.suffix_cons _ _)
      have grouped : tree.Within rest fun tree => tree.store.Rooted tree.root := by
        apply within_group
        refine (inner restLight).imp ?_
        rintro trees ⟨few, all⟩
        exact ⟨by omega, all⟩
      exact within_gathered grouped (more (weigh_lt_of_suffix restLight grouped.suffix))
  | case5 fuel opened location rest raw closed bytes more =>
      have ends := suffix_strings finish raw closed location rest
      have read : (bytes.map CellTree.ofBytes).Within rest fun tree => tree.store.Rooted tree.root := by
        refine ⟨ends, ?_⟩
        refine ((within_strings finish _).map ?_).usable
        intro bytes short
        exact CellTree.rooted_ofBytes (by omega)
      exact within_gathered read (more (weigh_lt_of_suffix light (ends.trans (List.suffix_cons _ _))))
  | case6 fuel opened location rest number more =>
      have read : ((ofExcept location rest number.value).map CellTree.leaf).Within rest
          fun tree => tree.store.Rooted tree.root := within_leaf location rest number
      have left : ((ofExcept location rest number.value).map CellTree.leaf).rest = rest := by
        cases number.value <;> rfl
      apply within_gathered read
      rw [left]
      exact more (weigh_lt_of_suffix light (List.suffix_cons _ _))
  | case7 fuel opened location rest other _ _ _ _ more =>
      have read : (ofExcept location rest (.error (.notLiteral other)) : Reading CellTree).Within rest
          fun tree => tree.store.Rooted tree.root := within_none List.suffix_rfl rfl
      exact within_gathered read (more (weigh_lt_of_suffix light (List.suffix_cons _ _)))

theorem within_memory (finish : Location) (token : Located Token) (rest : List (Located Token))
    (light : weigh (token :: rest) < 2 ^ 63) :
    (memory finish token rest).Within (token :: rest) fun tree => tree.store.Rooted tree.root := by
  have restLight := weigh_lt_of_suffix light (List.suffix_cons _ _)
  unfold memory
  split
  · refine (within_group _ ((within_items finish _ _ rest restLight).imp ?_)).later (List.suffix_cons _ _)
    rintro trees ⟨few, all⟩
    exact ⟨by omega, all⟩
  · refine (within_strings finish _).map ?_
    exact fun bytes short => CellTree.rooted_ofBytes (by omega)
  · exact (within_leaf _ rest _).later (List.suffix_cons _ _)
  · exact within_none (List.suffix_cons _ _) rfl

theorem suffix_gate (tokens : List (Located Token)) : (gate tokens).2 <:+ tokens := by
  unfold gate
  split
  · exact List.suffix_cons _ _
  · exact List.suffix_rfl

theorem within_gated {tokens : List (Located Token)} {op : Reading Op} (location : Location)
    (within : op.Within tokens Op.Intact) :
    (gated location op).Within tokens fun instruction => instruction.op.Intact := by
  refine ⟨(suffix_gate op.rest).trans within.suffix, ?_⟩
  intro instruction read
  obtain ⟨value, was, rfl⟩ := Option.map_eq_some_iff.mp read
  exact within.usable value was

theorem intact_nullary {word : String} {op : Op} (found : Keyword.nullary? word = some op) : op.Intact := by
  unfold Keyword.nullary? at found
  split at found <;> cases found <;> trivial

theorem intact_unary {word : String} {operand : Operand} {op : Op} (found : Keyword.unary? word operand = some op) :
    op.Intact := by
  unfold Keyword.unary? at found
  split at found <;> cases found <;> trivial

theorem within_nullary (word : String) (location : Location) (rest : List (Located Token)) :
    (nullary word location rest).Within rest Op.Intact := by
  apply within_ofExcept location List.suffix_rfl
  intro op found
  cases named : Keyword.nullary? word with
  | none => simp [named] at found
  | some other =>
      rw [named] at found
      cases found
      exact intact_nullary named

theorem within_operation (word : String) (location : Location) (rest : List (Located Token)) :
    (operation word location rest).Within rest Op.Intact := by
  unfold operation
  split
  · exact within_nullary word location _
  · split
    · exact within_nullary word location _
    · exact within_none (List.suffix_cons _ _) rfl
    · apply within_ofExcept location (List.suffix_cons _ _)
      intro op found
      split at found
      · cases found
        exact intact_unary (by assumption)
      · cases found

theorem within_assignment (finish location : Location) (rest : List (Located Token))
    (light : weigh rest < 2 ^ 63) :
    (assignment finish location rest).Within rest fun instruction => instruction.op.Intact := by
  unfold assignment
  split
  · exact within_none List.suffix_rfl rfl
  · split
    · apply within_gated
      have read {operand : Except Problem Operand} (place : Location) (after : List (Located Token)) :
          (ofExcept place after operand).Within after fun _ => True :=
        within_ofExcept place List.suffix_rfl fun _ _ => trivial
      exact ((read _ _).later (List.suffix_cons _ _)).map fun _ _ => trivial
    · split_ifs
      · exact within_gated location
          ((within_memory finish _ _ light).map fun tree rooted => CellTree.intact_of_rooted rooted)
      · exact within_none List.suffix_rfl rfl
      · exact within_none (List.suffix_cons _ _) rfl

theorem within_instruction (finish : Location) (token : Located Token) (rest : List (Located Token))
    (light : weigh rest < 2 ^ 63) :
    (instruction finish token rest).Within rest fun instruction => instruction.op.Intact := by
  unfold instruction
  split
  · exact within_assignment finish _ rest light
  · exact within_gated _ (within_operation _ _ rest)
  · exact within_none List.suffix_rfl rfl

theorem within_join {tokens : List (Located Token)} {member : Reading Code} {rest : Reading Body}
    (one : member.Within tokens Code.Intact)
    (more : rest.Within member.rest fun body => ∀ code ∈ body.members, code.Intact) :
    (join member rest).Within tokens fun body => ∀ code ∈ body.members, code.Intact := by
  refine ⟨more.suffix.trans one.suffix, ?_⟩
  intro body read code among
  obtain ⟨others, was, rfl⟩ := Option.map_eq_some_iff.mp read
  rcases List.mem_append.mp among with first | later
  · exact one.usable code (Option.mem_toList.mp first)
  · exact more.usable others was code later

theorem within_close {tokens : List (Located Token)} {body : Reading Body} (gate : Gate) (location : Location)
    (within : body.Within tokens fun body => ∀ code ∈ body.members, code.Intact) :
    (close gate location body).Within tokens fun block => (Code.block block).Intact := by
  unfold close
  split
  · exact within_none within.suffix rfl
  · refine ⟨within.suffix, ?_⟩
    intro block same
    cases same
    exact .block _ trivial (within.usable _ (by assumption))
  · exact within_none within.suffix rfl
  · exact within_none within.suffix rfl

theorem within_members (finish : Location) (fuel : Nat) (opened : Location) (tokens : List (Located Token))
    (light : weigh tokens < 2 ^ 63) :
    (members finish fuel opened tokens).Within tokens fun body => ∀ code ∈ body.members, code.Intact := by
  fun_induction members finish fuel opened tokens with
  | case1 => exact within_none List.suffix_rfl rfl
  | case2 => exact within_none List.suffix_rfl rfl
  | case3 fuel opened location rest =>
      refine ⟨List.suffix_cons _ _, ?_⟩
      rintro body same
      cases same
      simp
  | case4 fuel opened location rest gate after gated inner body more =>
      have past : after <:+ ⟨.openBlock, location⟩ :: rest := by
        have ends := suffix_gate rest
        rw [gated] at ends
        exact ends.trans (List.suffix_cons _ _)
      have closed := within_close gate location (body (weigh_lt_of_suffix light past))
      have left : inner.rest <:+ after := closed.suffix
      have one : (inner.map Code.block).Within (⟨.openBlock, location⟩ :: rest) Code.Intact :=
        (closed.map fun _ intact => intact).later past
      exact within_join one (more (weigh_lt_of_suffix light (left.trans past)))
  | case5 fuel opened location rest other _ _ member more =>
      have past := List.suffix_cons (⟨other, location⟩ : Located Token) rest
      have read := within_instruction finish ⟨other, location⟩ rest (weigh_lt_of_suffix light past)
      have one : (member.map Code.instruction).Within (⟨other, location⟩ :: rest) Code.Intact :=
        (read.map fun _ intact => .instruction _ intact).later past
      exact within_join one (more (weigh_lt_of_suffix light (read.suffix.trans past)))

theorem within_block (finish opened : Location) (rest : List (Located Token)) (light : weigh rest < 2 ^ 63) :
    (block finish opened rest).Within rest fun block => (Code.block block).Intact := by
  have ends := suffix_gate rest
  exact (within_close _ opened (within_members finish _ opened _ (weigh_lt_of_suffix light ends))).later ends

end Reading

namespace Outline

/-- The parts read so far are whole. -/
structure Whole (outline : Outline) : Prop where
  root : ∀ block, outline.root = some block → (Code.block block).Intact
  memory : ∀ tree, outline.memory = some tree → tree.store.Rooted tree.root

theorem suffix_seed (name : String) (location : Location) (rest : List (Located Token)) :
    (seed name location rest).rest <:+ rest := by
  unfold seed
  split
  · unfold Reading.ofExcept
    split <;> exact List.suffix_cons _ _
  · exact List.suffix_rfl

theorem or_cases {α : Type} {holds : α → Prop} {earlier later : Option α}
    (first : ∀ value, earlier = some value → holds value) (second : ∀ value, later = some value → holds value) :
    ∀ value, earlier.or later = some value → holds value := by
  cases earlier with
  | none => exact second
  | some value => exact first

theorem whole_readPart (finish : Location) {outline : Outline} {token : Located Token}
    {rest : List (Located Token)} (whole : outline.Whole) (light : weigh (token :: rest) < 2 ^ 63) :
    (readPart finish outline token rest).outline.Whole ∧
      (readPart finish outline token rest).rest <:+ token :: rest := by
  have past := List.suffix_cons token rest
  unfold readPart
  split
  · have within := Reading.within_block finish token.location rest (weigh_lt_of_suffix light past)
    exact ⟨⟨or_cases whole.root within.usable, whole.memory⟩, within.suffix.trans past⟩
  · exact ⟨⟨whole.root, whole.memory⟩, (suffix_seed _ _ _).trans past⟩
  · exact ⟨⟨whole.root, whole.memory⟩, (suffix_seed _ _ _).trans past⟩
  · split
    · have within := Reading.within_memory finish token rest light
      exact ⟨⟨whole.root, or_cases whole.memory within.usable⟩, within.suffix⟩
    · exact ⟨whole, past⟩

theorem whole_readAll (finish : Location) (fuel : Nat) {outline : Outline} {tokens : List (Located Token)}
    (whole : outline.Whole) (light : weigh tokens < 2 ^ 63) : (readAll finish fuel outline tokens).1.Whole := by
  induction fuel generalizing outline tokens with
  | zero => exact whole
  | succ fuel induction =>
      cases tokens with
      | nil => exact whole
      | cons token rest =>
          have ⟨further, ends⟩ := whole_readPart finish whole light
          exact induction further (weigh_lt_of_suffix light ends)

end Outline

/-- All memory that a source text describes is whole. -/
theorem Draft.intact_of_read {source : String} {draft : Draft} (short : source.utf8ByteSize < 2 ^ 63)
    (read : Draft.read source = .ok draft) :
    (Code.block draft.root).Intact ∧ ∀ tree, draft.memory = some tree → tree.store.Rooted tree.root := by
  have light := Nat.lt_of_le_of_lt (weigh_scan source) short
  have nothing : ({} : Outline).Whole := ⟨by simp, by simp⟩
  have whole := Outline.whole_readAll (TokenList.scan source).finish (TokenList.scan source).tokens.length
    nothing light
  unfold Draft.read at read
  dsimp only at read
  split at read
  · rename_i block found _
    cases read
    exact ⟨whole.root block found, whole.memory⟩
  · cases read

end RingTape
