import RingTape.Proofs.Contract
import RingTape.Proofs.Ledger
import RingTape.Proofs.Spelling

/-!
Numbers that are read. A digit is appended in two steps, each of which stops at the ends of the width, and for a
negative number they run away from zero in the other direction. All the same, the number that is read is the one nearest
to the number that is written, however many digits it has. So the text of a register value is read back as that value,
the least one included, whatever follows that is not a digit.
-/

namespace RingTape

set_option autoImplicit false

theorem Num.toInt_saturate (exact : Int) : (saturate exact).toInt = max least (min greatest exact) := by
  unfold saturate least greatest
  exact Int64.toInt_ofInt_of_le (by omega) (by omega)

/-- A register value is nearest to itself. -/
theorem Num.max_min_toInt (value : Num) : max least (min greatest value.toInt) = value.toInt := by
  have lower : least ≤ value.toInt := Int64.le_toInt value
  have upper : value.toInt ≤ greatest := Int64.toInt_le value
  omega

namespace Streams

/-- The integer of the given size on one side of zero. -/
def withSign (negative : Bool) (size : Nat) : Int :=
  if negative then -size else size

/-- A digit appended to the nearest number gives the nearest number, also where only one of the two steps stops. -/
theorem toInt_appendDigit {negative : Bool} {value : Num} {size : Nat}
    (nearest : value.toInt = max Num.least (min Num.greatest (withSign negative size))) (byte : UInt8) :
    (appendDigit negative value byte).toInt =
      max Num.least (min Num.greatest (withSign negative (byte.toNat - 0x30 + 10 * size))) := by
  simp only [appendDigit, Num.toInt_saturate, nearest]
  unfold withSign Num.least Num.greatest
  cases negative with
  | false =>
      simp only [Bool.false_eq_true, if_false]
      omega
  | true =>
      simp only [if_true]
      omega

theorem toInt_foldl_appendDigit {negative : Bool} (digits : List UInt8) {value : Num} {size : Nat}
    (nearest : value.toInt = max Num.least (min Num.greatest (withSign negative size))) :
    (digits.foldl (appendDigit negative) value).toInt = max Num.least (min Num.greatest
      (withSign negative (digits.foldl (fun size byte => byte.toNat - 0x30 + 10 * size) size))) := by
  induction digits generalizing value size with
  | nil => exact nearest
  | cons byte rest induction =>
      rw [List.foldl_cons, List.foldl_cons]
      exact induction (toInt_appendDigit nearest byte)

namespace Numeral

/-- The number that the digits write, without any bound; no digits write 0. -/
def size (numeral : Numeral) : Nat :=
  Nat.ofDigits 10 (numeral.digits.reverse.map fun byte => byte.toNat - 0x30)

/-- The integer that is written. -/
def integer (numeral : Numeral) : Int :=
  (if numeral.sign = [0x2D] then -1 else 1) * numeral.size

theorem size_eq_foldl (numeral : Numeral) :
    numeral.size = numeral.digits.foldl (fun size byte => byte.toNat - 0x30 + 10 * size) 0 := by
  rw [size, Nat.ofDigits_eq_foldr, List.foldr_map, List.foldr_reverse]
  rfl

theorem toInt_value (numeral : Numeral) :
    numeral.value.toInt = max Num.least (min Num.greatest numeral.integer) := by
  have start : (0 : Num).toInt =
      max Num.least (min Num.greatest (withSign (decide (numeral.sign = [0x2D])) 0)) := by
    cases decide (numeral.sign = [0x2D]) <;> rfl
  rw [value, toInt_foldl_appendDigit numeral.digits start, ← size_eq_foldl, integer, withSign]
  by_cases minus : numeral.sign = [0x2D]
  · simp only [minus, decide_true, if_true, Int.neg_one_mul]
  · simp only [minus, decide_false, Bool.false_eq_true, if_false, Int.one_mul]

theorem drop_blanks (numeral : Numeral) (rest : List UInt8) :
    (numeral.bytes ++ rest).drop numeral.blanks.length = numeral.sign ++ (numeral.digits ++ rest) := by
  rw [bytes, List.append_assoc, List.append_assoc, List.drop_left]

/--
The input is cut into blanks, a sign, digits and a rest, each of which goes as far as it can before the next begins; a
second sign does not belong to the numeral.
-/
structure Cuts (numeral : Numeral) (input rest : List UInt8) : Prop where
  whole : input = numeral.bytes ++ rest
  blanksEnd : ∀ byte ∈ (numeral.sign ++ (numeral.digits ++ rest)).head?, byte ∉ [0x20, 0x09, 0x0A, 0x0C, 0x0D]
  signEnds : numeral.sign = [] → ∀ byte ∈ (numeral.digits ++ rest).head?, byte ≠ 0x2B ∧ byte ≠ 0x2D
  digitsEnd : ∀ byte ∈ rest.head?, ¬ (0x30 ≤ byte ∧ byte ≤ 0x39)

end Numeral

theorem takeWhile_eq_front {keep : UInt8 → Bool} {front tail : List UInt8} (kept : ∀ byte ∈ front, keep byte)
    (ends : ∀ byte ∈ tail.head?, keep byte = false) : (front ++ tail).takeWhile keep = front := by
  rw [List.takeWhile_append_of_pos kept]
  cases tail with
  | nil => simp
  | cons byte rest =>
      have stop : ¬ keep byte = true := Bool.not_eq_true _ ▸ ends byte rfl
      rw [List.takeWhile_cons_of_neg stop, List.append_nil]

theorem head_after_takeWhile {keep : UInt8 → Bool} (input : List UInt8) :
    ∀ byte ∈ (input.drop (input.takeWhile keep).length).head?, keep byte = false := by
  have behind : input.drop (input.takeWhile keep).length = input.dropWhile keep := by
    conv_lhs => rw [← List.takeWhile_append_dropWhile (p := keep) (l := input)]
    exact List.drop_left' (by rw [List.takeWhile_append_dropWhile])
  intro byte first
  have stops := List.head?_dropWhile_not keep input
  rw [← behind, Option.mem_def.mp first] at stops
  exact stops

/-- What is not taken as a sign is none. -/
theorem sign_ends {input : List UInt8} (unsigned : (input.head?.filter isSign).toList = []) :
    ∀ byte ∈ input.head?, byte ≠ 0x2B ∧ byte ≠ 0x2D := by
  intro byte first
  rw [Option.mem_def.mp first] at unsigned
  have other : isSign byte = false := by
    cases sign : isSign byte with
    | false => rfl
    | true => simp [Option.filter, sign] at unsigned
  simpa [isSign, and_comm] using other

theorem sign_of_ends {sign tail : List UInt8} (signed : sign ∈ [[], [0x2B], [0x2D]])
    (ends : sign = [] → ∀ byte ∈ tail.head?, byte ≠ 0x2B ∧ byte ≠ 0x2D) :
    ((sign ++ tail).head?.filter isSign).toList = sign := by
  simp only [List.mem_cons, List.not_mem_nil, or_false] at signed
  rcases signed with none | plus | minus
  · rw [none, List.nil_append]
    cases first : tail.head? with
    | none => rfl
    | some byte =>
        have apart := ends none byte first
        simp [Option.filter, isSign, apart]
  · rw [plus]
    rfl
  · rw [minus]
    rfl

theorem cuts_leading (input : List UInt8) :
    (leading input).Cuts input (input.drop (leading input).bytes.length) := by
  have whole := List.prefix_iff_eq_append.mp (leading_leads input)
  -- Behind the blanks stand the sign, the digits and the rest, and behind the sign the digits and the rest.
  have afterBlanks : (leading input).sign ++ ((leading input).digits ++ input.drop (leading input).bytes.length) =
      input.drop (leading input).blanks.length := by
    rw [← Numeral.drop_blanks, whole]
  have afterSign : (leading input).digits ++ input.drop (leading input).bytes.length =
      (input.drop (leading input).blanks.length).drop (leading input).sign.length := by
    rw [← afterBlanks, List.drop_left]
  have afterDigits : input.drop (leading input).bytes.length =
      ((input.drop (leading input).blanks.length).drop (leading input).sign.length).drop
        (leading input).digits.length := by
    rw [← afterSign, List.drop_left]
  constructor
  · exact whole.symm
  · intro byte first
    rw [afterBlanks] at first
    rw [← isBlank_iff, Bool.not_eq_true]
    exact head_after_takeWhile input byte first
  · intro unsigned byte first
    rw [afterSign, unsigned, List.length_nil, List.drop_zero] at first
    exact sign_ends unsigned byte first
  · intro byte first
    rw [afterDigits] at first
    rw [← isDigit_iff, Bool.not_eq_true]
    exact head_after_takeWhile _ byte first

/-- An input can be cut in one way only. -/
theorem Numeral.Cuts.eq_leading {numeral : Numeral} {input rest : List UInt8} (cuts : numeral.Cuts input rest) :
    numeral = leading input ∧ rest = input.drop (leading input).bytes.length := by
  have blank : ∀ byte ∈ numeral.blanks, isBlank byte := fun byte inside =>
    (isBlank_iff byte).mpr (numeral.blank byte inside)
  have decimal : ∀ byte ∈ numeral.digits, isDigit byte := fun byte inside =>
    (isDigit_iff byte).mpr (numeral.decimal byte inside)
  have blanks : (leading input).blanks = numeral.blanks := by
    change input.takeWhile isBlank = _
    rw [cuts.whole, Numeral.bytes, List.append_assoc, List.append_assoc]
    refine takeWhile_eq_front blank fun byte first => ?_
    rw [← Bool.not_eq_true, isBlank_iff]
    exact cuts.blanksEnd byte first
  have afterBlanks : input.drop (leading input).blanks.length = numeral.sign ++ (numeral.digits ++ rest) := by
    rw [blanks, cuts.whole, Numeral.drop_blanks]
  have sign : (leading input).sign = numeral.sign := by
    change ((input.drop (leading input).blanks.length).head?.filter isSign).toList = _
    rw [afterBlanks]
    exact sign_of_ends numeral.signed cuts.signEnds
  have digits : (leading input).digits = numeral.digits := by
    change ((input.drop (leading input).blanks.length).drop (leading input).sign.length).takeWhile isDigit = _
    rw [afterBlanks, sign, List.drop_left]
    refine takeWhile_eq_front decimal fun byte first => ?_
    rw [← Bool.not_eq_true, isDigit_iff]
    exact cuts.digitsEnd byte first
  have same : numeral = leading input := by
    cases numeral
    cases front : leading input
    rw [front] at blanks sign digits
    simp only [Numeral.mk.injEq]
    exact ⟨blanks.symm, sign.symm, digits.symm⟩
  refine ⟨same, ?_⟩
  rw [← same]
  conv_rhs => rw [cuts.whole]
  rw [List.drop_left]

/-- What is read from an input that is cut here. -/
theorem run_readNumber_of_cuts {streams : Streams} (ends : streams.inputEnd = .stop) {numeral : Numeral}
    {rest : List UInt8} (cuts : numeral.Cuts streams.input rest) :
    readNumber streams = .ok numeral.value (streams.booked [.number] numeral.bytes rest) := by
  have same := cuts.eq_leading
  rw [same.2, same.1]
  exact run_readNumber ends

/-- A numeral with digits goes no further than they do. -/
theorem Numeral.cuts_of_digits (numeral : Numeral) (filled : numeral.digits ≠ []) {rest : List UInt8}
    (ends : ∀ byte ∈ rest.head?, ¬ (0x30 ≤ byte ∧ byte ≤ 0x39)) : numeral.Cuts (numeral.bytes ++ rest) rest := by
  obtain ⟨stops, signed⟩ := numeral.begun rest fun none => filled (List.append_eq_nil_iff.mp none).2
  refine ⟨rfl, ?_, ?_, ends⟩
  · intro byte first
    rw [← isBlank_iff]
    intro blank
    cases text : numeral.sign ++ (numeral.digits ++ rest) with
    | nil =>
        rw [text] at first
        cases first
    | cons other tail =>
        rw [text] at first stops
        cases first
        rw [List.takeWhile_cons_of_pos blank] at stops
        cases stops
  · intro unsigned
    rw [unsigned, List.nil_append] at signed
    exact sign_ends signed

section Written

theorem encode_of_ascii {text : List Char} (ascii : ∀ char ∈ text, char.toNat < 0x80) :
    Text.Utf8.encode text = text.map fun char => UInt8.ofNat char.toNat := by
  induction text with
  | nil => rfl
  | cons char rest induction =>
      have here := utf8EncodeChar_of_lt (ascii char List.mem_cons_self)
      have there := induction fun other among => ascii other (List.mem_cons_of_mem _ among)
      rw [Text.Utf8.encode] at there ⊢
      rw [List.flatMap_cons, here, there]
      rfl

/-- The bytes of the decimal digits of a number. -/
def digitBytes (number : Nat) : List UInt8 :=
  (decimalDigits number).map fun char => UInt8.ofNat char.toNat

theorem toNat_of_isDigit {char : Char} (digit : char.isDigit = true) :
    0x30 ≤ char.toNat ∧ char.toNat ≤ 0x39 ∧ (UInt8.ofNat char.toNat).toNat = char.toNat := by
  simp only [Char.isDigit, Bool.and_eq_true, decide_eq_true_eq] at digit
  have lower : 0x30 ≤ char.toNat := UInt32.le_iff_toNat_le.mp digit.1
  have upper : char.toNat ≤ 0x39 := UInt32.le_iff_toNat_le.mp digit.2
  exact ⟨lower, upper, UInt8.toNat_ofNat_of_lt' (by rw [UInt8.size]; omega)⟩

theorem foldl_digitBytes {digits : List Char} (decimal : ∀ char ∈ digits, char.isDigit = true) (size : Nat) :
    (digits.map fun char => UInt8.ofNat char.toNat).foldl (fun size byte => byte.toNat - 0x30 + 10 * size) size =
      Nat.ofDigitChars 10 digits size := by
  induction digits generalizing size with
  | nil => rfl
  | cons char rest induction =>
      have code := (toNat_of_isDigit (decimal char List.mem_cons_self)).2.2
      rw [List.map_cons, List.foldl_cons, induction fun other among => decimal other (List.mem_cons_of_mem _ among),
        Nat.ofDigitChars_cons, code, Nat.add_comm]
      rfl

theorem decimal_digitBytes (number : Nat) : ∀ byte ∈ digitBytes number, 0x30 ≤ byte ∧ byte ≤ 0x39 := by
  intro byte inside
  obtain ⟨char, among, rfl⟩ := List.mem_map.mp inside
  obtain ⟨lower, upper, code⟩ := toNat_of_isDigit (isDigit_of_mem_decimalDigits char among)
  rw [UInt8.le_iff_toNat_le, UInt8.le_iff_toNat_le, code]
  exact ⟨lower, upper⟩

/-- The numeral of a number with the given sign. -/
def Numeral.ofNat (sign : List UInt8) (signed : sign ∈ [[], [0x2B], [0x2D]]) (number : Nat) : Numeral where
  blanks := []
  sign := sign
  digits := digitBytes number
  blank := by simp
  signed := signed
  decimal := decimal_digitBytes number

theorem Numeral.size_ofNat (sign : List UInt8) (signed : sign ∈ [[], [0x2B], [0x2D]]) (number : Nat) :
    (ofNat sign signed number).size = number := by
  rw [size_eq_foldl]
  exact (foldl_digitBytes isDigit_of_mem_decimalDigits 0).trans (Nat.ofDigitChars_toDigits (by decide) (by decide))

theorem encode_decimalDigits (number : Nat) : Text.Utf8.encode (decimalDigits number) = digitBytes number := by
  refine encode_of_ascii fun char among => ?_
  have upper := (toNat_of_isDigit (isDigit_of_mem_decimalDigits char among)).2.1
  omega

/-- The text of a register value is a numeral that writes it. -/
theorem exists_numeral (value : Num) : ∃ numeral : Numeral, numeral.digits ≠ [] ∧
    numeral.bytes = Text.Utf8.encode value.text.toList ∧ numeral.integer = value.toInt := by
  have filled (number : Nat) : digitBytes number ≠ [] := by
    rw [digitBytes, Ne, List.map_eq_nil_iff]
    exact decimalDigits_ne_nil number
  by_cases negative : value.toInt < 0
  · obtain ⟨number, _, text, fits⟩ := text_of_negative negative
    have minus : Text.Utf8.encode ('-' :: decimalDigits number) =
        0x2D :: Text.Utf8.encode (decimalDigits number) := rfl
    refine ⟨.ofNat [0x2D] (by simp) number, filled number, ?_, ?_⟩
    · rw [text, String.toList_ofList, minus, encode_decimalDigits]
      rfl
    · rw [Numeral.integer, Numeral.size_ofNat, Num.toInt_of_ofInt? fits]
      exact Int.neg_one_mul _
  · obtain ⟨number, text, fits⟩ := text_of_natural (Int.not_lt.mp negative)
    refine ⟨.ofNat [] (by simp) number, filled number, ?_, ?_⟩
    · rw [text, String.toList_ofList, encode_decimalDigits]
      rfl
    · rw [Numeral.integer, Numeral.size_ofNat, Num.toInt_of_ofInt? fits]
      exact Int.one_mul _

/-- The text of a register value is read as that value, and nothing after it is taken. -/
theorem run_readNumber_text {streams : Streams} (ends : streams.inputEnd = .stop) (value : Num) {rest : List UInt8}
    (input : streams.input = Text.Utf8.encode value.text.toList ++ rest)
    (apart : ∀ byte ∈ rest.head?, ¬ (0x30 ≤ byte ∧ byte ≤ 0x39)) :
    readNumber streams =
      .ok value (streams.booked [.number] (Text.Utf8.encode value.text.toList) rest) := by
  obtain ⟨numeral, filled, bytes, written⟩ := exists_numeral value
  have cuts := numeral.cuts_of_digits filled apart
  rw [bytes, ← input] at cuts
  have same : numeral.value = value := by
    rw [← Int64.toInt_inj, numeral.toInt_value, written, Num.max_min_toInt]
  rw [run_readNumber_of_cuts ends cuts, same, bytes]

end Written

end Streams

namespace Cell

variable (target : CellId) (change : Cell → Cell)

theorem find?_of_passes {test : Cell → Bool} {cell : Cell} (passes : test cell = true) :
    cell.find? test = some cell := by
  rw [find?_eq, nodes_eq, List.find?_cons_of_pos passes]

mutual

/-- The first cell in a slot is the one that is changed, even if the slot occurred twice. -/
theorem find?_amend (keeps : ∀ node : Cell, (change node).id = node.id) (cell : Cell) :
    (cell.amend target change).find? (fun node => node.id = target) =
      (cell.find? fun node => node.id = target).map change := by
  match cell with
  | ⟨id, value, ⟨forward, backward⟩⟩ =>
      by_cases here : id = target
      · rw [amend, if_pos here, find?_of_passes (by simpa [keeps] using here), find?_of_passes (by simpa using here)]
        rfl
      · rw [amend, if_neg here, find?, find?, forestFind?_forestAmend keeps forward,
          forestFind?_forestAmend keeps backward, if_neg (by simpa using here), if_neg (by simpa using here)]
        cases forestFind? (fun node => node.id = target) forward <;> rfl

theorem forestFind?_forestAmend (keeps : ∀ node : Cell, (change node).id = node.id) (cells : List Cell) :
    forestFind? (fun node => node.id = target) (forestAmend target change cells) =
      (forestFind? (fun node => node.id = target) cells).map change := by
  match cells with
  | [] => rfl
  | cell :: rest =>
      rw [forestAmend, forestFind?, forestFind?, find?_amend keeps cell, forestFind?_forestAmend keeps rest]
      cases cell.find? fun node => node.id = target <;> rfl

end

end Cell

namespace Store

/-- A cell that gets a value has it then. -/
theorem exists_run_setValue {store : Store} {id : CellId} (live : store.contains id = true) (value : Num) :
    ∃ after, setValue id value store = .ok () after ∧ after.value? id = some value := by
  obtain ⟨cell, found⟩ := Option.isSome_iff_exists.mp live
  have cleared : reset id store = .ok ()
      ⟨Cell.forestAmend id (fun cell => { cell with ring := Ring.empty }) store.trees,
        store.pool.give cell.descendants⟩ := by
    rw [reset, run_bind_ok (run_cell_of_some found)]
    rfl
  have emptied := Cell.forestFind?_forestAmend id (fun cell => { cell with ring := Ring.empty }) (fun _ => rfl)
    store.trees
  have valued := Cell.forestFind?_forestAmend id (fun cell => { cell with value := value }) (fun _ => rfl)
    (Cell.forestAmend id (fun cell => { cell with ring := Ring.empty }) store.trees)
  rw [cell?] at found
  rw [emptied, found] at valued
  refine ⟨_, run_bind_ok cleared, ?_⟩
  exact congrArg (Option.map Cell.value) valued

end Store

namespace Machine

theorem run_activeValue_of_some {machine : Machine} {cell : Cell}
    (found : machine.store.cell? machine.registers.head = some cell) :
    activeValue machine = .ok cell.value machine := by
  rw [activeValue, run_bind_ok (run_head machine), run_bind_ok (run_onStore_ok (Store.run_cell_of_some found))]
  rfl

theorem run_onStreams_ok {α : Type} {machine : Machine} {program : StreamM α} {result : α} {reached : Streams}
    (ran : program machine.streams = .ok result reached) :
    onStreams program machine = .ok result { machine with streams := reached } := by
  simp only [onStreams, ran]

theorem run_output_number {machine : Machine} {cell : Cell}
    (found : machine.store.cell? machine.registers.head = some cell) :
    perform (.output .number) machine = .ok .okay
      { machine with
        streams :=
          machine.streams.booked [.write (Text.Utf8.encode cell.value.text.toList)] [] machine.streams.input } := by
  have wrote : output .number machine = .ok ()
      { machine with
        streams :=
          machine.streams.booked [.write (Text.Utf8.encode cell.value.text.toList)] [] machine.streams.input } := by
    rw [output, run_bind_ok (run_activeValue_of_some found)]
    exact run_onStreams_ok (Streams.run_write _ _)
  rw [perform, run_bind_ok wrote]
  rfl

/-- What is read is put under the head. -/
theorem exists_run_input_number {machine : Machine} (live : machine.store.contains machine.registers.head = true)
    {value : Num} {reached : Streams} (read : Streams.readNumber machine.streams = .ok value reached) :
    ∃ store, perform (.input .number) machine = .ok .okay { machine with store := store, streams := reached } ∧
      store.value? machine.registers.head = some value := by
  obtain ⟨store, set, valued⟩ := Store.exists_run_setValue live value
  refine ⟨store, ?_, valued⟩
  have stored : input .number machine = .ok () { machine with store := store, streams := reached } := by
    rw [input, run_bind_ok (run_onStreams_ok read), run_bind_ok (run_head _)]
    exact run_onStore_ok set
  rw [perform, run_bind_ok stored]
  rfl

/--
Numbers are read exactly, as far as the width goes. An input that ends is cut in one way into blanks, a sign, digits and
a rest, and what is read is the register value nearest to the integer that the sign and the digits write. Hence a value
that was written is read back, if no digit follows it.
-/
theorem number_is_nearest_to_written :
    (∀ streams : Streams, streams.inputEnd = .stop → ∃ (numeral : Streams.Numeral) (rest : List UInt8) (value : Num),
      numeral.Cuts streams.input rest ∧
        (∀ (other : Streams.Numeral) (left : List UInt8), other.Cuts streams.input left →
          other = numeral ∧ left = rest) ∧
        Streams.readNumber streams = .ok value (streams.booked [.number] numeral.bytes rest) ∧
        value.toInt = max Num.least (min Num.greatest numeral.integer)) ∧
    ∀ (writer : Machine) (cell : Cell), writer.store.cell? writer.registers.head = some cell → ∃ bytes,
      perform (.output .number) writer = .ok .okay
          { writer with streams := writer.streams.booked [.write bytes] [] writer.streams.input } ∧
        ∀ (reader : Machine) (rest : List UInt8), reader.store.contains reader.registers.head = true →
          reader.streams.inputEnd = .stop → reader.streams.input = bytes ++ rest →
          (∀ byte ∈ rest.head?, ¬ (0x30 ≤ byte ∧ byte ≤ 0x39)) →
          ∃ store, perform (.input .number) reader = .ok .okay
              { reader with store := store, streams := reader.streams.booked [.number] bytes rest } ∧
            store.value? reader.registers.head = some cell.value := by
  constructor
  · intro streams ends
    have cuts := Streams.cuts_leading streams.input
    refine ⟨_, _, _, cuts, ?_, Streams.run_readNumber_of_cuts ends cuts, Streams.Numeral.toInt_value _⟩
    intro other left others
    exact others.eq_leading
  · intro writer cell found
    refine ⟨_, run_output_number found, ?_⟩
    intro reader rest live ends input apart
    exact exists_run_input_number live (Streams.run_readNumber_text ends cell.value input apart)

/-- One less than the least register value, with blanks before it and a leading zero. -/
def sampleNumeral : Streams.Numeral where
  blanks := [0x09, 0x20]
  sign := [0x2D]
  digits := [0x30, 0x39, 0x32, 0x32, 0x33, 0x33, 0x37, 0x32, 0x30, 0x33, 0x36, 0x38, 0x35, 0x34, 0x37, 0x37, 0x35,
    0x38, 0x30, 0x39]
  blank := by decide +kernel
  signed := by decide
  decimal := by decide +kernel

/-- A machine on a single cell. -/
def single (value : Num) (input : List UInt8) : Machine :=
  ⟨⟨[Cell.leaf ⟨0⟩ value], ⟨[], 1⟩⟩, ⟨0, false, ⟨0⟩⟩, Streams.ofInput input .stop, 0⟩

/-- A number that is out of range is read as the least one, and the least one is read back with a sign behind it. -/
theorem number_is_nearest_to_written_least :
    (Streams.ofInput (sampleNumeral.bytes ++ [0x78]) .stop).inputEnd = .stop ∧
      sampleNumeral.integer = Num.least - 1 ∧
      (∃ reached, Streams.readNumber (Streams.ofInput (sampleNumeral.bytes ++ [0x78]) .stop) =
        .ok Int64.minValue reached) ∧
      ∃ bytes written store reached,
        perform (.output .number) (single Int64.minValue []) = .ok .okay written ∧
          written.streams.output = bytes ∧
          perform (.input .number) (single 7 (bytes.toList ++ [0x2D])) =
            .ok .okay { single 7 (bytes.toList ++ [0x2D]) with store := store, streams := reached } ∧
          store.value? ⟨0⟩ = some Int64.minValue := by
  have cuts : sampleNumeral.Cuts (sampleNumeral.bytes ++ [0x78]) [0x78] :=
    sampleNumeral.cuts_of_digits (by decide +kernel) (by decide +kernel)
  have size : sampleNumeral.integer = Num.least - 1 := by decide +kernel
  obtain ⟨numeral, rest, value, _, unique, read, nearest⟩ :=
    number_is_nearest_to_written.1 (Streams.ofInput (sampleNumeral.bytes ++ [0x78]) .stop) rfl
  obtain ⟨same, _⟩ := unique sampleNumeral [0x78] cuts
  have least : value = Int64.minValue := by
    rw [← Int64.toInt_inj, nearest, ← same, size]
    rfl
  obtain ⟨bytes, wrote, back⟩ :=
    number_is_nearest_to_written.2 (single Int64.minValue []) (Cell.leaf ⟨0⟩ Int64.minValue) rfl
  have output : (single Int64.minValue []).streams.booked [.write bytes] [] [] =
      ⟨[], .stop, bytes.toArray, ⟨0, bytes.length, 0, 1⟩⟩ := by
    simp [Streams.booked, Streams.slices, Streams.Call.slice?, Streams.Call.isRead, single, Streams.ofInput]
  obtain ⟨store, reread, valued⟩ :=
    back (single 7 (bytes.toArray.toList ++ [0x2D])) [0x2D] rfl rfl rfl (by decide +kernel)
  refine ⟨rfl, size, ⟨_, least ▸ read⟩, bytes.toArray, _, store, _, wrote, ?_, reread, valued⟩
  exact congrArg Streams.output output

end Machine

end RingTape
