import Mathlib.Data.List.TakeWhile
import RingTape.Machine.Streams
import RingTape.Proofs.Outcome

/-!
The books of the streams. Three readers with different rules for where to stop share one input; whatever they
and the writer are asked, and in whatever order, the bytes taken so far and the bytes still unread make up the
input, and the traffic counts what went through. `Takes` says what each call takes off the input, without the
programs that do it; lines read one after another are then the pieces between the line feeds.
-/

namespace RingTape

set_option autoImplicit false

namespace Streams

/-- What can be asked of the streams. -/
inductive Call where
  | byte
  | number
  | line
  | write (bytes : List UInt8)
  | flush
deriving DecidableEq, Repr

inductive Reply where
  | byte (byte? : Option UInt8)
  | number (value : Num)
  | line (bytes : List UInt8)
  | done
deriving DecidableEq, Repr

namespace Call

def run : Call → StreamM Reply
  | .byte => return .byte (← readByte)
  | .number => return .number (← readNumber)
  | .line => return .line (← readLine)
  | .write bytes => do
      Streams.write bytes
      return .done
  | .flush => do
      Streams.flush
      return .done

def isRead : Call → Bool
  | .byte | .number | .line => true
  | .write _ | .flush => false

def slice? : Call → Option (List UInt8)
  | .write bytes => some bytes
  | .byte | .number | .line | .flush => none

end Call

/-- Several calls, one after another, with what each of them replied. -/
def serve : List Call → StreamM (List Reply)
  | [] => return []
  | call :: calls => do
      let reply ← call.run
      return reply :: (← serve calls)

/-- The slices written by several calls. -/
def slices (calls : List Call) : List (List UInt8) :=
  calls.filterMap Call.slice?

/-- Blanks, at most one sign and decimal digits, any of which may be missing. -/
structure Numeral where
  blanks : List UInt8
  sign : List UInt8
  digits : List UInt8
  blank : ∀ byte ∈ blanks, byte ∈ [0x20, 0x09, 0x0A, 0x0C, 0x0D]
  signed : sign ∈ [[], [0x2B], [0x2D]]
  decimal : ∀ byte ∈ digits, 0x30 ≤ byte ∧ byte ≤ 0x39

namespace Numeral

def bytes (numeral : Numeral) : List UInt8 :=
  numeral.blanks ++ numeral.sign ++ numeral.digits

def value (numeral : Numeral) : Num :=
  numeral.digits.foldl (appendDigit (numeral.sign = [0x2D])) 0

end Numeral

/--
What a call takes off the unread input, what it leaves there and what it replies. Nothing is said of how the
bytes are found: a number is the longest numeral that the input begins with.
-/
inductive Takes : Call → List UInt8 → List UInt8 → List UInt8 → Reply → Prop where
  | byte (first : UInt8) (rest : List UInt8) : Takes .byte (first :: rest) [first] rest (.byte (some first))
  | noByte : Takes .byte [] [] [] (.byte none)
  | number (numeral : Numeral) (rest : List UInt8)
      (longest : ∀ other : Numeral, other.bytes <+: numeral.bytes ++ rest →
        other.bytes.length ≤ numeral.bytes.length) :
      Takes .number (numeral.bytes ++ rest) numeral.bytes rest (.number numeral.value)
  | line (line rest : List UInt8) (unbroken : 0x0A ∉ line) :
      Takes .line (line ++ 0x0A :: rest) (line ++ [0x0A]) rest (.line line)
  | lastLine (line : List UInt8) (unbroken : 0x0A ∉ line) : Takes .line line line [] (.line line)
  | write (bytes unread : List UInt8) : Takes (.write bytes) unread [] unread .done
  | flush (unread : List UInt8) : Takes .flush unread [] unread .done

/-- A call with the bytes it took and its reply. -/
structure Receipt where
  call : Call
  taken : List UInt8
  reply : Reply

def consumed (receipts : List Receipt) : List UInt8 :=
  receipts.flatMap Receipt.taken

/-- Calls served one after another, each from where the one before it stopped. -/
inductive Served : List UInt8 → List Receipt → List UInt8 → Prop where
  | nil (unread : List UInt8) : Served unread [] unread
  | cons {unread rest left : List UInt8} {receipt : Receipt} {receipts : List Receipt}
      (takes : Takes receipt.call unread receipt.taken rest receipt.reply) (served : Served rest receipts left) :
      Served unread (receipt :: receipts) left

theorem Takes.taken_append {call : Call} {unread taken rest : List UInt8} {reply : Reply}
    (takes : Takes call unread taken rest reply) : taken ++ rest = unread := by
  cases takes <;> simp

theorem Served.consumed_append {input left : List UInt8} {receipts : List Receipt}
    (served : Served input receipts left) : consumed receipts ++ left = input := by
  induction served with
  | nil unread => rfl
  | cons takes served induction =>
      rw [← takes.taken_append, ← induction]
      simp [consumed]

/-- The streams after some calls that took `taken` off the input. -/
def booked (streams : Streams) (calls : List Call) (taken unread : List UInt8) : Streams where
  input := unread
  inputEnd := streams.inputEnd
  output := streams.output ++ (slices calls).flatten
  traffic :=
    { bytesRead := streams.traffic.bytesRead + taken.length
      bytesWritten := streams.traffic.bytesWritten + (slices calls).flatten.length
      reads := streams.traffic.reads + calls.countP Call.isRead
      writes := streams.traffic.writes + (slices calls).length }

theorem booked_nil (streams : Streams) : streams.booked [] [] streams.input = streams := by
  simp [booked, slices]

theorem booked_booked (streams : Streams) (first rest : List Call) (taken unread more left : List UInt8) :
    (streams.booked first taken unread).booked rest more left =
      streams.booked (first ++ rest) (taken ++ more) left := by
  simp [booked, slices, Nat.add_assoc, ← Array.toList_inj]

section Numbers

theorem isBlank_iff (byte : UInt8) : isBlank byte ↔ byte ∈ [0x20, 0x09, 0x0A, 0x0C, 0x0D] := by
  simp [isBlank, or_assoc]

theorem isDigit_iff (byte : UInt8) : isDigit byte ↔ 0x30 ≤ byte ∧ byte ≤ 0x39 := by
  simp [isDigit]

def isSign (byte : UInt8) : Bool :=
  byte = 0x2D || byte = 0x2B

theorem signed_of_filter (first : Option UInt8) : (first.filter isSign).toList ∈ [[], [0x2B], [0x2D]] := by
  cases first with
  | none => simp
  | some byte =>
      by_cases sign : isSign byte
      · simp_all [Option.filter, isSign, or_comm]
      · simp [Option.filter, sign]

/-- The numeral that an input begins with, as far as it goes. -/
def leading (input : List UInt8) : Numeral :=
  let blanks := input.takeWhile isBlank
  let sign := ((input.drop blanks.length).head?.filter isSign).toList
  { blanks := blanks
    sign := sign
    digits := ((input.drop blanks.length).drop sign.length).takeWhile isDigit
    blank := fun byte inside => (isBlank_iff byte).mp (List.mem_takeWhile_imp inside)
    signed := signed_of_filter _
    decimal := fun byte inside => (isDigit_iff byte).mp (List.mem_takeWhile_imp inside) }

theorem leading_value (input : List UInt8) :
    (leading input).value = (leading input).digits.foldl
      (appendDigit ((input.drop (leading input).blanks.length).head?.filter isSign = some 0x2D)) 0 := by
  have negative : decide ((leading input).sign = [0x2D]) =
      decide ((input.drop (leading input).blanks.length).head?.filter isSign = some 0x2D) :=
    decide_eq_decide.mpr Option.toList_eq_singleton_iff
  rw [Numeral.value, negative]

theorem append_prefix_of_drop {front next input : List UInt8} (leads : front <+: input)
    (follows : next <+: input.drop front.length) : front ++ next <+: input := by
  obtain ⟨tail, rfl⟩ := leads
  rw [List.drop_left] at follows
  exact (List.prefix_append_right_inj front).mpr follows

theorem sign_leads (input : List UInt8) : (input.head?.filter isSign).toList <+: input := by
  cases input with
  | nil => simp
  | cons byte rest => by_cases sign : isSign byte <;> simp [Option.filter, sign]

theorem leading_leads (input : List UInt8) : (leading input).bytes <+: input := by
  have signed : (leading input).blanks ++ (leading input).sign <+: input :=
    append_prefix_of_drop (List.takeWhile_prefix _) (sign_leads _)
  apply append_prefix_of_drop signed
  rw [List.length_append, ← List.drop_drop]
  exact List.takeWhile_prefix _

theorem length_le_takeWhile {keep : UInt8 → Bool} {front tail : List UInt8}
    (kept : ∀ byte ∈ front, keep byte) :
    front.length ≤ ((front ++ tail).takeWhile keep).length := by
  rw [List.takeWhile_append_of_pos kept, List.length_append]
  exact Nat.le_add_right _ _

theorem digit_apart {byte : UInt8} (digit : isDigit byte) : isBlank byte = false ∧ isSign byte = false := by
  grind [isBlank, isSign, isDigit]

/-- Where a numeral has more than blanks, its blanks stop before its sign, and its sign is told from its digits. -/
theorem Numeral.begun (numeral : Numeral) (tail : List UInt8) (begun : numeral.sign ++ numeral.digits ≠ []) :
    (numeral.sign ++ (numeral.digits ++ tail)).takeWhile isBlank = [] ∧
      ((numeral.sign ++ (numeral.digits ++ tail)).head?.filter isSign).toList = numeral.sign := by
  obtain ⟨blanks, sign, digits, blank, signed, decimal⟩ := numeral
  simp only [List.mem_cons, List.not_mem_nil, or_false] at signed
  rcases signed with rfl | rfl | rfl
  · cases digits with
    | nil => exact absurd rfl begun
    | cons first digits =>
        have apart := digit_apart ((isDigit_iff first).mpr (decimal first List.mem_cons_self))
        simp [apart, Option.filter]
  · exact ⟨rfl, rfl⟩
  · exact ⟨rfl, rfl⟩

/-- No numeral that the input begins with is longer. -/
theorem longest_leading (input : List UInt8) (other : Numeral) (leads : other.bytes <+: input) :
    other.bytes.length ≤ (leading input).bytes.length := by
  obtain ⟨tail, split⟩ := leads
  have blank : ∀ byte ∈ other.blanks, isBlank byte := fun byte inside =>
    (isBlank_iff byte).mpr (other.blank byte inside)
  have decimal : ∀ byte ∈ other.digits, isDigit byte := fun byte inside =>
    (isDigit_iff byte).mpr (other.decimal byte inside)
  simp only [Numeral.bytes, List.append_assoc] at split
  simp only [Numeral.bytes, List.length_append]
  -- Blanks alone may be followed by more of them. Anything after the blanks pins them down, and the sign too.
  by_cases bare : other.sign ++ other.digits = []
  · obtain ⟨unsigned, empty⟩ := List.append_eq_nil_iff.mp bare
    have blanks : other.blanks.length ≤ (leading input).blanks.length := by
      rw [← split]
      exact length_le_takeWhile blank
    rw [unsigned, empty, List.length_nil]
    omega
  · obtain ⟨stops, signed⟩ := other.begun tail bare
    have blanks : (leading input).blanks = other.blanks := by
      change input.takeWhile isBlank = _
      rw [← split, List.takeWhile_append_of_pos blank, stops, List.append_nil]
    have after : input.drop (leading input).blanks.length = other.sign ++ (other.digits ++ tail) := by
      rw [blanks, ← split, List.drop_left]
    have sign : (leading input).sign = other.sign := by
      change ((input.drop (leading input).blanks.length).head?.filter isSign).toList = _
      rw [after, signed]
    have digits : other.digits.length ≤ (leading input).digits.length := by
      change _ ≤ (((input.drop (leading input).blanks.length).drop
        (leading input).sign.length).takeWhile isDigit).length
      rw [after, sign, List.drop_left]
      exact length_le_takeWhile decimal
    rw [blanks, sign]
    omega

end Numbers

def counted (streams : Streams) : Streams :=
  { streams with traffic := { streams.traffic with reads := streams.traffic.reads + 1 } }

def advanced (streams : Streams) (count : Nat) : Streams :=
  { streams with
    input := streams.input.drop count
    traffic := { streams.traffic with bytesRead := streams.traffic.bytesRead + count } }

theorem run_countRead (streams : Streams) : countRead streams = .ok () streams.counted := rfl

theorem run_consume (count : Nat) (streams : Streams) : consume count streams = .ok () (streams.advanced count) :=
  rfl

theorem advanced_advanced (streams : Streams) (first second : Nat) :
    (streams.advanced first).advanced second = streams.advanced (first + second) := by
  simp [advanced, Nat.add_assoc]

theorem booked_read {call : Call} (reads : call.isRead) (streams : Streams) (taken rest : List UInt8)
    (whole : taken ++ rest = streams.input) :
    streams.counted.advanced taken.length = streams.booked [call] taken rest := by
  have silent : call.slice? = none := by
    cases call <;> simp_all [Call.isRead, Call.slice?]
  simp [advanced, counted, booked, slices, reads, silent, ← whole]

theorem run_look (streams : Streams) (ends : streams.inputEnd = .stop) :
    look streams = .ok streams.input streams := by
  rw [look, run_bind_ok (run_get streams), ends]
  cases streams.input <;> rfl

theorem run_readByte {streams : Streams} (ends : streams.inputEnd = .stop) :
    readByte streams = .ok streams.input.head?
      (streams.booked [.byte] streams.input.head?.toList streams.input.tail) := by
  rw [readByte, run_bind_ok (run_countRead streams), run_bind_ok (run_look streams.counted ends)]
  cases unread : streams.input with
  | nil =>
      have entry : streams.counted.advanced 0 = streams.booked [.byte] [] [] :=
        booked_read rfl streams [] [] unread.symm
      rw [show streams.counted.input = [] from unread]
      exact congrArg (EStateM.Result.ok none) entry
  | cons first rest =>
      have entry : streams.counted.advanced 1 = streams.booked [.byte] [first] rest :=
        booked_read rfl streams [first] rest unread.symm
      rw [show streams.counted.input = first :: rest from unread]
      exact congrArg (EStateM.Result.ok (some first)) entry

theorem run_readNumber {streams : Streams} (ends : streams.inputEnd = .stop) :
    readNumber streams = .ok (leading streams.input).value
      (streams.booked [.number] (leading streams.input).bytes
        (streams.input.drop (leading streams.input).bytes.length)) := by
  rw [readNumber, run_bind_ok (run_countRead streams), run_bind_ok (run_get _), run_bind_ok (run_consume _ _),
    run_bind_ok (run_look (streams.counted.advanced _) ends), run_bind_ok (run_consume _ _),
    run_bind_ok (run_consume _ _), advanced_advanced, advanced_advanced,
    run_bind_ok (run_look (streams.counted.advanced _) ends)]
  rw [← booked_read rfl streams _ _ (List.prefix_iff_eq_append.mp (leading_leads streams.input)), Numeral.bytes,
    List.length_append, List.length_append, Nat.add_assoc, leading_value]
  rfl

theorem takeWhile_line {line : List UInt8} (unbroken : 0x0A ∉ line) (rest : List UInt8) :
    ((line ++ rest).takeWhile fun byte => byte ≠ 0x0A) = line ++ rest.takeWhile fun byte => byte ≠ 0x0A := by
  apply List.takeWhile_append_of_pos
  intro byte inside
  exact decide_eq_true (ne_of_mem_of_not_mem inside unbroken)

theorem run_readLine_of_unbroken {streams : Streams} (ends : streams.inputEnd = .stop)
    (unbroken : 0x0A ∉ streams.input) :
    readLine streams = .ok streams.input (streams.booked [.line] streams.input []) := by
  have whole : (streams.counted.input.takeWhile fun byte => byte ≠ 0x0A) = streams.counted.input := by
    have line := takeWhile_line unbroken []
    rwa [List.takeWhile_nil, List.append_nil] at line
  rw [readLine, run_bind_ok (run_countRead streams), run_bind_ok (run_get _), whole,
    if_neg (Nat.lt_irrefl streams.counted.input.length), show streams.counted.inputEnd = .stop from ends]
  exact congrArg (EStateM.Result.ok streams.input) (booked_read rfl streams _ _ (List.append_nil _))

theorem run_readLine_of_break {streams : Streams} {line rest : List UInt8}
    (broken : line ++ 0x0A :: rest = streams.input) (unbroken : 0x0A ∉ line) :
    readLine streams = .ok line (streams.booked [.line] (line ++ [0x0A]) rest) := by
  have front : (streams.counted.input.takeWhile fun byte => byte ≠ 0x0A) = line := by
    have front := takeWhile_line unbroken (0x0A :: rest)
    rwa [broken, List.takeWhile_cons_of_neg (by decide), List.append_nil] at front
  have shorter : line.length < streams.counted.input.length := by
    change line.length < streams.input.length
    simp [← broken]
  have entry : streams.counted.advanced (line.length + 1) = streams.booked [.line] (line ++ [0x0A]) rest := by
    rw [← booked_read rfl streams _ _ (by simpa using broken), List.length_append, List.length_singleton]
  rw [readLine, run_bind_ok (run_countRead streams), run_bind_ok (run_get _), front, if_pos shorter]
  exact congrArg (EStateM.Result.ok line) entry

theorem run_write (bytes : List UInt8) (streams : Streams) :
    write bytes streams = .ok () (streams.booked [.write bytes] [] streams.input) := by
  have single : slices [.write bytes] = [bytes] := rfl
  have entry : streams.booked [.write bytes] [] streams.input =
      { streams with
        output := streams.output.appendList bytes
        traffic :=
          { streams.traffic with
            writes := streams.traffic.writes + 1
            bytesWritten := streams.traffic.bytesWritten + bytes.length } } := by
    simp [booked, single, Call.isRead]
  rw [entry]
  rfl

/-- One call takes its bytes off the input and enters itself in the books. -/
theorem run_call (call : Call) {streams : Streams} (ends : streams.inputEnd = .stop) :
    ∃ taken rest reply, Takes call streams.input taken rest reply ∧
      call.run streams = .ok reply (streams.booked [call] taken rest) := by
  cases call with
  | byte =>
      have ran := run_readByte ends
      cases unread : streams.input with
      | nil =>
          rw [unread] at ran
          exact ⟨[], [], _, .noByte, run_bind_ok ran⟩
      | cons first rest =>
          rw [unread] at ran
          exact ⟨[first], rest, _, .byte first rest, run_bind_ok ran⟩
  | number =>
      have whole := List.prefix_iff_eq_append.mp (leading_leads streams.input)
      have takes := Takes.number (leading streams.input) (streams.input.drop (leading streams.input).bytes.length)
      rw [whole] at takes
      exact ⟨_, _, _, takes (longest_leading streams.input), run_bind_ok (run_readNumber ends)⟩
  | line =>
      by_cases broken : 0x0A ∈ streams.input
      · obtain ⟨line, rest, split, unbroken⟩ := List.eq_append_cons_of_mem broken
        have ran := run_readLine_of_break split.symm unbroken
        rw [split]
        exact ⟨_, _, _, .line line rest unbroken, run_bind_ok ran⟩
      · exact ⟨_, _, _, .lastLine streams.input broken, run_bind_ok (run_readLine_of_unbroken ends broken)⟩
  | write bytes =>
      refine ⟨[], streams.input, .done, .write bytes _, ?_⟩
      rw [Call.run, run_bind_ok (run_write bytes streams)]
      rfl
  | flush =>
      refine ⟨[], streams.input, .done, .flush _, ?_⟩
      rw [show streams.booked [.flush] [] streams.input = streams from booked_nil streams]
      rfl

/-- What one call does to the books adds up over any number of calls. -/
theorem run_serve (calls : List Call) {streams : Streams} (ends : streams.inputEnd = .stop) :
    ∃ receipts unread, receipts.map Receipt.call = calls ∧ Served streams.input receipts unread ∧
      serve calls streams =
        .ok (receipts.map Receipt.reply) (streams.booked calls (consumed receipts) unread) := by
  induction calls generalizing streams with
  | nil =>
      refine ⟨[], streams.input, rfl, .nil _, ?_⟩
      rw [consumed, List.flatMap_nil, booked_nil]
      rfl
  | cons call calls induction =>
      obtain ⟨taken, rest, reply, takes, ran⟩ := run_call call ends
      have still : (streams.booked [call] taken rest).inputEnd = .stop := ends
      obtain ⟨receipts, unread, same, served, onward⟩ := induction still
      refine ⟨⟨call, taken, reply⟩ :: receipts, unread, congrArg (call :: ·) same, .cons takes served, ?_⟩
      rw [booked_booked] at onward
      rw [serve, run_bind_ok ran, run_bind_ok onward]
      rfl

section Lines

/-- The pieces between line feeds; what follows the last one is no piece if it is empty. -/
def pieces (input : List UInt8) : List (List UInt8) :=
  let parts := input.splitOn 0x0A
  if parts.getLast? = some [] then parts.dropLast else parts

theorem pieces_nil : pieces [] = [] := rfl

theorem pieces_of_unbroken {line : List UInt8} (unbroken : 0x0A ∉ line) (filled : line ≠ []) :
    pieces line = [line] := by
  rw [pieces, List.splitOn_eq_singleton unbroken]
  simp [filled]

theorem pieces_of_break {line : List UInt8} (unbroken : 0x0A ∉ line) (rest : List UInt8) :
    pieces (line ++ 0x0A :: rest) = line :: pieces rest := by
  have some := List.splitOn_ne_nil (0x0A : UInt8) rest
  rw [pieces, pieces, List.splitOn_append_cons_self_of_not_mem unbroken, List.getLast?_cons_of_ne_nil some]
  split
  · exact List.dropLast_cons_of_ne_nil some
  · rfl

theorem pieces_eq_nil_iff (input : List UInt8) : pieces input = [] ↔ input = [] := by
  constructor
  · intro empty
    by_cases broken : 0x0A ∈ input
    · obtain ⟨line, rest, rfl, unbroken⟩ := List.eq_append_cons_of_mem broken
      rw [pieces_of_break unbroken] at empty
      cases empty
    · by_contra filled
      rw [pieces_of_unbroken broken filled] at empty
      cases empty
  · rintro rfl
    exact pieces_nil

/-- Lines read one after another are the pieces in order, and empty once these are used up. -/
theorem Served.lines {input left : List UInt8} {receipts : List Receipt} (served : Served input receipts left)
    (lines : ∀ receipt ∈ receipts, receipt.call = .line) :
    receipts.map Receipt.reply = ((pieces input).take receipts.length ++
        List.replicate (receipts.length - (pieces input).length) []).map Reply.line ∧
      (left = [] ↔ (pieces input).length ≤ receipts.length) := by
  induction served with
  | nil unread => simp [pieces_eq_nil_iff]
  | @cons unread rest left receipt receipts takes served induction =>
      obtain ⟨replies, used⟩ := induction fun receipt inside => lines receipt (List.mem_cons_of_mem _ inside)
      rw [lines receipt List.mem_cons_self] at takes
      rw [List.map_cons, replies]
      generalize receipt.taken = taken at takes
      generalize receipt.reply = reply at takes
      cases takes with
      | line line rest unbroken =>
          rw [pieces_of_break unbroken]
          simpa using used
      -- The input is used up here, so every further line is empty, as this one is if there was no input left.
      | lastLine _ unbroken =>
          rw [pieces_nil] at used ⊢
          by_cases filled : unread = []
          · subst filled
            simp [pieces_nil, used, List.replicate_succ]
          · simp [pieces_of_unbroken unbroken filled, used]

end Lines

/--
Whatever is asked of streams whose input ends, the bytes taken and the bytes unread make up the input and the
books are right; lines read until the input is used up are its pieces.
-/
theorem serve_partitions_streams (input : List UInt8) :
    (∀ calls, ∃ receipts unread, receipts.map Receipt.call = calls ∧ Served input receipts unread ∧
      consumed receipts ++ unread = input ∧
      serve calls (ofInput input .stop) = .ok (receipts.map Receipt.reply)
        { input := unread
          inputEnd := .stop
          output := (slices calls).flatten.toArray
          traffic :=
            { bytesRead := (consumed receipts).length
              bytesWritten := (slices calls).flatten.length
              reads := calls.countP Call.isRead
              writes := (slices calls).length } }) ∧
    ∀ count, ∃ reached,
      serve (List.replicate count .line) (ofInput input .stop) =
        .ok (((pieces input).take count ++
          List.replicate (count - (pieces input).length) []).map Reply.line) reached ∧
      (reached.input = [] ↔ (pieces input).length ≤ count) := by
  have ends : (ofInput input .stop).inputEnd = .stop := rfl
  constructor
  · intro calls
    obtain ⟨receipts, unread, same, served, ran⟩ := run_serve calls ends
    refine ⟨receipts, unread, same, served, served.consumed_append, ran.trans ?_⟩
    simp [booked, ofInput]
  · intro count
    obtain ⟨receipts, unread, same, served, ran⟩ := run_serve (List.replicate count .line) ends
    have length : receipts.length = count := by
      rw [← List.length_map, same, List.length_replicate]
    have lines : ∀ receipt ∈ receipts, receipt.call = .line := by
      intro receipt inside
      have listed := List.mem_map_of_mem (f := Receipt.call) inside
      rw [same] at listed
      exact List.eq_of_mem_replicate listed
    obtain ⟨replies, left⟩ := served.lines lines
    rw [length] at replies left
    rw [replies] at ran
    exact ⟨_, ran, left⟩

end Streams

end RingTape
