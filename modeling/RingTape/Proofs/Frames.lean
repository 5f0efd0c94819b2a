import Mathlib.Logic.Function.Iterate
import RingTape.Program

/-!
Running code one step at a time. Instead of recursing into blocks, the stepping machine keeps a stack of
frames, one for each block that it is in, innermost first. Running a piece of code to its end and stepping
until nothing is left to do come to the same.
-/

namespace RingTape

set_option autoImplicit false

/-- A block that is being run, and which of its members is. -/
structure Frame where
  block : Block Code
  index : Nat

theorem Block.members_length_pos {α : Type} (block : Block α) : 0 < block.members.length :=
  Nat.succ_pos _

/-- What each step keeps as long as it is fair, a run of fair steps keeps. -/
theorem iterate_kept {α : Type} {next : α → α} {holds fair : α → Prop}
    (kept : ∀ state, holds state → fair state → holds (next state)) {state : α} (begun : holds state) {count : Nat}
    (early : ∀ earlier < count, fair (next^[earlier] state)) : holds (next^[count] state) := by
  induction count with
  | zero => exact begun
  | succ count induction =>
      have before := induction fun earlier less => early earlier (Nat.lt_succ_of_lt less)
      rw [Function.iterate_succ_apply']
      exact kept _ before (early count (Nat.lt_succ_self count))

namespace Frame

/-- The member that is being run; the index counts round and round. -/
def member (frame : Frame) : Code :=
  frame.block.members.get
    ⟨frame.index % frame.block.members.length, Nat.mod_lt _ frame.block.members_length_pos⟩

def next (frame : Frame) : Frame :=
  ⟨frame.block, (frame.index + 1) % frame.block.members.length⟩

theorem member_mem (frame : Frame) : frame.member ∈ frame.block.members :=
  List.get_mem _ _

/-- The members from the current one to the last. -/
def pending (frame : Frame) : List Code :=
  frame.block.members.drop frame.index

theorem pending_eq (frame : Frame) (placed : frame.index < frame.block.members.length) :
    frame.pending = frame.member :: frame.block.members.drop (frame.index + 1) := by
  unfold pending member
  rw [List.drop_eq_getElem_cons placed]
  simp only [List.get_eq_getElem, Nat.mod_eq_of_lt placed]

theorem next_placed (frame : Frame) : frame.next.index < frame.next.block.members.length :=
  Nat.mod_lt _ frame.block.members_length_pos

/-- After the last member comes the first one. -/
theorem pending_next (frame : Frame) (placed : frame.index < frame.block.members.length) :
    frame.next.pending = frame.block.members.drop (frame.index + 1) ∨
      frame.block.members.drop (frame.index + 1) = [] ∧ frame.next.pending = frame.block.members := by
  unfold pending next
  rcases Nat.lt_or_ge (frame.index + 1) frame.block.members.length with within | beyond
  · left
    simp only [Nat.mod_eq_of_lt within]
  · right
    have last : frame.index + 1 = frame.block.members.length := by omega
    simp only [last, Nat.mod_self, List.drop_length, List.drop_zero, and_self]

end Frame

/-- Nothing is run after the code that ended so. -/
def Verdict.stops : Verdict → Bool
  | .flow .okay => false
  | .flow .leave => false
  | .flow .exit => true
  | .abort _ => true

inductive Config where
  /-- About to run a piece of code within the given blocks. -/
  | running (code : Code) (stack : List Frame) (machine : Machine)
  | ended (verdict : Verdict) (machine : Machine)

namespace Config

def machine : Config → Machine
  | .running _ _ machine => machine
  | .ended _ machine => machine

def hasEnded : Config → Bool
  | .running _ _ _ => false
  | .ended _ _ => true

/-- Go on after a piece of code that ended with the given verdict. -/
def resume : List Frame → Verdict → Machine → Config
  | [], verdict, machine => .ended verdict machine
  | frame :: stack, .flow .okay, machine => .running frame.next.member (frame.next :: stack) machine
  | _ :: stack, .flow .leave, machine => resume stack (.flow .okay) machine
  | _ :: _, .flow .exit, machine => .ended (.flow .exit) machine
  | _ :: _, .abort cause, machine => .ended (.abort cause) machine

/-- Visit one instruction, or enter a block or pass over it. -/
def step (limit : Option Nat) : Config → Config
  | .running (.instruction single) stack machine =>
      resume stack (single.visit limit machine).1 (single.visit limit machine).2
  | .running (.block loop) stack machine =>
      if loop.gate.admits machine.registers.condition then
        .running loop.first (⟨loop, 0⟩ :: stack) machine
      else
        resume stack (.flow .okay) machine
  | .ended verdict machine => .ended verdict machine

theorem resume_of_stops (stack : List Frame) {verdict : Verdict} (stops : verdict.stops) (machine : Machine) :
    resume stack verdict machine = .ended verdict machine := by
  fun_cases resume stack verdict machine with
  | case2 | case3 => cases stops
  | _ => rfl

@[simp] theorem machine_resume (stack : List Frame) (verdict : Verdict) (machine : Machine) :
    (resume stack verdict machine).machine = machine := by
  fun_induction resume stack verdict machine with
  | case3 _ stack machine induction => exact induction
  | _ => rfl

theorem iterate_ended (limit : Option Nat) (verdict : Verdict) (machine : Machine) (count : Nat) :
    (step limit)^[count] (.ended verdict machine) = .ended verdict machine :=
  Function.iterate_fixed rfl count

theorem iterate_of_ended {limit : Option Nat} {config : Config} {verdict : Verdict} {machine : Machine}
    {count more : Nat} (ended : (step limit)^[count] config = .ended verdict machine) (later : count ≤ more) :
    (step limit)^[more] config = .ended verdict machine := by
  obtain ⟨rest, rfl⟩ := Nat.exists_eq_add_of_le' later
  rw [Function.iterate_add_apply, ended, iterate_ended]

theorem ended_unique {limit : Option Nat} {config : Config} {verdict verdict' : Verdict}
    {machine machine' : Machine} {count count' : Nat}
    (ended : (step limit)^[count] config = .ended verdict machine)
    (ended' : (step limit)^[count'] config = .ended verdict' machine') :
    verdict = verdict' ∧ machine = machine' := by
  have left := iterate_of_ended ended (Nat.le_max_left count count')
  have right := iterate_of_ended ended' (Nat.le_max_right count count')
  rw [left] at right
  exact Config.ended.inj right

theorem iterate_trans {limit : Option Nat} {first second third : Config} {count more : Nat}
    (reached : (step limit)^[count] first = second) (onward : (step limit)^[more] second = third) :
    (step limit)^[more + count] first = third := by
  rw [Function.iterate_add_apply, reached, onward]

end Config

/-- Every instruction and every block of the code, at any depth, is as described. -/
inductive Code.Throughout (single : Instruction → Prop) (loop : Block Code → Prop) : Code → Prop where
  | instruction (instruction : Instruction) (holds : single instruction) :
      Throughout single loop (.instruction instruction)
  | block (block : Block Code) (holds : loop block)
      (members : ∀ member ∈ block.members, Throughout single loop member) :
      Throughout single loop (.block block)

namespace Config

/-- All code that can still be run is as described. -/
def Throughout (single : Instruction → Prop) (loop : Block Code → Prop) : Config → Prop
  | .running code stack _ =>
      code.Throughout single loop ∧ ∀ frame ∈ stack, (Code.block frame.block).Throughout single loop
  | .ended _ _ => True

section Throughout

variable {single : Instruction → Prop} {loop : Block Code → Prop}

theorem throughout_resume {stack : List Frame}
    (frames : ∀ frame ∈ stack, (Code.block frame.block).Throughout single loop) (verdict : Verdict)
    (machine : Machine) : (resume stack verdict machine).Throughout single loop := by
  fun_induction resume stack verdict machine with
  | case2 frame stack machine =>
      have outer := frames frame List.mem_cons_self
      have next : (Code.block frame.next.block).Throughout single loop := outer
      cases next with
      | block _ _ members =>
          refine ⟨members _ frame.next.member_mem, ?_⟩
          intro inner among
          rcases List.mem_cons.mp among with rfl | among
          · exact outer
          · exact frames inner (List.mem_cons_of_mem _ among)
  | case3 _ stack machine induction => exact induction fun frame among => frames frame (List.mem_cons_of_mem _ among)
  | _ => trivial

theorem throughout_step (limit : Option Nat) {config : Config} (holds : config.Throughout single loop) :
    (config.step limit).Throughout single loop := by
  match config with
  | .ended verdict machine => trivial
  | .running (.instruction instruction) stack machine => exact throughout_resume holds.2 _ _
  | .running (.block block) stack machine =>
      rw [step]
      split
      · refine ⟨?_, fun frame among => ?_⟩
        · cases holds.1 with
          | block _ _ members => exact members _ List.mem_cons_self
        · rcases List.mem_cons.mp among with rfl | among
          · exact holds.1
          · exact holds.2 frame among
      · exact throughout_resume holds.2 _ _

end Throughout

end Config

namespace Code

/-- The members of a block are run in turn until one of them leaves the block or stops the run. -/
theorem cycle_cons_iff {limit : Option Nat} {budget : Nat} {members rest : List Code} {code : Code}
    {machine : Machine} {result : Verdict × Machine} :
    cycle limit (budget + 1) members (code :: rest) machine = some result ↔
      (∃ after, run limit budget code machine = some (.flow .okay, after) ∧
        cycle limit budget members rest after = some result) ∨
      (∃ after, run limit budget code machine = some (.flow .leave, after) ∧ result = (.flow .okay, after)) ∨
      (run limit budget code machine = some result ∧ result.1.stops) := by
  rw [cycle]
  rcases run limit budget code machine with _ | ⟨verdict | cause, after⟩
  · simp
  · cases verdict <;> grind [Verdict.stops]
  · grind [Verdict.stops]

theorem run_block_iff {limit : Option Nat} {budget : Nat} {loop : Block Code} {machine : Machine}
    {result : Verdict × Machine} :
    run limit (budget + 1) (.block loop) machine = some result ↔
      (loop.gate.admits machine.registers.condition = true ∧
        cycle limit budget loop.members loop.members machine = some result) ∨
      (loop.gate.admits machine.registers.condition = false ∧ result = (.flow .okay, machine)) := by
  rw [run]
  cases loop.gate.admits machine.registers.condition <;> simp [eq_comm]

theorem run_cycle_succ (limit : Option Nat) (budget : Nat) :
    (∀ code machine result, run limit budget code machine = some result →
      run limit (budget + 1) code machine = some result) ∧
    (∀ members rest machine result, cycle limit budget members rest machine = some result →
      cycle limit (budget + 1) members rest machine = some result) := by
  induction budget with
  | zero =>
      constructor
      · intro code machine result ran
        cases code with
        | instruction single => simpa only [run] using ran
        | block loop => simp [run] at ran
      · intro members rest machine result ran
        simp [cycle] at ran
  | succ budget induction =>
      obtain ⟨runs, cycles⟩ := induction
      constructor
      · intro code machine result ran
        cases code with
        | instruction single => simpa only [run] using ran
        | block loop =>
            rw [run_block_iff] at ran ⊢
            exact ran.imp_left fun entered => ⟨entered.1, cycles _ _ _ _ entered.2⟩
      · intro members rest machine result ran
        cases rest with
        | nil =>
            rw [cycle] at ran ⊢
            exact cycles _ _ _ _ ran
        | cons code rest =>
            rw [cycle_cons_iff] at ran ⊢
            rcases ran with ⟨after, ran, onward⟩ | ⟨after, ran, same⟩ | ⟨ran, stops⟩
            · exact .inl ⟨after, runs _ _ _ ran, cycles _ _ _ _ onward⟩
            · exact .inr (.inl ⟨after, runs _ _ _ ran, same⟩)
            · exact .inr (.inr ⟨runs _ _ _ ran, stops⟩)

theorem run_mono {limit : Option Nat} {budget more : Nat} (atLeast : budget ≤ more) {code : Code}
    {machine : Machine} {result : Verdict × Machine} (ran : run limit budget code machine = some result) :
    run limit more code machine = some result := by
  induction atLeast with
  | refl => exact ran
  | step _ induction => exact (run_cycle_succ limit _).1 _ _ _ induction

theorem cycle_mono {limit : Option Nat} {budget more : Nat} (atLeast : budget ≤ more) {members rest : List Code}
    {machine : Machine} {result : Verdict × Machine}
    (ran : cycle limit budget members rest machine = some result) :
    cycle limit more members rest machine = some result := by
  induction atLeast with
  | refl => exact ran
  | step _ induction => exact (run_cycle_succ limit _).2 _ _ _ _ induction

theorem cycle_next {limit : Option Nat} {budget : Nat} {frame : Frame}
    (placed : frame.index < frame.block.members.length) {machine : Machine} {result : Verdict × Machine}
    (ran : cycle limit budget frame.block.members (frame.block.members.drop (frame.index + 1)) machine =
      some result) :
    cycle limit budget frame.block.members frame.next.pending machine = some result := by
  rcases frame.pending_next placed with same | ⟨none, all⟩
  · rw [same]
    exact ran
  · rw [none] at ran
    rw [all]
    cases budget with
    | zero => simp [cycle] at ran
    | succ budget =>
        rw [cycle] at ran
        exact cycle_mono (Nat.le_succ budget) ran

theorem cycle_of_next {limit : Option Nat} {budget : Nat} {frame : Frame}
    (placed : frame.index < frame.block.members.length) {machine : Machine} {result : Verdict × Machine}
    (ran : cycle limit budget frame.block.members frame.next.pending machine = some result) :
    cycle limit (budget + 1) frame.block.members (frame.block.members.drop (frame.index + 1)) machine =
      some result := by
  rcases frame.pending_next placed with same | ⟨none, all⟩
  · rw [← same]
    exact cycle_mono (Nat.le_succ budget) ran
  · rw [all] at ran
    rw [none, cycle]
    exact ran

open Config in
/-- The induction is on the budget, for all stacks around the code at once. -/
theorem reaches_resume (limit : Option Nat) (budget : Nat) :
    (∀ code machine verdict after, run limit budget code machine = some (verdict, after) →
      ∀ stack, ∃ count, (step limit)^[count] (.running code stack machine) = resume stack verdict after) ∧
    (∀ (frame : Frame) machine verdict after, frame.index < frame.block.members.length →
      cycle limit budget frame.block.members frame.pending machine = some (verdict, after) →
      ∀ stack, ∃ count, (step limit)^[count] (.running frame.member (frame :: stack) machine) =
        resume stack verdict after) := by
  induction budget with
  | zero =>
      constructor
      · intro code machine verdict after ran stack
        cases code with
        | instruction single =>
            rw [run, Option.some.injEq] at ran
            exact ⟨1, by simp only [Function.iterate_one, step, ran]⟩
        | block loop => simp [run] at ran
      · intro frame machine verdict after placed ran
        simp [cycle] at ran
  | succ budget induction =>
      obtain ⟨runs, cycles⟩ := induction
      constructor
      · intro code machine verdict after ran stack
        cases code with
        | instruction single =>
            rw [run, Option.some.injEq] at ran
            exact ⟨1, by simp only [Function.iterate_one, step, ran]⟩
        | block loop =>
            rcases run_block_iff.1 ran with ⟨admitted, ran⟩ | ⟨rejected, same⟩
            · obtain ⟨count, reached⟩ := cycles ⟨loop, 0⟩ _ _ _ loop.members_length_pos ran stack
              refine ⟨count + 1, ?_⟩
              rw [Function.iterate_succ_apply, step, if_pos admitted]
              exact reached
            · cases same
              refine ⟨1, ?_⟩
              rw [Function.iterate_one, step, rejected]
              rfl
      · intro frame machine verdict after placed ran stack
        rw [frame.pending_eq placed, cycle_cons_iff] at ran
        rcases ran with ⟨between, ran, onward⟩ | ⟨between, ran, same⟩ | ⟨ran, stops⟩
        · obtain ⟨count, reached⟩ := runs _ _ _ _ ran (frame :: stack)
          obtain ⟨more, ended⟩ := cycles frame.next _ _ _ frame.next_placed (cycle_next placed onward) stack
          exact ⟨more + count, iterate_trans reached ended⟩
        · cases same
          exact runs _ _ _ _ ran (frame :: stack)
        · obtain ⟨count, reached⟩ := runs _ _ _ _ ran (frame :: stack)
          refine ⟨count, ?_⟩
          rw [reached, resume_of_stops _ stops, resume_of_stops _ stops]

section Passing

open Config

/-- A run that ends within so many steps gets past the code it starts with. -/
def PassesCode (limit : Option Nat) (total : Nat) : Prop :=
  ∀ code stack machine, ((step limit)^[total] (.running code stack machine)).hasEnded →
    ∃ budget verdict after count, 0 < count ∧ count ≤ total ∧
      run limit budget code machine = some (verdict, after) ∧
      (step limit)^[count] (.running code stack machine) = resume stack verdict after

/-- A run that ends within so many steps gets past the block it starts in. -/
def PassesFrame (limit : Option Nat) (total : Nat) : Prop :=
  ∀ (frame : Frame) stack machine, frame.index < frame.block.members.length →
    ((step limit)^[total] (.running frame.member (frame :: stack) machine)).hasEnded →
    ∃ budget verdict after count, 0 < count ∧ count ≤ total ∧
      cycle limit budget frame.block.members frame.pending machine = some (verdict, after) ∧
      (step limit)^[count] (.running frame.member (frame :: stack) machine) = resume stack verdict after

theorem passesCode_succ {limit : Option Nat} {total : Nat} (frames : PassesFrame limit total) :
    PassesCode limit (total + 1) := by
  intro code stack machine ended
  rw [Function.iterate_succ_apply] at ended
  cases code with
  | instruction single =>
      exact ⟨0, _, _, 1, Nat.one_pos, by omega, by rw [run], rfl⟩
  | block loop =>
      cases gate : loop.gate.admits machine.registers.condition with
      | false =>
          refine ⟨1, .flow .okay, machine, 1, Nat.one_pos, by omega, ?_, ?_⟩
          · exact run_block_iff.2 (.inr ⟨gate, rfl⟩)
          · rw [Function.iterate_one, step, gate]
            rfl
      | true =>
          rw [step, if_pos gate] at ended
          obtain ⟨budget, verdict, after, count, _, within, ran, reached⟩ :=
            frames ⟨loop, 0⟩ stack machine loop.members_length_pos ended
          refine ⟨budget + 1, verdict, after, count + 1, Nat.succ_pos _, by omega, ?_, ?_⟩
          · exact run_block_iff.2 (.inl ⟨gate, ran⟩)
          · rw [Function.iterate_succ_apply, step, if_pos gate]
            exact reached

/-- The current member is passed first, and then the rest of the block in fewer steps. -/
theorem passesFrame_of_less {limit : Option Nat} {total : Nat} (codes : PassesCode limit total)
    (frames : ∀ less < total, PassesFrame limit less) : PassesFrame limit total := by
  intro frame stack machine placed ended
  obtain ⟨budget, verdict, between, count, positive, within, ran, reached⟩ := codes _ _ _ ended
  by_cases stops : verdict.stops
  · refine ⟨budget + 1, verdict, between, count, positive, within, ?_, ?_⟩
    · rw [frame.pending_eq placed]
      exact cycle_cons_iff.2 (.inr (.inr ⟨ran, stops⟩))
    · rw [reached, resume_of_stops _ stops, resume_of_stops _ stops]
  match verdict with
  | .flow .leave =>
      refine ⟨budget + 1, .flow .okay, between, count, positive, within, ?_, reached⟩
      rw [frame.pending_eq placed]
      exact cycle_cons_iff.2 (.inr (.inl ⟨between, ran, rfl⟩))
  | .flow .okay =>
      obtain ⟨left, rfl⟩ := Nat.exists_eq_add_of_le' within
      rw [Function.iterate_add_apply, reached] at ended
      obtain ⟨budget', verdict, after, count', _, within', onward, reached'⟩ :=
        frames left (by omega) frame.next stack between frame.next_placed ended
      refine ⟨max budget (budget' + 1) + 1, verdict, after, count' + count, by omega, by omega, ?_,
        iterate_trans reached reached'⟩
      rw [frame.pending_eq placed]
      exact cycle_cons_iff.2 (.inl ⟨between, run_mono (Nat.le_max_left _ _) ran,
        cycle_mono (Nat.le_max_right _ _) (cycle_of_next placed onward)⟩)

theorem passesFrame (limit : Option Nat) (total : Nat) : PassesFrame limit total := by
  induction total using Nat.strongRecOn with
  | ind total induction =>
      -- After a member the run goes on in the same frame, with fewer steps but not just one fewer.
      cases total with
      | zero => exact fun _ _ _ _ ended => absurd ended (by simp [hasEnded])
      | succ total =>
          exact passesFrame_of_less (passesCode_succ (induction total (Nat.lt_succ_self total))) induction

theorem passesCode (limit : Option Nat) (total : Nat) : PassesCode limit total := by
  cases total with
  | zero => exact fun _ _ _ ended => absurd ended (by simp [hasEnded])
  | succ total => exact passesCode_succ (passesFrame limit total)

end Passing

/-- Running a piece of code ends just if stepping through it does, and in the same way. -/
theorem run_iff_ended {limit : Option Nat} {code : Code} {machine after : Machine} {verdict : Verdict} :
    (∃ budget, run limit budget code machine = some (verdict, after)) ↔
      ∃ count, (Config.step limit)^[count] (.running code [] machine) = .ended verdict after := by
  constructor
  · rintro ⟨budget, ran⟩
    exact (reaches_resume limit budget).1 _ _ _ _ ran []
  · rintro ⟨total, ended⟩
    obtain ⟨budget, verdict', after', count, _, _, ran, reached⟩ :=
      passesCode limit total code [] machine (by rw [ended]; rfl)
    obtain ⟨rfl, rfl⟩ := Config.ended_unique ended reached
    exact ⟨budget, ran⟩

/-- Running the code comes to an end, with this verdict and this machine. -/
def EndsIn (limit : Option Nat) (code : Code) (machine : Machine) (verdict : Verdict) (after : Machine) : Prop :=
  ∃ budget, run limit budget code machine = some (verdict, after)

theorem cycle_absorbs_leave (limit : Option Nat) (budget : Nat) (members rest : List Code) (machine after : Machine) :
    cycle limit budget members rest machine ≠ some (.flow .leave, after) := by
  induction budget generalizing rest machine with
  | zero => simp [cycle]
  | succ budget induction =>
      cases rest with
      | nil =>
          rw [cycle]
          exact induction members machine
      | cons code rest =>
          intro left
          rcases cycle_cons_iff.mp left with ⟨between, _, onward⟩ | ⟨_, _, same⟩ | ⟨_, stops⟩
          · exact induction rest between onward
          · cases same
          · cases stops

theorem block_absorbs_leave (limit : Option Nat) (loop : Block Code) (machine after : Machine) :
    ¬ (Code.block loop).EndsIn limit machine (.flow .leave) after := by
  intro ends
  obtain ⟨budget, ran⟩ := ends
  cases budget with
  | zero => simp [run] at ran
  | succ budget =>
      rcases run_block_iff.mp ran with ⟨_, cycled⟩ | ⟨_, same⟩
      · exact cycle_absorbs_leave limit budget _ _ machine after cycled
      · cases same

end Code

namespace Program

/-- The stepping machine at the start of a run. -/
def start (program : Program) (streams : Streams) : Config :=
  .running (.block program.root) [] (program.machine streams)

/-- The program after a run that ended so. -/
def finished (program : Program) (verdict : Verdict) (machine : Machine) : Ending × Program × Streams :=
  (verdict.ending,
    { program with
      store := machine.store
      registers := machine.registers
      hasRun := true
      steps := machine.steps
      abort := verdict.abort? },
    machine.streams)

/-- A parsed program has not run yet, and its head is on the child that its memory has or makes first. -/
theorem exists_of_parse {source : String} {program : Program} (parsed : parse source = .ok program) :
    ∃ draft tree head store, Draft.read source = .ok draft ∧ tree = draft.memory.getD CellTree.initial ∧
      ¬ tree.value ≤ 0 ∧ Store.child tree.root tree.store = .ok head store ∧
      program = ⟨draft.root, store, tree.root, ⟨draft.accumulator.getD 0, draft.condition.getD false, head⟩,
        false, 0, none⟩ := by
  unfold parse at parsed
  split at parsed
  case h_2 => cases parsed
  case h_1 draft read =>
    unfold ofDraft ofParts at parsed
    dsimp only at parsed
    split at parsed
    case isTrue => cases parsed
    case isFalse several =>
      split at parsed
      case h_2 => cases parsed
      case h_1 head store ran =>
        cases parsed
        exact ⟨draft, _, head, store, read, rfl, several, ran, rfl⟩

theorem hasRun_of_parse {source : String} {program : Program} (parsed : parse source = .ok program) :
    program.hasRun = false := by
  obtain ⟨_, _, _, _, _, _, _, _, same⟩ := exists_of_parse parsed
  rw [same]

theorem run_iff {program : Program} (fresh : program.hasRun = false) {streams : Streams} {limit : Option Nat}
    {result : Ending × Program × Streams} :
    (∃ budget, program.run streams limit budget = .ok (some result)) ↔
      ∃ count verdict machine, (Config.step limit)^[count] (program.start streams) = .ended verdict machine ∧
        program.finished verdict machine = result := by
  have each (budget : Nat) : program.run streams limit budget = .ok (some result) ↔
      ∃ verdict machine, Code.run limit budget (.block program.root) (program.machine streams) =
        some (verdict, machine) ∧ program.finished verdict machine = result := by
    simp only [run, fresh, Bool.false_eq_true, if_false, Except.ok.injEq, Option.map_eq_some_iff, Prod.exists]
    rfl
  simp only [each]
  constructor
  · rintro ⟨budget, verdict, machine, ran, same⟩
    obtain ⟨count, ended⟩ := Code.run_iff_ended.mp ⟨budget, ran⟩
    exact ⟨count, verdict, machine, ended, same⟩
  · rintro ⟨count, verdict, machine, ended, same⟩
    obtain ⟨budget, ran⟩ := Code.run_iff_ended.mpr ⟨count, ended⟩
    exact ⟨budget, verdict, machine, ran, same⟩

theorem ends_iff {program : Program} (fresh : program.hasRun = false) {streams : Streams} {limit : Option Nat} :
    (∃ budget result, program.run streams limit budget = .ok (some result)) ↔
      ∃ count, ((Config.step limit)^[count] (program.start streams)).hasEnded := by
  rw [exists_comm]
  simp only [run_iff fresh]
  constructor
  · rintro ⟨_, count, verdict, machine, ended, _⟩
    exact ⟨count, by rw [ended]; rfl⟩
  · rintro ⟨count, ended⟩
    cases final : (Config.step limit)^[count] (program.start streams) with
    | running code stack machine =>
        rw [final] at ended
        cases ended
    | ended verdict machine => exact ⟨_, count, verdict, machine, final, rfl⟩

theorem abort_of_run {program after : Program} {streams rest : Streams} {limit : Option Nat} {budget : Nat}
    {ending : Ending} (ran : program.run streams limit budget = .ok (some (ending, after, rest))) :
    ∃ verdict : Verdict, ending = verdict.ending ∧ after.abort = verdict.abort? := by
  have fresh : program.hasRun = false := by
    cases again : program.hasRun with
    | false => rfl
    | true => simp [run, again] at ran
  obtain ⟨_, verdict, machine, _, same⟩ := (run_iff fresh).mp ⟨budget, ran⟩
  cases same
  exact ⟨verdict, rfl, rfl⟩

end Program

theorem Config.ended_after_stop {limit : Option Nat} {config : Config} {count : Nat} {single : Instruction}
    {stack : List Frame} {before : Machine}
    (reached : (step limit)^[count] config = .running (.instruction single) stack before)
    (stops : (single.visit limit before).1.stops) {later : Nat} (after : count < later) :
    (step limit)^[later] config = .ended (single.visit limit before).1 (single.visit limit before).2 := by
  have next : (step limit)^[count + 1] config =
      .ended (single.visit limit before).1 (single.visit limit before).2 := by
    rw [Function.iterate_succ_apply', reached, step, resume_of_stops _ stops]
  exact iterate_of_ended next after

/--
Recursion into blocks does what the stepping machine does: it ends on just the same code and machines, in the
same way. So no block lets a `leave` out, nothing is visited after an instruction that stops the run, and the
ending of a whole program tells whether an abort was recorded.
-/
theorem recursion_matches_stepping (limit : Option Nat) :
    (∀ code machine verdict after, Code.EndsIn limit code machine verdict after ↔
      ∃ count, (Config.step limit)^[count] (.running code [] machine) = .ended verdict after) ∧
    (∀ single machine, Code.EndsIn limit (.instruction single) machine
      (single.visit limit machine).1 (single.visit limit machine).2) ∧
    (∀ loop machine after, ¬ Code.EndsIn limit (.block loop) machine (.flow .leave) after) ∧
    (∀ code machine count single stack before,
      (Config.step limit)^[count] (.running code [] machine) = .running (.instruction single) stack before →
      (single.visit limit before).1.stops →
      Code.EndsIn limit code machine (single.visit limit before).1 (single.visit limit before).2 ∧
      ∀ later, count < later → (Config.step limit)^[later] (.running code [] machine) =
        .ended (single.visit limit before).1 (single.visit limit before).2) ∧
    (∀ (program : Program) streams, program.hasRun = false → ∀ result,
      (∃ budget, program.run streams limit budget = .ok (some result)) ↔
        ∃ count verdict machine, (Config.step limit)^[count] (program.start streams) = .ended verdict machine ∧
          program.finished verdict machine = result) ∧
    ∀ (program : Program) streams budget ending after rest,
      program.run streams limit budget = .ok (some (ending, after, rest)) →
      (ending = .abort ↔ after.abort.isSome) ∧ (ending = .exit ↔ after.abort = none) := by
  refine ⟨fun _ _ _ _ => Code.run_iff_ended, ?_, Code.block_absorbs_leave limit, ?_, ?_, ?_⟩
  · intro single machine
    exact ⟨0, rfl⟩
  · intro code machine count single stack before reached stops
    have ended : ∀ later, count < later → (Config.step limit)^[later] (.running code [] machine) =
        .ended (single.visit limit before).1 (single.visit limit before).2 :=
      fun _ => Config.ended_after_stop reached stops
    exact ⟨Code.run_iff_ended.mpr ⟨count + 1, ended _ (Nat.lt_succ_self count)⟩, ended⟩
  · intro program streams fresh result
    exact Program.run_iff fresh
  · intro program streams budget ending after rest ran
    obtain ⟨verdict, rfl, recorded⟩ := Program.abort_of_run ran
    rw [recorded]
    cases verdict with
    | flow flow => simp [Verdict.ending, Verdict.abort?]
    | abort cause => simp [Verdict.ending, Verdict.abort?]

/-- An inner block is left at once, a second one counts below zero, and the last member is never come to. -/
def Code.fallingShort : Code :=
  .block ⟨.always, .block ⟨.always, .instruction ⟨.leave, .always, ⟨1, 5⟩⟩, [], ⟨1, 3⟩⟩,
    [.block ⟨.always, .instruction ⟨.decrement, .always, ⟨1, 15⟩⟩, [], ⟨1, 13⟩⟩,
      .instruction ⟨.increment, .always, ⟨1, 20⟩⟩], ⟨1, 1⟩⟩

theorem fallingShort_stops_within :
    let machine : Machine := ⟨CellTree.initial.store, ⟨0, false, ⟨1⟩⟩, Streams.ofInput [] .stop, 0⟩
    Code.fallingShort.EndsIn none machine (.abort ⟨.decrementPastZero, ⟨1, 15⟩⟩) { machine with steps := 2 } ∧
      ∀ later, 4 < later → (Config.step none)^[later] (.running Code.fallingShort [] machine) =
        .ended (.abort ⟨.decrementPastZero, ⟨1, 15⟩⟩) { machine with steps := 2 } := by
  intro machine
  obtain ⟨_, _, _, stop, _, _⟩ := recursion_matches_stepping none
  exact stop Code.fallingShort machine 4 ⟨.decrement, .always, ⟨1, 15⟩⟩ _ { machine with steps := 1 } rfl rfl

end RingTape
