import Mathlib
import RingTape.Proofs.Contract
import RingTape.Proofs.Frames

/-!
What a limit on steps does to a run. It cuts the run short at the first instruction beyond it and changes
nothing before. Whether it makes every run end depends on the blocks: one whose members are all held back by
their gates goes round without a step, and no limit stops it.
-/

namespace RingTape

set_option autoImplicit false

namespace Instruction

variable {single : Instruction} {machine : Machine} {limit : Nat}

theorem visit_within (room : machine.steps < limit) :
    single.visit (some limit) machine = single.visit none machine := by
  have notBeyond : ¬ limit < machine.steps + 1 := by omega
  simp [visit, Option.filter, notBeyond]

theorem visit_beyond (full : limit ≤ machine.steps) :
    single.visit (some limit) machine =
      (.abort ⟨.stepLimit limit, single.location⟩, { machine with steps := machine.steps + 1 }) := by
  have beyond : limit < machine.steps + 1 := by omega
  simp [visit, Option.filter, beyond]

theorem steps_visit_none (single : Instruction) (machine : Machine) :
    (single.visit none machine).2.steps = machine.steps + 1 ∧
      ∀ limit location, (single.visit none machine).1 ≠ .abort ⟨.stepLimit limit, location⟩ := by
  have untimed := Machine.untimed_perform single.op _ { machine with steps := machine.steps + 1 } rfl
  simp only [visit, Option.filter_none]
  split
  · cases ran : Machine.perform single.op { machine with steps := machine.steps + 1 } with
    | ok flow after =>
        rw [ran] at untimed
        exact ⟨untimed, by simp⟩
    | error reason after =>
        rw [ran] at untimed
        refine ⟨untimed.1, ?_⟩
        intro limit location same
        simp only [Verdict.abort.injEq, Abort.mk.injEq] at same
        exact untimed.2 limit same.1
  · exact ⟨rfl, by simp⟩

end Instruction

namespace Config

theorem step_block (limit limit' : Option Nat) (loop : Block Code) (stack : List Frame) (machine : Machine) :
    step limit (.running (.block loop) stack machine) = step limit' (.running (.block loop) stack machine) ∧
      (step limit (.running (.block loop) stack machine)).machine = machine := by
  refine ⟨rfl, ?_⟩
  rw [step]
  split
  · rfl
  · exact machine_resume _ _ _

theorem steps_mono (config : Config) : config.machine.steps ≤ (config.step none).machine.steps := by
  match config with
  | .ended verdict machine => exact Nat.le_refl _
  | .running (.block loop) stack machine =>
      rw [(step_block none none loop stack machine).2]
      exact Nat.le_refl _
  | .running (.instruction single) stack machine =>
      rw [step, machine_resume, (single.steps_visit_none machine).1]
      exact Nat.le_succ _

theorem steps_le_iterate (config : Config) (count : Nat) :
    config.machine.steps ≤ ((step none)^[count] config).machine.steps := by
  induction count with
  | zero => exact Nat.le_refl _
  | succ count induction =>
      rw [Function.iterate_succ_apply']
      exact Nat.le_trans induction (steps_mono _)

/-- The unlimited run comes to an instruction when it has used up the limit, and the limited one ends there. -/
def CutAt (limit : Nat) (config : Config) (earlier : Nat) (reached : Config) : Prop :=
  ∃ single stack machine, (step none)^[earlier] config = .running (.instruction single) stack machine ∧
    machine.steps = limit ∧
    reached = .ended (.abort ⟨.stepLimit limit, single.location⟩) { machine with steps := limit + 1 }

/-- One more step of both runs, from where they still agree. -/
theorem step_agrees_or_cut {limit : Nat} {config : Config} {count : Nat}
    (within : ((step none)^[count] config).machine.steps ≤ limit) :
    (step (some limit) ((step none)^[count] config) = (step none)^[count + 1] config ∧
        ((step none)^[count + 1] config).machine.steps ≤ limit) ∨
      CutAt limit config count (step (some limit) ((step none)^[count] config)) := by
  rw [Function.iterate_succ_apply']
  unfold CutAt
  generalize (step none)^[count] config = reached at within ⊢
  match reached with
  | .ended verdict machine => exact .inl ⟨rfl, within⟩
  | .running (.block loop) stack machine =>
      left
      refine ⟨rfl, ?_⟩
      rw [(step_block none none loop stack machine).2]
      exact within
  | .running (.instruction single) stack machine =>
      rcases Nat.lt_or_ge machine.steps limit with room | full
      · left
        simp only [step, Instruction.visit_within room, machine_resume]
        rw [(single.steps_visit_none machine).1]
        exact ⟨trivial, room⟩
      · right
        have exactly : machine.steps = limit := Nat.le_antisymm within full
        refine ⟨single, stack, machine, rfl, exactly, ?_⟩
        rw [step, Instruction.visit_beyond full, resume_of_stops _ rfl, exactly]

/-- The limited run is the unlimited one until it has used up the limit. -/
theorem agrees_or_cut {limit : Nat} {config : Config} (within : config.machine.steps ≤ limit) (count : Nat) :
    ((step (some limit))^[count] config = (step none)^[count] config ∧
        ((step none)^[count] config).machine.steps ≤ limit) ∨
      ∃ earlier, CutAt limit config earlier ((step (some limit))^[count] config) := by
  induction count with
  | zero => exact .inl ⟨rfl, within⟩
  | succ count induction =>
      rw [Function.iterate_succ_apply']
      rcases induction with ⟨agrees, within⟩ | ⟨earlier, single, stack, machine, reached, full, cut⟩
      · rw [agrees]
        exact (step_agrees_or_cut within).imp_right fun cut => ⟨count, cut⟩
      · refine .inr ⟨earlier, single, stack, machine, reached, full, ?_⟩
        rw [cut]
        rfl

/-- Beyond a cut the unlimited run takes more steps than the limit. -/
theorem CutAt.unlimited_steps {limit : Nat} {config reached : Config} {earlier : Nat}
    (cut : CutAt limit config earlier reached) {verdict : Verdict} {machine : Machine} {count : Nat}
    (ended : (step none)^[count] config = .ended verdict machine) : limit < machine.steps := by
  obtain ⟨single, stack, before, there, full, _⟩ := cut
  have visited : ((step none)^[earlier + 1] config).machine.steps = limit + 1 := by
    rw [Function.iterate_succ_apply', there, step, machine_resume, (single.steps_visit_none before).1, full]
  have later := iterate_of_ended ended (Nat.le_add_right count (earlier + 1))
  have grown := steps_le_iterate ((step none)^[earlier + 1] config) count
  rw [← Function.iterate_add_apply, later, visited] at grown
  exact grown

end Config

/-- The code is a block that its gate holds back. -/
def Code.heldBack (condition : Bool) : Code → Bool
  | .instruction _ => false
  | .block loop => !loop.gate.admits condition

/-- All members of the block are held back, so that a round of it does nothing. -/
def Block.idle (condition : Bool) (block : Block Code) : Bool :=
  block.members.all (Code.heldBack condition)

theorem Block.size_lt_of_mem {block inner : Block Code} (among : Code.block inner ∈ block.members) :
    sizeOf inner < sizeOf block := by
  have within : sizeOf (Code.block inner) < sizeOf block := by
    obtain ⟨gate, first, others, location⟩ := block
    rcases List.mem_cons.mp among with same | among
    · rw [same]
      simp only [Block.mk.sizeOf_spec]
      omega
    · have part : sizeOf (Code.block inner) < sizeOf others := List.sizeOf_lt_of_mem among
      simp only [Block.mk.sizeOf_spec]
      omega
  simp only [Code.block.sizeOf_spec] at within
  omega

namespace Frame

theorem getElem?_member (frame : Frame) :
    frame.block.members[frame.index % frame.block.members.length]? = some frame.member :=
  List.getElem?_eq_getElem _

theorem iterate_next (frame : Frame) (count : Nat) :
    (next^[count] frame).block = frame.block ∧
      (next^[count] frame).index % frame.block.members.length =
        (frame.index + count) % frame.block.members.length := by
  induction count with
  | zero => exact ⟨rfl, rfl⟩
  | succ count induction =>
      obtain ⟨sameBlock, sameIndex⟩ := induction
      rw [Function.iterate_succ_apply']
      refine ⟨sameBlock, ?_⟩
      show ((next^[count] frame).index + 1) % (next^[count] frame).block.members.length % _ = _
      rw [sameBlock, Nat.mod_mod, Nat.add_mod, sameIndex, ← Nat.add_mod, Nat.add_assoc]

theorem exists_turn (frame : Frame) {code : Code} (among : code ∈ frame.block.members) :
    ∃ count, (next^[count] frame).member = code := by
  obtain ⟨place, bounded, there⟩ := List.getElem_of_mem among
  let size := frame.block.members.length
  refine ⟨place + (size - frame.index % size), ?_⟩
  have ⟨sameBlock, sameIndex⟩ := frame.iterate_next (place + (size - frame.index % size))
  have turned : (frame.index + (place + (size - frame.index % size))) % size = place := by
    have less : frame.index % size < size := Nat.mod_lt _ frame.block.members_length_pos
    have whole := Nat.div_add_mod frame.index size
    have total : frame.index + (place + (size - frame.index % size)) = place + size * (frame.index / size + 1) := by
      rw [Nat.mul_add, Nat.mul_one]
      omega
    rw [total, Nat.add_mul_mod_self_left, Nat.mod_eq_of_lt bounded]
  have found := getElem?_member (next^[place + (size - frame.index % size)] frame)
  rw [sameBlock, sameIndex, turned, List.getElem?_eq_getElem bounded, there] at found
  exact (Option.some.inj found).symm

end Frame

namespace Config

/-- The innermost block is idle. -/
def idle : Config → Bool
  | .running _ (frame :: _) machine => frame.block.idle machine.registers.condition
  | .running _ [] _ => false
  | .ended _ _ => false

/-- The code to run is the current member of the innermost block. -/
def Placed : Config → Prop
  | .running code (frame :: _) _ => code = frame.member
  | .running _ [] _ => True
  | .ended _ _ => True

theorem resume_cases (stack : List Frame) (verdict : Verdict) (machine : Machine) :
    (resume stack verdict machine).hasEnded ∨
      ∃ frame outer, resume stack verdict machine = .running (Frame.member frame) (frame :: outer) machine := by
  fun_induction resume stack verdict machine with
  | case2 frame stack machine => exact .inr ⟨frame.next, stack, rfl⟩
  | case3 _ stack machine induction => exact induction
  | _ => exact .inl rfl

theorem placed_resume (stack : List Frame) (verdict : Verdict) (machine : Machine) :
    (resume stack verdict machine).Placed := by
  fun_induction resume stack verdict machine with
  | case2 => rfl
  | case3 _ stack machine induction => exact induction
  | _ => trivial

theorem placed_step (limit : Option Nat) (config : Config) : (config.step limit).Placed := by
  fun_cases step limit config with
  | case1 => exact placed_resume _ _ _
  | case2 => rfl
  | case3 => exact placed_resume _ _ _
  | case4 => trivial

theorem placed_iterate (limit : Option Nat) {config : Config} (placed : config.Placed) (count : Nat) :
    ((step limit)^[count] config).Placed := by
  cases count with
  | zero => exact placed
  | succ count =>
      rw [Function.iterate_succ_apply']
      exact placed_step limit _

/-- A member that is held back gives the next one its turn. -/
theorem step_heldBack (limit : Option Nat) {code : Code} {frame : Frame} {stack : List Frame} {machine : Machine}
    (held : code.heldBack machine.registers.condition) :
    step limit (.running code (frame :: stack) machine) =
      .running frame.next.member (frame.next :: stack) machine := by
  match code with
  | .instruction _ => cases held
  | .block loop =>
      have rejected : loop.gate.admits machine.registers.condition = false := by
        simpa [Code.heldBack] using held
      rw [step, rejected]
      rfl

theorem idle_step (limit : Option Nat) {config : Config} (placed : config.Placed) (idle : config.idle) :
    (config.step limit).idle := by
  match config with
  | .ended _ _ => cases idle
  | .running _ [] _ => cases idle
  | .running code (frame :: stack) machine =>
      have held := List.all_eq_true.mp idle frame.member frame.member_mem
      rw [show code = frame.member from placed, step_heldBack limit held]
      exact idle

theorem idle_iterate (limit : Option Nat) {config : Config} (placed : config.Placed) (idle : config.idle)
    (count : Nat) : ((step limit)^[count] config).idle := by
  induction count generalizing config with
  | zero => exact idle
  | succ count induction =>
      rw [Function.iterate_succ_apply]
      exact induction (placed_step limit config) (idle_step limit placed idle)

/-- A block that is not idle comes round to a member that is not held back. -/
theorem reaches_admitted (limit : Option Nat) (frame : Frame) (stack : List Frame) (machine : Machine)
    (busy : frame.block.idle machine.registers.condition = false) :
    ∃ count, let turned := Frame.next^[count] frame
      (step limit)^[count] (.running frame.member (frame :: stack) machine) =
          .running turned.member (turned :: stack) machine ∧
        turned.member.heldBack machine.registers.condition = false := by
  have some : ∃ count, (Frame.next^[count] frame).member.heldBack machine.registers.condition = false := by
    obtain ⟨code, among, free⟩ := List.all_eq_false.mp busy
    obtain ⟨count, same⟩ := frame.exists_turn among
    exact ⟨count, by simpa [same] using free⟩
  -- The first such member is reached over members that are held back.
  refine ⟨Nat.find some, ?_, Nat.find_spec some⟩
  have upTo : ∀ count ≤ Nat.find some, (step limit)^[count] (.running frame.member (frame :: stack) machine) =
      .running (Frame.next^[count] frame).member (Frame.next^[count] frame :: stack) machine := by
    intro count bounded
    induction count with
    | zero => rfl
    | succ count induction =>
        have held : (Frame.next^[count] frame).member.heldBack machine.registers.condition := by
          have before := Nat.find_min some (Nat.lt_of_succ_le bounded)
          simpa using before
        rw [Function.iterate_succ_apply', induction (Nat.le_of_succ_le bounded), step_heldBack limit held,
          Function.iterate_succ_apply']
  exact upTo _ (Nat.le_refl _)

/--
Without a step the run can only go deeper into blocks, so it comes to an instruction or to an idle block. The
induction is on the size of the block.
-/
theorem reaches_visit_or_idle (limit : Option Nat) (frame : Frame) (stack : List Frame) (machine : Machine) :
    ∃ count, let reached := (step limit)^[count] (.running frame.member (frame :: stack) machine)
      reached.idle ∨ ∃ single outer, reached = .running (.instruction single) outer machine := by
  cases idle : frame.block.idle machine.registers.condition with
  | true => exact ⟨0, .inl idle⟩
  | false =>
      obtain ⟨count, reached, free⟩ := reaches_admitted limit frame stack machine idle
      have sameBlock := (frame.iterate_next count).1
      cases current : (Frame.next^[count] frame).member with
      | instruction single =>
          rw [current] at reached
          exact ⟨count, .inr ⟨single, _, reached⟩⟩
      | block inner =>
          rw [current] at reached free
          have admitted : inner.gate.admits machine.registers.condition = true := by
            simpa [Code.heldBack] using free
          have entered : (step limit)^[count + 1] (.running frame.member (frame :: stack) machine) =
              .running inner.first (⟨inner, 0⟩ :: Frame.next^[count] frame :: stack) machine := by
            rw [Function.iterate_succ_apply', reached, step, if_pos admitted]
          have among : Code.block inner ∈ frame.block.members := by
            rw [← current, ← sameBlock]
            exact Frame.member_mem _
          have smaller := Block.size_lt_of_mem among
          obtain ⟨more, outcome⟩ := reaches_visit_or_idle limit ⟨inner, 0⟩ (Frame.next^[count] frame :: stack) machine
          refine ⟨more + (count + 1), ?_⟩
          rw [Function.iterate_add_apply, entered]
          exact outcome
termination_by sizeOf frame.block

theorem frame_ends_or_idles (limit : Nat) (frame : Frame) (stack : List Frame) (machine : Machine) :
    ∃ count, let reached := (step (some limit))^[count] (.running frame.member (frame :: stack) machine)
      reached.hasEnded ∨ reached.idle := by
  obtain ⟨count, idle | ⟨single, outer, reached⟩⟩ := reaches_visit_or_idle (some limit) frame stack machine
  · exact ⟨count, .inr idle⟩
  · have visited : (step (some limit))^[count + 1] (.running frame.member (frame :: stack) machine) =
        resume outer (single.visit (some limit) machine).1 (single.visit (some limit) machine).2 := by
      rw [Function.iterate_succ_apply', reached, step]
    rcases resume_cases outer (single.visit (some limit) machine).1 (single.visit (some limit) machine).2 with
      ended | ⟨inner, rest, onward⟩
    · exact ⟨count + 1, .inl (by rw [visited]; exact ended)⟩
    · rcases Nat.lt_or_ge machine.steps limit with room | full
      · have counted : (single.visit (some limit) machine).2.steps = machine.steps + 1 := by
          rw [Instruction.visit_within room, (single.steps_visit_none machine).1]
        -- Each visit leaves one step fewer below the limit, which is what the recursion goes down by.
        obtain ⟨more, outcome⟩ := frame_ends_or_idles limit inner rest (single.visit (some limit) machine).2
        refine ⟨more + (count + 1), ?_⟩
        rw [Function.iterate_add_apply, visited, onward]
        exact outcome
      · rw [Instruction.visit_beyond full, resume_of_stops _ rfl] at onward
        cases onward
termination_by limit - machine.steps

theorem ends_or_idles (limit : Nat) {config : Config} (placed : config.Placed) :
    ∃ count, let reached := (step (some limit))^[count] config
      reached.hasEnded ∨ reached.idle := by
  match config with
  | .ended _ _ => exact ⟨0, .inl rfl⟩
  | .running code (frame :: stack) machine =>
      rw [show code = frame.member from placed]
      exact frame_ends_or_idles limit frame stack machine
  | .running (.instruction single) [] machine => exact ⟨1, .inl rfl⟩
  | .running (.block loop) [] machine =>
      by_cases admitted : loop.gate.admits machine.registers.condition
      · obtain ⟨count, outcome⟩ := frame_ends_or_idles limit ⟨loop, 0⟩ [] machine
        refine ⟨count + 1, ?_⟩
        rw [Function.iterate_succ_apply, step, if_pos admitted]
        exact outcome
      · refine ⟨1, .inl ?_⟩
        rw [Function.iterate_one, step, if_neg admitted]
        rfl

/-- A limited run ends unless it comes to an idle block. -/
theorem ends_iff_never_idle (limit : Nat) {config : Config} (placed : config.Placed) :
    (∃ count, ((step (some limit))^[count] config).hasEnded) ↔
      ∀ count, ((step (some limit))^[count] config).idle = false := by
  constructor
  · rintro ⟨total, ended⟩ count
    by_contra notBusy
    have idle : ((step (some limit))^[count] config).idle := by simpa using notBusy
    have stays := idle_iterate (some limit) (placed_iterate (some limit) placed count) idle total
    cases final : (step (some limit))^[total] config with
    | running code stack machine =>
        rw [final] at ended
        cases ended
    | ended verdict machine =>
        rw [← Function.iterate_add_apply, iterate_of_ended final (Nat.le_add_right total count)] at stays
        cases stays
  · intro busy
    obtain ⟨count, ended | idle⟩ := ends_or_idles limit placed
    · exact ⟨count, ended⟩
    · rw [busy count] at idle
      cases idle

/-- The run has not been aborted for want of steps. -/
def Unhurried : Config → Prop
  | .running _ _ _ => True
  | .ended verdict _ => ∀ limit location, verdict ≠ .abort ⟨.stepLimit limit, location⟩

theorem unhurried_resume {verdict : Verdict} (stack : List Frame) (machine : Machine)
    (other : ∀ limit location, verdict ≠ .abort ⟨.stepLimit limit, location⟩) :
    (resume stack verdict machine).Unhurried := by
  fun_induction resume stack verdict machine with
  | case2 => trivial
  | case3 _ stack machine induction => exact induction (by simp)
  | _ => exact other

theorem unhurried_step {config : Config} (unhurried : config.Unhurried) : (config.step none).Unhurried := by
  match config with
  | .ended verdict machine => exact unhurried
  | .running (.instruction single) stack machine =>
      exact unhurried_resume stack _ (single.steps_visit_none machine).2
  | .running (.block loop) stack machine =>
      rw [step]
      split
      · trivial
      · exact unhurried_resume stack machine (by simp)

theorem unhurried_iterate {config : Config} (unhurried : config.Unhurried) (count : Nat) :
    ((step none)^[count] config).Unhurried := by
  induction count with
  | zero => exact unhurried
  | succ count induction =>
      rw [Function.iterate_succ_apply']
      exact unhurried_step induction

/-- Code without a block that can be idle never comes to one. -/
theorem never_idle_of_throughout (limit : Option Nat) {config : Config}
    (lively : config.Throughout (fun _ => True) fun block => ∀ condition, block.idle condition = false)
    (count : Nat) : ((step limit)^[count] config).idle = false := by
  have reached : ((step limit)^[count] config).Throughout (fun _ => True)
      fun block => ∀ condition, block.idle condition = false := by
    induction count with
    | zero => exact lively
    | succ count induction =>
        rw [Function.iterate_succ_apply']
        exact throughout_step limit induction
  generalize (step limit)^[count] config = later at reached
  match later with
  | .ended _ _ => rfl
  | .running _ [] _ => rfl
  | .running _ (frame :: _) machine =>
      cases reached.2 frame List.mem_cons_self with
      | block _ busy _ => exact busy _

/-- From wherever it stands, the limited run does as the unlimited one or ends for want of steps. -/
theorem agrees_or_hurried (limit : Nat) (config : Config) (count : Nat) :
    (step (some limit))^[count] config = (step none)^[count] config ∨
      ∃ location machine,
        (step (some limit))^[count] config = .ended (.abort ⟨.stepLimit limit, location⟩) machine := by
  induction count with
  | zero => exact .inl rfl
  | succ count induction =>
      rw [Function.iterate_succ_apply', Function.iterate_succ_apply']
      rcases induction with agrees | ⟨location, machine, ended⟩
      · rw [agrees]
        match (step none)^[count] config with
        | .ended verdict machine => exact .inl rfl
        | .running (.block loop) stack machine => exact .inl rfl
        | .running (.instruction single) stack machine =>
            rcases Nat.lt_or_ge machine.steps limit with room | full
            · left
              rw [step, step, Instruction.visit_within room]
            · right
              refine ⟨single.location, { machine with steps := machine.steps + 1 }, ?_⟩
              rw [step, Instruction.visit_beyond full, resume_of_stops _ rfl]
      · rw [ended]
        exact .inr ⟨location, machine, rfl⟩

end Config

namespace Code

/-- The unlimited run comes to this instruction, and has visited so many until then. -/
def Visits (code : Code) (machine : Machine) (visited : Nat) (single : Instruction) (before : Machine) : Prop :=
  ∃ count stack, (Config.step none)^[count] (.running code [] machine) =
    .running (.instruction single) stack before ∧ before.steps = visited

/--
A limit on steps only truncates. A run that needs no more steps than the limit is the same with it. One that
needs more ends just before the first instruction beyond, with everything as it is there but for the step that
was counted. A limited run that does not end for want of steps is the unlimited one.
-/
theorem limit_only_truncates (limit : Nat) (code : Code) (machine : Machine) :
    (∀ verdict after, code.EndsIn none machine verdict after → after.steps ≤ limit →
      code.EndsIn (some limit) machine verdict after) ∧
    (∀ verdict after, code.EndsIn none machine verdict after → machine.steps ≤ limit → limit < after.steps →
      ∃ single before, code.Visits machine limit single before ∧
        code.EndsIn (some limit) machine (.abort ⟨.stepLimit limit, single.location⟩)
          { before with steps := limit + 1 }) ∧
    (∀ verdict after, code.EndsIn (some limit) machine verdict after →
      (∀ location, verdict ≠ .abort ⟨.stepLimit limit, location⟩) → code.EndsIn none machine verdict after) := by
  refine ⟨?_, ?_, ?_⟩
  · intro verdict after ends enough
    obtain ⟨count, ended⟩ := run_iff_ended.mp ends
    have counted := Config.steps_le_iterate (.running code [] machine) count
    rw [ended] at counted
    have within : (Config.running code [] machine).machine.steps ≤ limit := Nat.le_trans counted enough
    rcases Config.agrees_or_cut within count with ⟨agrees, _⟩ | ⟨earlier, cut⟩
    · exact run_iff_ended.mpr ⟨count, agrees.trans ended⟩
    · exact absurd (cut.unlimited_steps ended) (Nat.not_lt.mpr enough)
  · intro verdict after ends room beyond
    obtain ⟨count, ended⟩ := run_iff_ended.mp ends
    have within : (Config.running code [] machine).machine.steps ≤ limit := room
    rcases Config.agrees_or_cut within count with ⟨_, few⟩ | ⟨earlier, cut⟩
    · rw [ended] at few
      exact absurd few (Nat.not_le.mpr beyond)
    · obtain ⟨single, stack, before, there, full, final⟩ := cut
      exact ⟨single, before, ⟨earlier, stack, there, full⟩, run_iff_ended.mpr ⟨count, final⟩⟩
  · intro verdict after ends other
    obtain ⟨count, ended⟩ := run_iff_ended.mp ends
    rcases Config.agrees_or_hurried limit (.running code [] machine) count with agrees | ⟨location, before, cut⟩
    · exact run_iff_ended.mpr ⟨count, agrees.symm.trans ended⟩
    · rw [ended] at cut
      exact absurd (Config.ended.inj cut).1 (other location)

/-- Count to four in an inner block that is left once the condition holds, and then leave the outer one. -/
def nestedCount : Code :=
  .block ⟨.always, .instruction ⟨.increment, .always, ⟨1, 3⟩⟩,
    [.block ⟨.always, .instruction ⟨.increment, .always, ⟨1, 8⟩⟩,
      [.instruction ⟨.compare .atLeast (.constant 4), .always, ⟨1, 11⟩⟩,
        .instruction ⟨.leave, .whenTrue, ⟨1, 16⟩⟩], ⟨1, 6⟩⟩,
      .instruction ⟨.leave, .whenTrue, ⟨1, 25⟩⟩], ⟨1, 1⟩⟩

/-- A machine that has not done anything yet, with the given registers. -/
def freshMachine (accumulator : Num) (condition : Bool) : Machine :=
  ⟨CellTree.initial.store, ⟨accumulator, condition, ⟨1⟩⟩, Streams.ofInput [] .stop, 0⟩

theorem nestedCount_truncated :
    (∃ after, nestedCount.EndsIn none (freshMachine 0 false) (.flow .okay) after ∧ after.steps = 11 ∧
      nestedCount.EndsIn (some 11) (freshMachine 0 false) (.flow .okay) after) ∧
    ∃ single before, nestedCount.Visits (freshMachine 0 false) 6 single before ∧
      nestedCount.EndsIn (some 6) (freshMachine 0 false) (.abort ⟨.stepLimit 6, single.location⟩)
        { before with steps := 7 } := by
  have ends : nestedCount.EndsIn none (freshMachine 0 false) (.flow .okay)
      { freshMachine 4 true with steps := 11 } := ⟨20, by cbv⟩
  obtain ⟨same, _, _⟩ := limit_only_truncates 11 nestedCount (freshMachine 0 false)
  obtain ⟨_, cut, _⟩ := limit_only_truncates 6 nestedCount (freshMachine 0 false)
  exact ⟨⟨_, ends, rfl, same _ _ ends (by decide)⟩, cut _ _ ends (by decide) (by decide)⟩

end Code

namespace Program

/-- No block of the program, at any depth, has all its members held back under one condition. -/
def Lively (program : Program) : Prop :=
  (Code.block program.root).Throughout (fun _ => True) fun block => ∀ condition, block.idle condition = false

/-- The run is aborted at the first instruction beyond the limit, and without the limit it would go on. -/
def CutShort (program : Program) (streams : Streams) (limit : Nat) (after : Program) : Prop :=
  (∃ location, after.abort = some ⟨.stepLimit limit, location⟩) ∧ after.steps = limit + 1 ∧
    ∀ budget ending unlimited rest,
      program.run streams none budget = .ok (some (ending, unlimited, rest)) → limit < unlimited.steps

/-- The run ends within the limit, just as it would without. -/
def EndsWithin (program : Program) (streams : Streams) (limit : Nat) (ending : Ending) (after : Program)
    (rest : Streams) : Prop :=
  (∀ location, after.abort ≠ some ⟨.stepLimit limit, location⟩) ∧ after.steps ≤ limit ∧
    ∃ budget, program.run streams none budget = .ok (some (ending, after, rest))

theorem cutShort_or_endsWithin {program : Program} (fresh : program.hasRun = false) {streams : Streams}
    {limit budget : Nat} {ending : Ending} {after : Program} {rest : Streams}
    (ran : program.run streams (some limit) budget = .ok (some (ending, after, rest))) :
    program.CutShort streams limit after ∨ program.EndsWithin streams limit ending after rest := by
  obtain ⟨count, verdict, machine, ended, same⟩ := (run_iff fresh).mp ⟨budget, ran⟩
  have started : (program.start streams).machine.steps ≤ limit := Nat.zero_le limit
  rcases Config.agrees_or_cut started count with ⟨agrees, within⟩ | ⟨earlier, cut⟩
  · right
    have unlimited := agrees.symm.trans ended
    have calm : (program.start streams).Unhurried := trivial
    have unhurried := Config.unhurried_iterate calm count
    rw [unlimited] at within unhurried
    cases same
    refine ⟨?_, within, (run_iff fresh).mpr ⟨count, verdict, machine, unlimited, rfl⟩⟩
    intro location aborted
    cases verdict with
    | flow flow => cases aborted
    | abort cause => exact unhurried limit location (congrArg Verdict.abort (Option.some.inj aborted))
  · left
    have ⟨single, stack, before, _, full, final⟩ := cut
    rw [ended] at final
    obtain ⟨rfl, rfl⟩ := Config.ended.inj final
    cases same
    refine ⟨⟨single.location, rfl⟩, rfl, ?_⟩
    intro budget ending unlimited rest ran
    obtain ⟨total, verdict, machine, finished, same⟩ := (run_iff fresh).mp ⟨budget, ran⟩
    cases same
    exact cut.unlimited_steps finished

/--
A limit on steps makes a run end unless the run comes to an idle block, which it cannot do in a lively
program. A run that ends has visited at most one instruction more than the limit. It was cut short by the
limit or it would have ended in the same way without.
-/
theorem limit_bounds_run {source : String} {program : Program} (parsed : parse source = .ok program)
    (streams : Streams) (limit : Nat) :
    ((∃ budget result, program.run streams (some limit) budget = .ok (some result)) ↔
      ∀ count, ((Config.step (some limit))^[count] (program.start streams)).idle = false) ∧
    (program.Lively → ∃ budget result, program.run streams (some limit) budget = .ok (some result)) ∧
    ∀ budget ending after rest, program.run streams (some limit) budget = .ok (some (ending, after, rest)) →
      after.steps ≤ limit + 1 ∧ (ending = .abort ↔ after.abort.isSome) ∧
        (program.CutShort streams limit after ∨ program.EndsWithin streams limit ending after rest) := by
  have fresh := hasRun_of_parse parsed
  have placed : (program.start streams).Placed := trivial
  have ends := (ends_iff fresh).trans (Config.ends_iff_never_idle limit placed)
  refine ⟨ends, fun lively => ends.mpr ?_, ?_⟩
  · exact Config.never_idle_of_throughout (some limit) ⟨lively, by simp⟩
  · intro budget ending after rest ran
    have outcome := cutShort_or_endsWithin fresh ran
    obtain ⟨count, verdict, machine, ended, same⟩ := (run_iff fresh).mp ⟨budget, ran⟩
    refine ⟨?_, ?_, outcome⟩
    · rcases outcome with cut | within
      · exact Nat.le_of_eq cut.2.1
      · exact Nat.le_succ_of_le within.2.1
    · cases same
      cases verdict <;> simp [Verdict.ending, Verdict.abort?]

section Samples

/-- A block that is held back as long as the condition does not hold. -/
def gated : Code :=
  .block ⟨.whenTrue, .instruction ⟨.increment, .always, ⟨1, 6⟩⟩, [], ⟨1, 3⟩⟩

/-- A program of the given members on the default memory. -/
def ofMembers (first : Code) (others : List Code) : Program :=
  ⟨⟨.always, first, others, ⟨1, 1⟩⟩, CellTree.initial.store, ⟨0⟩, ⟨0, false, ⟨1⟩⟩, false, 0, none⟩

def counting : Program :=
  ofMembers gated [.instruction ⟨.increment, .always, ⟨1, 11⟩⟩]

/-- Nothing but the limit ends this program. -/
theorem counting_ends :
    parse "{ {? ++ } ++ }" = .ok counting ∧ counting.Lively ∧
      ∃ budget result, counting.run (Streams.ofInput [] .stop) (some 3) budget = .ok (some result) := by
  have parsed : parse "{ {? ++ } ++ }" = .ok counting := by cbv
  have lively : counting.Lively := by
    refine .block _ (by decide) ?_
    intro member among
    rcases List.mem_cons.mp among with rfl | among
    · refine .block _ (by decide) ?_
      intro member among
      rw [List.mem_singleton.mp among]
      exact .instruction _ trivial
    · rw [List.mem_singleton.mp among]
      exact .instruction _ trivial
  exact ⟨parsed, lively, (limit_bounds_run parsed _ 3).2.1 lively⟩

/-- A program that no limit stops: it goes round a block that is held back and never takes a step. -/
theorem waiting_outlasts_limit :
    parse "{ {? ++ } }" = .ok (ofMembers gated []) ∧
      ∀ streams limit budget, (ofMembers gated []).run streams (some limit) budget = .ok none := by
  refine ⟨by cbv, ?_⟩
  intro streams limit budget
  have placed : ((ofMembers gated []).start streams).Placed := trivial
  have never : ¬ ∃ budget result, (ofMembers gated []).run streams (some limit) budget = .ok (some result) := by
    rw [ends_iff rfl, Config.ends_iff_never_idle limit placed]
    intro busy
    cases busy 1
  cases ran : (ofMembers gated []).run streams (some limit) budget with
  | error problem => cases ran
  | ok outcome =>
      cases outcome with
      | none => rfl
      | some result => exact absurd ⟨budget, result, ran⟩ never

end Samples

end Program

end RingTape
