import Mathlib
import RingTape.Proofs.Literals

/-!
Memory along whole runs. Wherever a run stands, the store is well-formed and holds one tree, nothing is in use
beside that tree, the head is on one of its cells, and no operation has met a slot without a cell. The only
proviso is that no insertion is made into a ring whose parent cannot count one more child.
-/

namespace RingTape

set_option autoImplicit false

mutual

/-- The number of cells that a snapshot shows. -/
def Snapshot.size : Snapshot → Nat
  | ⟨_, _, forward, backward⟩ => 1 + (Snapshot.forestSize forward + Snapshot.forestSize backward)

def Snapshot.forestSize : List Snapshot → Nat
  | [] => 0
  | snapshot :: rest => snapshot.size + Snapshot.forestSize rest

end

namespace Cell

theorem forestSize_snapshot (cells : List Cell)
    (each : ∀ cell ∈ cells, cell.snapshot.size = cell.nodes.length) :
    Snapshot.forestSize (forestSnapshot cells) = (forestNodes cells).length := by
  induction cells with
  | nil => rfl
  | cons cell rest induction =>
      rw [forestSnapshot, Snapshot.forestSize, forestNodes, List.length_append, each cell List.mem_cons_self,
        induction fun other among => each other (List.mem_cons_of_mem _ among)]

theorem size_snapshot (cell : Cell) : cell.snapshot.size = cell.nodes.length := by
  induction cell using treeInduction with
  | step cell induction =>
      rcases cell with ⟨id, value, ⟨forward, backward⟩⟩
      have ahead := forestSize_snapshot forward fun child among => induction child (List.mem_append_left _ among)
      have behind := forestSize_snapshot backward fun child among => induction child (List.mem_append_right _ among)
      rw [snapshot, Snapshot.size, ahead, behind, nodes, List.length_cons, List.length_append]
      omega

end Cell

namespace Store

/-- The store is well-formed, and the root is its only cell without a parent. -/
structure OneTree (root : CellId) (store : Store) : Prop where
  formed : store.WellFormed
  root_live : store.contains root = true
  top_iff : ∀ id, store.contains id = true → (store.parent? id = none ↔ id = root)

section Rooted

variable {root : CellId} {store : Store}

theorem Rooted.exists_top (rooted : store.Rooted root) :
    ∃ top, store.trees = [top] ∧ top.id = root := by
  obtain ⟨top, others, shape, same, none⟩ := List.map_eq_cons_iff.mp rooted.single
  exact ⟨top, by rw [shape, List.map_eq_nil_iff.mp none], same⟩

theorem Rooted.oneTree (rooted : store.Rooted root) : store.OneTree root := by
  refine ⟨(wellFormed_iff_sound _).mpr rooted.sound, (contains_iff _).mpr rooted.root_mem, ?_⟩
  intro id live
  obtain ⟨node, inside, rfl⟩ := exists_node_of_mem_ids ((contains_iff _).mp live)
  obtain ⟨top, alone, rfl⟩ := rooted.exists_top
  have topInside : top ∈ store.nodes := tree_mem_nodes (by simp [alone])
  rw [← mem_trees_iff rooted.sound inside, alone, List.mem_singleton]
  constructor
  · rintro rfl
    rfl
  · intro same
    have found := cell?_of_mem rooted.sound.distinct inside
    rw [same, cell?_of_mem rooted.sound.distinct topInside] at found
    exact (Option.some.inj found).symm

theorem OneTree.rooted (one : store.OneTree root) : store.Rooted root := by
  have sound := (wellFormed_iff_sound _).mp one.formed
  obtain ⟨top, inside, rfl⟩ := exists_node_of_mem_ids ((contains_iff _).mp one.root_live)
  have isTop := (mem_trees_iff sound inside).mpr ((one.top_iff _ one.root_live).mpr rfl)
  have only : ∀ id ∈ store.trees.map Cell.id, id = top.id := by
    intro id among
    obtain ⟨tree, isTree, rfl⟩ := List.mem_map.mp among
    have treeInside := tree_mem_nodes isTree
    exact (one.top_iff _ (contains_of_mem treeInside)).mp ((mem_trees_iff sound treeInside).mp isTree)
  have once : (store.trees.map Cell.id).Nodup :=
    (List.nodup_append.mp ((Cell.forestIds_perm_children store.trees).nodup_iff.mp sound.distinct)).1
  -- A list of one element over and over, without repetition and not empty.
  refine ⟨sound, ?_⟩
  rw [List.eq_replicate_of_mem only] at once ⊢
  have most := List.nodup_replicate.mp once
  have least : 0 < (store.trees.map Cell.id).length :=
    List.length_pos_of_mem (List.mem_map.mpr ⟨top, isTop, rfl⟩)
  rw [Nat.le_antisymm most least]
  rfl

theorem Rooted.mem_ids_top (rooted : store.Rooted root) :
    ∃ top, store.cell? root = some top ∧ store.ids = top.ids := by
  obtain ⟨top, alone, rfl⟩ := rooted.exists_top
  have inside : top ∈ store.nodes := tree_mem_nodes (by simp [alone])
  refine ⟨top, cell?_of_mem rooted.sound.distinct inside, ?_⟩
  rw [ids, alone, Cell.forestIds_cons, Cell.forestIds_nil, List.append_nil]

theorem Rooted.live_eq_size (rooted : store.Rooted root) :
    store.live = (CellTree.snapshot ⟨store, root⟩).size := by
  obtain ⟨top, found, same⟩ := rooted.mem_ids_top
  have formed := (wellFormed_iff_sound _).mpr rooted.sound
  rw [formed.live_eq, same, CellTree.snapshot, CellTree.cell?, found, Cell.size_snapshot, Cell.ids, List.length_map]

end Rooted

end Store

theorem CellTree.rooted_initial : initial.store.Rooted initial.root := by
  have bare := rooted_leaf 1
  have kept := Store.keeps_child bare bare.root_mem (leaf 1).store rfl
  exact kept.1

theorem Draft.rooted_of_read {source : String} {draft : Draft} (short : source.utf8ByteSize < 2 ^ 63)
    (read : Draft.read source = .ok draft) :
    (draft.memory.getD CellTree.initial).store.Rooted (draft.memory.getD CellTree.initial).root := by
  cases memory : draft.memory with
  | none => exact CellTree.rooted_initial
  | some tree => exact (intact_of_read short read).2 tree memory

/-- The memory is one tree, with nothing in use beside it, and the head is on one of its cells. -/
structure Machine.Secure (root : CellId) (machine : Machine) : Prop where
  one : machine.store.OneTree root
  head : ∃ top, machine.store.cell? root = some top ∧ machine.registers.head ∈ top.ids
  no_leak : machine.store.live = (CellTree.snapshot ⟨machine.store, root⟩).size

theorem Machine.Safe.secure {root : CellId} {machine : Machine} (safe : machine.Safe root) : machine.Secure root := by
  obtain ⟨top, found, same⟩ := safe.rooted.mem_ids_top
  exact ⟨safe.rooted.oneTree, ⟨top, found, same ▸ safe.head⟩, safe.rooted.live_eq_size⟩

/-- The run was aborted since an operation met a slot without a cell. -/
def Verdict.isStale : Verdict → Bool
  | .abort ⟨.memory (.stale _), _⟩ => true
  | _ => false

theorem Verdict.isStale_abort {reason : AbortReason} (other : ∀ id, reason ≠ .memory (.stale id))
    (location : Location) : (Verdict.abort ⟨reason, location⟩).isStale = false := by
  unfold isStale
  split
  · rename_i id _ same
    cases same
    exact absurd rfl (other id)
  · rfl

theorem Verdict.isStale_of_abort? {verdict : Verdict} {id : CellId} {location : Location}
    (aborted : verdict.abort? = some ⟨.memory (.stale id), location⟩) : verdict.isStale = true := by
  cases verdict with
  | flow flow => cases aborted
  | abort cause =>
      cases aborted
      rfl

namespace Instruction

/-- The instruction is carried out: the limit is not used up, and the gate lets it through. -/
def takesEffect (limit : Option Nat) (single : Instruction) (machine : Machine) : Bool :=
  limit.all (fun limit => machine.steps < limit) && single.gate.admits machine.registers.condition

theorem takesEffect_of_admitted {limit : Option Nat} {single : Instruction} {machine : Machine}
    (within : (limit.filter fun limit => limit < machine.steps + 1) = none)
    (admitted : single.gate.admits machine.registers.condition = true) :
    single.takesEffect limit machine = true := by
  cases limit with
  | none => simpa [takesEffect] using admitted
  | some limit =>
      simp only [Option.filter, ite_eq_right_iff, reduceCtorEq, imp_false, decide_eq_true_eq] at within
      simp only [takesEffect, Option.all_some, Bool.and_eq_true, decide_eq_true_eq]
      exact ⟨by omega, admitted⟩

theorem safe_visit {root : CellId} {limit : Option Nat} {single : Instruction} {machine : Machine}
    (intact : single.op.Intact) (safe : machine.Safe root)
    (room : single.takesEffect limit machine = true → machine.hasRoom single.op = true) :
    (single.visit limit machine).2.Safe root ∧ (single.visit limit machine).1.isStale = false := by
  have counted : ({ machine with steps := machine.steps + 1 } : Machine).Safe root :=
    ⟨⟨safe.rooted, safe.short⟩, safe.head⟩
  unfold visit
  dsimp only
  split
  · exact ⟨counted, rfl⟩
  case h_2 within =>
    split
    · rename_i admitted
      have effect := takesEffect_of_admitted within admitted
      have performs := Machine.meets_perform single.op intact _ ⟨counted, room effect⟩
      split
      · rename_i ran
        rw [ran] at performs
        exact ⟨performs, rfl⟩
      · rename_i ran
        rw [ran] at performs
        exact ⟨performs.1, Verdict.isStale_abort performs.2 _⟩
    · exact ⟨counted, rfl⟩

end Instruction

namespace Config

/-- The next step inserts a cell into a ring whose parent cannot count one more. -/
def crams (limit : Option Nat) : Config → Bool
  | .running (.instruction single) _ machine => single.takesEffect limit machine && !machine.hasRoom single.op
  | _ => false

/-- The run has ended since an operation met a slot without a cell. -/
def endsStale : Config → Bool
  | .running _ _ _ => false
  | .ended verdict _ => verdict.isStale

/-- The machine is secure, and the run has not failed for want of a cell. -/
structure Secure (root : CellId) (config : Config) : Prop where
  machine : config.machine.Secure root
  not_stale : config.endsStale = false

/-- What a step passes on: the machine is safe, and so are the literals of all code that can still be run. -/
structure Sheltered (root : CellId) (config : Config) : Prop where
  safe : config.machine.Safe root
  intact : config.Throughout (fun instruction => instruction.op.Intact) fun _ => True
  not_stale : config.endsStale = false

theorem Sheltered.secure {root : CellId} {config : Config} (sheltered : config.Sheltered root) :
    config.Secure root :=
  ⟨sheltered.safe.secure, sheltered.not_stale⟩

theorem endsStale_resume (stack : List Frame) {verdict : Verdict} (other : verdict.isStale = false)
    (machine : Machine) : (resume stack verdict machine).endsStale = false := by
  fun_induction resume stack verdict machine with
  | case3 _ stack machine induction => exact induction rfl
  | case2 => rfl
  | _ => exact other

theorem sheltered_step {root : CellId} {limit : Option Nat} {config : Config} (sheltered : config.Sheltered root)
    (room : config.crams limit = false) : (config.step limit).Sheltered root := by
  obtain ⟨safe, intact, notStale⟩ := sheltered
  match config with
  | .ended verdict machine => exact ⟨safe, intact, notStale⟩
  | .running (.instruction single) stack machine =>
      have fits : single.takesEffect limit machine = true → machine.hasRoom single.op = true := by
        simpa [crams] using room
      have visited : (single.visit limit machine).2.Safe root ∧ (single.visit limit machine).1.isStale = false := by
        cases intact.1 with
        | instruction _ literal => exact single.safe_visit literal safe fits
      refine ⟨?_, throughout_step limit intact, endsStale_resume stack visited.2 _⟩
      rw [step, machine_resume]
      exact visited.1
  | .running (.block loop) stack machine =>
      refine ⟨?_, throughout_step limit intact, ?_⟩
      · rw [step]
        split
        · exact safe
        · rw [machine_resume]
          exact safe
      · rw [step]
        split
        · rfl
        · exact endsStale_resume stack (by rfl) _

theorem sheltered_iterate {root : CellId} {limit : Option Nat} {config : Config} (sheltered : config.Sheltered root)
    {count : Nat} (room : ∀ earlier < count, ((step limit)^[earlier] config).crams limit = false) :
    ((step limit)^[count] config).Sheltered root :=
  iterate_kept (fun _ => sheltered_step) sheltered room

end Config

/-- Run pieces of code one after the other, each on what the one before left, however that ended. -/
def Code.runAll (limit : Option Nat) (budget : Nat) : List Code → Machine → Option (List Verdict × Machine)
  | [], machine => some ([], machine)
  | code :: rest, machine =>
      match Code.run limit budget code machine with
      | some (verdict, between) =>
          (Code.runAll limit budget rest between).map fun (verdicts, after) => (verdict :: verdicts, after)
      | none => none

/-- The stepping machine with the pieces of code that are to be run after the present one. -/
structure Session where
  config : Config
  queue : List Code

namespace Session

/-- Where nothing has been run yet. -/
def start (codes : List Code) (machine : Machine) : Session :=
  ⟨.ended (.flow .okay) machine, codes⟩

def step (limit : Option Nat) : Session → Session
  | ⟨.ended _ machine, code :: queue⟩ => ⟨.running code [] machine, queue⟩
  | ⟨config, queue⟩ => ⟨config.step limit, queue⟩

/-- Nothing is left to be run. -/
def isIdle : Session → Bool
  | ⟨.ended _ _, []⟩ => true
  | _ => false

theorem never_crams {limit : Option Nat} {session : Session} {total : Nat}
    (idle : ((step limit)^[total] session).isIdle = true)
    (early : ∀ count < total, ((step limit)^[count] session).config.crams limit = false) (count : Nat) :
    ((step limit)^[count] session).config.crams limit = false := by
  rcases Nat.lt_or_ge count total with before | after
  · exact early count before
  · obtain ⟨more, rfl⟩ := Nat.exists_eq_add_of_le' after
    rw [Function.iterate_add_apply]
    match (step limit)^[total] session, idle with
    | ⟨.ended verdict machine, []⟩, _ =>
        rw [Function.iterate_fixed (show step limit ⟨.ended verdict machine, []⟩ = _ from rfl)]
        rfl

/-- With nothing to come, the steps are those of the stepping machine. -/
theorem iterate_alone (limit : Option Nat) (config : Config) (count : Nat) :
    (step limit)^[count] ⟨config, []⟩ = ⟨(Config.step limit)^[count] config, []⟩ := by
  induction count with
  | zero => rfl
  | succ count induction =>
      rw [Function.iterate_succ_apply', Function.iterate_succ_apply', induction]
      cases (Config.step limit)^[count] config <;> rfl

/-- A piece of code comes to its end before the next one is started. -/
theorem reaches_ended {limit : Option Nat} {config : Config} {verdict : Verdict} {machine : Machine} {count : Nat}
    (ended : (Config.step limit)^[count] config = .ended verdict machine) (queue : List Code) :
    ∃ count, (step limit)^[count] ⟨config, queue⟩ = ⟨.ended verdict machine, queue⟩ := by
  induction count generalizing config with
  | zero => exact ⟨0, by rw [← ended]; rfl⟩
  | succ count induction =>
      cases config with
      | ended earlier before =>
          rw [Config.iterate_ended] at ended
          exact ⟨0, by rw [← ended]; rfl⟩
      | running code stack before =>
          obtain ⟨more, reached⟩ := induction ended
          exact ⟨more + 1, reached⟩

/-- Everything that running the pieces of code returns is met on the way of the session. -/
theorem reaches_runAll {limit : Option Nat} {budget : Nat} {codes : List Code} {machine after : Machine}
    {verdicts : List Verdict} (ran : Code.runAll limit budget codes machine = some (verdicts, after))
    (earlier : Verdict) :
    (∃ count verdict, (step limit)^[count] ⟨.ended earlier machine, codes⟩ = ⟨.ended verdict after, []⟩) ∧
      ∀ verdict ∈ verdicts, ∃ count between queue,
        (step limit)^[count] ⟨.ended earlier machine, codes⟩ = ⟨.ended verdict between, queue⟩ := by
  induction codes generalizing machine verdicts earlier with
  | nil =>
      cases ran
      exact ⟨⟨0, earlier, rfl⟩, by simp⟩
  | cons code rest induction =>
      rw [Code.runAll] at ran
      split at ran
      · rename_i verdict between first
        obtain ⟨⟨others, last⟩, onward, same⟩ := Option.map_eq_some_iff.mp ran
        cases same
        obtain ⟨_, ended⟩ := Code.run_iff_ended.mp ⟨budget, first⟩
        obtain ⟨count, reached⟩ := reaches_ended ended rest
        obtain ⟨⟨more, final, finished⟩, met⟩ := induction onward verdict
        -- One step starts the piece of code, `count` steps run it, and the rest is as before.
        have begun : (step limit)^[count + 1] ⟨.ended earlier machine, code :: rest⟩ =
            ⟨.ended verdict between, rest⟩ := reached
        refine ⟨⟨more + (count + 1), final, ?_⟩, ?_⟩
        · rw [Function.iterate_add_apply, begun, finished]
        · intro other among
          rcases List.mem_cons.mp among with rfl | among
          · exact ⟨count + 1, between, rest, begun⟩
          · obtain ⟨further, amid, queue, arrived⟩ := met other among
            refine ⟨further + (count + 1), amid, queue, ?_⟩
            rw [Function.iterate_add_apply, begun, arrived]
      · cases ran

/-- The code that is being run and the code to come leave the machine safe. -/
structure Sheltered (root : CellId) (session : Session) : Prop where
  config : session.config.Sheltered root
  queue : ∀ code ∈ session.queue, code.Intact

theorem sheltered_start {root : CellId} {machine : Machine} {codes : List Code} (safe : machine.Safe root)
    (intact : ∀ code ∈ codes, code.Intact) : (start codes machine).Sheltered root :=
  ⟨⟨safe, trivial, rfl⟩, intact⟩

theorem sheltered_next {root : CellId} {limit : Option Nat} {session : Session} (sheltered : session.Sheltered root)
    (room : session.config.crams limit = false) : (session.step limit).Sheltered root := by
  obtain ⟨config, queue⟩ := sheltered
  unfold step
  split
  · refine ⟨⟨config.safe, ⟨queue _ List.mem_cons_self, by simp⟩, rfl⟩, ?_⟩
    exact fun code among => queue code (List.mem_cons_of_mem _ among)
  · exact ⟨Config.sheltered_step config room, queue⟩

theorem sheltered_iterate {root : CellId} {limit : Option Nat} {session : Session}
    (sheltered : session.Sheltered root) {count : Nat}
    (room : ∀ earlier < count, ((step limit)^[earlier] session).config.crams limit = false) :
    ((step limit)^[count] session).Sheltered root :=
  iterate_kept (fun _ => sheltered_next) sheltered room

theorem secure_of_runAll {root : CellId} {machine : Machine} {codes : List Code}
    (sheltered : (start codes machine).Sheltered root) {limit : Option Nat}
    (roomy : ∀ count, ((step limit)^[count] (start codes machine)).config.crams limit = false) {budget : Nat}
    {verdicts : List Verdict} {after : Machine}
    (ran : Code.runAll limit budget codes machine = some (verdicts, after)) :
    after.Secure root ∧ ∀ verdict ∈ verdicts, verdict.isStale = false := by
  have everywhere (count : Nat) : ((step limit)^[count] (start codes machine)).config.Secure root :=
    (sheltered_iterate sheltered fun earlier _ => roomy earlier).config.secure
  obtain ⟨⟨count, final, finished⟩, met⟩ := reaches_runAll ran (.flow .okay)
  constructor
  · have secure := everywhere count
    rw [start, finished] at secure
    exact secure.machine
  · intro verdict among
    obtain ⟨further, between, queue, arrived⟩ := met verdict among
    have secure := everywhere further
    rw [start, arrived] at secure
    exact secure.not_stale

end Session

namespace Program

theorem sheltered_start {source : String} {program : Program} {streams : Streams}
    (parsed : parse source = .ok program) (shortSource : source.utf8ByteSize < 2 ^ 63)
    (shortInput : streams.LinesBelow (2 ^ 63)) : (program.start streams).Sheltered program.memoryRoot := by
  obtain ⟨draft, tree, head, store, read, same, _, ran, rfl⟩ := exists_of_parse parsed
  have rooted := Draft.rooted_of_read shortSource read
  rw [← same] at rooted
  -- The first child, where the head starts, may have to be made.
  have found := Store.keeps_child rooted rooted.root_mem _ rfl
  rw [ran] at found
  exact ⟨⟨⟨found.1, shortInput⟩, found.2.1⟩, ⟨(Draft.intact_of_read shortSource read).1, by simp⟩, rfl⟩

theorem secure_iterate {root : CellId} {program : Program} {streams : Streams}
    (sheltered : (program.start streams).Sheltered root) {limit : Option Nat} {count : Nat}
    (room : ∀ earlier < count, ((Config.step limit)^[earlier] (program.start streams)).crams limit = false) :
    ((Config.step limit)^[count] (program.start streams)).Secure root :=
  (Config.sheltered_iterate sheltered room).secure

theorem secure_of_run {root : CellId} {program : Program} (fresh : program.hasRun = false) {streams : Streams}
    (sheltered : (program.start streams).Sheltered root) {limit : Option Nat}
    (roomy : ∀ count, ((Config.step limit)^[count] (program.start streams)).crams limit = false) {budget : Nat}
    {result : Ending × Program × Streams} (ran : program.run streams limit budget = .ok (some result)) :
    (result.2.1.machine result.2.2).Secure root ∧
      ∀ id location, result.2.1.abort ≠ some ⟨.memory (.stale id), location⟩ := by
  obtain ⟨count, verdict, machine, ended, rfl⟩ := (run_iff fresh).mp ⟨budget, ran⟩
  have secure := secure_iterate sheltered fun earlier (_ : earlier < count) => roomy earlier
  rw [ended] at secure
  refine ⟨⟨secure.machine.one, secure.machine.head, secure.machine.no_leak⟩, ?_⟩
  intro id location aborted
  have fine : verdict.isStale = false := secure.not_stale
  rw [Verdict.isStale_of_abort? aborted] at fine
  cases fine

end Program

/--
Wherever a run stands, it is secure: that of a parsed program, and that of any pieces of code one after the
other on one tree. A source, or a line of the input, must not have more bytes than a number can count.
-/
theorem memory_stays_one_tree (limit : Option Nat) :
    (∀ source program streams, Program.parse source = .ok program → source.utf8ByteSize < 2 ^ 63 →
      streams.LinesBelow (2 ^ 63) →
      (∀ count, (∀ earlier < count, ((Config.step limit)^[earlier] (program.start streams)).crams limit = false) →
        ((Config.step limit)^[count] (program.start streams)).Secure program.memoryRoot) ∧
      ((∀ count, ((Config.step limit)^[count] (program.start streams)).crams limit = false) →
        ∀ budget ending after rest, program.run streams limit budget = .ok (some (ending, after, rest)) →
          (after.machine rest).Secure program.memoryRoot ∧
            ∀ id location, after.abort ≠ some ⟨.memory (.stale id), location⟩)) ∧
    (∀ root machine codes, machine.store.OneTree root → machine.store.contains machine.registers.head = true →
      machine.streams.LinesBelow (2 ^ 63) → (∀ code ∈ codes, code.Intact) →
      (∀ count,
        (∀ earlier < count, ((Session.step limit)^[earlier] (.start codes machine)).config.crams limit = false) →
        ((Session.step limit)^[count] (.start codes machine)).config.Secure root) ∧
      ((∀ count, ((Session.step limit)^[count] (.start codes machine)).config.crams limit = false) →
        ∀ budget verdicts after, Code.runAll limit budget codes machine = some (verdicts, after) →
          after.Secure root ∧ ∀ verdict ∈ verdicts, verdict.isStale = false)) := by
  constructor
  · intro source program streams parsed shortSource shortInput
    have sheltered := Program.sheltered_start parsed shortSource shortInput
    refine ⟨fun count room => Program.secure_iterate sheltered room, ?_⟩
    intro roomy budget ending after rest ran
    exact Program.secure_of_run (Program.hasRun_of_parse parsed) sheltered roomy ran
  · intro root machine codes one live short intact
    have safe : machine.Safe root := ⟨⟨one.rooted, short⟩, (Store.contains_iff _).mp live⟩
    have sheltered := Session.sheltered_start safe intact
    refine ⟨fun count room => (Session.sheltered_iterate sheltered room).config.secure, ?_⟩
    intro roomy budget verdicts after ran
    exact Session.secure_of_runAll sheltered roomy ran

section Samples

/-- A cell with two children. -/
def pairTree : CellTree :=
  ⟨⟨[⟨⟨0⟩, 2, ⟨[Cell.leaf ⟨1⟩ 7, Cell.leaf ⟨2⟩ 2], []⟩⟩], ⟨[], 3⟩⟩, ⟨0⟩⟩

/-- Write a literal, go into it, insert and delete, read a line, and go up past the top. -/
def roaming : Program :=
  ⟨⟨.always, .instruction ⟨.setMemory pairTree, .always, ⟨1, 3⟩⟩,
      [.instruction ⟨.move .down, .always, ⟨1, 10⟩⟩, .instruction ⟨.edit .insertAfter, .always, ⟨1, 12⟩⟩,
        .instruction ⟨.edit .deleteAfter, .always, ⟨1, 15⟩⟩, .instruction ⟨.input .line, .always, ⟨1, 18⟩⟩,
        .instruction ⟨.move .up, .always, ⟨1, 24⟩⟩, .instruction ⟨.move .up, .always, ⟨1, 26⟩⟩],
      ⟨1, 1⟩⟩,
    CellTree.initial.store, ⟨0⟩, ⟨0, false, ⟨1⟩⟩, false, 0, none⟩

/-- Pieces of code of which the second fails and the third exits, with the head then on the top. -/
def pieces : List Code :=
  [.instruction ⟨.edit .insertAfter, .always, ⟨1, 1⟩⟩, .instruction ⟨.decrement, .always, ⟨1, 4⟩⟩,
    .instruction ⟨.move .up, .always, ⟨1, 7⟩⟩, .instruction ⟨.edit .deleteAfter, .always, ⟨1, 9⟩⟩]

def greeting : Streams :=
  Streams.ofInput [104, 105, 10] .stop

theorem roaming_stays_one_tree :
    Program.parse "{ .(7 2) v +> -> strin ^ ^ }" = .ok roaming ∧
      (∀ count, ((Config.step none)^[count] (roaming.start greeting)).Secure ⟨0⟩) ∧
      (roaming.run greeting none 9).toOption.join.map (fun result => result.2.1.store.live) = some 6 ∧
      (∀ ending after rest, roaming.run greeting none 9 = .ok (some (ending, after, rest)) →
        (after.machine rest).Secure ⟨0⟩) ∧
      (Code.runAll none 1 pieces (roaming.machine greeting)).map (fun result => result.1.map Verdict.text) =
        some ["OKAY", "ABORT", "EXIT", "ABORT"] ∧
      ∀ verdicts after, Code.runAll none 1 pieces (roaming.machine greeting) = some (verdicts, after) →
        after.Secure ⟨0⟩ := by
  have parsed : Program.parse "{ .(7 2) v +> -> strin ^ ^ }" = .ok roaming := by cbv
  have short : greeting.LinesBelow (2 ^ 63) := Streams.linesBelow_of_length (by decide)
  obtain ⟨steps, runs⟩ := (memory_stays_one_tree none).1 _ roaming greeting parsed (by decide) short
  have roomy (count : Nat) : ((Config.step none)^[count] (roaming.start greeting)).crams none = false := by
    have idle : ((Session.step none)^[8] ⟨roaming.start greeting, []⟩).isIdle = true := by decide +kernel
    have never := Session.never_crams idle (by decide +kernel) count
    rwa [Session.iterate_alone] at never
  have one : (roaming.machine greeting).store.OneTree ⟨0⟩ := CellTree.rooted_initial.oneTree
  have intact : ∀ code ∈ pieces, code.Intact := by
    simp only [pieces, List.forall_mem_cons]
    exact ⟨.instruction _ trivial, .instruction _ trivial, .instruction _ trivial, .instruction _ trivial, by simp⟩
  obtain ⟨_, sequences⟩ := (memory_stays_one_tree none).2 _ _ pieces one (by decide +kernel) short intact
  have idle : ((Session.step none)^[8] (.start pieces (roaming.machine greeting))).isIdle = true := by
    decide +kernel
  have never := Session.never_crams idle (by decide +kernel)
  refine ⟨parsed, ?_, by decide +kernel, ?_, by decide +kernel, ?_⟩
  · exact fun count => steps count fun earlier _ => roomy earlier
  · intro ending after rest ran
    exact (runs roomy 9 ending after rest ran).1
  · intro verdicts after ran
    exact (sequences never 1 verdicts after ran).1

end Samples

end RingTape
