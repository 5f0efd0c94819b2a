import RingTape.Proofs.Grafting
import RingTape.Proofs.Release

/-!
All loops over the links of a store end. None of them counts its rounds, and on links that do not belong to a
well-formed store some run on forever: a walk that comes back to where it was without meeting the slot at which it
stops has no result. In a well-formed store each loop has a result for every live cell, and it is what the store says:
the children of the cell, its shape, its place among its ancestors, or the store after the step, the clearing or the
copy.
-/

namespace RingTape

set_option autoImplicit false

namespace Arena

/-- A walk that returns to its start, and does not meet the slot at which it stops, never ends. -/
theorem chase_returning {arena : Arena} {link : Fields → Option CellId} {stop : Option CellId} {first : CellId}
    {rest : List CellId} (chains : arena.Chains link (first :: rest) (some first))
    (apart : ∀ id ∈ first :: rest, stop ≠ some id) : arena.chase link stop (some first) = none := by
  have around := chase_of_chains chains apart
  cases ended : arena.chase link stop (some first) with
  | none => rfl
  | some result =>
      -- The slots met would be those of one round and, after it, themselves.
      rw [List.head?_cons, Option.some_or, ended, Option.map_some] at around
      have longer := congrArg (fun result => result.1.length) (Option.some.inj around)
      simp only [List.length_append, List.length_cons] at longer
      omega

end Arena

namespace Store

/-- The loops that start from a cell end with what the store says. -/
structure LoopsEnd (store : Store) (cell : Cell) : Prop where
  /-- The two walks along the ring of the children. -/
  materialized : store.arena.materialized cell.id = some (cell.ring.map Cell.id, cell.isClosed)
  /-- The two walks along the ring after it was cut. -/
  unhooked : ∃ later, store.arena.unhook cell.id = some (later, cell.ring.members.map Cell.id) ∧
    store.arena.Unhooked later cell
  captured : store.arena.capture cell.id = some cell.snapshot
  /-- The climb to a cell above, or to the top. -/
  climbed : ∀ ancestor, ∃ answer,
    store.arena.isAncestor ancestor cell.id = some answer ∧ isAncestor ancestor cell.id store = .ok answer store
  /-- A step to a neighbour, with the walk to the other end of the arc where the new cell completes the ring. -/
  stepped : ∀ side : Side, store.arena.neighbour side cell.id = some (report (side.walk cell.id store))
  /-- The worklist of the cells to discard. -/
  cleared : ∃ after, store.arena.reset cell.id = some after.arena ∧ reset cell.id store = .ok () after
  /-- The worklist of the cells to copy, from this store or from another one. -/
  copied : ∀ other : Store, other.WellFormed → ∀ source, other.contains source = true → ∃ after,
    store.arena.copyFrom cell.id other.arena source = some after.arena ∧
      copyFrom cell.id other source store = .ok () after

theorem run_copyFrom {other : Store} {source : CellId} {image : Cell} (found : other.cell? source = some image)
    (target : CellId) : copyFrom target other source = overwrite target image := by
  rw [copyFrom, found]

/-- Every loop over the links of a well-formed store ends, for every live cell. -/
theorem pointer_loops_end (store : Store) (formed : store.WellFormed) (id : CellId) (live : store.contains id = true) :
    ∃ cell, store.cell? id = some cell ∧ store.LoopsEnd cell := by
  have sound := (wellFormed_iff_sound store).mp formed
  have listed := (contains_iff id).mp live
  obtain ⟨cell, inside, rfl⟩ := (Cell.mem_forestIds _ _).mp listed
  refine ⟨cell, cell?_of_mem sound.distinct inside, ?_⟩
  constructor
  case materialized => exact sound.laysOut.materialized inside
  case unhooked => exact (sound.laysOut.subtree inside).unhook
  case captured => exact sound.laysOut.capture inside
  case climbed => exact fun ancestor => isAncestor_arena sound ancestor listed
  case stepped => exact neighbour_arena sound listed
  case cleared => exact ⟨_, reset_arena sound inside, run_reset sound inside⟩
  case copied =>
    intro other otherFormed source present
    have otherSound := (wellFormed_iff_sound other).mp otherFormed
    obtain ⟨image, among, rfl⟩ := (Cell.mem_forestIds _ _).mp ((contains_iff source).mp present)
    refine ⟨_, copyFrom_arena sound otherSound inside among, ?_⟩
    rw [run_copyFrom (cell?_of_mem otherSound.distinct among)]
    exact run_overwrite sound inside image

theorem pointer_loops_end_nestedRings :
    nestedRings.WellFormed ∧ nestedRings.contains ⟨1⟩ = true ∧
      ∃ cell, nestedRings.cell? ⟨1⟩ = some cell ∧ nestedRings.LoopsEnd cell := by
  have formed : nestedRings.WellFormed :=
    (wellFormed_iff_sound _).mpr (Deed.sound_performAll (fun _ => sound_empty) _ (by decide +kernel) 0)
  have live : nestedRings.contains ⟨1⟩ = true := by decide +kernel
  exact ⟨formed, live, pointer_loops_end nestedRings formed ⟨1⟩ live⟩

end Store

end RingTape
