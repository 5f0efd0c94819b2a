import Mathlib.Logic.Basic

/-!
Programs that call themselves, without a count of the calls. A program is given by one round of it, which may ask for
the results of further rounds. Rounds that are nested deeper than allowed have no result, and the program gives what
comes out at some depth. So it has a result just if its rounds come to an end. The program satisfies its own equation,
`solve_eq`, if every result of a round depends on finitely many answers.
-/

namespace RingTape

set_option autoImplicit false

namespace Recursion

variable {α β γ δ : Type}

/-- What a program gives if its rounds are nested at most so deep. -/
def within (round : (α → Option β) → α → Option β) : Nat → α → Option β
  | 0, _ => none
  | depth + 1, input => round (within round depth) input

open scoped Classical in
/-- What a program gives if its rounds may be nested at any depth. -/
noncomputable def solve (round : (α → Option β) → α → Option β) (input : α) : Option β :=
  if ends : ∃ result depth, within round depth input = some result then some ends.choose else none

/-- A computation whose results each depend on finitely many answers. -/
def Finitary (ask : (α → Option β) → Option γ) : Prop :=
  ∀ answers result, ask answers = some result → ∃ calls : List α, ∀ others,
    (∀ call ∈ calls, ∀ answer, answers call = some answer → others call = some answer) → ask others = some result

theorem finitary_const (outcome : Option γ) : Finitary fun _ : α → Option β => outcome := by
  intro answers result given
  exact ⟨[], fun _ _ => given⟩

theorem finitary_call (input : α) : Finitary fun answers : α → Option β => answers input := by
  intro answers result given
  exact ⟨[input], fun others kept => kept input List.mem_cons_self result given⟩

theorem Finitary.bind {ask : (α → Option β) → Option γ} (first : Finitary ask)
    {next : (α → Option β) → γ → Option δ} (onward : ∀ outcome, Finitary fun answers => next answers outcome) :
    Finitary fun answers => (ask answers).bind (next answers) := by
  intro answers result given
  obtain ⟨outcome, asked, rest⟩ := Option.bind_eq_some_iff.mp given
  obtain ⟨calls, before⟩ := first answers outcome asked
  obtain ⟨more, after⟩ := onward outcome answers result rest
  refine ⟨calls ++ more, fun others kept => Option.bind_eq_some_iff.mpr ⟨outcome, ?_, ?_⟩⟩
  · exact before others fun call among => kept call (List.mem_append_left _ among)
  · exact after others fun call among => kept call (List.mem_append_right _ among)

theorem finitary_mapM {ask : (α → Option β) → γ → Option δ} (each : ∀ input, Finitary fun answers => ask answers input)
    (inputs : List γ) : Finitary fun answers => inputs.mapM (ask answers) := by
  induction inputs with
  | nil => exact finitary_const _
  | cons input rest induction =>
      simp only [List.mapM_cons]
      exact (each input).bind fun _ => induction.bind fun _ => finitary_const _

section Rounds

variable {round : (α → Option β) → α → Option β} (finitary : ∀ input, Finitary fun answers => round answers input)

include finitary

theorem within_succ {depth : Nat} {input : α} {result : β} (given : within round depth input = some result) :
    within round (depth + 1) input = some result := by
  induction depth generalizing input result with
  | zero => cases given
  | succ depth induction =>
      obtain ⟨calls, determined⟩ := finitary input _ result given
      exact determined _ fun call _ answer => induction

/-- More depth keeps a result. -/
theorem within_mono {depth later : Nat} (deeper : depth ≤ later) {input : α} {result : β}
    (given : within round depth input = some result) : within round later input = some result := by
  induction deeper with
  | refl => exact given
  | step _ induction => exact within_succ finitary induction

theorem solve_eq_some_iff (input : α) (result : β) :
    solve round input = some result ↔ ∃ depth, within round depth input = some result := by
  unfold solve
  constructor
  · intro given
    split at given
    case isTrue ends => exact Option.some.inj given ▸ ends.choose_spec
    case isFalse => cases given
  · rintro ⟨depth, given⟩
    have ends : ∃ result depth, within round depth input = some result := ⟨result, depth, given⟩
    obtain ⟨other, chosen⟩ := ends.choose_spec
    rw [dif_pos ends, ← within_mono finitary (Nat.le_max_left other depth) chosen]
    exact within_mono finitary (Nat.le_max_right other depth) given

/-- Finitely many results come out at one depth. -/
theorem exists_depth (calls : List α) : ∃ depth, ∀ call ∈ calls, ∀ answer,
    solve round call = some answer → within round depth call = some answer := by
  induction calls with
  | nil => exact ⟨0, fun _ among => absurd among List.not_mem_nil⟩
  | cons first rest induction =>
      obtain ⟨depth, others⟩ := induction
      have deep : ∃ own, ∀ answer, solve round first = some answer → within round own first = some answer := by
        cases given : solve round first with
        | none => exact ⟨0, fun _ absent => absurd absent (Option.some_ne_none _).symm⟩
        | some answer =>
            obtain ⟨own, found⟩ := (solve_eq_some_iff finitary first answer).mp given
            exact ⟨own, fun _ same => Option.some.inj same ▸ found⟩
      obtain ⟨own, found⟩ := deep
      refine ⟨max own depth, fun call among answer given => ?_⟩
      rcases List.mem_cons.mp among with rfl | later
      · exact within_mono finitary (Nat.le_max_left _ _) (found answer given)
      · exact within_mono finitary (Nat.le_max_right _ _) (others call later answer given)

/-- What a program gives is what its round gives, with the program for the rounds asked for. -/
theorem solve_eq (input : α) : solve round input = round (solve round) input := by
  refine Option.ext fun result => ?_
  rw [solve_eq_some_iff finitary]
  constructor
  · rintro ⟨depth, given⟩
    cases depth with
    | zero => cases given
    | succ depth =>
        obtain ⟨calls, determined⟩ := finitary input _ result given
        exact determined _ fun call _ answer known => (solve_eq_some_iff finitary call answer).mpr ⟨depth, known⟩
  · intro given
    obtain ⟨calls, determined⟩ := finitary input _ result given
    obtain ⟨depth, known⟩ := exists_depth finitary calls
    exact ⟨depth + 1, determined _ known⟩

end Rounds

end Recursion

end RingTape
