/-!
Programs that can fail. What a sequence of programs does from one state follows from what its first program
does there. A contract speaks of every state as described before: from there the program either succeeds or
fails, and leaves its result or its error and the state as described after.
-/

namespace RingTape

set_option autoImplicit false

section Runs

variable {ε σ α β : Type} {first : EStateM ε σ α} {rest : α → EStateM ε σ β} {state reached : σ}

theorem run_bind_ok {result : α} (ran : first state = .ok result reached) :
    (first >>= rest) state = rest result reached := by
  change EStateM.bind first rest state = _
  rw [EStateM.bind, ran]

theorem run_bind_error {error : ε} (ran : first state = .error error reached) :
    (first >>= rest) state = .error error reached := by
  change EStateM.bind first rest state = _
  rw [EStateM.bind, ran]

theorem run_get (state : σ) : (get : EStateM ε σ σ) state = .ok state state := rfl

end Runs

section Meets

variable {ε σ α β : Type}

def Meets (before : σ → Prop) (program : EStateM ε σ α) (after : α → σ → Prop) (failed : ε → σ → Prop) :
    Prop :=
  ∀ state, before state →
    match program state with
    | .ok result reached => after result reached
    | .error error reached => failed error reached

variable {before : σ → Prop} {between : α → σ → Prop} {after : β → σ → Prop} {failed : ε → σ → Prop}

theorem Meets.bind {first : EStateM ε σ α} {rest : α → EStateM ε σ β}
    (meets : Meets before first between failed)
    (onward : ∀ result, Meets (between result) (rest result) after failed) :
    Meets before (first >>= rest) after failed := by
  intro state holds
  have reached := meets state holds
  show match EStateM.bind first rest state with
    | .ok result reached => after result reached
    | .error error reached => failed error reached
  unfold EStateM.bind
  cases ran : first state with
  | ok result next =>
      rw [ran] at reached
      exact onward result next reached
  | error error next =>
      rw [ran] at reached
      exact reached

theorem Meets.imp {program : EStateM ε σ β} {before' : σ → Prop} {after' : β → σ → Prop}
    (meets : Meets before program after failed) (asks : ∀ state, before' state → before state)
    (promises : ∀ result state, after result state → after' result state) :
    Meets before' program after' failed := by
  intro state holds
  have reached := meets state (asks state holds)
  cases ran : program state with
  | ok result next =>
      rw [ran] at reached
      exact promises result next reached
  | error error next =>
      rw [ran] at reached
      exact reached

theorem meets_pure {result : β} (holds : ∀ state, before state → after result state) :
    Meets before (pure result : EStateM ε σ β) after failed :=
  holds

theorem meets_throw {error : ε} (holds : ∀ state, before state → failed error state) :
    Meets before (throw error : EStateM ε σ β) after failed :=
  holds

end Meets

end RingTape
