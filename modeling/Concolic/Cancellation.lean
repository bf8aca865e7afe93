import Concolic.Failure

/-!
# Cancellation

A token fires when its flag is raised or when its deadline has come. A child shares the flag
of its parent and has a deadline no later than the parent's, so a search for one method can
run out of time without touching the others, while a cancelled run stops them all.
-/

namespace Concolic

structure Token where
  /-- The number of the flag. -/
  flag : Nat
  /-- The time at which the token fires by itself. -/
  deadline : Option Nat := none
  deriving DecidableEq

/-- The clock, and for each flag whether it is raised. -/
structure Cancellation where
  now : Nat := 0
  raised : List Bool := []

namespace Cancellation

/-- A token with a flag of its own. -/
def create (c : Cancellation) (deadline : Option Nat := none) : Token × Cancellation :=
  (⟨c.raised.length, deadline⟩, { c with raised := c.raised ++ [false] })

/-- A token with a flag of its own that fires after a time. -/
def createFor (c : Cancellation) (timeoutMs : Nat) : Token × Cancellation :=
  c.create (some (c.now + timeoutMs))

/-- A token with the same flag that fires after a time, if the parent has not by then. -/
def child (c : Cancellation) (parent : Token) (timeoutMs : Nat) : Token :=
  let own := c.now + timeoutMs
  { parent with deadline := some (parent.deadline.elim own (min own)) }

/-- Raise the flag of a token. -/
def cancel (c : Cancellation) (t : Token) : Cancellation :=
  { c with raised := c.raised.set t.flag true }

def isCancelled (c : Cancellation) (t : Token) : Bool :=
  c.raised.getD t.flag false || t.deadline.any (· ≤ c.now)

/-- The time until the deadline, if there is one. -/
def remaining? (c : Cancellation) (t : Token) : Option Nat := t.deadline.map (· - c.now)

/-- Go on, unless the token has fired. -/
def checkpoint (c : Cancellation) (t : Token) : Except Failure Unit :=
  if c.isCancelled t then .error .cancelled else .ok ()

@[simp] theorem isCancelled_cancel (c : Cancellation) (t : Token) (h : t.flag < c.raised.length) :
    (c.cancel t).isCancelled t = true := by
  simp [isCancelled, cancel, h]

/-- A child fires whenever its parent has. -/
theorem isCancelled_child (c : Cancellation) (t : Token) (timeoutMs : Nat)
    (h : c.isCancelled t = true) : c.isCancelled (c.child t timeoutMs) = true := by
  unfold isCancelled at h ⊢
  cases hd : t.deadline with
  | none => simp_all [child]
  | some due =>
    simp only [hd, child, Option.any_some, Option.elim_some, Bool.or_eq_true,
      decide_eq_true_eq] at h ⊢
    exact h.imp_right fun h => Nat.le_trans (Nat.min_le_right _ _) h

end Cancellation
end Concolic
