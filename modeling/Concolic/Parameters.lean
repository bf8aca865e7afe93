/-!
# Call parameters

What a call takes: perhaps a receiver, arguments, and one holder for each class whose static
fields it reads.
-/

namespace Concolic

structure Parameters (α : Type) where
  receiver : Option α := none
  arguments : List α := []
  statics : List α := []
  deriving DecidableEq

namespace Parameters

variable {α β : Type}

/-- Every parameter: the receiver, then the arguments, then the holders. -/
def all (p : Parameters α) : List α := p.receiver.toList ++ p.arguments ++ p.statics

def map (f : α → β) (p : Parameters α) : Parameters β :=
  ⟨p.receiver.map f, p.arguments.map f, p.statics.map f⟩

/-- Replace every parameter, with effects in the order of `all`. -/
def mapM {m : Type → Type} [Monad m] (f : α → m β) (p : Parameters α) : m (Parameters β) := do
  let receiver ← p.receiver.mapM f
  let arguments ← p.arguments.mapM f
  let statics ← p.statics.mapM f
  return ⟨receiver, arguments, statics⟩

@[simp] theorem all_map (f : α → β) (p : Parameters α) : (p.map f).all = p.all.map f := by
  cases p with
  | mk receiver arguments statics => cases receiver <;> simp [map, all]

end Parameters
end Concolic
