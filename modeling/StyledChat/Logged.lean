/-
Results with a log.

A computation that reports returns its result together with the list of what it
reported, in order.
-/
namespace StyledChat

/-- A result and what was reported on the way to it, in order. -/
structure Logged (ε α : Type) where
  value : α
  log : List ε

namespace Logged

variable {ε ε' α β : Type}

def pure (a : α) : Logged ε α := ⟨a, []⟩

def bind (x : Logged ε α) (f : α → Logged ε β) : Logged ε β :=
  let y := f x.value
  ⟨y.value, x.log ++ y.log⟩

instance : Monad (Logged ε) where
  pure := pure
  bind := bind

/-- Reports one thing. -/
def report (e : ε) : Logged ε Unit := ⟨(), [e]⟩

/-- Reports one thing if `b` holds. -/
def reportIf (b : Bool) (e : ε) : Logged ε Unit := ⟨(), if b then [e] else []⟩

/-- The same result, its reports seen as reports of another kind. -/
def mapLog (f : ε → ε') (x : Logged ε α) : Logged ε' α := ⟨x.value, x.log.map f⟩

end Logged

end StyledChat
