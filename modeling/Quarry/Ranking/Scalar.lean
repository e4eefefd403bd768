/-!
The arithmetic that scores are computed in. The program computes with doubles; what the formulas
mean can be said in any field with a logarithm.
-/

namespace Quarry

class Scalar (α : Type) extends Add α, Sub α, Mul α, Div α, BEq α where
  ofNat : Nat → α
  half : α
  log : α → α
  lt : α → α → Bool

namespace Scalar

instance : Scalar Float where
  ofNat := Float.ofNat
  half := 0.5
  log := Float.log
  lt a b := a < b

variable {α : Type} [Scalar α]

def zero : α := ofNat 0

def one : α := ofNat 1

/-- The order of ranked documents: the greater score first, and of equal scores the smaller name. -/
def ranksBefore (score : β → α) (name : β → List UInt16) (a b : β) : Bool :=
  if score a == score b then (compare (name a) (name b)).isLT else lt (score b) (score a)

end Scalar
end Quarry
