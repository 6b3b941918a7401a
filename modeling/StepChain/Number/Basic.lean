import StepChain.Number.Binary64
/-!
# Numbers

The two kinds of number a configuration holds: whole numbers, exact at any size, and finite doubles.  `1` and `1.0`
are different values.
-/
namespace StepChain

inductive Number where
  | int (value : Int)
  | float (value : Binary64)
  deriving DecidableEq

end StepChain
