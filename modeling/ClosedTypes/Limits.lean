/-!
Limits on work that need not come to an end by itself.
-/

namespace ClosedTypes

structure Limits where
  /-- The steps that one normalization may take. -/
  fuel : Nat := 10000
  /-- The sample combinations that are tried on one equation. -/
  sampleCases : Nat := 4096
  deriving DecidableEq

end ClosedTypes
