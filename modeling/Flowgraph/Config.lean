/-!
# Configuration

Which passes run, and how far they go.
-/

namespace Flowgraph

/-- What loop unrolling is given. -/
structure UnrollConfig where
  enabled : Bool
  /-- How many copies of a loop body follow one test. -/
  factor : Nat
  /-- Larger loop bodies are left alone. -/
  maxBodySize : Nat
  deriving DecidableEq

/-- What the cleaning rounds are given. -/
structure CleanupConfig where
  enabled : Bool
  maxIterations : Nat
  /-- Whether nodes that the start does not lead to are dropped first. -/
  sweepUnreachable : Bool
  deriving DecidableEq

/-- The settings of both phases. -/
structure OptimizerConfig where
  unroll : UnrollConfig
  cleanup : CleanupConfig
  deriving DecidableEq

namespace UnrollConfig

/-- Five copies of bodies of at most fifteen nodes. -/
def standard : UnrollConfig := ⟨true, 5, 15⟩

/-- Enabled, with this factor and limit. -/
def withFactor (factor maxBodySize : Nat) : UnrollConfig := ⟨true, factor, maxBodySize⟩

end UnrollConfig

namespace CleanupConfig

/-- At most fifteen rounds, each after a sweep. -/
def standard : CleanupConfig := ⟨true, 15, true⟩

end CleanupConfig

namespace OptimizerConfig

/-- Both phases, with their standard settings. -/
def standard : OptimizerConfig := ⟨.standard, .standard⟩

/-- Nothing runs. -/
def disabled : OptimizerConfig where
  unroll := { UnrollConfig.standard with enabled := false }
  cleanup := { CleanupConfig.standard with enabled := false, sweepUnreachable := false }

/-- Larger loops, more copies and more rounds. -/
def aggressive : OptimizerConfig where
  unroll := .withFactor 8 32
  cleanup := { CleanupConfig.standard with maxIterations := 64 }

end OptimizerConfig

end Flowgraph
