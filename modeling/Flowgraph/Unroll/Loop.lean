import Flowgraph.Unroll.BodyCopy
import Flowgraph.Unroll.Guard

/-!
# Unrolling one loop

A loop with a guard is replaced by a new header that tests whether as many iterations remain as the
unroll factor says.  If so, it enters a chain of that many copies of the body, without tests between
them, which leads back to it; if not, it enters a copy of the whole loop that does the rest.

* `unrollLoop`: build the new loop and lead everything that enters the old one to it.
-/

namespace Flowgraph

/-- What became of a loop: its new header, or why it was left alone. -/
inductive UnrollOutcome where
  | unrolled (header : NodeId)
  | skipped (reason : SkipReason)
  deriving DecidableEq

namespace UnrollOutcome

/-- The loop has been replaced. -/
def isUnrolled : UnrollOutcome → Bool
  | .unrolled _ => true
  | .skipped _ => false

end UnrollOutcome

/-- A copy of the loop with its header, which leaves where the loop leaves; returns the copy of the
header. -/
def addEpilogue (header : NodeId) (body : List NodeId) (guard : Guard) : Edit NodeId := do
  let back ← Edit.addStub
  let entry ← copyBody body header back guard.entry
  let epilogue ← Edit.cloneNode header [entry, guard.exit]
  Edit.resolveStub back epilogue
  return epilogue

/-- So many copies of the body, each leading to the one made before it and the first to `back`;
returns where the last one is entered. -/
def addChain (header : NodeId) (body : List NodeId) (entry back : NodeId) : Nat → Edit NodeId
  | 0 => return back
  | copies + 1 => do
      let next ← copyBody body header back entry
      addChain header body entry next copies

/-- Lead the predecessors of `header` that lie outside the body to `target`. -/
def moveEntries (header : NodeId) (body : List NodeId) (target : NodeId) : Edit Unit := do
  let entering := ((← get).preds header).filter fun p => !body.contains p
  entering.forM fun p => Edit.replaceSucc p header target

/-- Build the unrolled loop behind a new header and return that header. -/
def replaceLoop (header : NodeId) (body : List NodeId) (guard : Guard) (factor : Nat) :
    Edit NodeId := do
  let epilogue ← addEpilogue header body guard
  let back ← Edit.addStub
  let chain ← addChain header body guard.entry back factor
  let ahead := Int64.ofNat (factor - 1)
  let newHeader ← Edit.addBranch (guard.lookahead ahead) chain epilogue
  Edit.resolveStub back newHeader
  moveEntries header body newHeader
  return newHeader

/-- Unroll the loop with this header and body, if it has a guard and the number of iterations to
look ahead is a constant. -/
def unrollLoop (header : NodeId) (body : List NodeId) (config : UnrollConfig) :
    Edit UnrollOutcome := do
  let _ ← Edit.require header
  match Guard.analyze (← get) header body config with
  | .error reason => return .skipped reason
  | .ok guard =>
      if config.factor - 1 ≤ Int64.maxValue.toNatClampNeg then
        return .unrolled (← replaceLoop header body guard config.factor)
      else return .skipped .tooLarge

end Flowgraph
