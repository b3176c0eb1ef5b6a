import MoeJit.Lib.Words
import Mathlib.Data.List.AList
import Mathlib.Data.Rat.Defs

/-!
# MoE tasks

`MoeTask` of `moe-jit.h`: the demand of one AllToAllV step as seen by one rank.
`std::unordered_map` and `std::map` are association lists without repeated
keys; no modelled function depends on the order in which a map is walked.
Seconds (`double`) are exact rationals.
-/

namespace MoeJit

open Words

/-- `MPIRankIDType`, a `uint64_t`. -/
abbrev Rank := Nat

/-- `uint32_t` task identifiers. -/
abbrev TaskId := Nat

/-- `std::unordered_map<MPIRankIDType, std::size_t>`. -/
abbrev FlowMap := AList fun _ : Rank => Nat

/-- One AllToAllV task of one rank. -/
structure MoeTask where
  taskId : TaskId
  startTime : Rat
  /-- bytes this rank sends, by target rank -/
  sendFlows : FlowMap
  /-- bytes this rank expects, by source rank -/
  expectedRecvFlows : FlowMap
  computationTime : Rat
  /-- number of nodes that take part in the task (quorum size) -/
  groupSize : Nat := 0

/-- The sum of the values of a flow map, in `std::size_t`. -/
def sumFlows (flows : List (Sigma fun _ : Rank => Nat)) : Nat :=
  flows.foldl (fun total kv => u64 (total + kv.2)) 0

namespace MoeTask

/-- `GetTotalBytes`: what the rank sends. -/
def getTotalBytes (task : MoeTask) : Nat := sumFlows task.sendFlows.entries

end MoeTask

end MoeJit
