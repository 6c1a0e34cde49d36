import PlacementTree.Binary64
import PlacementTree.Request

/-!
# Scoring and ranking hosts

A host is scored by what would be left of it: for the cpu and for memory, the headroom is the effective capacity less what is
in use and what is asked for. A host that lacks disk or has a negative headroom is not schedulable and has no score. The
headroom as a share of the capacity is the score of the resource, and the transfer ratio mixes the two scores. The arithmetic
of this (`marks?`) is written for any kind of numbers; hosts are scored in doubles.

Scores are ranked by the mixed score, then by free memory, both descending in the total order of doubles, then by the id of the
host ascending: `CandidateScore.rankCompare`. `rankSnapshots` is the list of the scores of all hosts that meet the constraints
and are schedulable, best first.
-/

namespace PlacementTree

/-- The score of a host for one demand. -/
structure CandidateScore where
  candidateId : String
  cpuScore : Binary64
  memoryScore : Binary64
  combined : Binary64
  freeMemoryMb : Binary64
  deriving DecidableEq, Repr

/-- The order of scores: `lt` means that the first is better. -/
def CandidateScore.rankCompare (a b : CandidateScore) : Ordering :=
  ((b.combined.totalCompare a.combined).then (b.freeMemoryMb.totalCompare a.freeMemoryMb)).then
    (compare a.candidateId b.candidateId)

/-- Whether the first score is no worse than the second. -/
def CandidateScore.noWorse (a b : CandidateScore) : Bool := a.rankCompare b != .gt

/-- Amounts of one resource at one host: the effective capacity, what is in use of it, and what is asked for. -/
structure Amounts (α : Type) where
  capacity : α
  used : α
  asked : α

/-- What a host gets for its resources: the share of each that would be left, their mixture, and the memory left. -/
structure Marks (α : Type) where
  cpu : α
  memory : α
  combined : α
  freeMemory : α

section Arithmetic

variable {α : Type} [OfNat α 0] [OfNat α 1] [Add α] [Sub α] [Mul α] [Div α] [LT α] [DecidableLT α]

/-- A number cut to the range from zero to one. -/
def clampUnit (x : α) : α := if x < 0 then 0 else if 1 < x then 1 else x

/-- What would be left of the resource. -/
def Amounts.headroom (a : Amounts α) : α := a.capacity - a.used - a.asked

/-- The headroom as a share of the capacity. A host without capacity has no share left. -/
def Amounts.freeShare (a : Amounts α) : α := if 0 < a.capacity then clampUnit (a.headroom / a.capacity) else 0

/-- The share of the cpu counts by the transfer ratio, the share of memory by the rest. -/
def mixShares (transfer cpuShare memoryShare : α) : α := transfer * cpuShare + (1 - transfer) * memoryShare

/-- The marks of a host, unless it lacks one of its resources. -/
def marks? (transfer : α) (cpu memory : Amounts α) : Option (Marks α) :=
  if cpu.headroom < 0 ∨ memory.headroom < 0 then none
  else
    some
      { cpu := cpu.freeShare
        memory := memory.freeShare
        combined := mixShares transfer cpu.freeShare memory.freeShare
        freeMemory := memory.headroom }

end Arithmetic

/-- The amounts of cpus, as doubles. -/
def ResourceSnapshot.cpuAmounts (s : ResourceSnapshot) (d : ResourceDemand) (r : OvercommitRatios) : Amounts Float :=
  { capacity := s.effectiveCpu r, used := s.usedCpu.toFloat, asked := d.cpu.toFloat }

/-- The amounts of memory in MiB, as doubles. -/
def ResourceSnapshot.memoryAmounts (s : ResourceSnapshot) (d : ResourceDemand) (r : OvercommitRatios) : Amounts Float :=
  { capacity := s.effectiveMemoryMb r, used := s.usedMemoryMb.toFloat, asked := d.memoryMb.toFloat }

/-- The score that a host gets for its marks. -/
def CandidateScore.ofMarks (candidateId : String) (m : Marks Float) : CandidateScore :=
  { candidateId
    cpuScore := Binary64.ofFloat m.cpu
    memoryScore := Binary64.ofFloat m.memory
    combined := Binary64.ofFloat m.combined
    freeMemoryMb := Binary64.ofFloat m.freeMemory }

/-- The score of a host, if it has room for the demand. -/
def scoreSnapshot (s : ResourceSnapshot) (d : ResourceDemand) (r : OvercommitRatios) (t : TransferRatio) :
    Option CandidateScore :=
  if s.freeDiskGb < d.diskGb then none
  else (marks? t.value (s.cpuAmounts d r) (s.memoryAmounts d r)).map (.ofMarks s.hostId)

/-- The scores of the hosts that meet the constraints and have room, best first. Equal scores keep the order of the hosts. -/
def rankSnapshots (snapshots : List ResourceSnapshot) (demand : ResourceDemand) (constraints : List Constraint)
    (r : OvercommitRatios) (t : TransferRatio) : List CandidateScore :=
  ((snapshots.filter fun s => satisfiesAll s.satisfies constraints).filterMap fun s => scoreSnapshot s demand r t).mergeSort
    CandidateScore.noWorse

end PlacementTree
