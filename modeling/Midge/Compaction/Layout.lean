import Midge.Compaction.Overlap
import Midge.Lib.UnionFind

/-!
# Layout defects of a level

The files of a level below L0 are meant to be disjoint; two of them may share
an endpoint, as the end of a range tombstone is exclusive. `repairComponents`
finds the files that break this: those connected by a strict overlap, or by a
point that three of them cover. It sweeps over the files in key order, keeping
the files that reach the current start grouped by their end, and connects files
in a union-find structure.
-/

namespace Midge

open UnionFind (root connect)

/-! ## The sweep -/

/-- A file with complete bounds, by its index. -/
structure RepairInterval where
  index : ℕ
  name : String
  start : Key
  stop : Key
  deriving DecidableEq, Repr

/-- Files are swept in the order of their start, end and name. -/
def RepairInterval.order (i : RepairInterval) : Key ×ₗ Key ×ₗ String :=
  toLex (i.start, toLex (i.stop, i.name))

/-- The files with complete, ordered bounds, in sweep order. -/
def repairOrder (files : List FileMeta) : List RepairInterval :=
  (files.zipIdx.filterMap fun (file, index) =>
    (GrandparentOverlap.completeBounds file).map fun (start, stop) =>
      ⟨index, file.name, start, stop⟩).insertionSort fun left right => left.order ≤ right.order

/-- The active files that end at one key. At most two of them can be
    independent; once connected, one representative is kept. -/
structure EndpointGroup where
  count : ℕ
  representatives : List ℕ
  deriving DecidableEq, Repr

/-- The active files by their end, in key order. -/
abbrev ActiveEndpoints := List (Key × EndpointGroup)

/-- The state of the sweep. -/
structure RepairSweep where
  parents : List ℕ
  active : ActiveEndpoints := []
  activeCount : ℕ := 0
  found : Bool := false

/-- Add a file to the group of its end, connecting it from the third file on. -/
def insertEndpoint (parents : List ℕ) (index : ℕ) (stop : Key) :
    ActiveEndpoints → List ℕ × ActiveEndpoints
  | [] => (parents, [(stop, ⟨1, [index]⟩)])
  | (bound, group) :: active =>
    match cmp stop bound with
    | .lt => (parents, (stop, ⟨1, [index]⟩) :: (bound, group) :: active)
    | .eq =>
      let count := group.count + 1
      if count ≤ 2 then
        (parents, (bound, ⟨count, group.representatives ++ [index]⟩) :: active)
      else
        (group.representatives.foldl (fun parents r => connect parents index r) parents,
          (bound, ⟨count, [index]⟩) :: active)
    | .gt =>
      let (parents, active) := insertEndpoint parents index stop active
      (parents, (bound, group) :: active)

/-- Connect a file to the active one that reaches furthest, if they overlap
    strictly. -/
def connectFurthest (active : ActiveEndpoints) (i : RepairInterval) (parents : List ℕ)
    (found : Bool) : List ℕ × Bool :=
  match active.getLast? with
  | some (furthest, group) =>
    if i.start < furthest then (connect parents i.index (group.representatives.headD i.index), true)
    else (parents, found)
  | none => (parents, found)

/-- With two active files, three files cover the start of this one: connect
    those that end there. -/
def connectBoundary (active : ActiveEndpoints) (activeCount : ℕ) (i : RepairInterval)
    (parents : List ℕ) (found : Bool) : List ℕ × Bool :=
  if 2 ≤ activeCount then
    match active.find? fun (bound, _) => bound = i.start with
    | some (_, equal) =>
      (equal.representatives.foldl (fun parents r => connect parents i.index r) parents, true)
    | none => (parents, true)
  else (parents, found)

/-- Sweep over one file. -/
def sweepFile (s : RepairSweep) (i : RepairInterval) : RepairSweep :=
  let expired := s.active.takeWhile fun (bound, _) => bound < i.start
  let active := s.active.dropWhile fun (bound, _) => bound < i.start
  let activeCount := s.activeCount - (expired.map fun (_, group) => group.count).sum
  let (parents, found) := connectFurthest active i s.parents s.found
  let (parents, found) := connectBoundary active activeCount i parents found
  let (parents, active) := insertEndpoint parents i.index i.stop active
  ⟨parents, active, activeCount + 1, found⟩

/-! ## Components -/

/-- Add an index to the group of its root, the groups being in root order. -/
def insertGroup (r index : ℕ) : List (ℕ × List ℕ) → List (ℕ × List ℕ)
  | [] => [(r, [index])]
  | (r', group) :: groups =>
    match cmp r r' with
    | .lt => (r, [index]) :: (r', group) :: groups
    | .eq => (r', group ++ [index]) :: groups
    | .gt => (r', group) :: insertGroup r index groups

/-- The indices grouped by their root. -/
def groupByRoot (parents : List ℕ) : List RepairInterval → List (ℕ × List ℕ) → List (ℕ × List ℕ)
  | [], groups => groups
  | i :: order, groups =>
    let (parents, r) := root parents.length parents i.index
    groupByRoot parents order (insertGroup r i.index groups)

/-- Components are listed in the order of the start and name of their first
    file. -/
def componentOrder (files : List FileMeta) (component : List ℕ) : WithBot (Key ×ₗ String) :=
  ((component.head?.bind (files[·]?)).bind fun file =>
    file.smallestKey.map fun start => toLex (start, file.name) : Option (Key ×ₗ String))

/-- The connected repair components, in key order. -/
def repairComponents (files : List FileMeta) : List (List ℕ) :=
  let order := repairOrder files
  let s := order.foldl sweepFile { parents := List.range files.length }
  if s.found then
    ((groupByRoot s.parents order []).map Prod.snd |>.filter (1 < ·.length)).insertionSort
      fun left right => componentOrder files left ≤ componentOrder files right
  else []

end Midge
