import PlacementTree.Inventory.Basic

/-!
# Checking an inventory

An inventory is accepted when its part below the root is a tree: the ids are distinct, the root is a scheduler, every scheduler
lists only children or only hosts, all of them known, and no node is reached twice from the root. The first fault found is
reported. What cannot be reached from the root may be shared or go in circles.

Reaching is checked by a walk with a stack. A node that comes off the stack a second time ends it, so the schedulers that are
expanded are distinct and the walk takes at most one step for the root and one for each entry of a list (`Inventory.edgeCount`).
-/

namespace PlacementTree

/-- The first id that stands in the list a second time. -/
def firstRepeated : List String → List String → Option String
  | _, [] => none
  | seen, id :: rest => if seen.contains id then some id else firstRepeated (id :: seen) rest

namespace Inventory

/-- The first fault of one scheduler entry, given the ids of all nodes and of the hosts. -/
def entryFault? (ids hostIds : List String) (s : SchedulerEntry) : Option InventoryFault :=
  if !s.children.isEmpty && !s.hosts.isEmpty then some (.childrenAndHosts s.id)
  else match s.children.find? (!ids.contains ·) with
    | some child => some (.unknownChild s.id child)
    | none => (s.hosts.find? (!hostIds.contains ·)).map (.unknownHost s.id)

/-- What stands below an id; a host and an unknown id have nothing below. -/
def below (inv : Inventory) (id : String) : List String :=
  match inv.scheduler? id with
  | some s => s.below
  | none => []

/-- How many entries the lists of all schedulers have together. -/
def edgeCount (inv : Inventory) : Nat := inv.schedulers.foldr (fun s count => s.below.length + count) 0

/-- Walk down from the nodes on the stack, the last put on it first, and report the first node that is met again. -/
def walk (inv : Inventory) : Nat → List String → List String → Option InventoryFault
  | 0, _, _ => none
  | _ + 1, _, [] => none
  | fuel + 1, seen, id :: stack =>
    if seen.contains id then some (.reachedTwice id)
    else inv.walk fuel (id :: seen) ((inv.below id).reverse ++ stack)

/-- The first fault of an inventory. -/
def fault? (inv : Inventory) : Option InventoryFault :=
  match firstRepeated [] inv.ids with
  | some id => some (.duplicateId id)
  | none =>
    if !inv.schedulerIds.contains inv.root then some (.rootUndefined inv.root)
    else match inv.schedulers.findSome? (entryFault? inv.ids inv.hostIds) with
      | some fault => some fault
      | none => inv.walk (inv.edgeCount + 2) [] [inv.root]

/-- Accept an inventory without a fault. -/
def validate (inv : Inventory) : Except ConfigError Unit :=
  match inv.fault? with
  | some fault => .error (.inventory fault)
  | none => .ok ()

end Inventory

end PlacementTree
