import PlacementTree.File.Error
import PlacementTree.Inventory.Validate
import PlacementTree.Toml.Document
import PlacementTree.Wire.Inventory

/-!
# Inventory files

An inventory file is a TOML document. `Inventory.parse` reads one and checks that it describes a tree.
-/

namespace PlacementTree.Inventory

/-- The inventory that a file says, not checked. -/
def read? (text : String) : Option Inventory := (Toml.read text).bind (Inventory.ofDatum? .passedOver)

/-- The inventory of a file. -/
def parse (text : String) : Except FileError Inventory :=
  match read? text with
  | none => .error .malformed
  | some inventory => FileError.ofCheck inventory inventory.validate

end PlacementTree.Inventory
