import Stackify.Flow.Json
import Stackify.Lower.Program

/-!
JSON reports on declared methods and on where the results of their nodes live.
-/

namespace Stackify.Lower

open Stackify.Flow (Graph Node)

def Slot.toJson : Slot → Json
  | .nowhere => .text "none"
  | .onStack => .text "stack"
  | .inLocal i => .nat i

def MethodEntry.toJson (e : MethodEntry) : Json :=
  .record [("name", .text e.name), ("index", .nat e.index), ("wrapper", .option .nat e.wrapper),
    ("signature", e.type.toJson), ("may_throw", .bool e.mayThrow)]

/-- A report on a graph, on the slots of its nodes and on the result of its lowering. -/
def graphToJson (g : Graph) (slots : List Slot) (result : Json) : Json :=
  let node := fun (n, slot) => Json.record (Node.members n ++ [("slot", Slot.toJson slot)])
  .record [("personality", .option (fun f => .text f.name) g.personality),
    ("blocks", .list Flow.Block.toJson g.blocks), ("nodes", .list node (g.nodes.zip slots)),
      ("lowered", result)]

end Stackify.Lower
