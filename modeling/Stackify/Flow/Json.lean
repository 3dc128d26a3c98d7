import Stackify.Code.Json
import Stackify.Flow.Graph

/-!
JSON reports on graphs. Types and constants are written as source text, nodes and blocks by number.
-/

namespace Stackify.Flow

open Code (choice)

def Key.toJson : Key → Json
  | .value id => choice "value" (.nat id)
  | .synthesized n => choice "synthesized" (.nat n)

def Ref.toJson : Ref → Json
  | .key k => k.toJson
  | .const c => choice "const" (.text c.text)
  | .block id => choice "block" (.nat id)
  | .global name => choice "global" (.text name)
  | .function name => choice "function" (.text name)

def AddressStep.toJson : AddressStep → Json
  | .stride ty index => .record [("stride", .text ty.text), ("index", index.toJson)]
  | .field record index => .record [("record", .nat record), ("field", .nat index)]
  | .element ty index => .record [("element", .text ty.text), ("index", index.toJson)]

def Kind.toJson : Kind → Json
  | .alloca ty => choice "Alloca" (.text ty.text)
  | .load ty source =>
    choice "Load" (.record [("ty", .text ty.text), ("source", .option .nat source)])
  | .store destination => choice "Store" (.record [("destination", .option .nat destination)])
  | .call type => choice "Call" (.text type.text)
  | .invoke type normal unwind =>
    choice "Invoke" (.record [("type", .text type.text), ("normal", .nat normal),
      ("unwind", .nat unwind)])
  | .intCompare p => choice "IntCompare" (.text p.name)
  | .floatCompare p => .record [("FloatCompare", .text p.name), ("once", .bool p.evaluatesOnce)]
  | .convert opcode => choice "Convert" (.text opcode.mnemonic)
  | .bitCast => .text "BitCast"
  | .branch target => choice "Branch" (.nat target)
  | .condBranch yes no => choice "CondBranch" (.array [.nat yes, .nat no])
  | .switch default cases =>
    choice "Switch" (.record [("default", .nat default),
      ("cases", .list (fun c => .array [.int c.1, .nat c.2]) cases)])
  | .ret => .text "Return"
  | .phi sources incoming =>
    choice "Phi" (.record [("sources", .list .nat sources),
      ("incoming", .list (fun i => .array [.nat i.1, i.2.toJson]) incoming)])
  | .getElementPtr path target =>
    choice "GetElementPtr" (.record [("path", .list AddressStep.toJson path),
      ("target", .text target.text)])
  | .select => .text "Select"
  | .vaArg ty => choice "VaArg" (.text ty.text)
  | .catchSwitch targets => choice "CatchSwitch" (.list .nat targets)
  | .catchPad => .text "CatchPad"
  | .catchRet target => choice "CatchRet" (.nat target)
  | .cleanupPad => .text "CleanupPad"
  | .cleanupRet unwind => choice "CleanupRet" (.option .nat unwind)
  | .landingPad => .text "LandingPad"
  | .resume => .text "Resume"
  | .unary opcode => choice "Unary" (.text opcode.mnemonic)
  | .binary opcode => choice "Binary" (.text opcode.mnemonic)
  | .freeze => .text "Freeze"
  | .unreachable => .text "Unreachable"
  | .generic opcode => choice "Generic" (.text opcode.mnemonic)

/-- The members of a report on a node. -/
def Node.members (n : Node) : List (String × Json) :=
  [("key", n.key.toJson), ("block", .nat n.block), ("opcode", .text n.opcode.mnemonic),
    ("kind", n.kind.toJson), ("operands", .list Ref.toJson n.operands),
      ("result_type", .option (fun t => .text t.text) n.resultType),
    ("successors", .list .nat n.kind.successors), ("exception", .bool n.kind.isExceptional),
    ("first_operand", .option .nat n.kind.firstOperand?), ("loads", .list .nat n.loads),
    ("stores", .list .nat n.stores), ("accessors", .list .nat n.accessors),
      ("used", .bool n.isUsed)]

def Block.toJson (b : Block) : Json :=
  .record [("id", .nat b.id), ("name", .option .text b.name),
    ("instructions", .list .nat b.instructions), ("predecessors", .list .nat b.predecessors),
      ("successors", .list .nat b.successors)]

end Stackify.Flow
