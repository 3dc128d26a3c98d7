/-!
Operations of the source.
-/

namespace Stackify.Ssa

inductive Opcode where
  -- ends of blocks
  | ret | br | switch | indirectBr | invoke | resume | unreachable | cleanupRet | catchRet
      | catchSwitch
  | callBr
  -- arithmetic
  | fneg | add | fadd | sub | fsub | mul | fmul | udiv | sdiv | fdiv | urem | srem | frem | shl
      | lshr | ashr
  | and | or | xor
  -- memory
  | alloca | load | store | getElementPtr | fence | atomicCmpXchg | atomicRmw
  -- casts
  | trunc | zext | sext | fpToUi | fpToSi | uiToFp | siToFp | fpTrunc | fpExt | ptrToInt |
      intToPtr | bitCast
  | addrSpaceCast
  -- others
  | icmp | fcmp | phi | call | select | userOp1 | userOp2 | vaArg | extractElement | insertElement
  | shuffleVector | extractValue | insertValue | landingPad | cleanupPad | catchPad | freeze
  deriving DecidableEq, Repr, Inhabited

namespace Opcode

def all : List Opcode := [
  ret, br, switch, indirectBr, invoke, resume, unreachable, cleanupRet, catchRet, catchSwitch,
    callBr, fneg,
  add, fadd, sub, fsub, mul, fmul, udiv, sdiv, fdiv, urem, srem, frem, shl, lshr, ashr, and, or,
    xor, alloca,
  load, store, getElementPtr, fence, atomicCmpXchg, atomicRmw, trunc, zext, sext, fpToUi,
    fpToSi, uiToFp,
  siToFp, fpTrunc, fpExt, ptrToInt, intToPtr, bitCast, addrSpaceCast, icmp, fcmp, phi, call,
    select, userOp1,
  userOp2, vaArg, extractElement, insertElement, shuffleVector, extractValue,
    insertValue, landingPad,
  cleanupPad, catchPad, freeze]

/-- The name in documents. -/
def name : Opcode → String
  | ret => "Ret"
  | br => "Br"
  | switch => "Switch"
  | indirectBr => "IndirectBr"
  | invoke => "Invoke"
  | resume => "Resume"
  | unreachable => "Unreachable"
  | cleanupRet => "CleanupRet"
  | catchRet => "CatchRet"
  | catchSwitch => "CatchSwitch"
  | callBr => "CallBr"
  | fneg => "FNeg"
  | add => "Add"
  | fadd => "FAdd"
  | sub => "Sub"
  | fsub => "FSub"
  | mul => "Mul"
  | fmul => "FMul"
  | udiv => "UDiv"
  | sdiv => "SDiv"
  | fdiv => "FDiv"
  | urem => "URem"
  | srem => "SRem"
  | frem => "FRem"
  | shl => "Shl"
  | lshr => "LShr"
  | ashr => "AShr"
  | and => "And"
  | or => "Or"
  | xor => "Xor"
  | alloca => "Alloca"
  | load => "Load"
  | store => "Store"
  | getElementPtr => "GetElementPtr"
  | fence => "Fence"
  | atomicCmpXchg => "AtomicCmpXchg"
  | atomicRmw => "AtomicRMW"
  | trunc => "Trunc"
  | zext => "ZExt"
  | sext => "SExt"
  | fpToUi => "FPToUI"
  | fpToSi => "FPToSI"
  | uiToFp => "UIToFP"
  | siToFp => "SIToFP"
  | fpTrunc => "FPTrunc"
  | fpExt => "FPExt"
  | ptrToInt => "PtrToInt"
  | intToPtr => "IntToPtr"
  | bitCast => "BitCast"
  | addrSpaceCast => "AddrSpaceCast"
  | icmp => "ICmp"
  | fcmp => "FCmp"
  | phi => "Phi"
  | call => "Call"
  | select => "Select"
  | userOp1 => "UserOp1"
  | userOp2 => "UserOp2"
  | vaArg => "VAArg"
  | extractElement => "ExtractElement"
  | insertElement => "InsertElement"
  | shuffleVector => "ShuffleVector"
  | extractValue => "ExtractValue"
  | insertValue => "InsertValue"
  | landingPad => "LandingPad"
  | cleanupPad => "CleanupPad"
  | catchPad => "CatchPad"
  | freeze => "Freeze"

/-- The name in program text. -/
def mnemonic : Opcode → String
  | ret => "ret"
  | br => "br"
  | switch => "switch"
  | indirectBr => "indirectbr"
  | invoke => "invoke"
  | resume => "resume"
  | unreachable => "unreachable"
  | cleanupRet => "cleanupret"
  | catchRet => "catchret"
  | catchSwitch => "catchswitch"
  | callBr => "callbr"
  | fneg => "fneg"
  | add => "add"
  | fadd => "fadd"
  | sub => "sub"
  | fsub => "fsub"
  | mul => "mul"
  | fmul => "fmul"
  | udiv => "udiv"
  | sdiv => "sdiv"
  | fdiv => "fdiv"
  | urem => "urem"
  | srem => "srem"
  | frem => "frem"
  | shl => "shl"
  | lshr => "lshr"
  | ashr => "ashr"
  | and => "and"
  | or => "or"
  | xor => "xor"
  | alloca => "alloca"
  | load => "load"
  | store => "store"
  | getElementPtr => "getelementptr"
  | fence => "fence"
  | atomicCmpXchg => "cmpxchg"
  | atomicRmw => "atomicrmw"
  | trunc => "trunc"
  | zext => "zext"
  | sext => "sext"
  | fpToUi => "fptoui"
  | fpToSi => "fptosi"
  | uiToFp => "uitofp"
  | siToFp => "sitofp"
  | fpTrunc => "fptrunc"
  | fpExt => "fpext"
  | ptrToInt => "ptrtoint"
  | intToPtr => "inttoptr"
  | bitCast => "bitcast"
  | addrSpaceCast => "addrspacecast"
  | icmp => "icmp"
  | fcmp => "fcmp"
  | phi => "phi"
  | call => "call"
  | select => "select"
  | userOp1 => "userop1"
  | userOp2 => "userop2"
  | vaArg => "va_arg"
  | extractElement => "extractelement"
  | insertElement => "insertelement"
  | shuffleVector => "shufflevector"
  | extractValue => "extractvalue"
  | insertValue => "insertvalue"
  | landingPad => "landingpad"
  | cleanupPad => "cleanuppad"
  | catchPad => "catchpad"
  | freeze => "freeze"

/-- Whether the operation ends a block. -/
def isTerminator : Opcode → Bool
  | ret | br | switch | indirectBr | invoke | resume | unreachable | cleanupRet | catchRet
  | catchSwitch
  | callBr => true
  | _ => false

def isCast : Opcode → Bool
  | trunc | zext | sext | fpToUi | fpToSi | uiToFp | siToFp | fpTrunc | fpExt | ptrToInt | intToPtr
  | bitCast | addrSpaceCast => true
  | _ => false

end Opcode

end Stackify.Ssa
