import Stackify.Machine.Arith
import Stackify.Machine.Serve

/-!
Execution, one operation a step. An operation acts on the current frame and says where control goes;
calls push a frame, returns and exceptions remove frames. A run is as many steps as its fuel allows.
-/

namespace Stackify.Machine

open Code (Op Label Method Program)

/-- The largest number of frames. -/
def maxDepth : Nat := 1024

/-! ## Effect of an operation -/

/-- Where control goes after an operation. -/
inductive Action where
  | next (s : State)
  | jump (s : State) (target : Label)
  /-- A jump that empties the evaluation stack. -/
  | leave (s : State) (target : Label)
  | call (s : State) (method : Nat) (args : List Value) (use : ResultUse)
  | ret (s : State) (result : Option Value)
  | fail (s : State) (f : Failure)

def Action.fault (s : State) (f : Fault) : Action := .fail s (.fault f)

namespace State

/-- Takes the top of the stack. -/
def pop (s : State) (k : State → Value → Action) : Action :=
  match s.current.stack with
  | v :: rest => k (s.withStack rest) v
  | [] => .fault s .stackUnderflow

/-- Takes the top two values, the upper one last. -/
def pop2 (s : State) (k : State → Value → Value → Action) : Action :=
  s.pop fun s right => s.pop fun s left => k s left right

/-- Takes the top `n` values, the topmost one last. -/
def popMany (s : State) (n : Nat) (k : State → List Value → Action) : Action :=
  if n ≤ s.current.stack.length then
    k (s.withStack (s.current.stack.drop n)) (s.current.stack.take n).reverse
  else .fault s .stackUnderflow

/-- Pushes a result and goes on. -/
def deliver (s : State) : Except Fault Value → Action
  | .ok v => .next (s.push v)
  | .error f => .fault s f

/-- Goes on unless a fault occurred. -/
def settle : State × Option Fault → Action
  | (s, none) => .next s
  | (s, some f) => .fault s f

end State

/-- The element of a list that an operation names. -/
def operand {α : Type} (l : List α) (i : Nat) (missing : Fault) : Except Fault α :=
  match l[i]? with
  | some a => .ok a
  | none => .error missing

/-- Jumps if a condition has the given truth. -/
def branchIf (s : State) (truth : Bool) (target : Label) : Action :=
  s.pop fun s v =>
    match v.truth? with
    | some b => if b = truth then .jump s target else .next s
    | none => .fault s (.branchOn v)

/-- Takes the next argument of a variadic list and moves the list on. -/
def nextVarArg (p : Program) (s : State) (address : Value) : Action :=
  match s.load p address .varArgs with
  | .error f => .fault s f
  | .ok (.varArgs vs cursor) =>
    match vs[cursor]? with
    | none => .fault s .pastLastVarArg
    | some v =>
      match s.store p address .varArgs (.varArgs vs (cursor + 1)) with
      | (s, none) => .next (s.push v)
      | (s, some f) => .fault s f
  | .ok v => .fault s (.varArgOver v)

/-- The effect of an operation of a method. -/
def execute (p : Program) (m : Method) (s : State) : Op → Action
  | .label _ | .nop => .next s
  | .loadConst i => s.deliver ((operand p.consts i (.missingConst i)).map (constValue p.records))
  | .loadArg i => s.deliver (operand s.current.args i (.missingArgument i))
  | .loadLocal i => s.deliver (s.local? s.depth i)
  | .storeLocal i => s.pop fun s v =>
    match s.setLocal s.depth i v with
    | .ok s => .next s
    | .error f => .fault s f
  | .initLocal i =>
    match s.setLocal s.depth i (defaultValue p.records (m.body.locals.getD i .void)) with
    | .ok s => .next s
    | .error f => .fault s f
  | .loadLocalAddress i =>
    s.deliver ((s.local? s.depth i).map fun _ => .pointer (.ofLocal s.depth i []))
  | .loadStaticAddress i => .next (s.push (.pointer (.ofMemory (.static i) 0)))
  | .loadMethodPointer i => .next (s.push (.method i))
  | .loadIndirect ty => s.pop fun s address => s.deliver (s.load p address ty)
  | .storeIndirect ty => s.pop2 fun s address v => State.settle (s.store p address ty v)
  | .fieldAddress id field => s.pop fun s address => s.deliver (fieldAddress p address id field)
  | .elementAddress ty => s.pop fun s i =>
    match i.toInt? with
    | none => .fault s (.indexNotInteger i)
    | some n => s.pop fun s address => s.deliver (elementAddress p s address ty n)
  | .binary op kind => s.pop2 fun s left right => s.deliver (binary op kind left right)
  | .unary op kind => s.pop fun s v => s.deliver (unary op kind v)
  | .compare op kind =>
    s.pop2 fun s left right => s.deliver ((compare op kind left right).map .bool)
  | .convert source target signed => s.pop fun s v => s.deliver (convert source target signed v)
  | .call method n => s.popMany n fun s args => .call s method args .pushed
  | .callIndirect n returns => s.pop fun s callee =>
    match callee with
    | .method method =>
      s.popMany n fun s args => .call s method args (if returns then .required else .dropped)
    | v => .fault s (.indirectCall v)
  | .callService service n => s.popMany n fun s args =>
    match serve p s service args with
    | (s, .ok (some v)) => .next (s.push v)
    | (s, .ok none) => .next s
    | (s, .error f) => .fail s f
  | .packVarArgs n => s.popMany n fun s vs => .next (s.push (.varArgs vs 0))
  | .nextVarArg _ => s.pop fun s address => nextVarArg p s address
  | .dup => s.pop fun s v => .next ((s.push v).push v)
  | .pop => s.pop fun s _ => .next s
  | .branch target => .jump s target
  | .branchTrue target => branchIf s true target
  | .branchFalse target => branchIf s false target
  | .switchValue cases default => s.pop fun s v =>
    match v.toInt? with
    | some n => .jump s ((cases.lookup n).getD default)
    | none => .fault s (.switchOn v)
  | .leave target => .leave s target
  | .ret => if m.type.ret.isVoid then .ret s none else s.pop fun s v => .ret s (some v)
  | .throw => s.pop fun s v => .fail s (.exception v)
  | .unreachable => .fault s (.reachedUnreachable m.name)

/-! ## Control -/

/-- The state after a step, or the end of the run. -/
inductive Outcome where
  | running (s : State)
  | finished (w : World) (result : Except Fault (Option Value))

/-- The frame of a call that is made while `frames` frames exist. -/
def enter (p : Program) (frames method : Nat) (args : List Value) (use : ResultUse) :
    Except Fault Frame :=
  match p.methods[method]? with
  | none => .error (.missingMethod method)
  | some m =>
    if args.length ≠ m.type.argSlots then .error (.argumentCount m.name m.type.argSlots args.length)
    else if maxDepth ≤ frames then .error (.callDepth m.name)
    else .ok { method, args, locals := m.body.locals.map (defaultValue p.records), use }

/-- Protected ranges around a position, each with where it starts and where its handler does. -/
def coveringRegions (m : Method) (pc : Nat) : List (Nat × Nat) :=
  m.body.regions.filterMap fun r => do
    let start ← Code.position? m.body.ops r.tryStart
    let stop ← Code.position? m.body.ops r.tryEnd
    let handler ← Code.position? m.body.ops r.handlerStart
    if start < pc ∧ pc < stop then some (start, handler) else none

/-- The handler of the innermost range around a position: the one that starts last, and the later
one of two that start together. -/
def handler? (m : Method) (pc : Nat) : Option Nat :=
  let inner := fun (best : Option (Nat × Nat)) (r : Nat × Nat) =>
    match best with
    | none => some r
    | some b => if b.1 ≤ r.1 then some r else some b
  ((coveringRegions m pc).foldl inner none).map (·.2)

/-- Carries an exception outward to the first of the frames that handles it. -/
def unwind (p : Program) (w : World) (v : Value) : List Frame → Outcome
  | [] => .finished w (.error (.uncaught v))
  | f :: callers =>
    match (p.methods[f.method]?).bind fun m => handler? m f.pc with
    | some pc => .running ⟨{ f with stack := [v], pc }, callers, w⟩
    | none => unwind p w v callers

/-- Hands the result of a finished call to its caller. -/
def resume (callee caller : Frame) (result : Option Value) : Except Fault Frame :=
  let after := { caller with pc := caller.pc + 1 }
  match callee.use, result with
  | .dropped, _ => .ok after
  | .pushed, none => .ok after
  | .required, none => .error (.noResult callee.method)
  | _, some v => .ok { after with stack := v :: caller.stack }

/-- Continues at a label of a method. -/
def State.jumpTo (s : State) (m : Method) (target : Label) : Outcome :=
  match Code.position? m.body.ops target with
  | some pc => .running (s.goTo pc)
  | none => .finished s.world (.error (.unmarkedLabel target))

/-- Moves control as an action says. -/
def Action.outcome (p : Program) (m : Method) : Action → Outcome
  | .next s => .running (s.goTo (s.current.pc + 1))
  | .jump s target => s.jumpTo m target
  | .leave s target => (s.withStack []).jumpTo m target
  | .call s method args use =>
    match enter p (s.depth + 1) method args use with
    | .ok f => .running ⟨f, s.current :: s.callers, s.world⟩
    | .error f => .finished s.world (.error f)
  | .ret s result =>
    match s.callers with
    | [] => .finished s.world (.ok result)
    | caller :: rest =>
      match resume s.current caller result with
      | .ok f => .running ⟨f, rest, s.world⟩
      | .error f => .finished s.world (.error f)
  | .fail s (.fault f) => .finished s.world (.error f)
  | .fail s (.exception v) => unwind p s.world v (s.current :: s.callers)

/-- One step of a run. -/
def step (p : Program) (s : State) : Outcome :=
  match p.methods[s.current.method]? with
  | none => .finished s.world (.error (.missingMethod s.current.method))
  | some m =>
    match m.body.ops[s.current.pc]? with
    | none => .finished s.world (.error (.ranPastEnd m.name))
    | some op => (execute p m s op).outcome p m

/-! ## Runs -/

/-- Runs at most `fuel` steps; `none` if that is not enough. -/
def run (p : Program) : Nat → State → Option (World × Except Fault (Option Value))
  | 0, _ => none
  | fuel + 1, s =>
    match step p s with
    | .running s => run p fuel s
    | .finished w result => some (w, result)

/-- The world before the first run of a program. -/
def World.ofProgram (p : Program) : World := { memory := .ofStatics p.records p.statics }

/-- Calls a method by number. -/
def callMethod (p : Program) (fuel : Nat) (w : World) (method : Nat) (args : List Value) :
    Option (World × Except Fault (Option Value)) :=
  match enter p 0 method args .pushed with
  | .ok f => run p fuel ⟨f, [], w⟩
  | .error f => some (w, .error f)

/-- Calls the first method with a name. -/
def callNamed (p : Program) (fuel : Nat) (w : World) (name : String) (args : List Value) :
    Option (World × Except Fault (Option Value)) :=
  match p.methodIndex? name with
  | some method => callMethod p fuel w method args
  | none => some (w, .error (.missingMethodNamed name))

end Stackify.Machine
