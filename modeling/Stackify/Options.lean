import Stackify.Name.Identifier
import Stackify.Toml.Reader
import Stackify.Json.Decode

/-!
Options of a lowering run: the name of the produced program, names that override derived ones, the
limit on constant expressions, and whether functions that return through a pointer get public
wrappers.
-/

namespace Stackify

structure Options where
  moduleName : String := "Translated"
  /-- Overriding name by symbol, sorted by symbol, each symbol once. -/
  renamed : List (String × String) := []
  /-- How many nodes the constant expressions of one instruction may make. -/
  maxConstantNodes : Nat := 4096
  publicWrappers : Bool := true
  deriving DecidableEq, Repr

namespace Options

/-- What makes options unusable. -/
inductive Problem where
  | moduleName (name : String)
  | renamed (symbol name : String)
  | nodeLimit
  deriving DecidableEq, Repr

def Problem.message : Problem → String
  | .moduleName name => "module name '" ++ name ++ "' is not a valid identifier"
  | .renamed symbol name => "renamed symbol '" ++ symbol ++ "' has an invalid name '" ++ name ++ "'"
  | .nodeLimit => "max_constant_expression_nodes must be positive"

/-- The first problem, if there is one: the module's name, then the overriding names in order of
their symbols, then the limit. -/
def problem? (o : Options) : Option Problem :=
  if !Name.isIdentifier o.moduleName then some (.moduleName o.moduleName)
  else
    match o.renamed.find? fun r => !Name.isIdentifier r.2 with
    | some (symbol, name) => some (.renamed symbol name)
    | none => if o.maxConstantNodes = 0 then some .nodeLimit else none

/-- Adds an override in its place, instead of an earlier one for the same symbol. -/
def insertRenamed (symbol name : String) : List (String × String) → List (String × String)
  | [] => [(symbol, name)]
  | (s, n) :: rest =>
    if symbol = s then (symbol, name) :: rest
    else if symbol < s then (symbol, name) :: (s, n) :: rest
    else (s, n) :: insertRenamed symbol name rest

def renamedOfList (entries : List (String × String)) : List (String × String) :=
  entries.foldl (fun acc (s, n) => insertRenamed s n acc) []

/-! ## Loading -/

def renamedEntry? : String × Toml.Value → Option (String × String)
  | (symbol, .string name) => some (symbol, name)
  | _ => none

/-- Sets the option that a key names; other keys are passed over. -/
def setToml? (o : Options) : String × Toml.Value → Option Options
  | ("module_name", .string s) => some { o with moduleName := s }
  | ("renamed_symbols", v) => do
    return { o with renamed := renamedOfList (← (← v.members?).mapM renamedEntry?) }
  | ("max_constant_expression_nodes", .integer n) =>
    if 0 ≤ n then some { o with maxConstantNodes := n.toNat } else none
  | ("emit_public_wrappers", .boolean b) => some { o with publicWrappers := b }
  | (key, _) =>
    if ["module_name", "max_constant_expression_nodes", "emit_public_wrappers"].contains key then
      none else some o

/-- Options written in TOML; `none` if the text does not spell options. -/
def ofToml? (text : String) : Option Options := do
  (← Toml.parse? text).foldlM setToml? {}

/-- Options written as a JSON object; what is missing takes its default. -/
def ofJson? (j : Json) : Option Options := do
  let (depth, fields) ← Json.fields?
    ["module_name", "renamed_symbols", "max_constant_expression_nodes", "emit_public_wrappers"]
      Json.nestingLimit j
  match fields with
  | [name, renamed, limit, wrappers] =>
    let o : Options := {}
    let name ← name.elim (some o.moduleName) Json.text?
    let renamed ← renamed.elim (some []) (Json.map? (Json.leaf Json.text?) depth)
    let limit ← limit.elim (some o.maxConstantNodes) (Json.nat? 64)
    let wrappers ← wrappers.elim (some o.publicWrappers) Json.bool?
    return ⟨name, renamedOfList renamed, limit, wrappers⟩
  | _ => none

def toJson (o : Options) : Json :=
  .record [("module_name", .text o.moduleName),
    ("renamed_symbols", .record (o.renamed.map fun (s, n) => (s, .text n))),
    ("max_constant_expression_nodes", .nat o.maxConstantNodes),
    ("emit_public_wrappers", .bool o.publicWrappers)]

end Options

end Stackify
