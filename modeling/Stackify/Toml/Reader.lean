import Stackify.Toml.Value

/-!
Reading TOML documents: lines of keys and values, gathered into tables by headers and dotted keys.

A table may be opened by one header only, dotted keys may extend only tables that dotted keys made,
and a table or array written as a value is closed. Values nest, and keys have parts, up to a limit.
-/

namespace Stackify.Toml

/-- How many arrays and tables written as values may enclose each other, and how many parts a key
has at most. -/
def nestingLimit : Nat := 79

/-! ## Blanks -/

def isSpace (c : Char) : Bool := c = ' ' || c = '\t'

def skipSpace (cs : List Char) : List Char := cs.dropWhile isSpace

/-- Control characters, which may stand in no comment and no string. -/
def isControl (c : Char) : Bool := (c.toNat < 0x20 && c ≠ '\t') || c.toNat = 0x7f

/-- Skips blanks, line ends and comments. -/
def skipTrivia (inComment : Bool) : List Char → Option (List Char)
  | [] => some []
  | '\n' :: cs => skipTrivia false cs
  | '\r' :: '\n' :: cs => skipTrivia false cs
  | c :: cs =>
    if inComment then if isControl c then none else skipTrivia true cs
    else if isSpace c then skipTrivia false cs
    else if c = '#' then skipTrivia true cs
    else some (c :: cs)

/-- The rest of a line after its contents: blanks, a comment, and the line end. -/
def endLine (inComment : Bool) : List Char → Option (List Char)
  | [] => some []
  | '\n' :: cs => some cs
  | '\r' :: '\n' :: cs => some cs
  | c :: cs =>
    if inComment then if isControl c then none else endLine true cs
    else if isSpace c then endLine false cs
    else if c = '#' then endLine true cs
    else none

/-! ## Strings -/

def charOfCode? (n : Nat) : Option Char := if n.isValidChar then some (Char.ofNat n) else none

/-- The character with the given hexadecimal digits. -/
def charOfHex? (digits : List Char) : Option Char :=
  match digits.mapM Text.hexValue? with
  | some ds => charOfCode? (ds.foldl (fun n d => n * 16 + d) 0)
  | none => none

def simpleEscape? (c : Char) : Option Char :=
  match c with
  | 'b' => some '\x08'
  | 't' => some '\t'
  | 'n' => some '\n'
  | 'f' => some '\x0c'
  | 'r' => some '\r'
  | '"' => some '"'
  | '\\' => some '\\'
  | _ => none

/-- The rest of a string after its opening quote; `acc` is what was read, last character first. -/
def basicString? (acc : List Char) : List Char → Option (String × List Char)
  | '"' :: cs => some (String.ofList acc.reverse, cs)
  | '\\' :: 'u' :: a :: b :: c :: d :: cs =>
    match charOfHex? [a, b, c, d] with
    | some x => basicString? (x :: acc) cs
    | none => none
  | '\\' :: 'U' :: a :: b :: c :: d :: e :: f :: g :: h :: cs =>
    match charOfHex? [a, b, c, d, e, f, g, h] with
    | some x => basicString? (x :: acc) cs
    | none => none
  | '\\' :: c :: cs =>
    match simpleEscape? c with
    | some x => basicString? (x :: acc) cs
    | none => none
  | c :: cs => if isControl c || c = '\\' then none else basicString? (c :: acc) cs
  | [] => none

def literalString? (acc : List Char) : List Char → Option (String × List Char)
  | [] => none
  | c :: cs =>
    if c = '\x27' then some (String.ofList acc.reverse, cs)
    else if isControl c then none
    else literalString? (c :: acc) cs

/-- Does a backslash before these characters join two lines? -/
def joinsLines (cs : List Char) : Bool :=
  match skipSpace cs with
  | '\n' :: _ => true
  | '\r' :: '\n' :: _ => true
  | _ => false

/-- The rest of a string of several lines; `joining` while the blanks behind a joined line are
skipped. -/
def basicLines? (acc : List Char) (joining : Bool) : List Char → Option (String × List Char)
  | '"' :: '"' :: '"' :: '"' :: '"' :: cs => some (String.ofList (acc.reverse ++ ['"', '"']), cs)
  | '"' :: '"' :: '"' :: '"' :: cs => some (String.ofList (acc.reverse ++ ['"']), cs)
  | '"' :: '"' :: '"' :: cs => some (String.ofList acc.reverse, cs)
  | '\r' :: '\n' :: cs => basicLines? (if joining then acc else '\n' :: acc) joining cs
  | '\n' :: cs => basicLines? (if joining then acc else '\n' :: acc) joining cs
  | '\\' :: 'u' :: a :: b :: c :: d :: cs =>
    match charOfHex? [a, b, c, d] with
    | some x => basicLines? (x :: acc) false cs
    | none => none
  | '\\' :: 'U' :: a :: b :: c :: d :: e :: f :: g :: h :: cs =>
    match charOfHex? [a, b, c, d, e, f, g, h] with
    | some x => basicLines? (x :: acc) false cs
    | none => none
  | '\\' :: c :: cs =>
    if joinsLines (c :: cs) then basicLines? acc true cs
    else match simpleEscape? c with
      | some x => basicLines? (x :: acc) false cs
      | none => none
  | c :: cs =>
    if joining && isSpace c then basicLines? acc true cs
    else if isControl c || c = '\\' then none
    else basicLines? (c :: acc) false cs
  | [] => none

def literalLines? (acc : List Char) : List Char → Option (String × List Char)
  | '\x27' :: '\x27' :: '\x27' :: '\x27' :: '\x27' :: cs =>
    some (String.ofList (acc.reverse ++ ['\x27', '\x27']), cs)
  | '\x27' :: '\x27' :: '\x27' :: '\x27' :: cs => some (String.ofList (acc.reverse ++ ['\x27']), cs)
  | '\x27' :: '\x27' :: '\x27' :: cs => some (String.ofList acc.reverse, cs)
  | '\r' :: '\n' :: cs => literalLines? ('\n' :: acc) cs
  | '\n' :: cs => literalLines? ('\n' :: acc) cs
  | c :: cs => if isControl c then none else literalLines? (c :: acc) cs
  | [] => none

/-- A line end right behind the opening quotes does not count. -/
def dropFirstNewline : List Char → List Char
  | '\n' :: cs => cs
  | '\r' :: '\n' :: cs => cs
  | cs => cs

def string? : List Char → Option (String × List Char)
  | '"' :: '"' :: '"' :: cs => basicLines? [] false (dropFirstNewline cs)
  | '"' :: cs => basicString? [] cs
  | '\x27' :: '\x27' :: '\x27' :: cs => literalLines? [] (dropFirstNewline cs)
  | '\x27' :: cs => literalString? [] cs
  | _ => none

/-! ## Keys -/

def isBareChar (c : Char) : Bool := c.isAlphanum || c = '_' || c = '-'

def simpleKey? : List Char → Option (String × List Char)
  | '"' :: cs => basicString? [] cs
  | '\x27' :: cs => literalString? [] cs
  | cs =>
    let bare := cs.takeWhile isBareChar
    if bare.isEmpty then none else some (String.ofList bare, cs.dropWhile isBareChar)

/-- At least one part, and at most as many as the number says, divided by dots. -/
def keyParts? : Nat → List Char → Option (List String × List Char)
  | 0, _ => none
  | more + 1, cs => do
    let (part, rest) ← simpleKey? (skipSpace cs)
    match skipSpace rest with
    | '.' :: rest =>
      let (parts, rest) ← keyParts? more rest
      some (part :: parts, rest)
    | rest => some ([part], rest)

def key? (cs : List Char) : Option (List String × List Char) := keyParts? nestingLimit cs

/-! ## Tables under construction -/

/-- What a key stands for: a closed value, a table with its marks (made only on the way to another
table; made by a dotted key), or the tables of an array. -/
inductive Node where
  | value (v : Value)
  | table (implicit dotted : Bool) (members : List (String × Node))
  | tables (items : List (List (String × Node)))

abbrev Members := List (String × Node)

def Members.replace (ms : Members) (k : String) (n : Node) : Members :=
  ms.map fun m => if m.1 == k then (k, n) else m

/-- Changes the table at the end of a path, making the tables on the way; `change` is also told
whether that table was made by a dotted key. -/
def descend (dotted : Bool) (change : Bool → Members → Option Members) :
    List String → Bool → Members → Option Members
  | [], isDotted, ms => change isDotted ms
  | k :: path, _, ms =>
    match ms.lookup k with
    | none =>
      (descend dotted change path dotted []).map fun inner => ms ++ [(k, .table true dotted inner)]
    | some (.value _) => none
    | some (.table implicit isDotted inner) =>
      if dotted && !implicit then none
      else (descend dotted change path isDotted inner).map fun inner =>
        ms.replace k (.table implicit isDotted inner)
    | some (.tables items) =>
      match items.reverse with
      | [] => none
      | last :: before => (descend dotted change path false last).map fun last =>
        ms.replace k (.tables (before.reverse ++ [last]))

/-- Adds a value under a possibly dotted key. -/
def addValue (key : List String) (v : Value) (isDotted : Bool) (ms : Members) : Option Members :=
  match key.reverse with
  | [] => none
  | name :: path => descend true (fun inDotted ms =>
      if inDotted == path.isEmpty || (ms.lookup name).isSome then none
      else some (ms ++ [(name, .value v)])) path.reverse isDotted ms

/-- Opens the table of a header. -/
def openTable (isArray : Bool) (path : List String) (root : Members) : Option Members :=
  match path.reverse with
  | [] => none
  | name :: outer => descend false (fun _ ms =>
      match isArray, ms.lookup name with
      | false, none => some (ms ++ [(name, .table false false [])])
      | false, some (.table true false inner) => some (ms.replace name (.table false false inner))
      | true, none => some (ms ++ [(name, .tables [[]])])
      | true, some (.tables items) => some (ms.replace name (.tables (items ++ [[]])))
      | _, _ => none) outer.reverse false root

mutual

def Node.toValue : Node → Value
  | .value v => v
  | .table _ _ members => .table (membersToValues members)
  | .tables items => .array (itemsToValues items)

def membersToValues : List (String × Node) → List (String × Value)
  | [] => []
  | (k, n) :: rest => (k, n.toValue) :: membersToValues rest

def itemsToValues : List (List (String × Node)) → List Value
  | [] => []
  | ms :: rest => .table (membersToValues ms) :: itemsToValues rest

end

/-! ## Values -/

def isWordChar (c : Char) : Bool :=
  c.isAlphanum || c = '_' || c = '+' || c = '-' || c = '.' || c = ':'

/-- A word, or a date and a time with a space between them. -/
def takeWord (cs : List Char) : List Char × List Char :=
  let word := cs.takeWhile isWordChar
  match cs.dropWhile isWordChar with
  | ' ' :: c :: rest =>
    if (Date.read? word).isSome && c.isDigit then
      (word ++ ' ' :: (c :: rest).takeWhile isWordChar, (c :: rest).dropWhile isWordChar)
    else (word, ' ' :: c :: rest)
  | rest => (word, rest)

mutual

/-- A value; the fuel bounds the number of values and separators read, `depth` is how many arrays
and tables may still be opened inside each other. -/
def value? : Nat → Nat → List Char → Option (Value × List Char)
  | 0, _, _ => none
  | fuel + 1, depth, cs =>
    match cs, depth with
    | '"' :: _, _ => (string? cs).map fun (s, rest) => (.string s, rest)
    | '\x27' :: _, _ => (string? cs).map fun (s, rest) => (.string s, rest)
    | '[' :: _, 0 => none
    | '[' :: cs, depth + 1 => items? fuel depth [] cs
    | '\x7b' :: _, 0 => none
    | '\x7b' :: cs, depth + 1 =>
      match skipSpace cs with
      | '\x7d' :: rest => some (.table [], rest)
      | cs => members? fuel depth [] cs
    | cs, _ =>
      let (word, rest) := takeWord cs
      (wordValue? word).map fun v => (v, rest)

/-- The items of an array up to its end; a comma may follow the last. -/
def items? : Nat → Nat → List Value → List Char → Option (Value × List Char)
  | 0, _, _, _ => none
  | fuel + 1, depth, found, cs =>
    match skipTrivia false cs with
    | some (']' :: rest) => some (.array found.reverse, rest)
    | some cs =>
      match value? fuel depth cs with
      | none => none
      | some (v, rest) =>
        match skipTrivia false rest with
        | some (',' :: rest) => items? fuel depth (v :: found) rest
        | some (']' :: rest) => some (.array (v :: found).reverse, rest)
        | _ => none
    | none => none

/-- The members of a table written as a value: on one line, and no comma after the last. -/
def members? : Nat → Nat → Members → List Char → Option (Value × List Char)
  | 0, _, _, _ => none
  | fuel + 1, depth, found, cs =>
    match key? cs with
    | some (key, '=' :: rest) =>
      match value? fuel depth (skipSpace rest) with
      | none => none
      | some (v, rest) =>
        match addValue key v false found, skipSpace rest with
        | some found, ',' :: rest => members? fuel depth found rest
        | some found, '\x7d' :: rest => some (.table (membersToValues found), rest)
        | _, _ => none
    | _ => none

end

/-! ## Documents -/

/-- One line of a document. -/
inductive Line where
  | blank
  | header (isArray : Bool) (path : List String)
  | entry (key : List String) (v : Value)

def line? (cs : List Char) : Option (Line × List Char) := do
  match skipSpace cs with
  | '[' :: '[' :: cs =>
    match ← key? cs with
    | (path, ']' :: ']' :: rest) => some (.header true path, ← endLine false rest)
    | _ => none
  | '[' :: cs =>
    match ← key? cs with
    | (path, ']' :: rest) => some (.header false path, ← endLine false rest)
    | _ => none
  | [] => some (.blank, [])
  | c :: cs =>
    if c = '#' || c = '\n' || c = '\r' then some (.blank, ← endLine false (c :: cs))
    else
      match ← key? (c :: cs) with
      | (key, '=' :: rest) =>
        let (v, rest) ← value? (rest.length + 2) nestingLimit (skipSpace rest)
        some (.entry key v, ← endLine false rest)
      | _ => none

/-- Reads line after line into the tables found so far; `current` is the path of the open table. -/
def lines? : Nat → List String → Members → List Char → Option Members
  | 0, _, _, _ => none
  | _, _, root, [] => some root
  | fuel + 1, current, root, cs =>
    match line? cs with
    | none => none
    | some (.blank, rest) => lines? fuel current root rest
    | some (.header isArray path, rest) =>
      match openTable isArray path root with
      | some root => lines? fuel path root rest
      | none => none
    | some (.entry key v, rest) =>
      match descend false (addValue key v) current false root with
      | some root => lines? fuel current root rest
      | none => none

/-- The members of the document that a text spells. -/
def parse? (s : String) : Option (List (String × Value)) :=
  let cs := match s.toList with
    | '\ufeff' :: cs => cs
    | cs => cs
  (lines? (cs.length + 1) [] [] cs).map membersToValues

end Stackify.Toml
