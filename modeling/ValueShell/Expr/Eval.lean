import ValueShell.Expr.Free
import ValueShell.Expr.Parser
import ValueShell.Text.LetterCase
import ValueShell.Value.Arithmetic
import ValueShell.Value.Reading
import ValueShell.Value.Sort

/-!
# Evaluation of expressions

A name is looked up among the names bound by functions and comprehensions, then among those of the
row and the local names, then among the global ones and last among the names that every expression
knows. The body of a function and every part of a comprehension but its first iterable do not see the
row and the local names. A function keeps the values that its free names have where it stands.

Evaluation goes down the tree with a bound on its depth, so it always ends.
-/

set_option autoImplicit false

namespace ValueShell.Expr

open ValueShell.Text

/-- The names that an expression sees. -/
structure Scope where
  /-- The row whose columns are names. -/
  row : Option Value := none
  locals : Bindings := []
  globals : Bindings := []
  /-- The names bound by functions and comprehensions around the expression. -/
  bound : Bindings := []
  /-- The expression stands in a function or a comprehension. -/
  inner : Bool := false

/-- The functions that every expression knows, beside the kinds of values. -/
def functionNames : List String :=
  ["abs", "aiter", "all", "anext", "any", "ascii", "bin", "breakpoint", "callable", "chr", "compile",
    "delattr", "dir", "divmod", "eval", "exec", "format", "getattr", "globals", "hasattr", "hash",
    "hex", "id", "input", "isinstance", "issubclass", "iter", "len", "locals", "max", "min", "next",
    "oct", "open", "ord", "pow", "print", "repr", "round", "setattr", "sorted", "sum", "vars"]

/-- The value of a name that every expression knows. -/
def builtin? (s : String) : Option Value :=
  if functionNames.contains s || Value.kindNames.contains s then some (.builtin s)
  else if s = "__name__" then some (.text "builtins")
  else none

/-- The value of a name among the columns of the row and the local names. -/
def Scope.nearby (scope : Scope) (s : String) : Except Fault (Option Value) :=
  match scope.row with
  | none => .ok (scope.locals.find? s)
  | some row =>
    match row.at_ (.text s) with
    | .ok v => .ok (some v)
    | .error (.missingKey _) => .ok (scope.locals.find? s)
    | .error fault => .error fault

/-- The value of a name. -/
def Scope.lookup (scope : Scope) (s : String) : Except Fault Value :=
  match scope.bound.find? s with
  | some v => .ok v
  | none => do
    let found ← if scope.inner then .ok none else scope.nearby s
    match found with
    | some v => .ok v
    | none =>
      match (scope.globals.find? s).or (builtin? s) with
      | some v => .ok v
      | none => .error (.undefined s)

/-- Binds a name inside of a function or comprehension. -/
def Scope.bind (scope : Scope) (s : String) (v : Value) : Scope :=
  { scope with bound := (s, v) :: scope.bound }

/-- The scope of a function or comprehension that stands here. -/
def Scope.enter (scope : Scope) : Scope := { scope with inner := true }

/-- The values of global names, as far as no function or comprehension around hides them. -/
def Scope.capture (scope : Scope) (names : List String) : Bindings :=
  names.filterMap fun s =>
    if (scope.bound.find? s).isSome then none else (scope.globals.find? s).map fun v => (s, v)

/-- Binds the names of a target to the parts of a value. -/
def assign_ : Nat → Scope → Expr → Value → Except Fault Scope
  | 0, _, _, _ => .error .tooDeep
  | n + 1, scope, target, v =>
    match target with
    | .name s => .ok (scope.bind s v)
    | .tuple targets => v.items.bind (unpack n scope targets)
    | .list targets => v.items.bind (unpack n scope targets)
    | _ => .error .wrongKind
where
  /-- Binds targets to the elements of a sequence; one starred target takes what is left over. -/
  unpack (n : Nat) (scope : Scope) : List Expr → List Value → Except Fault Scope
    | [], [] => .ok scope
    | [], _ :: _ => .error .invalidValue
    | .starred target :: rest, vs =>
      if vs.length < rest.length then .error .invalidValue
      else do
        let taken := vs.length - rest.length
        let scope ← assign_ n scope target (.list (vs.take taken))
        unpack n scope rest (vs.drop taken)
    | _ :: _, [] => .error .invalidValue
    | target :: rest, v :: vs => do
      let scope ← assign_ n scope target v
      unpack n scope rest vs

/-- What a call passes. -/
structure Passed where
  positional : List Value := []
  named : Bindings := []

/-- What is left to bind of a call, and what is bound. -/
structure Binding extends Passed where
  bound : Bindings := []

/-- Binds a parameter to the argument that names it, or to its default. -/
def Binding.byName (b : Binding) (s : String) (default : Option Value) (allowed : Bool) :
    Except Fault Binding :=
  match (if allowed then b.named.find? s else none).or default with
  | some v =>
    .ok { b with
      named := if allowed then b.named.filter (·.1 ≠ s) else b.named
      bound := (s, v) :: b.bound }
  | none => .error .wrongKind

/-- Binds the next parameter. -/
def Binding.next (positionalOnly : List String) (b : Binding)
    (param : String × ParamKind × Option Value) : Except Fault Binding :=
  let (s, kind, default) := param
  match kind with
  | .divider => .ok b
  | .rest => .ok { b with positional := [], bound := (s, .tuple b.positional) :: b.bound }
  | .namedRest =>
    let entries := b.named.map fun e => (Value.text e.1, e.2)
    .ok { b with named := [], bound := (s, .dict entries) :: b.bound }
  | .positional =>
    match b.positional with
    | v :: vs =>
      if !positionalOnly.contains s && (b.named.find? s).isSome then .error .wrongKind
      else .ok { b with positional := vs, bound := (s, v) :: b.bound }
    | [] => b.byName s default (!positionalOnly.contains s)
  | .keywordOnly => b.byName s default true

/-- Binds the parameters of a function to what a call passes; nothing may be left over. -/
def bindParams (params : List (String × ParamKind × Option Value)) (passed : Passed) :
    Except Fault Bindings := do
  let dividerAt := params.findIdx fun p => p.2.1 = .divider
  let positionalOnly := if dividerAt < params.length then (params.take dividerAt).map (·.1) else []
  let b ← params.foldlM (Binding.next positionalOnly) { toPassed := passed }
  if b.positional.isEmpty && b.named.isEmpty then .ok b.bound else .error .wrongKind

/-- The parts of a text between separators, at most `limit` of them cut off from the front. -/
def splitAtText (separator : List Char) : Nat → Nat → List Char → List Char → List (List Char)
  | 0, _, piece, cs => [piece.reverse ++ cs]
  | _ + 1, _, piece, [] => [piece.reverse]
  | n + 1, limit, piece, c :: rest =>
    if limit > 0 && separator.isPrefixOf (c :: rest) then
      piece.reverse :: splitAtText separator n (limit - 1) [] ((c :: rest).drop separator.length)
    else splitAtText separator n limit (c :: piece) rest

/-- Splits off at most `limit` words; the rest is one piece without the white space around it. -/
def splitWords : Nat → Nat → List Char → List (List Char)
  | 0, _, _ => []
  | n + 1, limit, cs =>
    match cs.dropWhile isBlank with
    | [] => []
    | rest =>
      if limit = 0 then [trimEnd isBlank rest]
      else
        rest.takeWhile (fun c => !isBlank c) ::
          splitWords n (limit - 1) (rest.dropWhile fun c => !isBlank c)

/-- Replaces every occurrence of a part of a text. -/
def replaceText (old new cs : List Char) : List Char :=
  if old.isEmpty then new ++ cs.flatMap fun c => c :: new
  else
    match splitAtText old (cs.length + 1) cs.length [] cs with
    | [] => []
    | first :: rest => first ++ rest.flatMap fun piece => new ++ piece

/-- Calls a method of a text. -/
def textMethod (s : String) (method : String) (args : List Value) : Except Fault Value :=
  let cs := s.toList
  let text (cs : List Char) : Value := .text (String.ofList cs)
  match method, args with
  | "upper", [] => .ok (.text (upper s))
  | "lower", [] => .ok (.text (lower s))
  | "strip", [] => .ok (text (strip cs))
  | "lstrip", [] => .ok (text (cs.dropWhile isBlank))
  | "rstrip", [] => .ok (text (trimEnd isBlank cs))
  | "strip", [.text cut] => .ok (text (trim cut.toList.contains cs))
  | "lstrip", [.text cut] => .ok (text (cs.dropWhile cut.toList.contains))
  | "rstrip", [.text cut] => .ok (text (trimEnd cut.toList.contains cs))
  | "startswith", [.text head] => .ok (.bool (head.toList.isPrefixOf cs))
  | "endswith", [.text tail] => .ok (.bool (tail.toList.reverse.isPrefixOf cs.reverse))
  | "replace", [.text old, .text new] => .ok (text (replaceText old.toList new.toList cs))
  | "join", [v] => do
    let parts ← v.items
    match parts.mapM Value.text? with
    | some texts => .ok (.text (s.intercalate texts))
    | none => .error .wrongKind
  | "split", args => do
    let (separator, limit) ← match args with
      | [] => .ok (Value.none, (-1 : Int))
      | [separator] => .ok (separator, -1)
      | [separator, limit] =>
        match limit.int? with
        | some n => .ok (separator, n)
        | none => .error Fault.wrongKind
      | _ => .error .wrongKind
    let limit := if limit < 0 then cs.length + 1 else limit.toNat
    match separator with
    | .none => .ok (.list ((splitWords (cs.length + 1) limit cs).map text))
    | .text "" => .error .invalidValue
    | .text separator =>
      .ok (.list ((splitAtText separator.toList (cs.length + 1) limit [] cs).map text))
    | _ => .error .wrongKind
  | _, _ => .error .wrongKind

/-- The methods of texts. -/
def textMethods : List String :=
  ["upper", "lower", "strip", "lstrip", "rstrip", "startswith", "endswith", "replace", "join", "split"]

/-- The methods of mappings. -/
def dictMethods : List String := ["get", "keys", "values", "items"]

/-- Calls a method of a mapping. -/
def dictMethod (entries : List (Value × Value)) (method : String) (args : List Value) :
    Except Fault Value :=
  match method, args with
  | "get", [key] => .ok ((Value.keyValue? entries key).getD .none)
  | "get", [key, default] => .ok ((Value.keyValue? entries key).getD default)
  | "keys", [] => .ok (.list (entries.map (·.1)))
  | "values", [] => .ok (.list (entries.map (·.2)))
  | "items", [] => .ok (.list (entries.map fun e => .tuple [e.1, e.2]))
  | _, _ => .error .wrongKind

/-- The attribute of a value. -/
def attributeOf (object : Value) (s : String) : Except Fault Value :=
  match object with
  | .row .. => if s = "values" || s = "table" then .ok (.method object s) else object.at_ (.text s)
  | .text _ => if textMethods.contains s then .ok (.method object s) else .error .noAttribute
  | .dict _ => if dictMethods.contains s then .ok (.method object s) else .error .noAttribute
  | _ => .error .noAttribute

/-- The integer that a value converts to. -/
def toInt (v : Value) : Except Fault Int :=
  match v with
  | .text s =>
    match Value.readInt? s 10 with
    | some n => .ok n
    | none => .error .invalidValue
  | _ => v.wholeNumber

/-- The floating-point number that a value converts to. -/
def toReal (v : Value) : Except Fault Float :=
  match v with
  | .text s =>
    match Value.readReal? s with
    | some x => .ok x
    | none => .error .invalidValue
  | _ =>
    match v.number? with
    | some x => x.toReal
    | none => .error .wrongKind

/-- The sum of values, added one by one. -/
def sumOf (start : Value) (vs : List Value) : Except Fault Value :=
  match start with
  | .text _ => .error .wrongKind
  | _ => vs.foldlM (Value.binary .add) start

/-- A range of integers. -/
def rangeOf : List Value → Except Fault Value
  | [stop] =>
    match stop.int? with
    | some n => .ok (.range 0 n 1)
    | none => .error .wrongKind
  | [start, stop] =>
    match start.int?, stop.int? with
    | some a, some b => .ok (.range a b 1)
    | _, _ => .error .wrongKind
  | [start, stop, step] =>
    match start.int?, stop.int?, step.int? with
    | some a, some b, some c => if c = 0 then .error .invalidValue else .ok (.range a b c)
    | _, _, _ => .error .wrongKind
  | _ => .error .wrongKind

/-- The value without the elements that are there before. -/
def distinct (vs : List Value) : List Value :=
  vs.foldl (fun acc v => if v.isAmong acc then acc else acc ++ [v]) []

/-- Calls a function that needs no other function. -/
def simpleCall (function : String) (args : List Value) : Except Fault Value :=
  match function, args with
  | "len", [v] => v.length.map fun n => .int n
  | "int", [] => .ok (.int 0)
  | "int", [v] => (toInt v).map .int
  | "int", [.text s, base] =>
    match base.int? with
    | none => .error .wrongKind
    | some b =>
      if b < 0 || b = 1 || b > 36 then .error .invalidValue
      else
        match Value.readInt? s b.toNat with
        | some n => .ok (.int n)
        | none => .error .invalidValue
  | "float", [] => .ok (.real 0.0)
  | "float", [v] => (toReal v).map .real
  | "bool", [] => .ok (.bool false)
  | "bool", [v] => .ok (.bool v.truthy)
  | "str", [] => .ok (.text "")
  | "str", [v] => .ok (.text v.display)
  | "repr", [v] => .ok (.text v.source)
  | "abs", [v] =>
    match v.number? with
    | some (.int n) => .ok (.int n.natAbs)
    | some (.real x) => .ok (.real x.abs)
    | none => .error .wrongKind
  | "sum", [v] => v.items.bind (sumOf (.int 0))
  | "sum", [v, start] => v.items.bind (sumOf start)
  | "range", args => rangeOf args
  | "list", [] => .ok (.list [])
  | "list", [v] => v.items.map .list
  | "tuple", [] => .ok (.tuple [])
  | "tuple", [v] => v.items.map .tuple
  | "set", [] => .ok (.set [])
  | "set", [v] => do
    let vs ← v.items
    if vs.all Value.isKey then .ok (.set (distinct vs)) else .error .wrongKind
  | "dict", [] => .ok (.dict [])
  | "dict", [.dict entries] => .ok (.dict entries)
  | "any", [v] => v.items.map fun vs => .bool (vs.any Value.truthy)
  | "all", [v] => v.items.map fun vs => .bool (vs.all Value.truthy)
  | "callable", [v] => .ok (.bool v.isCallable)
  | "reversed", [v] => v.items.map fun vs => .stream vs.reverse
  | "enumerate", [v] => v.items.map fun vs => .stream (vs.zipIdx.map fun e => .tuple [.int e.2, e.1])
  | "zip", [a, b] => do
    let xs ← a.items
    let ys ← b.items
    .ok (.stream ((xs.zip ys).map fun e => .tuple [e.1, e.2]))
  | "chr", [v] =>
    match v.int? with
    | some n => if 0 ≤ n && n < 0x110000 then .ok (.text (String.singleton (Char.ofNat n.toNat)))
      else .error .invalidValue
    | none => .error .wrongKind
  | "ord", [.text s] =>
    match s.toList with
    | [c] => .ok (.int c.toNat)
    | _ => .error .wrongKind
  | _, _ => .error .wrongKind

/-- The constant that a literal stands for. -/
def constantOf : Literal → Value
  | .none => .none
  | .bool b => .bool b
  | .int n => .int n
  | .real x => .real x
  | .imaginary x => .other "complex" (Number.realText .value x ++ "j")
  | .text s => .text s
  | .bytes s => .other "bytes" ("b" ++ quote s)
  | .ellipsis => .other "ellipsis" "Ellipsis"

/-- Compares two values by an operator. -/
def compareBy (op : CompareOp) (a b : Value) : Except Fault Bool :=
  match op with
  | .eq => .ok (a.equal b)
  | .ne => .ok (!a.equal b)
  | .lt => Value.related .lt a b
  | .le => Value.related .le a b
  | .gt => Value.related .gt a b
  | .ge => Value.related .ge a b
  | .isIn => a.isIn b
  | .notIn => (a.isIn b).map (!·)
  | .same => .ok (a.equal b)
  | .notSame => .ok (!a.equal b)

/-- The greatest or least element by key; the first of equal ones. -/
def extreme (r : Value.Relation) : List (Value × Value) → Except Fault Value
  | [] => .error .invalidValue
  | first :: rest => do
    let best ← rest.foldlM (fun best e => do
      if ← Value.related r e.1 best.1 then .ok e else .ok best) first
    .ok best.2

/-- A mapping of entries, whose keys must be able to be keys; a later entry replaces an earlier one. -/
def collectEntries (entries : List (Value × Value)) : Except Fault (List (Value × Value)) :=
  entries.foldlM (fun acc (k, v) =>
    if k.isKey then .ok (Value.putEntry acc k v) else .error .wrongKind) []

mutual

/-- The value of an expression. -/
def eval : Nat → Scope → Expr → Except Fault Value
  | 0, _, _ => .error .tooDeep
  | n + 1, scope, e =>
    match e with
    | .literal l => .ok (constantOf l)
    | .name s => scope.lookup s
    | .list items => (evalItems n scope items).map .list
    | .tuple items => (evalItems n scope items).map .tuple
    | .set items => do
      let vs ← evalItems n scope items
      if vs.all Value.isKey then .ok (.set (distinct vs)) else .error .wrongKind
    | .dict entries => do .ok (.dict (← collectEntries (← evalEntries n scope [] entries)))
    | .comprehension kind element clauses => do
      let vs ← gather n scope true clauses [element]
      let vs := vs.flatten
      match kind with
      | .list => .ok (.list vs)
      | .generator => .ok (.stream vs)
      | .set => if vs.all Value.isKey then .ok (.set (distinct vs)) else .error .wrongKind
    | .dictComprehension key value clauses => do
      let pairs ← gather n scope true clauses [key, value]
      pairs.foldlM (fun d pair =>
        match d, pair with
        | .dict es, [k, v] => if k.isKey then .ok (.dict (Value.putEntry es k v)) else .error .wrongKind
        | _, _ => .error .wrongKind) (.dict [])
    | .lambda params body => do
      let captured := scope.capture (without (params.map (·.1)) (freeNames body))
      let params ← evalDefaults n scope params
      .ok (.closure params body scope.bound captured)
    | .call function args => do
      let f ← eval n scope function
      let passed ← evalArgs n scope {} args
      callValue n f passed
    | .attribute object s => do
      let v ← eval n scope object
      attributeOf v s
    | .index object (.slice start stop step) => do
      let v ← eval n scope object
      let start ← evalOptional n scope start
      let stop ← evalOptional n scope stop
      let step ← evalOptional n scope step
      v.slice start stop step
    | .index object subscript => do
      let v ← eval n scope object
      let key ← eval n scope subscript
      v.at_ key
    | .slice .. => .error .wrongKind
    | .unary op operand => do
      let v ← eval n scope operand
      v.unary op
    | .binary op left right => do
      let a ← eval n scope left
      let b ← eval n scope right
      Value.binary op a b
    | .compare first rest => do
      let v ← eval n scope first
      evalComparisons n scope v rest
    | .both left right => do
      let a ← eval n scope left
      if a.truthy then eval n scope right else .ok a
    | .either left right => do
      let a ← eval n scope left
      if a.truthy then .ok a else eval n scope right
    | .choice condition yes no => do
      let c ← eval n scope condition
      if c.truthy then eval n scope yes else eval n scope no
    | .starred _ => .error .wrongKind
    | .assign _ value => eval n scope value

/-- The values of the items of a display, starred ones spread. -/
def evalItems : Nat → Scope → List Expr → Except Fault (List Value)
  | 0, _, _ => .error .tooDeep
  | _ + 1, _, [] => .ok []
  | n + 1, scope, .starred e :: rest => do
    let v ← eval n scope e
    let vs ← v.items
    let others ← evalItems n scope rest
    .ok (vs ++ others)
  | n + 1, scope, e :: rest => do
    let v ← eval n scope e
    let others ← evalItems n scope rest
    .ok (v :: others)

/-- The entries of a mapping, as they are written. -/
def evalEntries : Nat → Scope → List (Value × Value) → List (Option Expr × Expr) →
    Except Fault (List (Value × Value))
  | 0, _, _, _ => .error .tooDeep
  | _ + 1, _, acc, [] => .ok acc
  | n + 1, scope, acc, (some key, value) :: rest => do
    let k ← eval n scope key
    let v ← eval n scope value
    evalEntries n scope (acc ++ [(k, v)]) rest
  | n + 1, scope, acc, (none, value) :: rest => do
    let acc ← collectEntries acc
    let v ← eval n scope value
    match v with
    | .dict es => evalEntries n scope (acc ++ es) rest
    | _ => .error .wrongKind

/-- The parameters of a function with the values of their defaults. -/
def evalDefaults : Nat → Scope → List (String × ParamKind × Option Expr) →
    Except Fault (List (String × ParamKind × Option Value))
  | 0, _, _ => .error .tooDeep
  | _ + 1, _, [] => .ok []
  | n + 1, scope, (s, kind, default) :: rest => do
    let v ← evalOptional n scope default
    let others ← evalDefaults n scope rest
    .ok ((s, kind, v) :: others)

/-- The value of an expression that may be left out. -/
def evalOptional : Nat → Scope → Option Expr → Except Fault (Option Value)
  | 0, _, _ => .error .tooDeep
  | _ + 1, _, none => .ok none
  | n + 1, scope, some e => (eval n scope e).map some

/-- What a call passes. -/
def evalArgs : Nat → Scope → Passed → List (ArgKind × Expr) → Except Fault Passed
  | 0, _, _, _ => .error .tooDeep
  | _ + 1, _, acc, [] => .ok acc
  | n + 1, scope, acc, (kind, e) :: rest => do
    let v ← eval n scope e
    match kind with
    | .positional => evalArgs n scope { acc with positional := acc.positional ++ [v] } rest
    | .spread => do
      let vs ← v.items
      evalArgs n scope { acc with positional := acc.positional ++ vs } rest
    | .named s => evalArgs n scope { acc with named := acc.named ++ [(s, v)] } rest
    | .namedSpread =>
      match v with
      | .dict es =>
        match es.mapM fun e => e.1.text?.map fun s => (s, e.2) with
        | some named =>
          if named.any fun e => (acc.named.find? e.1).isSome then .error .wrongKind
          else evalArgs n scope { acc with named := acc.named ++ named } rest
        | none => .error .wrongKind
      | _ => .error .wrongKind

/-- A chain of comparisons: each operand is evaluated once, and the first that fails ends it. -/
def evalComparisons : Nat → Scope → Value → List (CompareOp × Expr) → Except Fault Value
  | 0, _, _, _ => .error .tooDeep
  | _ + 1, _, _, [] => .ok (.bool true)
  | n + 1, scope, left, (op, e) :: rest => do
    let right ← eval n scope e
    if ← compareBy op left right then evalComparisons n scope right rest else .ok (.bool false)

/-- The elements of a comprehension, each with the values of the given expressions. Only the first
iterable sees the scope around the comprehension. -/
def gather : Nat → Scope → Bool → List (Expr × Expr × List Expr) → List Expr →
    Except Fault (List (List Value))
  | 0, _, _, _, _ => .error .tooDeep
  | n + 1, scope, _, [], elements => do
    let vs ← elements.mapM (eval n scope)
    .ok [vs]
  | n + 1, scope, first, (target, iterable, conditions) :: rest, elements => do
    let collection ← eval n (if first then scope else scope.enter) iterable
    let vs ← collection.items
    let parts ← vs.mapM fun v => do
      let scope ← assign_ n scope.enter target v
      if ← allTrue n scope conditions then gather n scope false rest elements else .ok []
    .ok parts.flatten

/-- Every condition holds. -/
def allTrue : Nat → Scope → List Expr → Except Fault Bool
  | 0, _, _ => .error .tooDeep
  | _ + 1, _, [] => .ok true
  | n + 1, scope, e :: rest => do
    let v ← eval n scope e
    if v.truthy then allTrue n scope rest else .ok false

/-- Calls a value. -/
def callValue : Nat → Value → Passed → Except Fault Value
  | 0, _, _ => .error .tooDeep
  | n + 1, f, passed =>
    match f with
    | .closure params body bound globals => do
      let args ← bindParams params passed
      eval n { bound := args ++ bound, globals, inner := true } body
    | .method object s =>
      match object with
      | .text t => if passed.named.isEmpty then textMethod t s passed.positional else .error .wrongKind
      | .dict es => if passed.named.isEmpty then dictMethod es s passed.positional else .error .wrongKind
      | .row _ _ values =>
        if !(passed.named.isEmpty && passed.positional.isEmpty) then .error .wrongKind
        else if s = "values" then .ok values
        else .ok (.other "PyshTable" "<table object>")
      | _ => .error .noAttribute
    | .builtin s => callBuiltin n s passed
    | .command _ => .error .wrongKind
    | _ => .error .wrongKind

/-- Calls a function that every expression knows. -/
def callBuiltin : Nat → String → Passed → Except Fault Value
  | 0, _, _ => .error .tooDeep
  | n + 1, function, passed =>
    match function with
    | "max" => extremeBy n .gt passed
    | "min" => extremeBy n .lt passed
    | "sorted" => do
      let vs ← match passed.positional with
        | [v] => v.items
        | _ => .error .wrongKind
      let keyed ← withKeys n (passed.named.find? "key") vs
      let descending := ((passed.named.find? "reverse").map Value.truthy).getD false
      if descending then
        let sorted ← sortM (fun a b => Value.related .lt a.1 b.1) keyed.reverse
        .ok (.list (sorted.reverse.map (·.2)))
      else
        let sorted ← sortM (fun a b => Value.related .lt a.1 b.1) keyed
        .ok (.list (sorted.map (·.2)))
    | "map" => do
      match passed.positional with
      | [f, v] =>
        let vs ← v.items
        let results ← vs.mapM fun v => callValue n f { positional := [v] }
        .ok (.stream results)
      | _ => .error .wrongKind
    | "filter" => do
      match passed.positional with
      | [f, v] =>
        let vs ← v.items
        let kept ← vs.filterM fun v => (callValue n f { positional := [v] }).map Value.truthy
        .ok (.stream kept)
      | _ => .error .wrongKind
    | _ =>
      if passed.named.isEmpty then simpleCall function passed.positional else .error .wrongKind

/-- The greatest or least of one collection or of several values. -/
def extremeBy : Nat → Value.Relation → Passed → Except Fault Value
  | 0, _, _ => .error .tooDeep
  | n + 1, r, passed => do
    let vs ← match passed.positional with
      | [] => .error .wrongKind
      | [v] => v.items
      | vs => .ok vs
    match vs, passed.named.find? "default" with
    | [], some v => .ok v
    | _, _ =>
      let keyed ← withKeys n (passed.named.find? "key") vs
      extreme r keyed

/-- Values with their sort keys. -/
def withKeys : Nat → Option Value → List Value → Except Fault (List (Value × Value))
  | 0, _, _ => .error .tooDeep
  | _ + 1, none, vs => .ok (vs.map fun v => (v, v))
  | _ + 1, some .none, vs => .ok (vs.map fun v => (v, v))
  | n + 1, some f, vs => vs.mapM fun v => do
    let key ← callValue n f { positional := [v] }
    .ok (key, v)

end

/-- How deeply evaluation may descend. -/
def maxDepth : Nat := 5000

/-- The value of an expression in a scope. -/
def value (scope : Scope) (e : Expr) : Except Fault Value := eval maxDepth scope e

/-- What a function gives for arguments. -/
def applyTo (f : Value) (args : List Value) : Except Fault Value := callValue maxDepth f { positional := args }

/-- The value of a text that is read as an expression, after the blanks at its head. -/
def evalText (scope : Scope) (text : String) : Except Fault Value := do
  let e ← parseTrimmed text
  value scope e

end ValueShell.Expr
