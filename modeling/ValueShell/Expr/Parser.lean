import ValueShell.Expr.Lexeme
import ValueShell.Fault

/-!
# Reading expressions

The grammar of expressions, by recursive descent over lexemes. Each function takes the lexemes that
are left and gives the tree it read with the lexemes after it; the first argument bounds the depth of
the descent, and `Expr.parse` gives enough for every text.
-/

set_option autoImplicit false

namespace ValueShell.Expr

/-- Passes over a mark. -/
def expectMark (m : String) : List Lexeme → Option (List Lexeme)
  | .mark m' :: rest => if m = m' then some rest else none
  | _ => none

/-- Passes over a keyword. -/
def expectKeyword (k : String) : List Lexeme → Option (List Lexeme)
  | .keyword k' :: rest => if k = k' then some rest else none
  | _ => none

/-- The next lexeme is this mark. -/
def atMark (m : String) : List Lexeme → Bool
  | .mark m' :: _ => m = m'
  | _ => false

/-- The next lexeme is this keyword. -/
def atKeyword (k : String) : List Lexeme → Bool
  | .keyword k' :: _ => k = k'
  | _ => false

/-- The operators of each level, the loosest first. -/
def levelOp? (level : Nat) (m : String) : Option BinaryOp :=
  match level, m with
  | 0, "|" => some .bitOr
  | 1, "^" => some .bitXor
  | 2, "&" => some .bitAnd
  | 3, "<<" => some .shiftLeft
  | 3, ">>" => some .shiftRight
  | 4, "+" => some .add
  | 4, "-" => some .sub
  | 5, "*" => some .mul
  | 5, "/" => some .div
  | 5, "//" => some .floorDiv
  | 5, "%" => some .mod
  | 5, "@" => some .matMul
  | _, _ => none

/-- The comparison that stands here. -/
def compareOp? : List Lexeme → Option (CompareOp × List Lexeme)
  | .mark "==" :: rest => some (.eq, rest)
  | .mark "!=" :: rest => some (.ne, rest)
  | .mark "<" :: rest => some (.lt, rest)
  | .mark "<=" :: rest => some (.le, rest)
  | .mark ">" :: rest => some (.gt, rest)
  | .mark ">=" :: rest => some (.ge, rest)
  | .keyword "in" :: rest => some (.isIn, rest)
  | .keyword "not" :: .keyword "in" :: rest => some (.notIn, rest)
  | .keyword "is" :: .keyword "not" :: rest => some (.notSame, rest)
  | .keyword "is" :: rest => some (.same, rest)
  | _ => none

/-- Adjacent string literals as one constant; texts and bytes do not mix. -/
def joinStrings (first : Literal) : List Lexeme → Option (Literal × List Lexeme)
  | .constant (.text t) :: rest =>
    match first with
    | .text s => joinStrings (.text (s ++ t)) rest
    | .bytes _ => none
    | other => some (other, .constant (.text t) :: rest)
  | .constant (.bytes t) :: rest =>
    match first with
    | .bytes s => joinStrings (.bytes (s ++ t)) rest
    | .text _ => none
    | other => some (other, .constant (.bytes t) :: rest)
  | rest => some (first, rest)

/-- The expression can be assigned to by a comprehension. -/
def isTarget : Nat → Expr → Bool
  | 0, _ => false
  | n + 1, e =>
    match e with
    | .name _ => true
    | .attribute _ _ => true
    | .index _ _ => true
    | .tuple items => items.all (isTarget n)
    | .list items => items.all (isTarget n)
    | .starred operand => isTarget n operand
    | _ => false

/-- What begins here gives its value a name or spreads it, and no colon follows such a part. -/
def atMarkedItem : List Lexeme → Bool
  | .name _ :: .mark ":=" :: _ => true
  | .mark "*" :: _ => true
  | _ => false

/-- What a parameter list has shown so far. -/
structure ParamState where
  params : List (String × ParamKind × Option Expr) := []
  sawDivider : Bool := false
  sawStar : Bool := false
  /-- A bare star waits for a parameter after it. -/
  starWaits : Bool := false
  sawDefault : Bool := false

/-- Adds a parameter; its name must be new. -/
def ParamState.add? (s : ParamState) (key : String) (kind : ParamKind) (default : Option Expr) :
    Option ParamState :=
  if s.params.any fun p => p.1 = key && p.2.1 ≠ .divider then none
  else some { s with params := s.params ++ [(key, kind, default)] }

mutual

/-- A conditional expression, a lambda or a disjunction. -/
def expression : Nat → List Lexeme → Option (Expr × List Lexeme)
  | 0, _ => none
  | n + 1, .keyword "lambda" :: rest => do
    let (params, rest) ← parameters n {} rest
    let (body, rest) ← expression n rest
    some (.lambda params body, rest)
  | n + 1, ls => do
    let (yes, rest) ← disjunction n ls
    if atKeyword "if" rest then
      let (condition, rest) ← disjunction n (rest.drop 1)
      let rest ← expectKeyword "else" rest
      let (no, rest) ← expression n rest
      some (.choice condition yes no, rest)
    else some (yes, rest)

/-- The parameters of a lambda, up to its colon. -/
def parameters : Nat → ParamState → List Lexeme → Option ((List (String × ParamKind × Option Expr)) × List Lexeme)
  | 0, _, _ => none
  | n + 1, s, ls => do
    let sawNamedRest := s.params.any (·.2.1 = .namedRest)
    match ls with
    | .mark ":" :: rest => if s.starWaits then none else some (s.params, rest)
    | .mark "/" :: rest =>
      if s.params.isEmpty || s.sawDivider || s.sawStar || sawNamedRest then none
      else
        let s := { s with params := s.params ++ [("", .divider, none)], sawDivider := true }
        afterParameter n s rest
    | .mark "*" :: .name key :: rest =>
      if s.sawStar || sawNamedRest then none
      else
        let s ← ParamState.add? { s with sawStar := true } key .rest none
        afterParameter n s rest
    | .mark "*" :: rest =>
      if s.sawStar || sawNamedRest then none
      else afterParameter n { s with sawStar := true, starWaits := true } rest
    | .mark "**" :: .name key :: rest =>
      if s.starWaits || sawNamedRest then none
      else
        let s ← s.add? key .namedRest none
        afterParameter n s rest
    | .name key :: .mark "=" :: rest =>
      if sawNamedRest then none
      else
        let (default, rest) ← expression n rest
        let kind := if s.sawStar then .keywordOnly else .positional
        let s ← ParamState.add? { s with starWaits := false, sawDefault := s.sawDefault || !s.sawStar }
          key kind (some default)
        afterParameter n s rest
    | .name key :: rest =>
      if sawNamedRest || (s.sawDefault && !s.sawStar) then none
      else
        let kind := if s.sawStar then .keywordOnly else .positional
        let s ← ParamState.add? { s with starWaits := false } key kind none
        afterParameter n s rest
    | _ => none

/-- The comma or colon after a parameter. -/
def afterParameter : Nat → ParamState → List Lexeme → Option ((List (String × ParamKind × Option Expr)) × List Lexeme)
  | 0, _, _ => none
  | n + 1, s, .mark "," :: rest => parameters n s rest
  | n + 1, s, ls => if atMark ":" ls then parameters n s ls else none

def disjunction : Nat → List Lexeme → Option (Expr × List Lexeme)
  | 0, _ => none
  | n + 1, ls => do
    let (left, rest) ← conjunction n ls
    if atKeyword "or" rest then
      let (right, rest) ← disjunction n (rest.drop 1)
      some (.either left right, rest)
    else some (left, rest)

def conjunction : Nat → List Lexeme → Option (Expr × List Lexeme)
  | 0, _ => none
  | n + 1, ls => do
    let (left, rest) ← inversion n ls
    if atKeyword "and" rest then
      let (right, rest) ← conjunction n (rest.drop 1)
      some (.both left right, rest)
    else some (left, rest)

def inversion : Nat → List Lexeme → Option (Expr × List Lexeme)
  | 0, _ => none
  | n + 1, .keyword "not" :: rest => do
    let (operand, rest) ← inversion n rest
    some (.unary .not operand, rest)
  | n + 1, ls => do
    let (first, rest) ← binary_ n 0 ls
    let (others, rest) ← comparisons n rest
    some (if others.isEmpty then first else .compare first others, rest)

/-- The further operands of a chained comparison. -/
def comparisons : Nat → List Lexeme → Option ((List (CompareOp × Expr)) × List Lexeme)
  | 0, _ => none
  | n + 1, ls =>
    match compareOp? ls with
    | none => some ([], ls)
    | some (op, rest) => do
      let (operand, rest) ← binary_ n 0 rest
      let (others, rest) ← comparisons n rest
      some ((op, operand) :: others, rest)

/-- The operators of a level and of all tighter ones. -/
def binary_ : Nat → Nat → List Lexeme → Option (Expr × List Lexeme)
  | 0, _, _ => none
  | n + 1, level, ls =>
    if level ≥ 6 then factor n ls
    else do
      let (left, rest) ← binary_ n (level + 1) ls
      binaryRest n level left rest

/-- The further operands of a level; they group to the left. -/
def binaryRest : Nat → Nat → Expr → List Lexeme → Option (Expr × List Lexeme)
  | 0, _, _, _ => none
  | n + 1, level, left, .mark m :: rest =>
    match levelOp? level m with
    | none => some (left, .mark m :: rest)
    | some op => do
      let (right, rest) ← binary_ n (level + 1) rest
      binaryRest n level (.binary op left right) rest
  | _ + 1, _, left, ls => some (left, ls)

/-- A signed operand or a power. -/
def factor : Nat → List Lexeme → Option (Expr × List Lexeme)
  | 0, _ => none
  | n + 1, .mark "+" :: rest => do
    let (operand, rest) ← factor n rest
    some (.unary .plus operand, rest)
  | n + 1, .mark "-" :: rest => do
    let (operand, rest) ← factor n rest
    some (.unary .minus operand, rest)
  | n + 1, .mark "~" :: rest => do
    let (operand, rest) ← factor n rest
    some (.unary .invert operand, rest)
  | n + 1, ls => do
    let (head, rest) ← atom n ls
    let (base, rest) ← trailers n head rest
    if atMark "**" rest then
      let (exponent, rest) ← factor n (rest.drop 1)
      some (.binary .power base exponent, rest)
    else some (base, rest)

/-- Attributes, calls and subscripts after an operand. -/
def trailers : Nat → Expr → List Lexeme → Option (Expr × List Lexeme)
  | 0, _, _ => none
  | n + 1, object, .mark "." :: .name key :: rest => trailers n (.attribute object key) rest
  | _ + 1, _, .mark "." :: _ => none
  | n + 1, object, .mark "(" :: rest => do
    let (args, rest) ← arguments n [] rest
    trailers n (.call object args) rest
  | n + 1, object, .mark "[" :: rest => do
    let (subscript, rest) ← subscripts n rest
    trailers n (.index object subscript) rest
  | _ + 1, object, ls => some (object, ls)

/-- The arguments of a call, up to its closing parenthesis. -/
def arguments : Nat → List (ArgKind × Expr) → List Lexeme → Option ((List (ArgKind × Expr)) × List Lexeme)
  | 0, _, _ => none
  | n + 1, args, ls => do
    let sawNamed := args.any fun a => match a.1 with
      | .named _ => true
      | .namedSpread => true
      | _ => false
    let sawNamedSpread := args.any fun a => a.1 = .namedSpread
    match ls with
    | .mark ")" :: rest => some (args, rest)
    | .mark "*" :: rest =>
      if sawNamedSpread then none
      else
        let (value, rest) ← expression n rest
        afterArgument n (args ++ [(.spread, value)]) rest
    | .mark "**" :: rest =>
      let (value, rest) ← expression n rest
      afterArgument n (args ++ [(.namedSpread, value)]) rest
    | .name key :: .mark "=" :: rest =>
      if args.any fun a => a.1 = .named key then none
      else
        let (value, rest) ← expression n rest
        afterArgument n (args ++ [(.named key, value)]) rest
    | _ =>
      if sawNamed then none
      else
        let (value, rest) ← named n ls
        if atKeyword "for" rest then
          let (clauses, rest) ← comprehensions n rest
          let rest ← expectMark ")" rest
          if args.isEmpty then some ([(.positional, .comprehension .generator value clauses)], rest)
          else none
        else afterArgument n (args ++ [(.positional, value)]) rest

/-- The comma or closing parenthesis after an argument. -/
def afterArgument : Nat → List (ArgKind × Expr) → List Lexeme → Option ((List (ArgKind × Expr)) × List Lexeme)
  | 0, _, _ => none
  | n + 1, args, .mark "," :: rest => arguments n args rest
  | n + 1, args, ls => if atMark ")" ls then arguments n args ls else none

/-- The subscripts of an index, up to its closing bracket. -/
def subscripts : Nat → List Lexeme → Option (Expr × List Lexeme)
  | 0, _ => none
  | n + 1, ls => do
    let (first, rest) ← subscript n ls
    if atMark "]" rest then
      match first with
      | .starred _ => some (.tuple [first], rest.drop 1)
      | _ => some (first, rest.drop 1)
    else
      let (others, rest) ← moreSubscripts n rest
      some (.tuple (first :: others), rest)

def moreSubscripts : Nat → List Lexeme → Option ((List Expr) × List Lexeme)
  | 0, _ => none
  | _ + 1, .mark "]" :: rest => some ([], rest)
  | n + 1, .mark "," :: rest =>
    if atMark "]" rest then some ([], rest.drop 1)
    else do
      let (first, rest) ← subscript n rest
      let (others, rest) ← moreSubscripts n rest
      some (first :: others, rest)
  | _ + 1, _ => none

/-- An index or a slice. -/
def subscript : Nat → List Lexeme → Option (Expr × List Lexeme)
  | 0, _ => none
  | n + 1, .mark "*" :: rest => do
    let (operand, rest) ← binary_ n 0 rest
    some (.starred operand, rest)
  | n + 1, .mark ":" :: rest => sliceRest n none rest
  | n + 1, ls => do
    let (first, rest) ← named n ls
    if atMark ":" rest then
      if atMarkedItem ls then none else sliceRest n (some first) (rest.drop 1)
    else some (first, rest)

/-- A slice after its first colon. -/
def sliceRest : Nat → Option Expr → List Lexeme → Option (Expr × List Lexeme)
  | 0, _, _ => none
  | n + 1, start, ls => do
    let (stop, rest) ← bound n ls
    if atMark ":" rest then
      let (step, rest) ← bound n (rest.drop 1)
      some (.slice start stop step, rest)
    else some (.slice start stop none, rest)

/-- A bound of a slice, which may be left out. -/
def bound : Nat → List Lexeme → Option ((Option Expr) × List Lexeme)
  | 0, _ => none
  | n + 1, ls =>
    if atMark ":" ls || atMark "," ls || atMark "]" ls then some (none, ls)
    else do
      let (e, rest) ← expression n ls
      some (some e, rest)

/-- An expression that may give its value a name. -/
def named : Nat → List Lexeme → Option (Expr × List Lexeme)
  | 0, _ => none
  | n + 1, .name key :: .mark ":=" :: rest => do
    let (value, rest) ← expression n rest
    some (.assign key value, rest)
  | n + 1, ls => expression n ls

/-- An item of a display: a named expression or a starred one. -/
def item : Nat → List Lexeme → Option (Expr × List Lexeme)
  | 0, _ => none
  | n + 1, .mark "*" :: rest => do
    let (operand, rest) ← binary_ n 0 rest
    some (.starred operand, rest)
  | n + 1, ls => named n ls

/-- The further items of a display, up to its closing bracket. -/
def moreItems : Nat → String → List Lexeme → Option ((List Expr) × List Lexeme)
  | 0, _, _ => none
  | n + 1, close, ls =>
    if atMark close ls then some ([], ls.drop 1)
    else do
      let rest ← expectMark "," ls
      if atMark close rest then some ([], rest.drop 1)
      else
        let (first, rest) ← item n rest
        let (others, rest) ← moreItems n close rest
        some (first :: others, rest)

/-- The clauses of a comprehension. -/
def comprehensions : Nat → List Lexeme → Option ((List (Expr × Expr × List Expr)) × List Lexeme)
  | 0, _ => none
  | n + 1, ls =>
    if !atKeyword "for" ls then some ([], ls)
    else do
      let (target, rest) ← targets n (ls.drop 1)
      let rest ← expectKeyword "in" rest
      let (iterable, rest) ← disjunction n rest
      let (tests, rest) ← conditions n rest
      let (others, rest) ← comprehensions n rest
      some ((target, iterable, tests) :: others, rest)

/-- The conditions of a comprehension's clause. -/
def conditions : Nat → List Lexeme → Option ((List Expr) × List Lexeme)
  | 0, _ => none
  | n + 1, ls =>
    if !atKeyword "if" ls then some ([], ls)
    else do
      let (first, rest) ← disjunction n (ls.drop 1)
      let (others, rest) ← conditions n rest
      some (first :: others, rest)

/-- The targets of a comprehension's clause. -/
def targets : Nat → List Lexeme → Option (Expr × List Lexeme)
  | 0, _ => none
  | n + 1, ls => do
    let (first, rest) ← target_ n ls
    if atMark "," rest then
      let (others, rest) ← moreTargets n rest
      some (.tuple (first :: others), rest)
    else
      match first with
      | .starred _ => none
      | _ => some (first, rest)

def moreTargets : Nat → List Lexeme → Option ((List Expr) × List Lexeme)
  | 0, _ => none
  | n + 1, .mark "," :: rest =>
    if atKeyword "in" rest then some ([], rest)
    else do
      let (first, rest) ← target_ n rest
      let (others, rest) ← moreTargets n rest
      some (first :: others, rest)
  | _ + 1, ls => some ([], ls)

def target_ : Nat → List Lexeme → Option (Expr × List Lexeme)
  | 0, _ => none
  | n + 1, .mark "*" :: rest => do
    let (operand, rest) ← binary_ n 0 rest
    if isTarget n operand then some (.starred operand, rest) else none
  | n + 1, ls => do
    let (operand, rest) ← binary_ n 0 ls
    if isTarget n operand then some (operand, rest) else none

/-- A name, a constant or a display. -/
def atom : Nat → List Lexeme → Option (Expr × List Lexeme)
  | 0, _ => none
  | _ + 1, .name s :: rest => some (.name s, rest)
  | _ + 1, .keyword "True" :: rest => some (.literal (.bool true), rest)
  | _ + 1, .keyword "False" :: rest => some (.literal (.bool false), rest)
  | _ + 1, .keyword "None" :: rest => some (.literal .none, rest)
  | _ + 1, .constant l :: rest => do
    let (value, rest) ← joinStrings l rest
    some (.literal value, rest)
  | _ + 1, .mark "..." :: rest => some (.literal .ellipsis, rest)
  | n + 1, .mark "(" :: rest =>
    if atMark ")" rest then some (.tuple [], rest.drop 1)
    else do
      let (first, rest) ← item n rest
      if atKeyword "for" rest then
        let (clauses, rest) ← comprehensions n rest
        let rest ← expectMark ")" rest
        match first with
        | .starred _ => none
        | _ => some (.comprehension .generator first clauses, rest)
      else if atMark ")" rest then
        match first with
        | .starred _ => none
        | _ => some (first, rest.drop 1)
      else
        let (others, rest) ← moreItems n ")" rest
        some (.tuple (first :: others), rest)
  | n + 1, .mark "[" :: rest =>
    if atMark "]" rest then some (.list [], rest.drop 1)
    else do
      let (first, rest) ← item n rest
      if atKeyword "for" rest then
        let (clauses, rest) ← comprehensions n rest
        let rest ← expectMark "]" rest
        match first with
        | .starred _ => none
        | _ => some (.comprehension .list first clauses, rest)
      else
        let (others, rest) ← moreItems n "]" rest
        some (.list (first :: others), rest)
  | n + 1, .mark "\x7b" :: rest =>
    if atMark "\x7d" rest then some (.dict [], rest.drop 1)
    else if atMark "**" rest then do
      let (entries, rest) ← entries n rest
      some (.dict entries, rest)
    else do
      let (first, after) ← item n rest
      if atMark ":" after then
        if atMarkedItem rest then none
        else
          let (value, afterValue) ← expression n (after.drop 1)
          if atKeyword "for" afterValue then
            let (clauses, rest) ← comprehensions n afterValue
            let rest ← expectMark "\x7d" rest
            some (.dictComprehension first value clauses, rest)
          else
            let (entries, rest) ← entries n rest
            some (.dict entries, rest)
      else if atKeyword "for" after then
        let (clauses, rest) ← comprehensions n after
        let rest ← expectMark "\x7d" rest
        match first with
        | .starred _ => none
        | _ => some (.comprehension .set first clauses, rest)
      else
        let (others, rest) ← moreItems n "\x7d" after
        some (.set (first :: others), rest)
  | _ + 1, _ => none

/-- The entries of a mapping, up to its closing brace. -/
def entries : Nat → List Lexeme → Option ((List (Option Expr × Expr)) × List Lexeme)
  | 0, _ => none
  | n + 1, ls => do
    let (entry, rest) ← entry n ls
    if atMark "\x7d" rest then some ([entry], rest.drop 1)
    else
      let rest ← expectMark "," rest
      if atMark "\x7d" rest then some ([entry], rest.drop 1)
      else
        let (others, rest) ← entries n rest
        some (entry :: others, rest)

/-- An entry of a mapping: a key with its value, or another mapping spread into it. -/
def entry : Nat → List Lexeme → Option ((Option Expr × Expr) × List Lexeme)
  | 0, _ => none
  | n + 1, .mark "**" :: rest => do
    let (value, rest) ← binary_ n 0 rest
    some ((none, value), rest)
  | n + 1, ls => do
    let (key, rest) ← expression n ls
    let rest ← expectMark ":" rest
    let (value, rest) ← expression n rest
    some ((some key, value), rest)

end

/-- One or more expressions between commas; more than one, or a comma at the end, make a tuple. -/
def expressions : Nat → List Lexeme → Option (Expr × List Lexeme)
  | 0, _ => none
  | n + 1, ls => do
    let (first, rest) ← expression n ls
    if atMark "," rest then
      let (others, rest) ← more n rest
      some (.tuple (first :: others), rest)
    else some (first, rest)
where
  /-- The expressions after the first comma. -/
  more : Nat → List Lexeme → Option ((List Expr) × List Lexeme)
    | 0, _ => none
    | n + 1, .mark "," :: rest =>
      match rest with
      | [] => some ([], [])
      | .newline :: _ => some ([], rest)
      | _ => do
        let (first, rest) ← expression n rest
        let (others, rest) ← more n rest
        some (first :: others, rest)
    | _ + 1, ls => some ([], ls)

/-- Indentation is the fault if it stands where an expression begins or after a whole one. -/
def faultAt : List Lexeme → Fault
  | .indent :: _ => .badIndentation
  | _ => .badSyntax

/-- The expression that a text writes, or why it writes none. -/
def parse (text : String) : Except Fault Expr :=
  if text.toList.contains (Char.ofNat 0) then .error .invalidValue
  else
    let ls := Lexeme.scan text.toList
    match expressions (40 * (ls.length + 2)) ls with
    | none => .error (faultAt ls)
    | some (e, rest) =>
      match rest.dropWhile fun l => match l with | .newline => true | _ => false with
      | [] => .ok e
      | rest => .error (faultAt rest)

/-- The expression that a text writes after the blanks at its head. -/
def parseTrimmed (text : String) : Except Fault Expr :=
  parse (String.ofList (text.toList.dropWhile fun c => c = ' ' || c = '\t'))

end ValueShell.Expr
