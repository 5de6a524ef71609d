import ValueShell.Expr.Eval
import ValueShell.Fragment

/-!
# Select lists

A select list names the columns of a new table: expressions divided by commas, each of which may be
followed by `as` and a name or a string.
-/

set_option autoImplicit false

namespace ValueShell

/-- An entry of a select list. -/
structure SelectEntry where
  expression : String
  name : Option Value := none

namespace SelectEntry

/-- The name of the column: the name that is given, or the expression if there is none or it is empty. -/
def column (e : SelectEntry) : String :=
  match e.name with
  | some v => if v.truthy then v.display else e.expression
  | none => e.expression

/-- Cuts fragments at the commas outside of brackets, and at the end. Line ends are left out. `current`
holds the fragments since the last cut, last first. -/
def separate : Int → List Fragment → List Fragment → List (List Fragment)
  | _, _, [] => []
  | level, current, f :: rest =>
    if f.kind = .newline || f.kind = .lineEnd then separate level current rest
    else if isOpening f.text then separate (level + 1) (f :: current) rest
    else if isClosing f.text then separate (level - 1) (f :: current) rest
    else if (level = 0 && f.text = [',']) || f.kind = .ending then
      current.reverse :: separate level [] rest
    else separate level (f :: current) rest
where
  isOpening (text : List Char) : Bool := text == ['('] || text == ['['] || text == [Char.ofNat 0x7B]
  isClosing (text : List Char) : Bool := text == [')'] || text == [']'] || text == [Char.ofNat 0x7D]

/-- The text of fragments; one space stands where a fragment does not begin where the one before it
ends. -/
def textFrom (stop : Option (Nat × Nat)) : List Fragment → List Char
  | [] => []
  | f :: rest =>
    let gap := match stop with
      | some p => if p ≠ f.start then [' '] else []
      | none => []
    gap ++ f.text ++ textFrom (some f.stop) rest

/-- The text of the fragments of an entry. -/
def textOf (fs : List Fragment) : String := String.ofList (textFrom none fs)

/-- The entry that fragments write. -/
def ofFragments (fs : List Fragment) : Except Fault SelectEntry :=
  match fs.reverse with
  | [] => .error .outOfRange
  | last :: before =>
    match before with
    | mark :: others =>
      if mark.kind = .name && mark.text = ['a', 's'] then
        let expression := textOf others.reverse
        if last.kind = .string then do
          let v ← Expr.evalText {} (String.ofList last.text)
          .ok { expression, name := some v }
        else if last.kind = .name then
          .ok { expression, name := some (.text (String.ofList last.text)) }
        else .ok { expression := textOf fs }
      else .ok { expression := textOf fs }
    | [] => .ok { expression := textOf fs }

/-- The entries of a select list. -/
def parse (text : String) : Except Fault (List SelectEntry) :=
  let s := Fragment.scan text.toList
  match s.fault with
  | some fault => .error fault
  | none => (separate 0 [] s.fragments).mapM ofFragments

end SelectEntry

end ValueShell
