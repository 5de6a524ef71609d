import ValueShell.Program.Shell

/-!
# Running programs by name
-/

set_option autoImplicit false

namespace ValueShell.Program

/-- How deeply scripts may run scripts. -/
def maxNesting : Nat := 20

/-- Runs the program with a name; nothing if there is none. The first argument bounds the scripts
inside of scripts. -/
def runAt : Nat → Context → String → List String → Option Result
  | 0, _, _, _ => none
  | depth + 1, c, name, args =>
    match name with
    | "echo" => some (echo args)
    | "cat" => some (cat c args)
    | "sort" => some (sort c args)
    | "tac" => some (tac c args)
    | "grep" => some (grep c args)
    | "seq" => some (seq args)
    | "true" => some {}
    | "false" => some { status := exitStatus 1 }
    | "sh" =>
      match args with
      | "-c" :: script :: _ => some (runScript c (runAt depth c) script)
      | ["-c"] => some (.ofError "sh: 0: -c requires an argument\n" 2)
      | _ => some (runScript c (runAt depth c) c.input)
    | _ => none

/-- Runs the program with a name; nothing if there is none. -/
def run (c : Context) (name : String) (args : List String) : Option Result :=
  runAt maxNesting c name args

/-- The program reads its input. -/
def readsInputAt : Nat → String → List String → Bool
  | 0, _, _ => false
  | depth + 1, name, args =>
    match name with
    | "cat" => operandsReadInput args
    | "sort" => operandsReadInput args
    | "tac" => operandsReadInput args
    | "grep" =>
      match args with
      | "-v" :: _ :: operands => operandsReadInput operands
      | _ :: operands => operandsReadInput operands
      | [] => false
    | "sh" =>
      match args with
      | "-c" :: script :: _ =>
        (scriptWords script).any fun words =>
          match words with
          | name :: args => readsInputAt depth name args
          | [] => false
      | ["-c"] => false
      | _ => true
    | _ => false

/-- The program reads its input. -/
def readsInput (name : String) (args : List String) : Bool := readsInputAt maxNesting name args

end ValueShell.Program
