import ValueShell.Command.Token

/-!
# Aliases and the space between words

The tokens that a command line is parsed from. A literal that stands alone as a word may be the name
of an alias, and the tokens of the alias's text then stand in its place. An alias that is not global
applies only to the first token. Inside of an alias's text its own name, and the names of the aliases
around it, stand for themselves, so expansion ends.

Last, a space is kept only between two tokens that it can separate.
-/

set_option autoImplicit false

namespace ValueShell

/-- An alias. -/
structure Alias where
  name : String
  text : String
  /-- The alias also applies after the first token. -/
  everywhere : Bool

/-- The alias of a name. -/
def Alias.find? (aliases : List Alias) (name : String) : Option Alias :=
  aliases.find? fun a => a.name == name

namespace Token

/-- Replaces aliases. A literal is replaced if no part of a word stands before or after it; `expand`
gives what stands in its place, and whether only global aliases count. A name whose replacement is
empty vanishes. -/
def expandWith (expand : Bool → String → Except Fault (List Token)) (fault : Option Fault) :
    Option Token → Bool → List Token → Reading
  | _, _, [] => { tokens := [], fault }
  | before, globalOnly, t :: rest =>
    if t.kind ≠ .literal || (before.map fun b => b.kind.isWordPart).getD false then
      (expandWith expand fault (some t) true rest).cons t
    else
      match rest with
      | [] => { tokens := [], fault }
      | n :: rest =>
        if n.kind.isWordPart then
          ((expandWith expand fault (some n) true rest).cons n).cons t
        else
          match expand globalOnly t.text with
          | .error fault => { tokens := [], fault }
          | .ok replacement =>
            let others := (expandWith expand fault (some n) true rest).cons n
            { others with tokens := replacement ++ others.tokens }

/-- Settles which spaces are kept, when `current` was read and the given tokens come next. A space
before or after a token that is not sensitive to it is dropped. A token is settled once the one after
it is known; `fresh` tells that it was not put in the place of a dropped space. -/
def settle (fault : Option Fault) : Token → Bool → List Token → Reading
  | current, fresh, [] =>
    if fresh && current.kind = .ending then { tokens := [current], fault := some .exhausted }
    else { tokens := [], fault := fault.or (some .exhausted) }
  | current, fresh, next :: rest =>
    if fresh && current.kind = .ending then { tokens := [current], fault := some .exhausted }
    else if next.kind = .space && !current.kind.isSpaceSensitive then settle fault current false rest
    else if current.kind = .space && !next.kind.isSpaceSensitive then settle fault next false rest
    else (settle fault next true rest).cons current

/-- Settles the spaces of all tokens. -/
def settleAll (r : Reading) : Reading :=
  match r.tokens with
  | [] => { tokens := [], fault := r.fault.or (some .exhausted) }
  | first :: rest => settle r.fault first true rest

/-- The tokens of a text whose aliases are replaced by `expand`. -/
def tokensWith (expand : Bool → String → Except Fault (List Token)) (globalOnly : Bool)
    (text : String) : Reading :=
  let r := raw text
  settleAll (expandWith expand r.fault none globalOnly r.tokens)

/-- What stands in the place of a literal. `active` names the aliases whose texts are being expanded;
their number cannot exceed the number of aliases, which bounds the nesting. -/
def expandAlias (aliases : List Alias) : Nat → List String → Bool → String → Except Fault (List Token)
  | 0, _, _, text => .ok [⟨.literal, text⟩]
  | depth + 1, active, globalOnly, text =>
    match Alias.find? aliases text with
    | none => .ok [⟨.literal, text⟩]
    | some a =>
      if active.contains text || (globalOnly && !a.everywhere) then .ok [⟨.literal, text⟩]
      else
        let r := tokensWith (expandAlias aliases depth (text :: active)) globalOnly a.text
        match r.fault with
        | none => .ok r.tokens.dropLast
        | some .exhausted => .ok r.tokens.dropLast
        | some fault => .error fault

/-- The tokens of a command line. The reading ends in the fault `exhausted` if nothing else is
wrong. -/
def tokens (aliases : List Alias) (globalOnly : Bool) (text : String) : Reading :=
  tokensWith (expandAlias aliases (aliases.length + 1) []) globalOnly text

end Token

end ValueShell
