/-! Text with styles, for a screen that understands ANSI colors and for plain writers. -/

namespace Blueprint

inductive Style where
  | plain
  | success
  | error
  | info
  | dim
deriving DecidableEq, Repr

namespace Style

def all : List Style := [.plain, .success, .error, .info, .dim]

def name : Style → String
  | .plain => "plain"
  | .success => "success"
  | .error => "error"
  | .info => "info"
  | .dim => "dim"

def ofName? (name : String) : Option Style := all.find? (·.name == name)

/-- The ANSI number of the color. -/
def color : Style → Option Nat
  | .plain => none
  | .success => some 2
  | .error => some 1
  | .info => some 6
  | .dim => some 7

def isBold (style : Style) : Bool := style == .success || style == .error

end Style

structure Piece where
  style : Style
  text : String
deriving DecidableEq, Repr

namespace Piece

def plain (text : String) : Piece := ⟨.plain, text⟩

def newline : Piece := ⟨.plain, "\n"⟩

def render (ansi : Bool) (p : Piece) : String :=
  match ansi, p.style.color with
  | true, some n =>
    "\x1b[0m" ++ (if p.style.isBold then "\x1b[1m" else "") ++ "\x1b[3" ++ toString n ++ "m" ++
      p.text ++ "\x1b[0m"
  | _, _ => p.text

def renderAll (ansi : Bool) (ps : List Piece) : String := String.join (ps.map (render ansi))

end Piece

/-- A number of things, such as "1 file" and "2 files". -/
def plural (count : Nat) (noun : String) : String :=
  toString count ++ " " ++ noun ++ if count = 1 then "" else "s"

inductive ColorChoice where
  | auto
  | always
  | never
deriving DecidableEq, Repr

namespace ColorChoice

def name : ColorChoice → String
  | .auto => "Auto"
  | .always => "Always"
  | .never => "Never"

/-- The choice by a flag and the value of `NO_COLOR`, which forbids colors by being set. -/
def resolve (flag noColor : Option String) : ColorChoice :=
  if noColor.isSome then .never
  else match flag with
    | some "always" => .always
    | some "never" => .never
    | _ => .auto

/-- Whether colors are used on a terminal of type `term`. -/
def usesColor (choice : ColorChoice) (term noColor : Option String) : Bool :=
  match choice with
  | .always => true
  | .never => false
  | .auto => noColor.isNone && term.any (· != "dumb")

end ColorChoice

end Blueprint
