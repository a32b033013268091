import Blueprint.Command.Check
import Blueprint.Command.Modules
import Blueprint.Command.Show

/-! The command line of `bp`: how arguments are read, and what a run of the program leaves.

    bp [options] check [path ...]
    bp [options] modules [path ...]
    bp [options] tokens file
    bp [options] tree file
    bp [options] help [command]
    bp --version

Options stand before or after the command. One that stands after it counts before one that stands in
front of it, and none may be given twice in one of the two places. The first argument that asks for
help or that is not understood decides. -/

namespace Blueprint.CommandLine

/-- The options that every command takes. -/
structure Options where
  color : Option String := none
  format : Option Format := none
  maxDepth : Option Nat := none
deriving DecidableEq, Repr

inductive Flag where
  | color
  | format
  | maxDepth
deriving DecidableEq, Repr

inductive Command where
  | check
  | tokens
  | tree
  | modules
deriving DecidableEq, Repr

/-- A command with its options and the paths that it works on. -/
structure Invocation where
  command : Command
  options : Options
  paths : List String
deriving DecidableEq, Repr

/-- Why arguments give no command to run. -/
inductive Halt where
  | version
  | help
  /-- They are not understood. -/
  | usage
deriving DecidableEq, Repr

namespace Command

def ofName? : String → Option Command
  | "check" => some .check
  | "tokens" => some .tokens
  | "tree" => some .tree
  | "modules" => some .modules
  | _ => none

/-- Whether a command that has some paths takes one more. A file has a name, and only one is
shown. -/
def takes (command : Command) (paths : List String) (path : String) : Bool :=
  match command with
  | .check | .modules => true
  | .tokens | .tree => paths.isEmpty && !path.isEmpty

end Command

/-- A whole number below `2 ^ 64`, written in decimal digits with an optional `+`. -/
def number? (text : String) : Option Nat :=
  let digits := match text.toList with
    | '+' :: cs => cs
    | cs => cs
  if digits ≠ [] ∧ digits.all Char.isDigit then
    let n := Nat.ofDigitChars 10 digits 0
    if n < Limits.bound then some n else none
  else none

namespace Flag

def ofName? : String → Option Flag
  | "--color" => some .color
  | "--format" => some .format
  | "--max-depth" => some .maxDepth
  | _ => none

/-- Gives an option its value. A value that it cannot have is refused, and so is a second one. -/
def set (o : Flag) (value : String) (options : Options) : Option Options :=
  match o with
  | .color =>
    if options.color.isNone ∧ ["auto", "always", "never"].contains value then
      some { options with color := some value }
    else none
  | .format =>
    if options.format.isNone then
      (Format.ofName? value).map fun f => { options with format := some f }
    else none
  | .maxDepth =>
    if options.maxDepth.isNone then
      (number? value).map fun n => { options with maxDepth := some n }
    else none

end Flag

/-- An argument that could be an option. -/
def isDashed (arg : String) : Bool :=
  match arg.toList with
  | ['-'] => false
  | '-' :: _ => true
  | _ => false

/-- The name and the value of an argument with `=` in it. -/
def splitAtEquals (arg : String) : String × Option String :=
  let name := arg.toList.takeWhile (· != '=')
  match arg.toList.drop name.length with
  | [] => (arg, none)
  | _ :: value => (String.ofList name, some (String.ofList value))

/-- Reads an option at the front of the arguments, and gives what is left. -/
def option? (arg : String) (rest : List String) (options : Options) :
    Option (Options × List String) := do
  let (name, value?) := splitAtEquals arg
  let o ← Flag.ofName? name
  match value?, rest with
  | some value, rest => return (← o.set value options, rest)
  | none, [] => none
  | none, value :: rest => if isDashed value then none else return (← o.set value options, rest)

theorem option?_length {arg : String} {rest left : List String} {options new : Options}
    (h : option? arg rest options = some (new, left)) : left.length ≤ rest.length := by
  unfold option? at h
  generalize splitAtEquals arg = nv at h
  obtain ⟨name, value⟩ := nv
  simp only [Option.bind_eq_bind, Option.bind_eq_some_iff] at h
  obtain ⟨o, _, h⟩ := h
  cases value with
  | some v =>
    simp only [Option.bind_eq_some_iff, Option.pure_def, Option.some.injEq, Prod.mk.injEq] at h
    obtain ⟨_, _, _, rfl⟩ := h
    exact Nat.le_refl _
  | none =>
    cases rest with
    | nil => simp at h
    | cons v rest =>
      simp only at h
      split at h
      · simp at h
      · simp only [Option.bind_eq_some_iff, Option.pure_def, Option.some.injEq, Prod.mk.injEq] at h
        obtain ⟨_, _, _, rfl⟩ := h
        simp

/-- The argument asks for help. What follows a short option in the same argument is not read. -/
def asksHelp (arg : String) : Bool := arg == "--help" || arg.startsWith "-h"

def asksVersion (arg : String) : Bool := arg == "--version" || arg.startsWith "-V"

/-- Reads what stands after the command: options, and paths in their order. After `--` there are
only paths. -/
def operands (command : Command) (onlyPaths : Bool) (options : Options) (paths : List String) :
    List String → Except Halt (Options × List String)
  | [] => .ok (options, paths)
  | arg :: rest =>
    if !onlyPaths && arg == "--" then operands command true options paths rest
    else if !onlyPaths && asksHelp arg then .error .help
    else if !onlyPaths && isDashed arg then
      match _h : option? arg rest options with
      | none => .error .usage
      | some (new, left) => operands command onlyPaths new paths left
    else if command.takes paths arg then operands command onlyPaths options (paths ++ [arg]) rest
    else .error .usage
termination_by args => args.length
decreasing_by
  · exact Nat.lt_succ_self _
  · exact Nat.lt_succ_of_le (option?_length _h)
  · exact Nat.lt_succ_self _

/-- Options that count before `general` ones. -/
def Options.over (own general : Options) : Options :=
  ⟨own.color.or general.color, own.format.or general.format, own.maxDepth.or general.maxDepth⟩

/-- The invocation of a command with what stands after it. -/
def invocation (general : Options) (command : Command) (args : List String) :
    Except Halt Invocation := do
  let (own, paths) ← operands command false {} [] args
  let options := own.over general
  match command with
  | .check | .modules => return ⟨command, options, if paths.isEmpty then ["."] else paths⟩
  | .tokens | .tree => if paths.isEmpty then .error .usage else return ⟨command, options, paths⟩

/-- The outcome of `help` with what stands after it: help on the program, or on one of its
commands. -/
def helpOn : List String → Halt
  | [] => .help
  | [name] => if name = "help" ∨ (Command.ofName? name).isSome then .help else .usage
  | _ :: _ :: _ => .usage

/-- Reads the arguments from the front. -/
def parseWith (options : Options) : List String → Except Halt Invocation
  | [] => .error .usage
  | arg :: rest =>
    if asksVersion arg then .error .version
    else if asksHelp arg then .error .help
    else if arg = "help" then .error (helpOn rest)
    else if isDashed arg then
      match _h : option? arg rest options with
      | none => .error .usage
      | some (new, left) => parseWith new left
    else match Command.ofName? arg with
      | none => .error .usage
      | some command => invocation options command rest
termination_by args => args.length
decreasing_by exact Nat.lt_succ_of_le (option?_length _h)

def parse (args : List String) : Except Halt Invocation := parseWith {} args

/-- The surroundings of a run that matter to it. -/
structure Environment where
  /-- The type of the terminal. -/
  term : Option String
  /-- The value of `NO_COLOR`. -/
  noColor : Option String
deriving DecidableEq, Repr

/-- What a run of the program leaves. -/
structure Exit where
  code : Nat
  stdout : String
  stderr : String
deriving DecidableEq, Repr

def report (f : Failure) : String :=
  "Error: " ++ f.message ++ "\n" ++
    ((f.cause?.map fun cause => "\nCaused by:\n    " ++ cause ++ "\n").getD "")

/-- The end of the program after a command. `ok` tells whether an answer counts as success. -/
def Exit.ofResult {α : Type} (ansi : Bool) (ok : α → Bool) (r : CommandResult α) : Exit :=
  match r.answer with
  | .error f => ⟨1, Piece.renderAll ansi r.out, r.diagnostics ++ report f⟩
  | .ok a => ⟨if ok a then 0 else 1, Piece.renderAll ansi r.out, r.diagnostics⟩

/-- Runs a command on its arguments, which stand for the paths of the invocation. -/
def execute (env : Environment) (i : Invocation) (args : List Argument) : Exit :=
  let choice := ColorChoice.resolve i.options.color env.noColor
  let ansi := choice.usesColor env.term env.noColor
  let limits := Limits.standard.withMaxDepth (i.options.maxDepth.getD Limits.standard.maxDepth)
  let format := i.options.format.getD .pretty
  match i.command, args with
  | .check, args => .ofResult ansi Check.Summary.isClean (Check.run args limits format)
  | .modules, args => .ofResult ansi (fun _ => true) (Modules.run args limits format)
  | .tokens, a :: _ => .ofResult ansi (fun _ => true) (Show.tokens a format)
  | .tree, a :: _ => .ofResult ansi (fun _ => true) (Show.tree a limits format)
  | .tokens, [] => ⟨2, "", ""⟩
  | .tree, [] => ⟨2, "", ""⟩

def versionText : String := "bp 0.2.0\n"

def usageText : String :=
  "Usage: bp [--color auto|always|never] [--format pretty|json] [--max-depth N] " ++
    "check|tokens|tree|modules [path ...]\n"

/-- Runs the program. `locate` tells what stands at a path. -/
def run (env : Environment) (locate : String → Except ReadFailure Entry) (args : List String) :
    Exit :=
  match parse args with
  | .error .version => ⟨0, versionText, ""⟩
  | .error .help => ⟨0, usageText, ""⟩
  | .error .usage => ⟨2, "", usageText⟩
  | .ok i => execute env i (i.paths.map fun path => ⟨path, locate path⟩)

end Blueprint.CommandLine
