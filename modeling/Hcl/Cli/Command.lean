/-!
# Commands

What the program is asked to do. Options may be written in several ways, and a value may stand in
the same argument as its option or in the next one.
-/

namespace Hcl.Cli

/-- Where documents come from. Without files it is the standard input. -/
structure Input where
  files : List String
  ignoreErrors : Bool
deriving DecidableEq, Repr

inductive Format where
  | json
  | yaml
deriving DecidableEq, Repr

/-- What a developer may list. -/
inductive Listing where
  | tokens
  | symbols
  | evals
deriving DecidableEq, Repr

inductive Command where
  | version
  | parse (input : Input) (format : Format)
  | blocks (input : Input)
  | dev (input : Input) (listing : Listing)
deriving DecidableEq, Repr

/-! ## Options -/

/-- An option, with its value if it has one. -/
inductive Setting where
  | file (path : String)
  | ignoreErrors
  | format (f : Format)
deriving DecidableEq, Repr

def Format.ofString? (s : String) : Option Format :=
  if s = "json" then some .json else if s = "yaml" then some .yaml else none

def fileSetting? (value : String) : Option Setting :=
  if value.isEmpty then none else some (.file value)

def formatSetting? (value : String) : Option Setting :=
  (Format.ofString? value).map .format

/-- Whether an argument may be the value of the option before it. -/
def isValue (arg : String) : Bool := arg = "-" ∨ !arg.startsWith "-"

/-- Reads an option whose value is the next argument. -/
def withNext (make : String → Option Setting) : List String → Option (Setting × List String)
  | value :: args => if isValue value then (make value).map (·, args) else none
  | [] => none

/-- Reads an option whose value is the rest of the same argument, behind `=` or at once. -/
def withAttached (make : String → Option Setting) (rest : List Char) (args : List String) :
    Option (Setting × List String) :=
  let value := if rest.head? = some '=' then rest.drop 1 else rest
  (make (String.ofList value)).map (·, args)

/-- What stands behind `name` in `arg`, if `arg` begins with it. -/
def behind? (name arg : List Char) : Option (List Char) :=
  if name.isPrefixOf arg then some (arg.drop name.length) else none

/-- Reads the option `arg` and its value. -/
def setting? (arg : String) (args : List String) : Option (Setting × List String) :=
  if arg = "--ignore-errors" then some (.ignoreErrors, args)
  else if arg = "--input-file" ∨ arg = "-f" then withNext fileSetting? args
  else if arg = "--output-format" ∨ arg = "-F" then withNext formatSetting? args
  else
    match behind? "--input-file=".toList arg.toList, behind? "--output-format=".toList arg.toList,
      arg.toList with
    | some value, _, _ => (fileSetting? (String.ofList value)).map (·, args)
    | _, some value, _ => (formatSetting? (String.ofList value)).map (·, args)
    | _, _, '-' :: 'f' :: rest => withAttached fileSetting? rest args
    | _, _, '-' :: 'F' :: rest => withAttached formatSetting? rest args
    | _, _, _ => none

/-- Reads options up to the first argument that is none. At most as many as there are arguments. -/
def settings? : (fuel : Nat) → List String → Option (List Setting × List String)
  | _, [] => some ([], [])
  | 0, _ :: _ => none
  | fuel + 1, arg :: args =>
    if arg = "-" ∨ arg = "--" ∨ !arg.startsWith "-" then some ([], arg :: args)
    else
      (setting? arg args).bind fun (setting, args) =>
        (settings? fuel args).map fun (settings, args) => (setting :: settings, args)

/-- The input that options choose. Errors are ignored or not, but not twice. -/
def inputOf? (settings : List Setting) : Option Input :=
  if settings.count .ignoreErrors ≤ 1 then
    let files := settings.filterMap fun
      | .file path => some path
      | _ => none
    some ⟨files, settings.contains .ignoreErrors⟩
  else none

/-- The formats that options choose. -/
def formatsOf (settings : List Setting) : List Format :=
  settings.filterMap fun
    | .format f => some f
    | _ => none

/-- Whether there are no arguments left, but for the mark that ends options. -/
def isEnd (args : List String) : Bool := args = [] ∨ args = ["--"]

/-! ## Arguments -/

def Listing.ofString? (s : String) : Option Listing :=
  if s = "tokens" then some .tokens
  else if s = "symbols" then some .symbols
  else if s = "evals" then some .evals
  else none

/-- Reads the arguments of `parse`. The format may be chosen once, and is YAML otherwise. -/
def parseCommand? (args : List String) : Option Command :=
  (settings? args.length args).bind fun (settings, rest) =>
    if isEnd rest then
      (inputOf? settings).bind fun input =>
        match formatsOf settings with
        | [] => some (.parse input .yaml)
        | [f] => some (.parse input f)
        | _ => none
    else none

/-- Reads the arguments of `blocks`, which has no format. -/
def blocksCommand? (args : List String) : Option Command :=
  (settings? args.length args).bind fun (settings, rest) =>
    if isEnd rest && (formatsOf settings).isEmpty then (inputOf? settings).map .blocks else none

/-- Reads the arguments of `dev`: options and then what to list. -/
def devCommand? (args : List String) : Option Command :=
  (settings? args.length args).bind fun (settings, rest) =>
    match rest with
    | [] => none
    | name :: rest =>
      if isEnd rest && (formatsOf settings).isEmpty then
        (Listing.ofString? name).bind fun listing => (inputOf? settings).map (.dev · listing)
      else none

/-- Reads the arguments of the program. There is none if they cannot be understood. -/
def Command.ofArgs? : List String → Option Command
  | [] => none
  | name :: args =>
    if name = "--version" ∨ name.startsWith "-V" then some .version
    else if name = "parse" then parseCommand? args
    else if name = "blocks" then blocksCommand? args
    else if name = "dev" then devCommand? args
    else none

end Hcl.Cli
