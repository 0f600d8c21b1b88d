import Hcl.Cli.Report

/-!
# The program

Reads the texts a command needs and prints what it leaves behind.
-/

namespace Hcl

/-- The number of an error, which may come with its sign turned in 32 bits. -/
def errorNumber (code : UInt32) : Nat := min code.toNat (0x100000000 - code.toNat)

/-- The fault of a file, if the error is about one. -/
def fileFault? : IO.Error → Option FileFault
  | .noFileOrDirectory _ code _ | .permissionDenied _ code _ | .inappropriateType _ code _
  | .invalidArgument _ code _ => FileFault.ofCode? (errorNumber code)
  | _ => none

/-- The reason why something cannot be read. -/
def reason (e : IO.Error) : String :=
  match fileFault? e with
  | some fault => fault.message
  | none => toString e

partial def readAll (stream : IO.FS.Stream) (bytes : ByteArray) : IO ByteArray := do
  let more ← stream.read 65536
  if more.isEmpty then return bytes else readAll stream (bytes ++ more)

def readText (read : IO ByteArray) : IO (Except String String) := do
  match ← read.toBaseIO with
  | .error e => return .error (reason e)
  | .ok bytes =>
    match String.fromUTF8? bytes with
    | some text => return .ok text
    | none => return .error "stream did not contain valid UTF-8"

def Cli.Command.files : Cli.Command → List String
  | .version => []
  | .parse input _ | .blocks input | .dev input _ => input.files

/-- Reads what `command` needs: its files, or the standard input if it names none. -/
def readSources (command : Cli.Command) : IO Cli.Sources := do
  let files ← command.files.mapM fun (path : String) => do
    return (path, ← readText (IO.FS.readBinFile path))
  let stdin ←
    if files.isEmpty && command != .version then
      readText do readAll (← IO.getStdin) .empty
    else pure (.ok "")
  return ⟨stdin, fun path => (files.lookup path).getD (.error "")⟩

end Hcl

def main (args : List String) : IO UInt32 := do
  let sources ←
    match Hcl.Cli.Command.ofArgs? args with
    | some command => Hcl.readSources command
    | none => pure ⟨.ok "", fun _ => .ok ""⟩
  let outcome := Hcl.Cli.run args sources
  IO.print outcome.stdout
  IO.eprint outcome.stderr
  return .ofNat outcome.code
