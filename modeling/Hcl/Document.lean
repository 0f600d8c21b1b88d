import Hcl.Builder.Run
import Hcl.Reduction

/-!
# Documents

From a source text to the object it stands for.
-/

namespace Hcl

/-- What becomes of a source with a lexical or syntactic error. -/
inductive Recovery where
  /-- the error is the answer -/
  | strict
  /-- what was read up to the error is kept, and the error is dropped -/
  | bestEffort
deriving DecidableEq, Repr

/-- The tree, if `recovery` lets it pass. -/
def Parsed.recover (recovery : Recovery) (p : Parsed) : Except Error SymbolTree :=
  match p.error, recovery with
  | some e, .strict => .error e
  | _, _ => .ok p.tree

/-- Reads the symbols of `source`. -/
def parseSymbols (recovery : Recovery) (source : String) : Except Error SymbolTree :=
  (parseTree source).recover recovery

/-- Reads and reduces `source`. Errors of the reduction are not recovered from. -/
def parseDocument (recovery : Recovery) (source : String) : Except Error Object :=
  (parseSymbols recovery source).bind SymbolTree.reduce

/-- Reads and reduces a source that is given as bytes. -/
def loadDocument (recovery : Recovery) (bytes : ByteArray) : Except Error Object :=
  match String.fromUTF8? bytes with
  | some source => parseDocument recovery source
  | none => .error (.io "stream did not contain valid UTF-8")

end Hcl
