import Mdict.Session

/-!
This module contains the dictionary file as a source of exact reads.
-/

namespace Mdict

/--
An open dictionary file.
-/
structure FileSource where
  bytes : Bytes

namespace FileSource

open Effect

def «open» (bytes : Bytes) : Except Error FileSource := do
  failIf (bytes.length = 0) (.invalidFormat "empty input file")
  return { bytes }

def len (source : FileSource) : Nat := source.bytes.length

def ensureRange (source : FileSource) (offset len : Nat) (context : String)
    : Except Error Unit := do
  let stop ← okOr (checkedAdd offset len) (.invalidFormat "source range overflow")
  failIf (stop > source.len) (.truncated context len (source.len - offset))

def readExactAt (source : FileSource) (offset len : Nat) (context : String) : Exec Bytes := do
  source.ensureRange offset len context
  Exec.log (.read offset len context)
  Exec.io
  return (source.bytes.drop offset).take len

/-- What the file system says about the file now. -/
def currentIdentity : Exec FileIdentity := do
  Exec.log .metadata
  Exec.io
  let w ← Prog.ask
  let s ← Prog.get
  return w.identity s.events

end FileSource

end Mdict
