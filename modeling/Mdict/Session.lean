import Mdict.Types

/-!
This module contains the ground on which the library runs: the code it calls but does not contain,
the outside world that may refuse memory or fail a read, and the state that one open dictionary
keeps between calls.
-/

namespace Mdict

/-! ## External code -/

/-- The legacy encodings whose decoders come from `encoding_rs`. -/
inductive LegacyEncoding where
  | gbk
  | gb18030
  | big5
  deriving DecidableEq, Repr

/-- What `encoding_rs` answers on a complete input: the text and the number of bytes consumed. -/
inductive DecoderResult where
  | inputEmpty (text : Str) (read : Nat)
  | malformed
  | outputFull
  deriving DecidableEq, Repr

/-- The status of an inflation by `miniz_oxide`. -/
inductive TinflStatus where
  | failedCannotMakeProgress
  | badParam
  | adler32Mismatch
  | failed
  | done
  | needsMoreInput
  | hasMoreOutput
  deriving DecidableEq, Repr

def TinflStatus.name : TinflStatus → String
  | failedCannotMakeProgress => "FailedCannotMakeProgress"
  | badParam => "BadParam"
  | adler32Mismatch => "Adler32Mismatch"
  | failed => "Failed"
  | done => "Done"
  | needsMoreInput => "NeedsMoreInput"
  | hasMoreOutput => "HasMoreOutput"

/-- An inflation: its status, the input consumed, the output produced and the output buffer. -/
structure Inflated where
  status : TinflStatus
  inputRead : Nat
  actual : Nat
  output : Bytes
  deriving DecidableEq, Repr

/--
The third-party code and the Unicode tables the library relies on.
-/
structure Platform where
  /-- `char::to_lowercase` -/
  toLowercase : Char → List Char
  /-- `miniz_oxide` on a payload and an output buffer of the given length; the flag tells it to
  ignore the checksum. -/
  inflate : Bytes → Nat → Bool → Inflated
  /-- `lzokay` on a payload and an output buffer of the given length, when the feature is on:
  the number of bytes produced and the buffer. -/
  lzo : Option (Bytes → Nat → Option (Nat × Bytes))
  /-- `decode_to_string_without_replacement` -/
  decodeLegacy : LegacyEncoding → Bytes → DecoderResult
  /-- `max_utf8_buffer_length_without_replacement` -/
  maxLegacyLen : LegacyEncoding → Nat → Option Nat
  /-- The capacity that `Vec::try_reserve` grows a vector to: from the size of an element, the
  capacity so far and the length to make room for. -/
  growCapacity : Nat → Nat → Nat → Nat

/-! ## The outside world -/

/-- What a run leaves behind, most recent first. -/
inductive Event where
  /-- memory charged to the budget -/
  | reserve (bytes : Nat) (context : String)
  /-- a read of the dictionary -/
  | read (offset len : Nat) (context : String)
  /-- an output buffer for a decoded block -/
  | decode (len : Nat) (context : String)
  /-- a read of the key index -/
  | indexRead (offset len : Nat)
  /-- an operation on the scratch files of a build -/
  | scratch (len : Nat)
  /-- bytes written to a caller's destination -/
  | write (len : Nat)
  /-- a look at the length and modification time of the dictionary -/
  | metadata
  /-- a cancellation checkpoint -/
  | checkpoint (operation : String)
  deriving DecidableEq, Repr

/-- The length of a file, which is a `u64`, and the time of its last modification. -/
structure FileIdentity where
  len : Nat
  modifiedUnixNanos : BitVec 128
  len_lt : len < u64Bound
  deriving DecidableEq, Repr

/--
The world decides, knowing everything that happened before, whether the memory budget has room,
whether a read succeeds, how much of a write a file takes at once, what the file system says about
the dictionary and whether the caller has cancelled.
-/
structure World where
  platform : Platform
  /-- The claim on the memory budget that fails, with the total asked for and the maximum. -/
  refusal : List Event → Option (Nat × Nat)
  ioFault : List Event → Bool
  /-- The most bytes that a file takes of the write that was just recorded. -/
  accepted : List Event → Nat
  identity : List Event → FileIdentity
  cancelled : List Event → Bool

/-- No claim on the memory budget and no I/O operation fails, and files take something of every write. -/
structure World.Quiet (w : World) : Prop where
  refusal : ∀ events, w.refusal events = none
  ioFault : ∀ events, w.ioFault events = false
  accepted : ∀ events, 0 < w.accepted events

/-! ## Caches -/

/--
The errors that a cache may keep: they do not depend on the circumstances of a call.
-/
inductive CachedFailureKind where
  | invalidFormat (context : String)
  | invalidData (context : String)
  | truncated (context : String) (needed remaining : Nat)
  | limitExceeded (limit : String) (value max : Nat)
  | checksumMismatch (context : String) (expected actual : Nat)
  | decode (context encoding : String)
  | missingPasscode
  | invalidPasscode (context : String)
  | unsupported (feature : String)
  deriving DecidableEq, Repr

inductive CachedValue (α : Type) where
  | ready (value : α)
  | failed (failure : CachedFailureKind)
  deriving DecidableEq, Repr

/--
One decoded key row: a physical key and the record offset it starts at.
-/
structure DecodedKeyRow where
  key : Str
  recordStart : Nat
  deriving DecidableEq, Repr

/--
Normalized key arena and physical-ordinal indexes for global lookup. `bounds[row]` up to
`bounds[row + 1]` is that row's slice of `text`, `order` lists the rows by normalized text and
then by ordinal, and `rawDigest` has one digest of each row's raw text.
-/
structure KeyLocator where
  text : Bytes
  bounds : List Nat
  order : List Nat
  rawDigest : List Nat
  deriving DecidableEq, Repr

/-- The sections of a key index file. -/
inductive SectionKind where
  | text
  | bounds
  | raw
  | order
  deriving DecidableEq, Repr

/--
A slot of the chunk cache of a key index.
-/
structure VerifiedChunk where
  number : Option Nat
  bytes : Bytes
  deriving DecidableEq, Repr

def VerifiedChunk.new : VerifiedChunk := ⟨none, []⟩

/--
Everything that calls on one open dictionary, and on a key index opened with it, change.
-/
structure Session where
  events : List Event
  keyBlockCache : Option (Nat × CachedValue (List DecodedKeyRow))
  recordBlockCache : Option (Nat × CachedValue Bytes)
  locator : Option (CachedValue KeyLocator)
  chunkCache : SectionKind → VerifiedChunk
  checksumCache : VerifiedChunk

/-- The state of a freshly opened dictionary. -/
def Session.fresh : Session where
  events := []
  keyBlockCache := none
  recordBlockCache := none
  locator := none
  chunkCache := fun _ => .new
  checksumCache := .new

/-- The session with `event` on record. -/
def Session.log (s : Session) (event : Event) : Session := { s with events := event :: s.events }

/--
The programs of this library.
-/
abbrev Exec := Effect.Prog World Session Error

namespace Exec

open Effect

/-- Put an event on record. -/
def log (event : Event) : Exec Unit := Prog.modify (·.log event)

/-- Charge memory to the budget. -/
def reserve (bytes : Nat) (context : String) : Exec Unit := do
  log (.reserve bytes context)
  let w ← Prog.ask
  let s ← Prog.get
  match w.refusal s.events with
  | some (value, max) => Prog.fail (.limitExceeded "working_memory_bytes" value max)
  | none => pure ()

/-- Fail when the outside world fails the I/O operation that was just recorded. -/
def io : Exec Unit := do
  let w ← Prog.ask
  let s ← Prog.get
  if w.ioFault s.events then Prog.fail .io else pure ()

/-- How much a file takes of the write of `len` bytes that was just recorded. -/
def accepted (len : Nat) : Exec Nat := do
  let w ← Prog.ask
  let s ← Prog.get
  return min (w.accepted s.events) len

/-- The third-party code. -/
def platform : Exec Platform := do
  let w ← Prog.ask
  return w.platform

end Exec

/-! ## Failures -/

/-- Errors that come from the circumstances of a call: they may go away when it is repeated. -/
def Error.isTransient : Error → Bool
  | .io => true
  | .allocationFailed .. => true
  | .keyIndexRejected _ => true
  | .cancelled _ => true
  | .sourceChanged _ => true
  | .limitExceeded limit .. => limit == "working_memory_bytes"
  | _ => false

namespace CachedFailureKind

open Effect

/-- The failure to keep for `error`, if it is one that every repetition would meet. -/
def capture (error : Error) : Exec (Option CachedFailureKind) :=
  match error with
  | .io => return none
  | .allocationFailed .. => return none
  | .keyIndexRejected _ => return none
  | .cancelled _ => return none
  | .sourceChanged _ => return none
  | .panic _ => return none
  | .limitExceeded limit value max =>
    if limit == "working_memory_bytes" then
      return none
    else
      return some (.limitExceeded limit value max)
  | .invalidFormat context => return some (.invalidFormat context)
  | .invalidData context => do
    let reserved ← Prog.attempt (Exec.reserve context.utf8ByteSize "cached deterministic failure")
    match reserved with
    | .ok () => return some (.invalidData context)
    | .error _ => return none
  | .truncated context needed remaining => return some (.truncated context needed remaining)
  | .checksumMismatch context expected actual =>
    return some (.checksumMismatch context expected actual)
  | .decode context encoding => return some (.decode context encoding)
  | .missingPasscode => return some .missingPasscode
  | .invalidPasscode context => return some (.invalidPasscode context)
  | .unsupported feature => return some (.unsupported feature)

/-- The error that a kept failure stands for. -/
def replay : CachedFailureKind → Error
  | invalidFormat context => .invalidFormat context
  | invalidData context => .invalidData context
  | truncated context needed remaining => .truncated context needed remaining
  | limitExceeded limit value max => .limitExceeded limit value max
  | checksumMismatch context expected actual => .checksumMismatch context expected actual
  | decode context encoding => .decode context encoding
  | missingPasscode => .missingPasscode
  | invalidPasscode context => .invalidPasscode context
  | unsupported feature => .unsupported feature

end CachedFailureKind

end Mdict
