import Mdict.Types

/-!
This module contains the bounded reader that every wire grammar parses with.
-/

namespace Mdict

/--
A byte string together with the position of the next byte to read.
-/
structure Cursor where
  bytes : Bytes
  offset : Nat
  deriving DecidableEq, Repr

namespace Cursor

def new (bytes : Bytes) : Cursor := { bytes, offset := 0 }

def remaining (cursor : Cursor) : Nat := cursor.bytes.length - cursor.offset

def isEmpty (cursor : Cursor) : Bool := cursor.remaining == 0

def readBytes (cursor : Cursor) (len : Nat) (context : String)
    : Except Error (Bytes × Cursor) := do
  let stop ← okOr (checkedAdd cursor.offset len) (.invalidFormat "cursor offset overflow")
  let bytes ← okOr (cursor.bytes.get? cursor.offset stop)
    (.truncated context len cursor.remaining)
  return (bytes, { cursor with offset := stop })

def readU8 (cursor : Cursor) (context : String) : Except Error (Nat × Cursor) := do
  let (bytes, cursor) ← cursor.readBytes 1 context
  return (Bytes.toBE bytes, cursor)

def readU16Be (cursor : Cursor) (context : String) : Except Error (Nat × Cursor) := do
  let (bytes, cursor) ← cursor.readBytes 2 context
  return (Bytes.toBE bytes, cursor)

def readU32Be (cursor : Cursor) (context : String) : Except Error (Nat × Cursor) := do
  let (bytes, cursor) ← cursor.readBytes 4 context
  return (Bytes.toBE bytes, cursor)

def readU32Le (cursor : Cursor) (context : String) : Except Error (Nat × Cursor) := do
  let (bytes, cursor) ← cursor.readBytes 4 context
  return (Bytes.toLE bytes, cursor)

def readU64Be (cursor : Cursor) (context : String) : Except Error (Nat × Cursor) := do
  let (bytes, cursor) ← cursor.readBytes 8 context
  return (Bytes.toBE bytes, cursor)

end Cursor

end Mdict
