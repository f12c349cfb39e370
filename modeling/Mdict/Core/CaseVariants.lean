import Mdict.Core.Locator

/-!
This module contains the selection of keys that differ from a query only in case, inside a
normalized equal range. Both index backends supply the source keys.
-/

namespace Mdict

open Effect

/-- `str::is_ascii` -/
def Str.isAscii (s : Str) : Bool := s.all Mdict.isAscii

/-- `L(s)`: the string with every character in lower case. -/
def Str.toLowercase (p : Platform) (s : Str) : Str := s.flatMap p.toLowercase

def equalIgnoringCase (p : Platform) (left right : Str) : Bool :=
  if left.isAscii && right.isAscii then
    Str.eqIgnoreAsciiCase left right
  else
    left.toLowercase p == right.toLowercase p

namespace CaseVariants

/-- The accumulators of the first pass. -/
structure Counts where
  ordinals : List Nat
  exactCount : Nat
  variantCount : Nat
  deriving DecidableEq, Repr

/-- The first pass: count both groups and keep the exact rows inside the window. -/
def countRow (p : Platform) (query : Str) (offset limit : Nat) (counts : Counts)
    (candidate : Nat × Str)
    : Counts :=
  let (ordinal, key) := candidate
  if key = query then
    { counts with
      ordinals :=
        if counts.exactCount ≥ offset ∧ counts.ordinals.length < limit then
          counts.ordinals ++ [ordinal]
        else
          counts.ordinals
      exactCount := counts.exactCount + 1 }
  else if equalIgnoringCase p key query then
    { counts with variantCount := counts.variantCount + 1 }
  else
    counts

/--
The second pass over the positions left: append variants from position `variantOffset` among them
on until the page holds `wanted` rows.
-/
def fillVariants (p : Platform) (query : Str) (wanted variantOffset : Nat)
    (sourceKey : Nat → Exec (Nat × Str))
    : (positions : List Nat) → (variantPosition : Nat) → (ordinals : List Nat) → Exec (List Nat)
  | [], _, ordinals => return ordinals
  | position :: positions, variantPosition, ordinals => do
    let (ordinal, key) ← sourceKey position
    if key ≠ query ∧ equalIgnoringCase p key query then
      if variantPosition ≥ variantOffset then
        let ordinals := ordinals ++ [ordinal]
        if ordinals.length = wanted then
          return ordinals
        else
          fillVariants p query wanted variantOffset sourceKey positions (variantPosition + 1) ordinals
      else
        fillVariants p query wanted variantOffset sourceKey positions (variantPosition + 1) ordinals
    else
      fillVariants p query wanted variantOffset sourceKey positions variantPosition ordinals

def selectPage (file : MdictFile) (query : Str) (candidateCount offset limit : Nat)
    (sourceKey : Nat → Exec (Nat × Str))
    : Exec (Option LocatedKeyPage) := do
  let capacity := min limit (candidateCount - offset)
  let bytes ← okOr (checkedMul capacity 4) (.invalidFormat "case-variant page size overflow")
  ensureLimit "key_match_page_bytes" bytes file.limits.locatorBytes
  Exec.reserve bytes "case-variant match page"
  let p ← Exec.platform
  let counts ← (List.range candidateCount).foldlM (fun (counts : Counts) position => do
    let candidate ← sourceKey position
    return countRow p query offset limit counts candidate)
    { ordinals := [], exactCount := 0, variantCount := 0 }
  let total := counts.exactCount + counts.variantCount
  if total = 0 then
    return none
  else
    let wanted := min limit (total - offset)
    let ordinals ←
      if counts.ordinals.length < wanted then
        fillVariants p query wanted (offset - counts.exactCount) sourceKey
          (List.range candidateCount) 0 counts.ordinals
      else
        pure counts.ordinals
    return some {
      basis := if counts.variantCount = 0 then .rawExact else .caseVariants
      total
      ordinals
    }

end CaseVariants

namespace MdictFile

def locateCaseVariants (file : MdictFile) (query : Str) (offset limit : Nat)
    : Exec (Option LocatedKeyPage) := do
  let locator ← file.keyLocator
  let normalized ← file.normalizedQuery query "case-variant query"
  match locator.equalRange normalized with
  | none => return none
  | some (start, stop) =>
    CaseVariants.selectPage file query (stop - start) offset limit fun position => do
      let ordinal ← okOr locator.order[start + position]?
        (.invalidFormat "case-variant range escaped locator")
      let key ← file.keyAtOrdinal ordinal
      let key ← okOr key (.invalidFormat "case-variant row has no source key")
      return (ordinal, key.key)

end MdictFile

end Mdict
