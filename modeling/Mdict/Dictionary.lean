import Mdict.Lemmas.CaseVariants
import Mdict.Lib.Client
import Mdict.Mdd
import Mdict.Mdx

/-!
This module contains what an open dictionary is to its callers: entries in an order, a rule that
compares keys, and iterators that stand somewhere among the entries. It knows nothing of blocks,
caches and indexes.
-/

namespace Mdict

open Effect

/--
A dictionary without its file: what compares its keys, the encoding of records that are text, the
limits of its reader, and the entries in the order of their ordinals.
-/
structure Dictionary where
  normalizer : KeyNormalizer
  recordEncoding : Option TextEncoding
  limits : Limits
  entries : List (Str × Bytes)

namespace Dictionary

variable (d : Dictionary) (p : Platform)

def keys : List Str := d.entries.map (·.1)

def keyAt (ordinal : Nat) : Option KeyEntry := d.keys[ordinal]?.map (KeyEntry.mk ordinal)

/-! ## Searches -/

/-- What is compared of a key. -/
def text (key : Str) : Bytes := Unicode.utf8 (d.normalizer.normalizeText p key)

/-- The text at an ordinal. -/
def textAt (ordinal : Nat) : Bytes := (d.keys[ordinal]?.map (d.text p)).getD []

/-- The keys that are the query. -/
def exact (query : Str) : List Nat := ordinalsWhere d.keys (· == query)

/-- The keys with the same text as the query. -/
def normalized (query : Str) : List Nat :=
  ordinalsWhere d.keys fun key => d.text p key = d.text p query

/-- The keys with that text that differ from the query only in case. -/
def variants (query : Str) : List Nat :=
  ordinalsWhere d.keys fun key =>
    d.text p key = d.text p query && (key != query && equalIgnoringCase p key query)

def find (query : Str) : Option (LocatorBasis × List Nat) :=
  if d.exact query ≠ [] then
    some (.rawExact, d.exact query)
  else if d.normalized p query ≠ [] then
    some (.headerNormalized, d.normalized p query)
  else
    none

def findWithMode (query : Str) (mode : MatchMode) : Option (LocatorBasis × List Nat) :=
  if mode = .includeCaseVariants ∧ d.normalizer.caseSensitive = false
      ∧ d.exact query ++ d.variants p query ≠ [] then
    some (if d.variants p query = [] then .rawExact else .caseVariants,
      d.exact query ++ d.variants p query)
  else
    d.find p query

/-- The keys whose text starts with that of the prefix, by text and then by ordinal. -/
def startingWith (keyPrefix : Str) : List Nat :=
  let byText := (List.range d.keys.length).mergeSort fun a b =>
    decide (d.textAt p a < d.textAt p b ∨ d.textAt p a = d.textAt p b ∧ a ≤ b)
  byText.filter fun ordinal => (d.text p keyPrefix).isPrefixOf (d.textAt p ordinal)

/-! ## Records -/

/-- The text of a record, within the limit on what is held of one. -/
def readText (record : Bytes) : Except Error Str := do
  let encoding ← okOr d.recordEncoding (.invalidFormat "container records are not text")
  ensureLimit "materialized_record_bytes" record.length d.limits.materializedRecordBytes
  let decodedLen ← encoding.maxDecodedLen p record.length
  ensureLimit "materialized_record_bytes" decodedLen d.limits.materializedRecordBytes
  let _ ← okOr (checkedAdd record.length decodedLen)
    (.invalidFormat "decoded record working size overflow")
  decodeRecordText p encoding record

/-- What `read` makes of the entry at an ordinal. -/
def readAt {α : Type} (read : KeyEntry → Bytes → Except Error α) (ordinal : Nat)
    : Except Error (Option α) :=
  match d.entries[ordinal]? with
  | none => .ok none
  | some (key, record) => do
    let a ← read { ordinal, key } record
    return some a

def readEntry (key : KeyEntry) (record : Bytes) : Except Error MdxEntry := do
  let text ← d.readText p record
  return { key, text }

def readResource (key : KeyEntry) (record : Bytes) : Except Error MddResource := do
  ensureLimit "materialized_record_bytes" record.length d.limits.materializedRecordBytes
  return { key, bytes := record }

def entryAt (ordinal : Nat) : Except Error (Option MdxEntry) := d.readAt (d.readEntry p) ordinal

def resourceAt (ordinal : Nat) : Except Error (Option MddResource) :=
  d.readAt d.readResource ordinal

/-- The first of what is found for the query. -/
def lookup {α : Type} (read : Nat → Except Error (Option α)) (query : Str)
    : Except Error (Option α) :=
  match (d.find p query).bind (·.2.head?) with
  | none => .ok none
  | some ordinal => read ordinal

/-- Append the resource at an ordinal to a destination; also the number of bytes written. -/
def copyResourceAt (ordinal : Nat) (destination : Bytes) : Option (Nat × Bytes) :=
  d.entries[ordinal]?.map fun entry => (entry.2.length, destination ++ entry.2)

/-! ## Limits -/

/-- An index over the texts of the keys is within the limits. -/
structure LocatorFits : Prop where
  entries : d.keys.length ≤ min d.limits.locatorEntries u32Max
  bytes : (d.keys.length + 1 + d.keys.length * 2) * 4 + (d.keys.flatMap (d.text p)).length
    ≤ d.limits.locatorBytes
  text : (d.keys.flatMap (d.text p)).length < u32Bound

/-- Such an index can be asked for the query. -/
structure Searchable (query : Str) : Prop where
  locator : d.LocatorFits p
  query : (d.text p query).length ≤ min d.limits.locatorBytes u64Max

end Dictionary

/-! ## Callers -/

/-- What a caller may ask of an open dictionary. Its iterators are numbered. -/
inductive Question : Type → Type 1 where
  | len : Question Nat
  | keyAt (ordinal : Nat) : Question (Option KeyEntry)
  | keysAt (ordinals : List Nat) : Question (List (Option KeyEntry))
  | entryAt (ordinal : Nat) : Question (Option MdxEntry)
  | resourceAt (ordinal : Nat) : Question (Option MddResource)
  | copyResourceAt (ordinal : Nat) (destination : Bytes) : Question (Option (Nat × Bytes))
  | locate (query : Str) (mode : MatchMode) : Question (Option (LocatorBasis × List Nat))
  | locatePage (query : Str) (offset limit : Nat) (mode : MatchMode)
    : Question (Option (LocatorBasis × Nat × List Nat))
  | prefixKeys (keyPrefix : Str) (limit : Nat) : Question (List KeyEntry)
  | scanNormalizedKeys {β : Type} (visit : β → Nat → Bytes → β × Bool) (acc : β) : Question β
  | lookupEntry (query : Str) : Question (Option MdxEntry)
  | lookupResource (query : Str) : Question (Option MddResource)
  | keys : Question Nat
  | nextKey (iterator : Nat) : Question (Option (Except Error KeyEntry))
  | entries : Question Nat
  | nextEntry (iterator : Nat) : Question (Option (Except Error MdxEntry))
  | resources : Question Nat
  | nextResource (iterator : Nat) : Question (Option (Except Error MddResource))

namespace Question

/-- The searches that a question makes are for these queries. -/
def Within (d : Dictionary) (p : Platform) {α : Type} : (question : Question α) → Prop
  | locate query _ | locatePage query _ _ _ | lookupEntry query | lookupResource query =>
    d.Searchable p query
  | prefixKeys keyPrefix limit => limit ≠ 0 → d.Searchable p keyPrefix
  | scanNormalizedKeys _ _ => d.LocatorFits p
  | _ => True

end Question

/-- Where the iterators stand that a caller holds: at an ordinal, or at the end. -/
structure Places where
  keys : List (Option Nat)
  entries : List (Option Nat)
  resources : List (Option Nat)

def Places.none : Places where
  keys := []
  entries := []
  resources := []

/-- The next step of an iterator over what `read` finds at the ordinals. -/
def stepPlace {α : Type} (read : Nat → Except Error (Option α)) (place : Option Nat)
    : Option (Except Error α) × Option Nat :=
  match place with
  | none => (none, none)
  | some ordinal =>
    match read ordinal with
    | .ok (some a) => (some (.ok a), some (ordinal + 1))
    | .ok none => (none, none)
    | .error e => (some (.error e), none)

/-- The next step of one of many. -/
def stepPlaceAt {α : Type} (read : Nat → Except Error (Option α)) (places : List (Option Nat))
    (iterator : Nat)
    : Option (Except Error α) × List (Option Nat) :=
  match places[iterator]? with
  | none => (none, places)
  | some place => ((stepPlace read place).1, places.set iterator (stepPlace read place).2)

/-- What a dictionary answers. -/
def Dictionary.answer (d : Dictionary) (p : Platform) : Model Question Places Error :=
  fun _ question places =>
    match question with
    | .len => (.ok d.entries.length, places)
    | .keyAt ordinal => (.ok (d.keyAt ordinal), places)
    | .keysAt ordinals => (.ok (ordinals.map d.keyAt), places)
    | .entryAt ordinal => (d.entryAt p ordinal, places)
    | .resourceAt ordinal => (d.resourceAt ordinal, places)
    | .copyResourceAt ordinal destination => (.ok (d.copyResourceAt ordinal destination), places)
    | .locate query mode => (.ok (d.findWithMode p query mode), places)
    | .locatePage query offset limit mode =>
      (.ok ((d.findWithMode p query mode).map (LocatedKeyPage.of offset limit)), places)
    | .prefixKeys keyPrefix limit =>
      (.ok (((d.startingWith p keyPrefix).take limit).filterMap d.keyAt), places)
    | .scanNormalizedKeys visit acc =>
      (.ok (MdictFile.visitTexts visit 0 (d.keys.map (d.text p)) acc), places)
    | .lookupEntry query => (d.lookup p (d.entryAt p) query, places)
    | .lookupResource query => (d.lookup p d.resourceAt query, places)
    | .keys => (.ok places.keys.length, { places with keys := places.keys ++ [some 0] })
    | .nextKey iterator =>
      let (item, keys) := stepPlaceAt (fun ordinal => .ok (d.keyAt ordinal)) places.keys iterator
      (.ok item, { places with keys })
    | .entries =>
      (.ok places.entries.length, { places with entries := places.entries ++ [some 0] })
    | .nextEntry iterator =>
      let (item, entries) := stepPlaceAt (d.entryAt p) places.entries iterator
      (.ok item, { places with entries })
    | .resources =>
      (.ok places.resources.length, { places with resources := places.resources ++ [some 0] })
    | .nextResource iterator =>
      let (item, resources) := stepPlaceAt d.resourceAt places.resources iterator
      (.ok item, { places with resources })

/-! ## The open file in their place -/

/-- An open dictionary and the iterators that its caller holds. -/
structure Desk where
  session : Session
  keys : List RowIter
  entries : List MdxEntryIter
  resources : List MddResourceIter

/-- Nothing has been iterated yet. -/
def Desk.new (session : Session) : Desk where
  session
  keys := []
  entries := []
  resources := []

/-- A call that no iterator takes part in. -/
def Desk.call {α : Type} (x : Exec α) : Prog World Desk Error α := fun w desk =>
  ((x w desk.session).1, { desk with session := (x w desk.session).2 })

/-- The next step of one of many iterators. -/
def stepAt {ι α : Type} (next : ι → Exec (Option (Except Error α) × ι)) (iters : List ι)
    (iterator : Nat)
    : Exec (Option (Except Error α) × List ι) :=
  match iters[iterator]? with
  | none => return (none, iters)
  | some iter => do
    let (item, iter) ← next iter
    return (item, iters.set iterator iter)

/-- The next step of one of the iterators that a caller holds of one kind. -/
def Desk.step {ι α : Type} (held : Desk → List ι) (hold : Desk → List ι → Desk)
    (next : ι → Exec (Option (Except Error α) × ι)) (iterator : Nat)
    : Prog World Desk Error (Option (Except Error α)) := do
  let desk ← Prog.get
  let (item, iters) ← Desk.call (stepAt next (held desk) iterator)
  Prog.modify (hold · iters)
  return item

/-- Copying a resource is asking for its span and then copying this. -/
def MddFile.copyResourceAt (file : MddFile) (ordinal : Nat) (destination : Bytes)
    : Exec (Option (Nat × Bytes)) := do
  let span ← file.spanAt ordinal
  match span with
  | none => return none
  | some span =>
    let copied ← span.copyTo destination
    return some copied

/-- What an open file answers. -/
def MdictFile.answer (file : MdictFile) : System Question World Desk Error :=
  fun _ question =>
    match question with
    | .len => return file.len
    | .keyAt ordinal => Desk.call (file.keyAtOrdinal ordinal)
    | .keysAt ordinals => Desk.call (file.keysAtOrdinals ordinals)
    | .entryAt ordinal => Desk.call (MdxFile.entryAt ⟨file⟩ ordinal)
    | .resourceAt ordinal => Desk.call (MddFile.resourceAt ⟨file⟩ ordinal)
    | .copyResourceAt ordinal destination =>
      Desk.call (MddFile.copyResourceAt ⟨file⟩ ordinal destination)
    | .locate query mode =>
      Desk.call (Option.map LocatedKeys.view <$> MdxFile.locateWithMode ⟨file⟩ query mode)
    | .locatePage query offset limit mode =>
      Desk.call (Option.map LocatedKeyPage.view
        <$> MdxFile.locatePageWithMode ⟨file⟩ query offset limit mode)
    | .prefixKeys keyPrefix limit => Desk.call (MdxFile.prefixKeys ⟨file⟩ keyPrefix limit)
    | .scanNormalizedKeys visit acc => Desk.call (file.scanNormalizedKeys visit acc)
    | .lookupEntry query => Desk.call (MdxFile.lookup ⟨file⟩ query)
    | .lookupResource query => Desk.call (MddFile.lookup ⟨file⟩ query)
    | .keys => do
      let desk ← Prog.get
      Prog.modify fun desk => { desk with keys := desk.keys ++ [.new] }
      return desk.keys.length
    | .nextKey iterator =>
      Desk.step (·.keys) (fun desk keys => { desk with keys }) (KeyIter.next file) iterator
    | .entries => do
      let desk ← Prog.get
      Prog.modify fun desk => { desk with entries := desk.entries ++ [⟨.new, false⟩] }
      return desk.entries.length
    | .nextEntry iterator =>
      Desk.step (·.entries) (fun desk entries => { desk with entries }) (MdxEntryIter.next ⟨file⟩)
        iterator
    | .resources => do
      let desk ← Prog.get
      Prog.modify fun desk => { desk with resources := desk.resources ++ [⟨.new, false⟩] }
      return desk.resources.length
    | .nextResource iterator =>
      Desk.step (·.resources) (fun desk resources => { desk with resources })
        (MddResourceIter.next ⟨file⟩) iterator

end Mdict
