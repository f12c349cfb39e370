import Mdict.Sample
import Mdict.Lemmas.Reachable

/-!
This module contains what is known of the sample dictionary: its blocks decode, and it fits the
default limits.
-/

namespace Mdict.Sample

/-- The rows of the key blocks. -/
def rows : List (List DecodedKeyRow) := [[⟨['a', 'a'], 0⟩], [⟨['A', 'A'], 2⟩], [⟨['b'], 2⟩]]

/-- The record stream, block by block. -/
def records : List Bytes := [[1, 2, 3], [], [4, 5, 6]]

/-- A world in which nothing goes wrong. -/
def world : World := .calm platform

theorem quiet : world.Quiet := World.calm_quiet platform

theorem ignoresChecksum (payload : Bytes) (len : Nat)
    (h : (platform.inflate payload len false).status = .done)
    : platform.inflate payload len true = platform.inflate payload len false := by
  contradiction

/-- With verification the sample file opens. -/
theorem checked_opens
    : ∃ file s, MdictFile.open checkedContainer .mdx verifying world .fresh = (.ok file, s) := by
  have hopens : (MdictFile.open checkedContainer .mdx verifying world .fresh).1.isOk = true := by
    decide +kernel
  generalize MdictFile.open checkedContainer .mdx verifying world .fresh = run at hopens ⊢
  obtain ⟨e | file, s⟩ := run
  . exact absurd hopens Bool.false_ne_true
  . exact ⟨file, s, rfl⟩

theorem lowercaseTables : platform.LowercaseTables where
  ascii := fun _ _ => rfl
  nonAscii := by
    intro c hc d hd hd'
    rw [List.mem_singleton.mp hd] at hd'
    have hlower : c.toLower = c := by
      unfold Char.toLower
      split
      . next hupper =>
        have hle : c.val.toNat ≤ 90 := UInt32.le_iff_toNat_le.mp hupper.2
        simp only [isAscii, Char.toNat, decide_eq_false_iff_not] at hc
        omega
      . rfl
    rw [hlower, hc] at hd'
    contradiction

/-- A world in which nothing goes wrong and the file system knows the dictionary. -/
def sourceWorld : World :=
  { world with identity := fun _ => ⟨86, 0, by decide⟩ }

/-- What the dictionary decodes to, with what is evaluated of the sample. -/
structure Evaluation where
  rows : List (List DecodedKeyRow)
  records : List Bytes
  decodesTo : file.DecodesTo world.platform rows
  recordsDecodeTo : file.RecordsDecodeTo world.platform records
  locatorFits : file.LocatorFits world.platform (MdictFile.keysOf rows)
  queryFits : ∀ query ∈ [['A', 'a'], ['a', 'a'], ['A']], file.QueryFits world.platform query
  layout_opens : (openLayout ⟨container⟩ .mdx .new world .fresh).1.isOk = true
  container_opens : (MdictFile.open container .mdx .new world .fresh).1.isOk = true
  header_built : (Persistent.buildHeader sections identity 5 .new).isOk = true
  index_opens : (PersistentKeyIndex.openFile (indexBytes sourceWorld) file identity .new sourceWorld
    .fresh).1.isOk = true

def evaluates : Evaluation where
  rows := rows
  records := records
  decodesTo := by
    constructor
    . decide
    . intro index blockRows h
      match index with
      | 0 =>
        cases h
        decide +kernel
      | 1 =>
        cases h
        decide +kernel
      | 2 =>
        cases h
        decide +kernel
      | index + 3 => contradiction
  recordsDecodeTo := by
    constructor
    . decide
    . intro index data h
      match index with
      | 0 =>
        cases h
        decide +kernel
      | 1 =>
        cases h
        decide +kernel
      | 2 =>
        cases h
        decide +kernel
      | index + 3 => contradiction
  locatorFits := ⟨by decide, by decide +kernel, by decide +kernel⟩
  queryFits := by
    unfold MdictFile.QueryFits
    decide +kernel
  layout_opens := by decide +kernel
  container_opens := by decide +kernel
  header_built := by decide +kernel
  index_opens := by decide +kernel

theorem decodesTo : file.DecodesTo world.platform rows := evaluates.decodesTo

theorem recordsDecodeTo : file.RecordsDecodeTo world.platform records := evaluates.recordsDecodeTo

theorem locatorFits : file.LocatorFits world.platform (MdictFile.keysOf rows) :=
  evaluates.locatorFits

theorem reachable : Reachable file (fun world' => world'.platform = world.platform) none .fresh :=
  .opened []

/-! ## Evaluation -/

/-- Whether a result is this failure. -/
def failsWith {α : Type} (r : Except Error α) (e : Error) : Bool :=
  match r with
  | .error e' => decide (e' = e)
  | .ok _ => false

theorem eq_of_failsWith {α : Type} {r : Except Error α} {e : Error} (h : failsWith r e = true)
    : r = .error e := by
  cases r with
  | error e' => rw [of_decide_eq_true h]
  | ok a => exact absurd h Bool.false_ne_true

/-- What is evaluated to hold of a value holds of one. -/
theorem exists_of_any {α : Type} {r : Except Error α} {p : α → Bool}
    (h : r.toOption.any p = true)
    : ∃ a, r = .ok a ∧ p a = true := by
  cases r with
  | error e => exact absurd h Bool.false_ne_true
  | ok a => exact ⟨a, rfl, h⟩

/-! ## Files that are opened -/

/-- The dictionary that opens from these bytes. -/
def opened (bytes : Bytes) (options : OpenOptions) : MdictFile :=
  match (MdictFile.open bytes .mdx options world .fresh).1 with
  | .ok file => file
  | .error _ => file

/-- A world in which nothing goes wrong and the file system knows the dictionary. -/
def worldOf (file : MdictFile) : World :=
  { world with identity := fun _ => ⟨file.source.len % u64Bound, 0, Nat.mod_lt _ (by decide)⟩ }

theorem quiet_worldOf (file : MdictFile) : (worldOf file).Quiet :=
  ⟨fun _ => rfl, fun _ => rfl, fun _ => show 0 < u64Max by decide⟩

/-- The dictionary with one key. -/
def single : MdictFile := opened container .new

/-! ## The key index -/

/-- The dictionary with a key index that is open. -/
theorem reachable_index
    : ∃ opened s, Reachable file (·.platform = world.platform) (some opened) s := by
  have hopens := evaluates.index_opens
  generalize hrun : PersistentKeyIndex.openFile (indexBytes sourceWorld) file identity .new
    sourceWorld .fresh = run at hopens
  obtain ⟨e | opened, s⟩ := run
  . exact absurd hopens Bool.false_ne_true
  . exact ⟨_, s, .openKeyIndex reachable (w := sourceWorld) rfl hrun⟩

end Mdict.Sample
