import Mdict.Core.Persistent.Scratch

/-!
This module contains the external sort of a build: sorted runs in a scratch file and their merge
into the order of all rows.
-/

namespace Mdict.Persistent

open Effect

/-! ## The sort buffer -/

/-- A row of the sort buffer: its slice of the arena and its ordinal. -/
structure ArenaRecord where
  start : Nat
  len : Nat
  ordinal : Nat
  deriving DecidableEq, Repr

def sizeOfArenaRecord : Nat := 24

structure SortBuffer where
  normalized : Bytes
  records : List ArenaRecord
  normalizedCapacity : Nat
  recordsCapacity : Nat
  deriving DecidableEq, Repr

namespace SortBuffer

def empty : SortBuffer := ⟨[], [], 0, 0⟩

/-- `clear` keeps the allocations. -/
def clear (buffer : SortBuffer) : SortBuffer := { buffer with normalized := [], records := [] }

def allocatedBytes (buffer : SortBuffer) : Except Error Nat :=
  okOr ((checkedMul buffer.recordsCapacity sizeOfArenaRecord).bind
      (checkedAdd · buffer.normalizedCapacity))
    (.invalidFormat "key-index sort capacity overflow")

/-- The capacity of a vector after `try_reserve`. -/
def reserved (p : Platform) (elementSize capacity len additional : Nat) : Nat :=
  if capacity - len < additional then
    p.growCapacity elementSize capacity (len + additional)
  else
    capacity

def reserveRecord (buffer : SortBuffer) (normalizedUpper maximum : Nat) : Exec SortBuffer := do
  let p ← Exec.platform
  let buffer := { buffer with
    normalizedCapacity :=
      reserved p 1 buffer.normalizedCapacity buffer.normalized.length normalizedUpper
    recordsCapacity :=
      reserved p sizeOfArenaRecord buffer.recordsCapacity buffer.records.length 1 }
  let allocatedBytes ← buffer.allocatedBytes
  ensureLimit "key_index_build_memory_bytes" allocatedBytes maximum
  return buffer

def key (buffer : SortBuffer) (record : ArenaRecord) : Bytes :=
  (buffer.normalized.drop record.start).take record.len

/-- The records by normalized text and then by ordinal. -/
def sortedRecords (buffer : SortBuffer) : List ArenaRecord :=
  buffer.records.mergeSort fun left right =>
    ((compareOfLessAndEq (buffer.key left) (buffer.key right)).then
      (compareOfLessAndEq left.ordinal right.ordinal)).isLE

end SortBuffer

def writeSortedOrder (file : SectionScratchWriter) (buffer : SortBuffer)
    : Exec SectionScratchWriter :=
  buffer.sortedRecords.foldlM (fun file record => file.writeU32 record.ordinal) file

/-- The length of the body of a run with these records. -/
def runBodyLen (bodyLen : Nat) : (records : List ArenaRecord) → Except Error Nat
  | [] => .ok bodyLen
  | record :: records => do
    let bodyLen ← okOr ((checkedAdd bodyLen 12).bind (checkedAdd · record.len))
      (.invalidFormat "key-index run length overflow")
    runBodyLen bodyLen records

def writeSortedRun (file : BufferedScratchWriter) (buffer : SortBuffer)
    : Exec BufferedScratchWriter := do
  let records := buffer.sortedRecords
  let bodyLen ← runBodyLen 0 records
  let file ← file.writeAll (Bytes.ofLE 8 bodyLen)
  let file ← file.writeAll (Bytes.ofLE 8 records.length)
  records.foldlM (fun (file : BufferedScratchWriter) record => do
    let file ← file.writeAll (Bytes.ofLE 8 record.len)
    let file ← file.writeAll (buffer.key record)
    file.writeAll (Bytes.ofLE 4 record.ordinal)) file

/-! ## Reading runs -/

structure RunRecord where
  normalized : Bytes
  ordinal : Nat
  deriving DecidableEq, Repr

def sizeOfRunRecord : Nat := 32

structure RunCursor where
  cursor : Nat
  stop : Nat
  remaining : Nat
  bodyLen : Nat
  buffer : Bytes
  bufferPosition : Nat
  bufferCapacity : Nat
  deriving DecidableEq, Repr

def sizeOfRunCursor : Nat := 72

/-- Read from a scratch file; `read_exact` fails when the file ends too soon. -/
def readScratch (file : Bytes) (offset len : Nat) : Exec Bytes := do
  scratchIo len
  failIf (offset + len > file.length) .io
  return (file.drop offset).take len

namespace RunCursor

/-- Fill the buffer again when all of it is read. -/
def refill (run : RunCursor) (file : Bytes) : Exec RunCursor :=
  if run.bufferPosition = run.buffer.length then do
    failIf (run.cursor ≥ run.stop) (.invalidFormat "key-index scratch record is truncated")
    let readLen ← checkedUsize (min (run.stop - run.cursor) run.bufferCapacity)
      "key-index scratch read length"
    let buffer ← readScratch file run.cursor readLen
    return { run with buffer, bufferPosition := 0 }
  else
    return run

/-- Read the next `len` bytes of a run through its buffer, which has a capacity. -/
def readExact (run : RunCursor) (file : Bytes) (len : Nat) : Exec (Bytes × RunCursor) :=
  if len = 0 then
    return ([], run)
  else do
    let run ← run.refill file
    let copied := min (run.buffer.length - run.bufferPosition) len
    let cursor ← okOr (checkedAdd run.cursor copied)
      (.invalidFormat "key-index scratch cursor overflow")
    let bytes := (run.buffer.drop run.bufferPosition).take copied
    if _ : copied = 0 then
      return ([], run)
    else
      let (rest, run) ← readExact
        { run with bufferPosition := run.bufferPosition + copied, cursor } file (len - copied)
      return (bytes ++ rest, run)
termination_by len
decreasing_by omega

end RunCursor

/-- The cursor of the run at `offset`, and where the next run starts. -/
def readRunHeader (file : Bytes) (offset bufferCapacity : Nat) : Exec (RunCursor × Nat) := do
  let bodyLen ← readScratch file offset 8
  let count ← readScratch file (offset + 8) 8
  let bodyLen := Bytes.toLE bodyLen
  let bodyStart ← okOr (checkedAdd offset 16) (.invalidFormat "key-index run offset overflow")
  let stop ← okOr (checkedAdd bodyStart bodyLen) (.invalidFormat "key-index run end overflow")
  failIf (stop > file.length) (.invalidFormat "key-index scratch run is truncated")
  return ({
    cursor := bodyStart
    stop
    remaining := Bytes.toLE count
    bodyLen
    buffer := []
    bufferPosition := 0
    bufferCapacity
  }, stop)

/-- The next record of a run with records left. -/
def readRecord (file : Bytes) (run : RunCursor) (maximum : Nat) : Exec (RunRecord × RunCursor) := do
  let recordStart := run.cursor
  let (lenBytes, run) ← run.readExact file 8
  let len ← checkedUsize (Bytes.toLE lenBytes) "key-index scratch key length"
  ensureLimit "key_index_build_memory_bytes" len maximum
  let recordEnd ← okOr ((checkedAdd recordStart 12).bind (checkedAdd · len))
    (.invalidFormat "key-index scratch record overflow")
  failIf (recordEnd > run.stop) (.invalidFormat "key-index scratch record is truncated")
  let (normalized, run) ← run.readExact file len
  let (ordinalBytes, run) ← run.readExact file 4
  failIf (run.cursor ≠ recordEnd) (.invalidFormat "key-index scratch record length mismatch")
  failIf (Unicode.utf8Decode? normalized = none)
    (.invalidFormat "key-index scratch key is not UTF-8")
  return ({ normalized, ordinal := Bytes.toLE ordinalBytes }, run)

/-- A run without records left is at its end. -/
def checkRunEnd (run : RunCursor) : Except Error Unit :=
  failIf (run.cursor ≠ run.stop) (.invalidFormat "key-index scratch run has trailing bytes")

/-! ## Merging -/

structure HeapRecord where
  record : RunRecord
  run : Nat
  deriving DecidableEq, Repr

def sizeOfHeapRecord : Nat := 40

/-- The order of `HeapRecord`, reversed: by normalized text, then ordinal, then run. -/
def HeapRecord.compare (left right : HeapRecord) : Ordering :=
  ((compareOfLessAndEq left.record.normalized right.record.normalized).then
    (compareOfLessAndEq left.record.ordinal right.record.ordinal)).then
    (compareOfLessAndEq left.run right.run)

/-- `BinaryHeap::pop`: a greatest record, and the others. -/
def popHeap : (heap : List HeapRecord) → Option (HeapRecord × List HeapRecord)
  | [] => none
  | record :: heap =>
    match popHeap heap with
    | none => some (record, [])
    | some (least, rest) =>
      if (record.compare least).isLE then some (record, heap) else some (least, record :: rest)

theorem length_popHeap {heap rest : List HeapRecord} {least : HeapRecord}
    (h : popHeap heap = some (least, rest))
    : rest.length + 1 = heap.length := by
  induction heap generalizing rest least with
  | nil => contradiction
  | cons record heap ih =>
    unfold popHeap at h
    cases hpop : popHeap heap with
    | none =>
      rw [hpop] at h
      cases h
      cases heap with
      | nil => rfl
      | cons other heap =>
        unfold popHeap at hpop
        split at hpop
        . contradiction
        . split at hpop <;> contradiction
    | some popped =>
      obtain ⟨least', rest'⟩ := popped
      rw [hpop] at h
      dsimp only at h
      have hlen := ih hpop
      split at h
      . cases h
        rfl
      . cases h
        simpa using hlen

inductive MergeOutput where
  | runs (writer : BufferedScratchWriter)
  | order (writer : SectionScratchWriter)

namespace MergeOutput

def writeAll (output : MergeOutput) (input : Bytes) : Exec MergeOutput :=
  match output with
  | runs writer => do
    let writer ← writer.writeAll input
    return runs writer
  | order writer => do
    let writer ← writer.writeAll input
    return order writer

def intoRuns (output : MergeOutput) : Exec Bytes :=
  match output with
  | runs writer => writer.intoFile
  | order _ => Prog.fail (.invalidFormat "final order writer used for intermediate runs")

def intoOrder (output : MergeOutput) : Exec SectionFile :=
  match output with
  | order writer => writer.intoSection .order
  | runs _ => Prog.fail (.invalidFormat "intermediate run writer used for final order")

/-- Write a merged record: all of it to a run, its ordinal to the order. -/
def writeRecord (output : MergeOutput) (finalPass : Bool) (record : RunRecord)
    : Exec MergeOutput :=
  if finalPass then
    output.writeAll (Bytes.ofLE 4 record.ordinal)
  else do
    let output ← output.writeAll (Bytes.ofLE 8 record.normalized.length)
    let output ← output.writeAll record.normalized
    output.writeAll (Bytes.ofLE 4 record.ordinal)

end MergeOutput

/-- The cursors of the next `groupLen` runs, and where the run after them starts. -/
def openRuns (file : Bytes) (offset bufferCapacity : Nat) (groupLen : Nat)
    : Exec (List RunCursor × Nat) :=
  (List.range groupLen).foldlM (fun (state : List RunCursor × Nat) _ => do
    let (cursors, offset) := state
    let (cursor, next) ← readRunHeader file offset bufferCapacity
    return (cursors ++ [cursor], next)) ([], offset)

/-- The sum of some sizes of the runs of a group. -/
def sumSizes (context : String) (total : Nat) : (sizes : List Nat) → Except Error Nat
  | [] => .ok total
  | size :: sizes => do
    let total ← okOr (checkedAdd total size) (.invalidFormat context)
    sumSizes context total sizes

/-- The records left in the runs of a group. -/
def recordsLeft (cursors : List RunCursor) : Nat := (cursors.map (·.remaining)).sum

theorem recordsLeft_set {cursors : List RunCursor} {run n : Nat} {cursor next : RunCursor}
    (h : cursors[run]? = some cursor) (hcursor : cursor.remaining = n + 1) (hnext : next.remaining = n)
    : recordsLeft (cursors.set run next) + 1 = recordsLeft cursors := by
  induction cursors generalizing run with
  | nil => simp at h
  | cons first cursors ih =>
    cases run with
    | zero =>
      rw [List.getElem?_cons_zero, Option.some.injEq] at h
      subst h
      simp only [recordsLeft, List.set_cons_zero, List.map_cons, List.sum_cons, hcursor, hnext]
      omega
    | succ run =>
      have := ih h
      simp only [recordsLeft, List.set_cons_succ, List.map_cons, List.sum_cons] at this ⊢
      omega

/-- Read the first record of every run of a group into the heap. -/
def fillHeap (file : Bytes) (maximum : Nat) (cursors : List RunCursor)
    : Exec (List RunCursor × List HeapRecord) :=
  (List.range cursors.length).foldlM
    (fun (state : List RunCursor × List HeapRecord) run => do
      let (cursors, heap) := state
      let cursor ← okOr cursors[run]? (.invalidFormat "merge run index out of range")
      match cursor.remaining with
      | 0 =>
        checkRunEnd cursor
        return (cursors, heap)
      | n + 1 =>
        let (record, cursor) ← readRecord file cursor maximum
        return (cursors.set run { cursor with remaining := n }, { record, run } :: heap))
    (cursors, [])

/-- Write the records of a group in order, replacing each by the next of its run. -/
def mergeRecords (file : Bytes) (maximum : Nat) (finalPass : Bool) (cursors : List RunCursor)
    (heap : List HeapRecord) (written : Nat) (output : MergeOutput)
    : Exec (MergeOutput × Nat) :=
  match _hpop : popHeap heap with
  | none => return (output, written)
  | some (item, rest) => do
    checkCancelled "merging persistent key-index runs"
    let output ← output.writeRecord finalPass item.record
    let written ← okOr (checkedAdd written 1) (.invalidFormat "merged run count overflow")
    match _hcursor : cursors[item.run]? with
    | none => Prog.fail (.invalidFormat "merge run index out of range")
    | some cursor =>
      match _hremaining : cursor.remaining with
      | 0 =>
        checkRunEnd cursor
        mergeRecords file maximum finalPass cursors rest written output
      | n + 1 =>
        let (record, next) ← readRecord file cursor maximum
        mergeRecords file maximum finalPass (cursors.set item.run { next with remaining := n })
          ({ record, run := item.run } :: rest) written output
termination_by recordsLeft cursors + heap.length
decreasing_by
  . have := length_popHeap _hpop
    omega
  . have := length_popHeap _hpop
    have := @recordsLeft_set _ _ _ _ { next with remaining := n } _hcursor _hremaining rfl
    simp only [List.length_cons]
    omega

/-- Merge the runs of one group; also where the next group starts. -/
def mergeGroup (file : Bytes) (maximum bufferCapacity : Nat) (finalPass : Bool)
    (state : MergeOutput × Nat) (groupLen : Nat)
    : Exec (MergeOutput × Nat) := do
  let (output, inputOffset) := state
  checkCancelled "merging persistent key-index runs"
  let (cursors, inputOffset) ← openRuns file inputOffset bufferCapacity groupLen
  let bodyLen ← sumSizes "merged run length overflow" 0 (cursors.map (·.bodyLen))
  let rowCount ← sumSizes "merged run count overflow" 0 (cursors.map (·.remaining))
  let output ←
    if finalPass then
      pure output
    else do
      let output ← output.writeAll (Bytes.ofLE 8 bodyLen)
      output.writeAll (Bytes.ofLE 8 rowCount)
  let (cursors, heap) ← fillHeap file maximum cursors
  let (output, written) ← mergeRecords file maximum finalPass cursors heap 0 output
  failIf (written ≠ rowCount) (.invalidFormat "merged run row-count mismatch")
  return (output, inputOffset)

/-- The sizes of the groups of a pass. -/
def groupLens (runCount fanIn : Nat) : List Nat :=
  if _ : runCount > 0 ∧ fanIn > 0 then
    min runCount fanIn :: groupLens (runCount - min runCount fanIn) fanIn
  else
    []
termination_by runCount

theorem length_groupLens_le {fanIn : Nat} (runCount : Nat) (hfan : fanIn > 0)
    : (groupLens runCount fanIn).length ≤ runCount := by
  induction runCount using Nat.strongRecOn with
  | ind runCount ih =>
    unfold groupLens
    split
    . next h =>
      have := ih (runCount - min runCount fanIn) (by omega)
      rw [List.length_cons]
      omega
    . exact Nat.zero_le _

/-- A pass over several runs leaves fewer. -/
theorem length_groupLens_lt {runCount fanIn : Nat} (hruns : runCount > 1) (hfan : fanIn ≥ 2)
    : (groupLens runCount fanIn).length < runCount := by
  unfold groupLens
  rw [dif_pos (by omega), List.length_cons]
  have := length_groupLens_le (runCount - min runCount fanIn) (show fanIn > 0 by omega)
  omega

/-- Copy the ordinals of the records of a run to the order. -/
def writeRunOrder (file : Bytes) (maximum : Nat) (run : RunCursor) (order : SectionScratchWriter)
    : Exec SectionScratchWriter :=
  match _hremaining : run.remaining with
  | 0 => do
    checkRunEnd run
    return order
  | n + 1 => do
    let (record, next) ← readRecord file run maximum
    checkCancelled "writing persistent key-index order"
    let order ← order.writeU32 record.ordinal
    writeRunOrder file maximum { next with remaining := n } order
termination_by run.remaining
decreasing_by omega

/-- Check that an order section has an entry for every row. -/
def checkOrderLen (order : SectionFile) (expectedRows : Nat) : Except Error Unit := do
  let expected ← okOr (checkedMul expectedRows 4)
    (.invalidFormat "key-index order length overflow")
  failIf (order.len ≠ expected) (.invalidFormat "key-index order length mismatch")

/-- A writer for the order section. -/
def newOrderWriter (options : KeyIndexOptions) : Exec SectionScratchWriter := do
  let file ← scratchFile
  return .new file (scratchWriteBufferBytes options) options.chunkBytes options.checksumPolicy

/-- Merge until one run is left, or the order itself. -/
def mergePasses (file : Bytes) (runCount expectedRows bufferCapacity fanIn : Nat)
    (options : KeyIndexOptions)
    : Exec SectionFile :=
  if _ : runCount > 1 ∧ fanIn ≥ 2 then
    let groups := groupLens runCount fanIn
    if runCount ≤ fanIn then do
      let writer ← newOrderWriter options
      let (output, _) ← groups.foldlM
        (mergeGroup file options.buildMemoryBytes bufferCapacity true) (.order writer, 0)
      let order ← output.intoOrder
      failIf (groups.length ≠ 1) (.invalidFormat "key-index order length mismatch")
      checkOrderLen order expectedRows
      return order
    else do
      let scratch ← scratchFile
      let (output, _) ← groups.foldlM
        (mergeGroup file options.buildMemoryBytes bufferCapacity false)
        (.runs (.new scratch (scratchWriteBufferBytes options)), 0)
      let merged ← output.intoRuns
      mergePasses merged groups.length expectedRows bufferCapacity fanIn options
  else do
    let (run, next) ← readRunHeader file 0 bufferCapacity
    failIf (next ≠ file.length ∨ run.remaining ≠ expectedRows)
      (.invalidFormat "final key-index run shape mismatch")
    let order ← newOrderWriter options
    let order ← writeRunOrder file options.buildMemoryBytes run order
    let order ← order.intoSection .order
    checkOrderLen order expectedRows
    return order
termination_by runCount
decreasing_by exact length_groupLens_lt (by omega) (by omega)

/-- The number of runs that a merge reads at once. -/
def mergeFanIn (minimumPerRun : Nat) (options : KeyIndexOptions) : Nat :=
  min (options.buildMemoryBytes / minimumPerRun) maxMergeFanIn

/-- The read buffer of each run of a merge. -/
def runReadBuffer (runCount fanIn basePerRun : Nat) (options : KeyIndexOptions) : Nat :=
  let activeBuffers := min runCount (max fanIn 1)
  let bufferBudget := options.buildMemoryBytes - min (basePerRun * activeBuffers) u64Max
  let maximumRunReadBuffer := min options.chunkBytes runReadBufferBytes
  min (max (bufferBudget / activeBuffers) 1) maximumRunReadBuffer

def mergeRuns (file : Bytes) (runCount expectedRows maximumRecordBytes : Nat)
    (options : KeyIndexOptions)
    : Exec SectionFile :=
  if runCount = 0 then do
    failIf (expectedRows ≠ 0) (.invalidFormat "missing key-index sort runs")
    let order ← newOrderWriter options
    order.intoSection .order
  else do
    let basePerRun ← okOr (checkedAdd maximumRecordBytes (sizeOfRunCursor + sizeOfHeapRecord + 64))
      (.invalidFormat "key-index merge memory size overflow")
    let minimumPerRun ← okOr (checkedAdd basePerRun 1)
      (.invalidFormat "key-index merge memory size overflow")
    let fanIn := mergeFanIn minimumPerRun options
    failIf (runCount > 1 ∧ fanIn < 2)
      (.limitExceeded "key_index_build_memory_bytes" (min (minimumPerRun * 2) u64Max)
        options.buildMemoryBytes)
    mergePasses file runCount expectedRows (runReadBuffer runCount fanIn basePerRun options) fanIn
      options

end Mdict.Persistent
