import Mdict.Lib.Effect
import Mdict.Lib.Bytes
import Mdict.Lib.Search
import Mdict.Lib.SortedIndex
import Mdict.Lib.Unicode
import Mdict.Lib.Scan
import Mdict.Lib.XmlReference
import Mdict.Lib.KWayMerge
import Mdict.Error
import Mdict.Types
import Mdict.Session
import Mdict.Str
import Mdict.Format.Common.Cursor
import Mdict.Format.Common.Encoding
import Mdict.Format.Common.Checksum
import Mdict.Format.Common.Compression
import Mdict.Format.Common.Descriptors
import Mdict.Format.Common.Source
import Mdict.Format.Common.KeyRows
import Mdict.Format.Common.Crypto
import Mdict.Format.V2.Crypto
import Mdict.Format.V1.Keyword
import Mdict.Format.V2.Keyword
import Mdict.Format.Common.Header
import Mdict.Format.Common.RecordSection
import Mdict.Format.Open
import Mdict.Core.Normalize
import Mdict.Core.File
import Mdict.Core.Keys
import Mdict.Core.Records
import Mdict.Core.Locator
import Mdict.Core.CaseVariants
import Mdict.Core.Iter
import Mdict.Mdx
import Mdict.Mdd
import Mdict.Lemmas.Session
import Mdict.Lemmas.KeyRows
import Mdict.Format.Common.HeaderRounds
import Mdict.Lemmas.Grammar
import Mdict.Lemmas.Header
import Mdict.Lemmas.Tag
import Mdict.Lemmas.TagText
import Mdict.Lemmas.HeaderRounds
import Mdict.Lemmas.Checksum
import Mdict.Lemmas.Cursor
import Mdict.Lemmas.Descriptors
import Mdict.Lemmas.Layout
import Mdict.Lemmas.Keys
import Mdict.Lemmas.RecordBlocks
import Mdict.Lemmas.Sound
import Mdict.Lemmas.Access
import Mdict.Lemmas.Batch
import Mdict.Lemmas.Normalize
import Mdict.Lemmas.Locator
import Mdict.Lemmas.Locate
import Mdict.Lemmas.Page
import Mdict.Lemmas.CaseVariants
import Mdict.Lemmas.Spans
import Mdict.Lemmas.Records
import Mdict.Lemmas.Fresh
import Mdict.Lemmas.Iter
import Mdict.Core.Persistent.Index
import Mdict.Core.Persistent.Format
import Mdict.Core.Persistent.Cache
import Mdict.Core.Persistent.Query
import Mdict.Core.Persistent.Scratch
import Mdict.Core.Persistent.Sort
import Mdict.Core.Persistent.StrictReads
import Mdict.Core.Persistent.Build
import Mdict.Lemmas.Persistent.Format
import Mdict.Lemmas.Persistent.Write
import Mdict.Lemmas.Persistent.Scratch
import Mdict.Lemmas.Persistent.StrictReads
import Mdict.Lemmas.Persistent.Runs
import Mdict.Lemmas.Persistent.Merge
import Mdict.Lemmas.Persistent.Rejection
import Mdict.Lemmas.Persistent.Reads
import Mdict.Lemmas.Persistent.Rows
import Mdict.Lemmas.Persistent.Represents
import Mdict.Lemmas.Persistent.Queries
import Mdict.Lemmas.Persistent.Agreement
import Mdict.Lemmas.Persistent.Open
import Mdict.Lemmas.Persistent.Build
import Mdict.Lemmas.Persistent.Total.Runs
import Mdict.Lemmas.Persistent.Total.Merge
import Mdict.Lemmas.Persistent.Total.Header
import Mdict.Lemmas.Persistent.Total.Build
import Mdict.Lemmas.Persistent.Total.Artifact
import Mdict.Lemmas.Preserved
import Mdict.Lemmas.Reachable
import Mdict.Sample
import Mdict.Lemmas.Sample
import Mdict.Theorems.Layout
import Mdict.Theorems.Lookup
import Mdict.Theorems.Records
import Mdict.Theorems.Iter
import Mdict.Theorems.KeyCache
import Mdict.Theorems.KeyIndex
import Mdict.Theorems.Paging
import Mdict.Theorems.IndexFile
import Mdict.Theorems.Agreement
import Mdict.Theorems.Artifact
import Mdict.Theorems.Builds
import Mdict.Theorems.Checksum
import Mdict.Theorems.Keys
import Mdict.Theorems.Normalize
import Mdict.Theorems.RowLimit
import Mdict.Theorems.SectionReads
import Mdict.Theorems.Sections
import Mdict.Theorems.Metadata
import Mdict.Theorems.Grammar
import Mdict.Theorems.Header
import Mdict.Theorems.FileUrl
import Mdict.Theorems.Crypto
import Mdict.Theorems.Reads
import Mdict.Theorems.Estimates
import Mdict.Theorems.MemoryBudget
import Mdict.Theorems.Encryption
import Mdict.Lemmas.Policy
import Mdict.Theorems.Policy
import Mdict.Lib.Client
import Mdict.Writer
import Mdict.Lemmas.Writer.Rows
import Mdict.Lemmas.Writer.Sections
import Mdict.Lemmas.Writer.Keyword
import Mdict.Lemmas.Writer.Open
import Mdict.Lemmas.Writer.Contents
import Mdict.Dictionary
import Mdict.Lemmas.Dictionary
import Mdict.Lemmas.Desk
import Mdict.Lemmas.Writer.Dictionary
import Mdict.Theorems.RoundTrip
import Mdict.Theorems.Dictionary
