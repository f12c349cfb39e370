import Mdict.Lemmas.Charges
import Mdict.Sample

/-!
This module contains the main result on the charges for decoded texts: they are upper bounds.
-/

namespace Mdict

open Effect

/--
For UTF-8 and UTF-16LE, all keys of an accepted key block, all summaries of an accepted keyword
index and the text of a record fit in what was estimated from the number of bytes they were decoded
from, which for every length that a buffer can have is an estimate indeed. And that estimate is
charged before anything is decoded, so what is retained never exceeds what was charged.
-/
theorem retained_le_charged (encoding : UnicodeEncoding)
    : (∀ p len, 2 * len < u64Bound → ∃ max, encoding.text.maxDecodedLen p len = .ok max)
      ∧ (∀ p bytes max, encoding.text.maxDecodedLen p bytes.length = .ok max →
        (∀ (wire : WireOperations) context rows, context.encoding = encoding.text →
            wire.decodeKeyRows p bytes context = .ok rows → keyBytes rows ≤ max)
          ∧ (∀ numBlocks offset limits blocks,
            V1.parseKeywordIndexEntries p bytes numBlocks encoding.text offset limits
                = .ok blocks →
              summaryBytes blocks ≤ max)
          ∧ (∀ layout numBlocks offset limits blocks,
            V2.parseKeywordIndexEntries p bytes numBlocks encoding.text layout offset limits
                = .ok blocks →
              summaryBytes blocks ≤ max)
          ∧ (∀ context text, encoding.text.decode p bytes context = .ok text →
              textBytes text ≤ max)
          ∧ ∀ text, decodeRecordText p encoding.text bytes = .ok text → textBytes text ≤ max)
      ∧ (∀ source header offset options,
        ChargedFor "keyword block metadata" KeywordSection.size
            (V1.parseKeywordSection source header encoding.text offset options)
          ∧ ChargedFor "keyword block metadata" KeywordSection.size
            (V2.parseKeywordSection source header encoding.text offset options))
      ∧ ∀ file : MdictFile, (∃ bytes options, file.OpenedFrom bytes options) →
        (file.layout.keyEncoding = encoding.text → ∀ index,
            ChargedFor "decoded key block" DecodedKeyRow.size (file.decodeKeyBlockUncached index))
          ∧ (file.layout.recordEncoding = some encoding.text →
            ∀ descriptor : MdictFile.RecordDescriptor,
              ChargedFor "decoded MDX record"
                (fun entry => descriptor.stop - descriptor.start + textBytes entry.text)
                (MdxFile.readEntry ⟨file⟩ descriptor)) := by
  refine ⟨fun p len => UnicodeEncoding.maxDecodedLen_of_lt, ?_, ?_, ?_⟩
  . intro p bytes max hmax
    refine ⟨?_, ?_, ?_, ?_, ?_⟩
    . intro wire context rows hencoding h
      exact keyBytes_le hencoding h hmax
    . intro numBlocks offset limits blocks h
      exact V1.summaryBytes_le h hmax
    . intro layout numBlocks offset limits blocks h
      exact V2.summaryBytes_le h hmax
    . intro context text h
      exact textBytes_le h hmax
    . intro text h
      exact textBytes_decodeRecordText_le h hmax
  . intro source header offset options
    exact ⟨V1.parseKeywordSection_charged, V2.parseKeywordSection_charged⟩
  . intro file ⟨bytes, options, hopened⟩
    refine ⟨MdictFile.decodeKeyBlockUncached_charged, ?_⟩
    exact MdictFile.readEntry_charged hopened.withinLimits

/-- A key of a character from either side of the surrogates, which takes seven bytes. -/
theorem retained_le_charged_sample
    : ∃ rows, WireOperations.v1.decodeKeyRows Sample.platform
          [0, 0, 0, 0, 0x22, 0x6F, 0x3D, 0xD8, 0x00, 0xDE, 0, 0]
          { encoding := .utf16Le, expectedEntries := 1, totalDecodedRecordLen := 0 } = .ok rows
        ∧ keyBytes rows ≤ 18 := by
  have hrows : WireOperations.v1.decodeKeyRows Sample.platform
      [0, 0, 0, 0, 0x22, 0x6F, 0x3D, 0xD8, 0x00, 0xDE, 0, 0]
      { encoding := .utf16Le, expectedEntries := 1, totalDecodedRecordLen := 0 }
        = .ok [{ key := [Char.ofNat 0x6F22, Char.ofNat 0x1F600], recordStart := 0 }] := by
    decide +kernel
  exact ⟨_, hrows, ((retained_le_charged .utf16Le).2.1 _ _ 18 (by decide)).1 _ _ _ rfl hrows⟩

end Mdict
