import Mdict.Lemmas.Grammar

/-!
This module contains that the grammars of keyword metadata and key blocks are canonical.
-/

namespace Mdict

open Effect

/--
Keyword metadata and key rows in UTF-8 or UTF-16LE are accepted only as they are written: in either
version, and with or without the terminators of version 2 summaries.
-/
theorem grammars_canonical (p : Platform) (encoding : UnicodeEncoding)
    : (∀ layout numBlocks keyBlocksOffset limits,
        Canonical (fun bytes => V2.parseKeywordIndexEntries p bytes numBlocks encoding.text layout
            keyBlocksOffset limits)
          (·.flatMap fun block => V2.encodeKeyIndexRow encoding layout block.row))
      ∧ (∀ numBlocks keyBlocksOffset limits,
        Canonical (fun bytes => V1.parseKeywordIndexEntries p bytes numBlocks encoding.text
            keyBlocksOffset limits)
          (·.flatMap fun block => V1.encodeKeyIndexRow encoding block.row))
      ∧ (∀ expectedEntries totalDecodedRecordLen,
        Canonical (fun bytes => V2.decodeKeyRows p bytes
            ⟨encoding.text, expectedEntries, totalDecodedRecordLen⟩)
          (·.flatMap (encodeKeyRow 8 encoding)))
      ∧ ∀ expectedEntries totalDecodedRecordLen,
        Canonical (fun bytes => V1.decodeKeyRows p bytes
            ⟨encoding.text, expectedEntries, totalDecodedRecordLen⟩)
          (·.flatMap (encodeKeyRow 4 encoding)) := by
  refine ⟨?_, ?_, ?_, ?_⟩
  . intro layout numBlocks keyBlocksOffset limits
    exact V2.parseKeywordIndexEntries_canonical layout numBlocks keyBlocksOffset limits
  . intro numBlocks keyBlocksOffset limits
    exact V1.parseKeywordIndexEntries_canonical numBlocks keyBlocksOffset limits
  . intro expectedEntries totalDecodedRecordLen
    exact V2.decodeKeyRows_canonical rfl
  . intro expectedEntries totalDecodedRecordLen
    exact V1.decodeKeyRows_canonical rfl

end Mdict
