import Mdict.Core.Persistent.Build
import Mdict.Lemmas.Locate

/-!
This module contains that the three loops of the normalizer agree: the text, its bytes and the
length that is computed before either.
-/

namespace Mdict

open Effect Persistent

/-- The length that a build plans for is no less than the length of the text, and exact if known. -/
theorem planRecord_covers {file : MdictFile} {p : Platform} {options : KeyIndexOptions} {key : Str}
    {plan : RecordPlan} (h : planRecord file p options key = .ok plan)
    : (Unicode.utf8 (file.normalizer.normalizeText p key)).length ≤ plan.reserveLen
        ∧ ∀ expected, plan.expectedNormalizedLen = some expected →
          expected = (Unicode.utf8 (file.normalizer.normalizeText p key)).length := by
  unfold planRecord at h
  dsimp only at h
  split at h
  . next hascii =>
    rw [except_pure_eq_ok] at h
    subst h
    refine ⟨file.normalizer.length_normalizeText_le p hascii.1, ?_⟩
    intro _ hexpected
    contradiction
  . simp only [except_bind_eq_ok, KeyNormalizer.normalizedLen_eq_ok, except_pure_eq_ok] at h
    obtain ⟨_, ⟨rfl, -⟩, _, -, _, -, rfl⟩ := h
    refine ⟨Nat.le_refl _, ?_⟩
    rintro _ ⟨⟩
    rfl

/--
For every normalizer there is one text for every key: it is what is appended to a buffer, its UTF-8
form is what is appended to a byte buffer, and its length is computed in advance. It is no longer
than an ASCII key. A build never finds another length than the one it planned with, and the locator
and the index hold the same bytes.
-/
theorem normalize_agrees (n : KeyNormalizer) (p : Platform) (raw : Str)
    : ∃ text : Str,
        (∀ out, n.normalizeInto p raw out = out ++ text)
        ∧ (∀ out, n.normalizeBytesInto p raw out = out ++ Unicode.utf8 text)
        ∧ n.normalizedLen p raw
          = (if (Unicode.utf8 text).length < u64Bound then .ok (Unicode.utf8 text).length
            else .error (.invalidFormat "normalized key length overflow"))
        ∧ (raw.isAscii → (Unicode.utf8 text).length ≤ (Unicode.utf8 raw).length)
        ∧ (∀ (file : MdictFile) (keys : List Str) (row : Nat),
          file.normalizer = n → keys[row]? = some raw →
          (file.locatorOf p keys).row row = Unicode.utf8 text)
        ∧ ∀ (file : MdictFile) (options : KeyIndexOptions) (plan : RecordPlan) (buffer : SortBuffer)
            (w : World) (s : Session),
          file.normalizer = n → w.platform = p → planRecord file p options raw = .ok plan →
          appendNormalized file options plan buffer raw w s
            = (do
              let buffer ← buffer.reserveRecord plan.reserveLen options.buildMemoryBytes
              return ({ buffer with normalized := buffer.normalized ++ Unicode.utf8 text },
                (Unicode.utf8 text).length)) w s := by
  refine ⟨n.normalizeText p raw, n.normalizeInto_eq p raw, n.normalizeBytesInto_eq p raw, ?_,
    n.length_normalizeText_le p, ?_, ?_⟩
  . by_cases hlt : (Unicode.utf8 (n.normalizeText p raw)).length < u64Bound
    . rw [if_pos hlt]
      exact n.normalizedLen_of_lt p hlt
    . rw [if_neg hlt]
      apply n.normalizedLenFrom_of_ge p (by decide)
      rw [Nat.zero_add]
      exact Nat.le_of_not_lt hlt
  . rintro file keys row rfl hrow
    exact MdictFile.row_locatorOf hrow
  . rintro file options plan buffer w s rfl rfl hplan
    obtain ⟨hle, hexpected⟩ := planRecord_covers hplan
    have hchanged : ¬(plan.expectedNormalizedLen.any
        ((file.normalizer.normalizeBytes w.platform raw).length ≠ ·)) = true := by
      rw [KeyNormalizer.normalizeBytes_eq]
      cases hlen : plan.expectedNormalizedLen with
      | none => exact Bool.false_ne_true
      | some expected =>
        rw [Option.any_some, hexpected expected hlen, decide_eq_true_eq]
        exact fun h => h rfl
    have hexceeded : ¬(file.normalizer.normalizeBytes w.platform raw).length > plan.reserveLen := by
      rw [KeyNormalizer.normalizeBytes_eq]
      omega
    unfold appendNormalized
    rw [Prog.bind_apply, Prog.bind_apply]
    congr 1
    funext next s'
    rw [← KeyNormalizer.normalizeBytes_eq]
    -- Neither check fails, so both of them go.
    change ((failIf _ _ : Except Error Unit) >>= fun _ => _ : Exec _) w s' = _
    rw [failIf_of_not hchanged, failIf_of_not hexceeded]
    rfl

end Mdict
