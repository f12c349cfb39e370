import Mdict.Lemmas.FileUrl

/-!
This module contains the main result on `file://` URLs: every way of escaping a path leads back to
it, and what is no URL of a local path is either left alone or rejected.
-/

namespace Mdict.FileUrl

open Effect Unicode Percent

/-- A URL that cannot be resolved to a path. -/
def IsRejected (rest : Str) : Prop :=
  ¬IsLocal (authorityOf rest) ∨ Malformed (encodedOf rest)
    ∨ ∃ bytes, StandsFor (encodedOf rest) bytes ∧ ∀ s, utf8 s ≠ bytes

theorem authorityOf_append {authority : Str} (h : IsLocal authority) (tail : Str)
    : authorityOf (authority ++ '/' :: tail) = authority
        ∧ encodedOf (authority ++ '/' :: tail) = '/' :: tail := by
  have hnot : ∀ c ∈ authority, (c != '/') = true := by
    intro c hc
    rw [bne_iff_ne]
    rintro rfl
    rcases h with rfl | h
    . exact absurd hc List.not_mem_nil
    . have hmem := List.mem_map_of_mem (f := Char.toLower) hc
      rw [h] at hmem
      exact absurd hmem (by decide)
  rw [authorityOf, encodedOf, List.takeWhile_append_of_pos hnot, List.dropWhile_append_of_pos hnot]
  exact ⟨List.append_nil _, rfl⟩

theorem resolve_escapes {authority path text : Str} (hauthority : IsLocal authority)
    (hdrive : ¬IsDrivePath ('/' :: path)) (h : Escapes path text)
    : resolve (utf8 ("file://".toList ++ (authority ++ '/' :: text))) = .ok (utf8 ('/' :: path)) := by
  obtain ⟨hlocal, hencoded⟩ := authorityOf_append hauthority text
  obtain ⟨message, hresolve⟩ := resolve_url (authority ++ '/' :: text)
  have hstands := (h.plain (c := '/') (by decide)).standsFor
  have hvalid : ¬utf8Decode? (utf8 ('/' :: path)) = none := by
    rw [utf8Decode?_utf8]
    exact Option.some_ne_none _
  rw [hresolve, hlocal, hencoded, if_pos hauthority, if_neg (List.cons_ne_nil _ _),
    percentDecode_of_standsFor hstands, failIf_of_not hvalid]
  exact windowsDrivePath_utf8 hdrive

theorem resolve_other {text : Str} (h : ¬"file://".toList <+: text)
    : resolve (utf8 text) = .ok (utf8 text) := by
  have hprefix : ¬scheme.isPrefixOf (utf8 text) = true := by
    rwa [scheme, ascii, isPrefixOf_utf8, List.isPrefixOf_iff_prefix]
  rw [resolve, if_pos hprefix, ite_self]

theorem resolve_rejected {rest : Str} (h : IsRejected rest)
    : ∃ message, resolve (utf8 ("file://".toList ++ rest)) = .error (.invalidData message) := by
  obtain ⟨message, hresolve⟩ := resolve_url rest
  by_cases hlocal : IsLocal (authorityOf rest)
  . rw [hresolve, if_pos hlocal]
    rcases h with hremote | hbad | ⟨bytes, hstands, hbytes⟩
    . exact absurd hlocal hremote
    . have hne : encodedOf rest ≠ [] := by
        obtain ⟨before, after, heq, -⟩ := hbad
        rw [heq]
        exact List.append_ne_nil_of_right_ne_nil before (List.cons_ne_nil _ _)
      rw [if_neg hne, percentDecode_of_malformed hbad]
      exact ⟨_, rfl⟩
    . have hne : encodedOf rest ≠ [] := by
        intro hnil
        rw [hnil] at hstands
        exact hbytes [] (StandsFor.nil.unique hstands)
      have hinvalid : utf8Decode? bytes = none := by
        rw [← Option.not_isSome_iff_eq_none, Option.isSome_iff_exists]
        rintro ⟨s, hs⟩
        exact hbytes s (utf8_of_utf8Decode? hs)
      rw [if_neg hne, percentDecode_of_standsFor hstands, failIf_of hinvalid]
      exact ⟨_, rfl⟩
  . rw [hresolve, if_neg hlocal]
    exact ⟨message, rfl⟩

/--
The URL of a path leads to it, however much of the path is escaped; text that is no URL stays as it
is; and a URL of another machine, with a malformed escape or with bytes that are no text is invalid.
-/
theorem resolve_faithful
    : (∀ authority path text : Str, IsLocal authority → ¬IsDrivePath ('/' :: path) →
        Escapes path text →
          resolve (utf8 ("file://".toList ++ (authority ++ '/' :: text)))
            = .ok (utf8 ('/' :: path)))
      ∧ (∀ text : Str, ¬"file://".toList <+: text → resolve (utf8 text) = .ok (utf8 text))
      ∧ ∀ rest : Str, IsRejected rest →
          ∃ message, resolve (utf8 ("file://".toList ++ rest)) = .error (.invalidData message) :=
  ⟨fun _ _ _ => resolve_escapes, fun _ => resolve_other, fun _ => resolve_rejected⟩

/-- The path `/a%` with either case of digits, and the three kinds of text beside it. -/
theorem resolve_faithful_sample
    : resolve (utf8 "file://LocalHost/%61%25".toList) = .ok (utf8 "/a%".toList)
      ∧ resolve (utf8 "a%25".toList) = .ok (utf8 "a%25".toList)
      ∧ ∃ message, resolve (utf8 "file:///a%2".toList) = .error (.invalidData message) := by
  obtain ⟨hescapes, hother, hrejected⟩ := resolve_faithful
  refine ⟨?_, hother "a%25".toList (by decide), hrejected "/a%2".toList (.inr (.inl ?_))⟩
  . apply hescapes "LocalHost".toList "a%".toList "%61%25".toList (.inr (by decide))
    . rintro ⟨letter, rest, heq, -⟩
      cases heq
    . have hletter : EscapesBytes (String.utf8EncodeChar 'a') "%61".toList :=
        .cons (b := 0x61) rfl rfl .nil
      have hpercent : EscapesBytes (String.utf8EncodeChar '%') "%25".toList :=
        .cons (b := 0x25) rfl rfl .nil
      exact .escaped hletter (.escaped hpercent .nil)
  . refine ⟨"/a".toList, "2".toList, rfl, ?_⟩
    rintro h l rest heq
    cases heq

end Mdict.FileUrl
