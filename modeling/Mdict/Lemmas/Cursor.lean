import Mdict.Format.Common.Cursor

/-!
This module contains what is known of readers: the bytes that they take are those of their value, and
what comes behind does not matter to them.
-/

namespace Mdict

open Effect

namespace Cursor

/-- The bytes that are yet to be read. -/
def rest (cursor : Cursor) : Bytes := cursor.bytes.drop cursor.offset

/-- The cursor with more bytes at the end. -/
def extend (cursor : Cursor) (extra : Bytes) : Cursor :=
  { cursor with bytes := cursor.bytes ++ extra }

/-- After the bytes `part` the one cursor is the other. -/
structure Takes (cursor cursor' : Cursor) (part : Bytes) : Prop where
  bytes_eq : cursor'.bytes = cursor.bytes
  offset_le : cursor'.offset ≤ cursor'.bytes.length
  rest_eq : cursor.rest = part ++ cursor'.rest

variable {cursor cursor' cursor'' : Cursor} {part part' : Bytes}

theorem Takes.trans (h : Takes cursor cursor' part) (h' : Takes cursor' cursor'' part')
    : Takes cursor cursor'' (part ++ part') where
  bytes_eq := h'.bytes_eq.trans h.bytes_eq
  offset_le := h'.offset_le
  rest_eq := by
    rw [h.rest_eq, h'.rest_eq, List.append_assoc]

theorem isEmpty_iff : cursor.isEmpty = true ↔ cursor.rest = [] := by
  rw [isEmpty, beq_iff_eq, remaining, rest, List.drop_eq_nil_iff]
  omega

theorem isEmpty_extend {extra : Bytes} (hoffset : cursor.offset ≤ cursor.bytes.length)
    (hextra : extra ≠ [])
    : (cursor.extend extra).isEmpty = false := by
  have hpos := List.length_pos_of_ne_nil hextra
  rw [isEmpty, beq_eq_false_iff_ne, remaining, extend, List.length_append]
  dsimp only
  omega

/-- A cursor with something left has something left when it is extended. -/
theorem not_isEmpty_extend {extra : Bytes} (h : ¬cursor.isEmpty = true)
    : ¬(cursor.extend extra).isEmpty = true := by
  rw [isEmpty, beq_iff_eq, remaining] at h ⊢
  rw [extend, List.length_append]
  dsimp only
  omega

/-- A reader takes the bytes of its value, whatever comes behind them. -/
structure ReadsAs {α : Type} (read : Cursor → Except Error (α × Cursor)) (encode : α → Bytes)
    : Prop where
  takes : ∀ {cursor a cursor'}, read cursor = .ok (a, cursor') → cursor.Takes cursor' (encode a)
  extend : ∀ {cursor a cursor'}, read cursor = .ok (a, cursor') → ∀ extra,
    read (cursor.extend extra) = .ok (a, cursor'.extend extra)

theorem readBytes_eq_ok {len : Nat} {context : String} {part : Bytes}
    (h : cursor.readBytes len context = .ok (part, cursor'))
    : cursor.Takes cursor' part ∧ part.length = len
        ∧ ∀ extra, (cursor.extend extra).readBytes len context
          = .ok (part, cursor'.extend extra) := by
  simp only [readBytes, except_bind_eq_ok, okOr_eq_ok, checkedAdd_eq_some, except_pure_eq_ok,
    Prod.mk.injEq] at h
  obtain ⟨_, ⟨rfl, hlt⟩, bytes, hget, rfl, rfl⟩ := h
  have hlen := Bytes.length_of_get? hget
  obtain ⟨hle, hstop, hbytes⟩ := Bytes.get?_eq_some_iff.mp hget
  refine ⟨⟨rfl, hstop, ?_⟩, by omega, ?_⟩
  . rw [rest, rest, hbytes, Nat.add_sub_cancel_left, ← List.drop_drop, List.take_append_drop]
  . intro extra
    have hextended : (cursor.bytes ++ extra).get? cursor.offset (cursor.offset + len)
        = some bytes := by
      rw [Bytes.get?_eq_some_iff, List.length_append]
      refine ⟨hle, by omega, ?_⟩
      rw [hbytes, List.drop_append_of_le_length (by omega), List.take_append_of_le_length]
      rw [List.length_drop]
      omega
    unfold readBytes extend
    dsimp only
    rw [checkedAdd_eq_some.mpr ⟨rfl, hlt⟩, okOr_some, except_ok_bind, hextended, okOr_some,
      except_ok_bind]
    rfl

/-- A number is read as it is written in its width. -/
theorem readsAs_number {width : Nat} {context : String}
    {read : Cursor → String → Except Error (Nat × Cursor)}
    (hread : ∀ cursor, read cursor context
      = cursor.readBytes width context >>= fun part => .ok (Bytes.toBE part.1, part.2))
    : ReadsAs (read · context) (Bytes.ofBE width) where
  takes := by
    intro cursor n cursor' h
    rw [hread, except_bind_eq_ok] at h
    obtain ⟨⟨part, last⟩, h, heq⟩ := h
    cases heq
    obtain ⟨htakes, rfl, -⟩ := readBytes_eq_ok h
    rwa [Bytes.ofBE_toBE]
  extend := by
    intro cursor n cursor' h extra
    rw [hread, except_bind_eq_ok] at h
    obtain ⟨⟨part, last⟩, h, heq⟩ := h
    cases heq
    rw [hread, (readBytes_eq_ok h).2.2 extra]
    rfl

theorem readU8_readsAs (context : String) : ReadsAs (readU8 · context) (Bytes.ofBE 1) :=
  readsAs_number fun _ => rfl

theorem readU16Be_readsAs (context : String) : ReadsAs (readU16Be · context) (Bytes.ofBE 2) :=
  readsAs_number fun _ => rfl

theorem readU32Be_readsAs (context : String) : ReadsAs (readU32Be · context) (Bytes.ofBE 4) :=
  readsAs_number fun _ => rfl

theorem readU64Be_readsAs (context : String) : ReadsAs (readU64Be · context) (Bytes.ofBE 8) :=
  readsAs_number fun _ => rfl

end Cursor

end Mdict
