import Mdict.Format.Open
import Mdict.Lemmas.Session

/-!
This module contains what the decoding of blocks and rows guarantees: its failures are settled, a
decoded block has its declared size, and the rows of a key block are as many as declared with
record starts that never decrease.
-/

namespace Mdict

open Effect

/-! ## Failures are settled -/

theorem decodeEncodingRs_settles {p : Platform} {encoding : LegacyEncoding} {bytes : Bytes}
    {context name : String}
    : Settles (TextEncoding.decodeEncodingRs p encoding bytes context name) := by
  refine .bind (.okOr rfl) fun _ => ?_
  cases p.decodeLegacy encoding bytes with
  | inputEmpty text read => exact .ite .pure (.error rfl)
  | malformed => exact .error rfl
  | outputFull => exact .error rfl

theorem decode_settles {p : Platform} {encoding : TextEncoding} {bytes : Bytes} {context : String}
    : Settles (encoding.decode p bytes context) := by
  cases encoding with
  | utf8 => exact .okOr rfl
  | utf16Le => exact .bind (.failIf rfl) fun _ => .bind (.okOr rfl) fun _ => .okOr rfl
  | gbk => exact decodeEncodingRs_settles
  | gb18030 => exact decodeEncodingRs_settles
  | big5 => exact decodeEncodingRs_settles

theorem maxDecodedLen_settles {p : Platform} {encoding : TextEncoding} {len : Nat}
    : Settles (encoding.maxDecodedLen p len) := by
  cases encoding with
  | utf8 => exact .ok
  | utf16Le => exact .okOr rfl
  | gbk => exact .okOr rfl
  | gb18030 => exact .okOr rfl
  | big5 => exact .okOr rfl

theorem splitTerminated_settles {encoding : TextEncoding} {bytes : Bytes} {offset : Nat}
    {context : String}
    : Settles (encoding.splitTerminated bytes offset context) := by
  refine .bind (.failIf rfl) fun _ => ?_
  cases encoding with
  | utf16Le =>
    exact .bind (.okOr rfl) fun _ => .bind (.okOr rfl) fun _ => .bind (.okOr rfl) fun _ =>
      .bind (.okOr rfl) fun _ => .pure
  | utf8 =>
    exact .bind (.okOr rfl) fun _ => .bind (.okOr rfl) fun _ => .bind (.okOr rfl) fun _ => .pure
  | gbk =>
    exact .bind (.okOr rfl) fun _ => .bind (.okOr rfl) fun _ => .bind (.okOr rfl) fun _ => .pure
  | gb18030 =>
    exact .bind (.okOr rfl) fun _ => .bind (.okOr rfl) fun _ => .bind (.okOr rfl) fun _ => .pure
  | big5 =>
    exact .bind (.okOr rfl) fun _ => .bind (.okOr rfl) fun _ => .bind (.okOr rfl) fun _ => .pure

theorem readBytes_settles {cursor : Cursor} {len : Nat} {context : String}
    : Settles (cursor.readBytes len context) :=
  .bind (.okOr rfl) fun _ => .bind (.okOr rfl) fun _ => .pure

theorem readU32Be_settles {cursor : Cursor} {context : String}
    : Settles (cursor.readU32Be context) :=
  .bind readBytes_settles fun _ => .pure

theorem readU64Be_settles {cursor : Cursor} {context : String}
    : Settles (cursor.readU64Be context) :=
  .bind readBytes_settles fun _ => .pure

theorem decodeKeyRowsFrom_settles {p : Platform} {readOffset : ReadField} {context : KeyRowContext}
    (hread : ∀ cursor context, Settles (readOffset cursor context)) (left : Nat)
    (previous : Option Nat) (cursor : Cursor)
    : Settles (decodeKeyRowsFrom p readOffset context left previous cursor) := by
  induction left generalizing previous cursor with
  | zero =>
    unfold decodeKeyRowsFrom
    exact .ite .ok (.error rfl)
  | succ left ih =>
    unfold decodeKeyRowsFrom
    exact .ite .ok (.bind (hread _ _) fun _ => .bind (.failIf rfl) fun _ => .bind (.failIf rfl)
      fun _ => .bind splitTerminated_settles fun _ => .bind decode_settles fun _ =>
      .bind (.okOr rfl) fun _ => .bind readBytes_settles fun _ => .bind (ih _ _) fun _ => .pure)

theorem decodeKeyRows_settles {wire : WireOperations} {p : Platform} {bytes : Bytes}
    {context : KeyRowContext}
    : Settles (wire.decodeKeyRows p bytes context) := by
  have hrows (readOffset : ReadField) (hread : ∀ cursor context, Settles (readOffset cursor context))
      : Settles (decodeKeyRowsWith p readOffset bytes context) :=
    .bind .checkedUsize fun _ => .bind (decodeKeyRowsFrom_settles hread _ _ _) fun _ =>
      .bind (.failIf rfl) fun _ => .pure
  cases wire with
  | v1 => exact hrows _ fun _ _ => readU32Be_settles
  | v2 => exact hrows _ fun _ _ => readU64Be_settles

theorem parseCompType_settles {bytes : Bytes} : Settles (parseCompType bytes) := by
  unfold parseCompType
  exact .ite .ok (.ite .ok (.ite .ok (.error rfl)))

theorem verifyChecksum_settles {policy : ChecksumPolicy} {context : String} {bytes : Bytes}
    {expected : Nat}
    : Settles (verifyChecksum policy context bytes expected) := by
  cases policy with
  | verify => exact .failIf rfl
  | skip => exact .ok

theorem decodePayload_steady {p : Platform} {compType : CompressionType} {context : String}
    {payload : Bytes} {len : Nat} {checksumPolicy : ChecksumPolicy}
    : Steady p (decodePayload p compType context payload len checksumPolicy) := by
  cases compType with
  | none => exact .bind (.liftM (.failIf rfl)) fun _ => .bind .log fun _ => .pure
  | zlib =>
    exact .bind .log fun _ => .bind (.liftM (.failIf rfl)) fun _ =>
      .bind (.liftM (.failIf rfl)) fun _ => .bind (.liftM (.failIf rfl)) fun _ => .pure
  | lzo =>
    unfold decodePayload decodeLzoBlock
    cases p.lzo with
    | none => exact .fail rfl
    | some decompress =>
      exact .bind .log fun _ => .bind (.liftM (.okOr rfl)) fun _ =>
        .bind (.liftM (.failIf rfl)) fun _ => .pure

theorem decodeBlock_steady {p : Platform} {context : String} {block : Bytes} {len : Nat}
    {limits : Limits} {checksumPolicy : ChecksumPolicy}
    : Steady p (decodeBlock context block len limits checksumPolicy) :=
  .bind (.liftM (.failIf rfl)) fun _ => .bind (.liftM (.ensureLimit rfl)) fun _ =>
    .bind (.liftM (.ensureLimit rfl)) fun _ => .bind (.liftM parseCompType_settles) fun _ =>
    .platform_bind (.bind decodePayload_steady fun _ => .bind (.liftM (.failIf rfl)) fun _ =>
    .bind (.liftM verifyChecksum_settles) fun _ => .pure)

/-! ## Results -/

/-- A decoded block has its declared size. -/
theorem length_of_decodeBlock {w : World} {s s' : Session} {context : String}
    {block decoded : Bytes} {len : Nat} {limits : Limits} {checksumPolicy : ChecksumPolicy}
    (h : decodeBlock context block len limits checksumPolicy w s = (.ok decoded, s'))
    : decoded.length = len := by
  simp only [decodeBlock, Prog.bind_eq_ok, liftM_eq_ok, failIf_eq_ok, Prog.pure_apply,
    Prod.mk.injEq, Except.ok.injEq, Decidable.not_not] at h
  obtain ⟨⟨⟩, _, -, ⟨⟩, _, -, ⟨⟩, _, -, _, _, -, _, _, -, _, _, -, ⟨⟩, _, ⟨hlen, -⟩, ⟨⟩, _, -, rfl,
    -⟩ := h
  exact hlen

/-- Record starts that never decrease, from `previous` on, and never exceed `total`. -/
def StartsFrom (total previous : Nat) (rows : List DecodedKeyRow) : Prop :=
  (∀ row ∈ rows, previous ≤ row.recordStart ∧ row.recordStart ≤ total)
    ∧ rows.Pairwise (fun a b => a.recordStart ≤ b.recordStart)

theorem StartsFrom.nil {total previous : Nat} : StartsFrom total previous [] :=
  ⟨by simp, .nil⟩

theorem StartsFrom.cons {total previous : Nat} {row : DecodedKeyRow} {rows : List DecodedKeyRow}
    (h : StartsFrom total row.recordStart rows) (hprevious : previous ≤ row.recordStart)
    (htotal : row.recordStart ≤ total)
    : StartsFrom total previous (row :: rows) := by
  constructor
  . intro other hother
    rw [List.mem_cons] at hother
    rcases hother with hother | hother
    . subst hother
      exact ⟨hprevious, htotal⟩
    . have := h.1 other hother
      omega
  . rw [List.pairwise_cons]
    exact ⟨fun other hother => (h.1 other hother).1, h.2⟩

theorem StartsFrom.of_isPrefix {total previous : Nat} {rows rows' : List DecodedKeyRow}
    (h : StartsFrom total previous rows') (hbegins : rows <+: rows')
    : StartsFrom total previous rows :=
  ⟨fun row hrow => h.1 row (hbegins.subset hrow), h.2.sublist hbegins.sublist⟩

theorem startsFrom_of_decodeKeyRowsFrom {p : Platform} {readOffset : ReadField}
    {context : KeyRowContext} {left : Nat} {previous : Option Nat} {cursor : Cursor}
    {rows : List DecodedKeyRow}
    (h : decodeKeyRowsFrom p readOffset context left previous cursor = .ok rows)
    : StartsFrom context.totalDecodedRecordLen (previous.getD 0) rows := by
  induction left generalizing previous cursor rows with
  | zero =>
    unfold decodeKeyRowsFrom at h
    split at h
    . injection h with h
      subst h
      exact .nil
    . contradiction
  | succ left ih =>
    unfold decodeKeyRowsFrom at h
    split at h
    . injection h with h
      subst h
      exact .nil
    . simp only [except_bind_eq_ok, failIf_eq_ok, except_pure_eq_ok, Prod.exists] at h
      obtain ⟨recordStart, cursor, -, ⟨⟩, htotal, ⟨⟩, hprevious, _, _, -, key, -, _, -, _, cursor,
        -, rest, hrest, rfl⟩ := h
      refine (ih hrest).cons ?_ (by dsimp only; omega)
      cases previous with
      | none => exact Nat.zero_le _
      | some previous =>
        simp only [Option.any_some, decide_eq_true_eq] at hprevious
        simp only [Option.getD_some]
        omega

/-- What a decoded key block guarantees: the declared number of rows, with ordered starts. -/
theorem decodeKeyRows_eq_ok {wire : WireOperations} {p : Platform} {bytes : Bytes}
    {context : KeyRowContext} {rows : List DecodedKeyRow}
    (h : wire.decodeKeyRows p bytes context = .ok rows)
    : rows.length = context.expectedEntries
        ∧ StartsFrom context.totalDecodedRecordLen 0 rows := by
  have hrows (readOffset : ReadField) (h : decodeKeyRowsWith p readOffset bytes context = .ok rows)
      : rows.length = context.expectedEntries
          ∧ StartsFrom context.totalDecodedRecordLen 0 rows := by
    simp only [decodeKeyRowsWith, except_bind_eq_ok, checkedUsize_eq_ok, failIf_eq_ok,
      except_pure_eq_ok, Decidable.not_not] at h
    obtain ⟨count, ⟨rfl, -⟩, rows', hrows, ⟨⟩, hlen, rfl⟩ := h
    exact ⟨hlen, startsFrom_of_decodeKeyRowsFrom hrows⟩
  cases wire with
  | v1 => exact hrows _ h
  | v2 => exact hrows _ h

end Mdict
