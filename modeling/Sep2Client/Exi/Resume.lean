import Sep2Client.Exi.Driver

/-!
# Resuming the EXI driver

The caller of a driver operation that returns `0` without `PARSE_INVALID` supplies a longer buffer
through `exi_rebuffer`, holding the bytes not yet consumed followed by the new ones, and calls the
operation again (`resumeRun`).  For this to be sound an operation must either keep its progress in
sub-states or consume nothing before it runs out of bytes, and `0` must never be the final answer
to a complete item.

Neither holds everywhere.

* `exi_parse_start` consumes the header and then needs more bytes for the event code of the
  document element; the second call parses the header again from the bytes after it
  (`start_not_resumable`).
* `exi_utf8_length` returns `0` for a literal of no character, which `exi_parse_string` reads as
  "bytes missing": the empty string never decodes, whatever follows
  (`exiParseString_empty_literal`, `empty_literal_never_completes`).
-/

namespace Sep2Client

variable (S : Schema) (L : SxLayout)

/-- The resumption protocol on `op`: run it; when it returns `0` without `PARSE_INVALID`, rebuffer
with the bytes not consumed followed by `more`, and run it again. -/
def resumeRun (op : ExiOp) (p : Parser) (cell : Cell) (more : List UInt8) :
    Option (Int × Parser × Cell) := do
  let (r, q, cell) ← op.run S L p cell
  if r = 0 ∧ q.state ≠ parseInvalid then op.run S L (exiRebuffer q (q.buf ++ more)) cell
  else pure (r, q, cell)

/-- `parse_uint` on the single group `0x02` at a byte boundary, with no group pending. -/
theorem parseUint_two (p : Parser) (rest : List UInt8) (hn : p.uxN = 0) (hb : p.bit = 0)
    (hbuf : p.buf = 0x02 :: rest) :
    parseUint p = (true, { p with buf := rest, ux := 2, uxN := 0 }) := by
  have hterm : (0 : UInt64) ||| groupTerm 0x02 0 = 2 := by decide
  have hcont : (0x02 : UInt8) &&& 0x80 = 0 := by decide
  rw [parseUint, if_pos hn]
  simp only [hbuf, List.length_cons]
  rw [uintLoop]
  simp [hn, parseByte, hb, hbuf, hterm, hcont]

/-- An `exi_parse_string` call on the string code `2`, a literal of no character, consumes the
code, keeps `exi_state = 1` and returns `0` without `PARSE_INVALID`, whatever follows it. -/
theorem exiParseString_empty_literal (p : Parser) (cell : Cell) (n : Nat) (rest : List UInt8)
    (hs : p.exiState = 0) (hn : p.uxN = 0) (hb : p.bit = 0) (hbuf : p.buf = 0x02 :: rest) :
    exiParseString S p cell n =
      some (false, { p with buf := rest, ux := 2, uxN := 0, exiState := 1 }, cell) := by
  have h0 : toCInt 0 = 0 := rfl
  have hlen : toCInt (Nat.toUInt64 0) = 0 := rfl
  simp [exiParseString, hs, parseUint_two p rest hn hb hbuf, stringValue, h0, hlen, exiUtf8Length]

/-- On an entry of kind `XS_STRING`, `exi_parse_value` is `exi_parse_string` with the declared
length. -/
theorem exiParseValue_string (p : Parser) (cell : Cell) (i : Nat) (hse : p.se = i)
    (h : XsType.ofNat? (((S.entry i).type ^^^ stSimple) &&& 0xf) = some .string) :
    exiParseValue S L p cell = exiParseString S p cell (((S.entry i).type ^^^ stSimple) >>> 4) := by
  simp only [exiParseValue, hse, h]

/-! ## Fixed inputs

The inputs are read against `tinySchema`, with the identifier `"S1"`, two global elements, and a
string field without declared length (a `char *`) at entry `2`. -/

/-- The document `"$EXI"`, header `0xa0`, the options document for `"S1"` (which ends at bit 7 of
its last byte) and a two-bit event code that needs one byte more.  Run at once it starts the
document; split before that last byte, the second call of `exi_parse_start` parses the header
again from the leftover byte and waits for more input. -/
theorem start_not_resumable :
    ((ExiOp.start.run tinySchema L
        (exiParseInit [0x24, 0x45, 0x58, 0x49, 0xA0, 0x30, 0x11, 0x4C, 0xC6, 0x00]) (.str none)).map
        (·.1) = some 1) ∧
      ((resumeRun tinySchema L .start
        (exiParseInit [0x24, 0x45, 0x58, 0x49, 0xA0, 0x30, 0x11, 0x4C, 0xC6]) (.str none)
        [0x00]).map (·.1) = some 0) := by
  cases L <;> exact ⟨rfl, rfl⟩

/-- The string code `2` followed by any bytes: `exi_parse_value` on the string field returns `0`
without `PARSE_INVALID`, so however the buffer is extended the call never completes. -/
theorem empty_literal_never_completes (ext : List UInt8) :
    ∃ q, ExiOp.value.run tinySchema L { exiParseInit (0x02 :: ext) with se := 2 } (.str none) =
      some (0, q, .str none) ∧ q.state ≠ parseInvalid := by
  refine ⟨{ exiParseInit ext with se := 2, ux := 2, exiState := 1 }, ?_,
    by simp [exiParseInit, parseInvalid]⟩
  rw [ExiOp.run, exiParseValue_string tinySchema L _ _ 2 rfl (by decide),
    exiParseString_empty_literal tinySchema _ _ _ ext rfl rfl rfl rfl]
  rfl

end Sep2Client
