import Sep2Client.Exi.Driver

/-!
# The bytes the primitives load

The models of `Sep2Client.Exi.Parser` describe what the primitives compute; this file records which
bytes they load, as offsets from `ptr`, in the order of the C statements.  A load at an offset at
or past the number of bytes left reads past `end`.

`parse_byte` checks `need` before it loads, so it stays inside the buffer (`parseByteReads_lt`).
`parse_bits` loads `*p->ptr` before its `need` check, and its loop loads `bytes` more bytes after
it, one more than `need` asked for when the final bit offset is `0`.  It reads past `end` exactly
when the buffer is empty or the final offset is `0` and exactly `bytes` bytes remain
(`parseBitsReads_past_end_iff`), as for the byte kinds on their last byte
(`parseBits_reads_past_end`).
-/

namespace Sep2Client

/-- The offsets `parse_byte (&b, p)` loads: none when `need` fails, else `*p->ptr` and, at a
non-zero bit offset, the byte after it. -/
def parseByteReads (p : Parser) : List Nat :=
  if p.bit ≠ 0 then (if p.buf.length < 2 then [] else [0, 1])
  else (if p.buf.length < 1 then [] else [0])

/-- `parse_byte` loads only bytes inside the buffer. -/
theorem parseByteReads_lt (p : Parser) : ∀ i ∈ parseByteReads p, i < p.buf.length := by
  unfold parseByteReads
  split_ifs with h₁ h₂ h₃ <;> simp <;> omega

/-- The offsets `parse_bits (&result, p, n)` loads: `*p->ptr`, then, when `need` passes, the
`bytes` bytes after it, one per pass of the loop. -/
def parseBitsReads (p : Parser) (n : Nat) : List Nat :=
  let bit := p.bit + n
  let bytes := bit / 8
  let fin := bit % 8
  0 :: (if p.buf.length < (if fin ≠ 0 then bytes + 1 else bytes) then []
    else (List.range bytes).map (· + 1))

/-- The loads of `parse_bits` are the ones its model reads through `getD`: the first byte and the
`bytes` after it, when `need` passes. -/
theorem parseBitsReads_of_need {p : Parser} {n : Nat}
    (h : ¬ p.buf.length < (if (p.bit + n) % 8 ≠ 0 then (p.bit + n) / 8 + 1 else (p.bit + n) / 8)) :
    parseBitsReads p n = List.range ((p.bit + n) / 8 + 1) := by
  simp only [parseBitsReads]
  rw [if_neg h, List.range_succ_eq_map]

/-- `parse_bits` loads a byte past `end` exactly when the buffer is empty, or when the final bit
offset is `0` and exactly the `bytes ≥ 1` bytes `need` asked for remain. -/
theorem parseBitsReads_past_end_iff (p : Parser) (n : Nat) :
    (∃ i ∈ parseBitsReads p n, p.buf.length ≤ i) ↔
      p.buf = [] ∨
        ((p.bit + n) % 8 = 0 ∧ 0 < (p.bit + n) / 8 ∧ p.buf.length = (p.bit + n) / 8) := by
  simp only [parseBitsReads, List.mem_cons, exists_eq_or_imp, Nat.le_zero, List.length_eq_zero]
  refine or_congr_right ⟨fun ⟨i, hi, hle⟩ => ?_, fun ⟨hfin, hpos, hlen⟩ => ?_⟩
  · split_ifs at hi <;> simp only [List.mem_map, List.mem_range, List.not_mem_nil] at hi <;>
      obtain ⟨j, hj, rfl⟩ := hi <;> omega
  · refine ⟨(p.bit + n) / 8, ?_, le_of_eq hlen⟩
    rw [if_neg (by simp only [hfin, ne_eq, not_true_eq_false, if_false]; omega)]
    exact List.mem_map.mpr ⟨(p.bit + n) / 8 - 1, List.mem_range.mpr (by omega), by omega⟩

/-- `parse_bits (&x, p, 8)` on the last byte of the buffer at offset `0`, as `exi_parse_value`
does for an `unsignedByte`: the call succeeds with the byte, and loads the byte at `end`. -/
theorem parseBits_reads_past_end :
    (parseBits (exiParseInit [0xAB]) 8).map Prod.fst = some 0xAB ∧
      parseBitsReads (exiParseInit [0xAB]) 8 = [0, 1] ∧ (exiParseInit [0xAB]).buf.length = 1 :=
  ⟨rfl, rfl, rfl⟩

end Sep2Client
