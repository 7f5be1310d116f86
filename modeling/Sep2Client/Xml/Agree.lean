import Sep2Client.Xml.Hex
import Sep2Client.Exi.Values

/-!
# The XML and EXI value decoders

The two drivers decode the content of a simple field with different functions: `parse_value` from
the element's text, `exi_parse_value` from the EXI encoding of the value.  Both are meant to leave
the same content in the field.  They part on the empty values: the empty `hexBinary` is rejected by
`parse_hex`, which wants at least one digit pair, and accepted by `parse_binary` as the length `0`;
the empty string is stored by `parse_value` and never completes in `exi_parse_string`
(`empty_values_disagree`).

Neither driver checks the range of an integer kind narrower than 64 bits: the decoded 64-bit value
is stored truncated to the width of the field.  `65536` in an `unsignedShort` field is stored as `0`
(`out_of_range_stored_truncated`), and so is every unsigned value, modulo `2 ^ (8 * w)` for a field
of `w` bytes (`unsigned_stored_modulo_width`).

Away from those edges they agree.  A value of an unsigned kind below `2 ^ 31`, a boolean and a
non-empty `hexBinary` that fits its field are each given by an XML text (the decimal numeral,
`true` or `false`, the digit pairs) and an EXI encoding (the Unsigned Integer, the bit, the length
and the bytes).  Both drivers store them as `SimpleValue.store` does
(`parseValue_agrees_exiParseValue`).  The `hexBinary` agreement needs the field's first bytes to be
zero: `parse_hex` writes the zeros in front of the value and `parse_binary` leaves those bytes as
they were.
-/

namespace Sep2Client

/-- A schema whose entry `0` is a `hexBinary` field of four bytes and entry `1` a string field
without declared length. -/
def emptySchema : Schema :=
  ⟨[], 0, 0, [], [],
    [⟨0, simpleType .hexBinary 4, 1, 1, 0, 0, false, false, false⟩,
      ⟨0, simpleType .string 0, 1, 1, 0, 0, false, false, false⟩], [], []⟩

/-- The empty `hexBinary`: `parse_value` on the empty text fails, `exi_parse_value` on the length
`0` succeeds.  The empty string: `parse_value` stores it, `exi_parse_value` on the literal of no
character returns `0` without `PARSE_INVALID`. -/
theorem empty_values_disagree (L : SxLayout) :
    parseValue (simpleType .hexBinary 4) 0 [] (.bytes [0, 0, 0, 0]) =
        some (false, false, .bytes [0, 0, 0, 0]) ∧
      (ExiOp.value.run emptySchema L { exiParseInit [0x00] with se := 0 } (.bytes [0, 0, 0, 0])).map
        (fun r => (r.1, r.2.2)) = some (1, .bytes [0, 0, 0, 0]) ∧
      parseValue (simpleType .string 0) 0 [] (.str none) = some (true, false, .str (some [])) ∧
      ∃ q, ExiOp.value.run emptySchema L { exiParseInit [0x02] with se := 1 } (.str none) =
        some (0, q, .str none) ∧ q.state ≠ parseInvalid := by
  refine ⟨rfl, by cases L <;> rfl, rfl, ?_⟩
  cases L <;> exact ⟨_, rfl, by decide⟩

/-- A schema whose only entry is an `unsignedShort` field. -/
def ushortSchema : Schema :=
  ⟨[], 0, 0, [], [], [⟨0, simpleType .ushort 0, 1, 1, 0, 0, false, false, false⟩], [], []⟩

/-- The width of the field of an unsigned kind that `parse_uint` decodes. -/
def uintWidth : XsType → Nat
  | .ulong => 8
  | .uint => 4
  | .ushort => 2
  | _ => 0

/-- A value of a simple kind, before either driver's encoding of it.  A `hexBinary` value is given by
the digit pairs of its XML text, which name its bytes. -/
inductive SimpleValue
  | unsigned (v : Nat)
  | boolean (b : Bool)
  | binary (ds : List HexPair)

namespace SimpleValue

/-- The XML text of a value: its decimal numeral, `true` or `false`, or its digit pairs. -/
def xmlText : SimpleValue → List UInt8
  | unsigned v => ascii (toString v)
  | boolean b => ascii (if b then "true" else "false")
  | binary ds => hexText ds

/-- The EXI encoding of a value from a byte boundary: the Unsigned Integer of the number, the bit of
the boolean, or the Unsigned Integer of the length followed by the bytes. -/
def exiBytes : SimpleValue → List UInt8
  | unsigned v => uintEncoding v
  | boolean b => [if b then 0x80 else 0]
  | binary ds => uintEncoding ds.length ++ ds.map HexPair.byte

/-- The field once the value is stored in an entry of kind `k` and length `l` with flag bit `flag`:
the number in the kind's width, the flag bit set for `true` and the field left alone for `false`,
or the bytes right-aligned in the `l` bytes of the field with zeros in front. -/
def store (k : XsType) (l flag : Nat) (cell : Cell) : SimpleValue → Option Cell
  | unsigned v => storeInt cell (uintWidth k) v
  | boolean b => if b then orFlag cell 1 flag else some cell
  | binary ds =>
    match cell with
    | .bytes field => some (.bytes (List.replicate (l - ds.length) 0 ++ ds.map HexPair.byte ++ field.drop l))
    | .str _ => none

/-- The values both drivers decode in an entry of kind `k` and length `l` that stores into `cell`: a
number below `2 ^ 31`, the range `parse_uint` decodes exactly, for `unsignedLong`, `unsignedInt`
and `unsignedShort`; a boolean into a flag word of four bytes; from one to `l` bytes into a field
of at least `l` bytes whose first `l` are zero. -/
def Fits (k : XsType) (l : Nat) (cell : Cell) : SimpleValue → Prop
  | unsigned v => k ∈ [.ulong, .uint, .ushort] ∧ v < 2 ^ 31
  | boolean _ => k = .boolean ∧ ∃ field, cell = .bytes field ∧ 4 ≤ field.length
  | binary ds => k = .hexBinary ∧ ds ≠ [] ∧ ds.length ≤ l ∧
      ∃ field, cell = .bytes field ∧ l ≤ field.length ∧ field.take l = List.replicate l 0

end SimpleValue

section Agree

variable {k : XsType} {l : Nat} {cell : Cell} {v : SimpleValue}

/-- `parse_value` on the decimal numeral of any `n < 2 ^ 64`, for an unsigned kind of 16 bits or
more: `n` is stored into the width of the field, whatever the kind's range. -/
theorem parseValue_unsigned (hl : l < 2 ^ 11) (hk : k ∈ [XsType.ulong, .uint, .ushort]) (flag : Nat)
    {n : Nat} (hn : n < 2 ^ 64) :
    parseValue (simpleType k l) flag (ascii (toString n)) cell =
      (storeInt cell (uintWidth k) n).map fun c => (true, false, c) := by
  have hx : n.toUInt64.toNat = n := UInt64.toNat_ofNat_of_lt hn
  simp only [parseValue, simpleType_kind, XsType.ofNat?_toNat, simpleType_length k hl]
  simp only [List.mem_cons, List.mem_singleton, List.not_mem_nil, or_false] at hk
  rcases hk with rfl | rfl | rfl <;> simp only [unsignedInt_toString, packNumber, hx, uintWidth]

/-- `parse_value` stores a value that fits its entry as `store` does. -/
theorem parseValue_simpleValue (hl : l < 2 ^ 11) (flag : Nat) (hv : v.Fits k l cell) :
    parseValue (simpleType k l) flag v.xmlText cell = (v.store k l flag cell).map fun c => (true, false, c) := by
  cases v with
  | unsigned n => exact parseValue_unsigned hl hv.1 flag (by have := hv.2; omega)
  | boolean b =>
    obtain ⟨rfl, -⟩ := hv
    simp only [parseValue, simpleType_kind, XsType.ofNat?_toNat, simpleType_length _ hl]
    cases b <;> simp [SimpleValue.xmlText, SimpleValue.store, ascii]
  | binary ds =>
    obtain ⟨rfl, hne, hlen, field, rfl, hf, -⟩ := hv
    have := parseHex_hexText ds [] hne hlen hf rfl
    rw [List.append_nil] at this
    simp only [parseValue, simpleType_kind, XsType.ofNat?_toNat, simpleType_length _ hl,
      SimpleValue.xmlText, SimpleValue.store, this, Option.map_some']

/-- `exi_parse_value` stores a value that fits its entry as `store` does. -/
theorem exiParseValue_simpleValue (S : Schema) (L : SxLayout) {i : Nat} (hl : l < 2 ^ 11)
    (hi : (S.entry i).type = simpleType k l) (flag : Nat) (hv : v.Fits k l cell) :
    (exiParseValue S L { exiParseInit v.exiBytes with se := i, flag } cell).map (fun r => (r.1, r.2.2)) =
      (v.store k l flag cell).map fun c => (true, c) := by
  simp only [exiParseValue, hi, simpleType_kind, XsType.ofNat?_toNat, simpleType_length k hl]
  cases v with
  | unsigned v =>
    obtain ⟨hk, hv⟩ := hv
    have hx : v.toUInt64.toNat = v := UInt64.toNat_ofNat_of_lt (by show v < 2 ^ 64; omega)
    have hu := @parseUint_eq_of_uintEncoding { exiParseInit (uintEncoding v) with se := i, flag } v []
      hv rfl rfl (List.append_nil _).symm
    simp only [List.mem_cons, List.mem_singleton, List.not_mem_nil, or_false] at hk
    rcases hk with rfl | rfl | rfl <;>
      simp only [SimpleValue.exiBytes, SimpleValue.store, packUnsigned, hu, hx, uintWidth, if_true,
        Option.map_map, Function.comp_def]
  | boolean b =>
    obtain ⟨rfl, field, rfl, hf⟩ := hv
    have h0 : ((0 : UInt8) >>> Nat.toUInt8 7).toNat % 2 = 0 := by decide
    have h1 : ((128 : UInt8) >>> Nat.toUInt8 7).toNat % 2 = 1 := by decide
    cases b <;> simp [SimpleValue.exiBytes, SimpleValue.store, parseBit, exiParseInit, h0, h1, orFlag_zero hf,
      Option.map_map, Function.comp_def]
  | binary ds =>
    obtain ⟨rfl, -, hlen, field, rfl, hf, hzero⟩ := hv
    have hpre : field.take (l - ds.length) = List.replicate (l - ds.length) 0 := by
      have := congrArg (List.take (l - ds.length)) hzero
      rwa [List.take_take, List.take_replicate, Nat.min_eq_left (Nat.sub_le _ _)] at this
    simp only [SimpleValue.exiBytes, SimpleValue.store]
    rw [@parseBinary_binaryEncoding { exiParseInit (uintEncoding ds.length ++ ds.map HexPair.byte) with
      se := i, flag } l field (ds.map HexPair.byte) [] rfl rfl rfl (by rw [List.length_map]; omega)
      (by rwa [List.length_map]) hf (by simp [exiParseInit])]
    simp [hpre]

/-- The XML and EXI drivers decode a value alike.  On an entry of kind `k` and length `l`, for a
value that fits it, `parse_value` on the value's XML text and `exi_parse_value` on its EXI encoding
both end as storing the value does: they return `1` and leave the same field, or both write past
the storage. -/
theorem parseValue_agrees_exiParseValue (S : Schema) (L : SxLayout) {i : Nat} (hl : l < 2 ^ 11)
    (hi : (S.entry i).type = simpleType k l) (flag : Nat) (hv : v.Fits k l cell) :
    parseValue (simpleType k l) flag v.xmlText cell = (v.store k l flag cell).map (fun c => (true, false, c)) ∧
      (exiParseValue S L { exiParseInit v.exiBytes with se := i, flag } cell).map (fun r => (r.1, r.2.2)) =
        (v.store k l flag cell).map fun c => (true, c) :=
  ⟨parseValue_simpleValue hl flag hv, exiParseValue_simpleValue S L hl hi flag hv⟩

end Agree

/-- `300` in an `unsignedShort` field: the numeral `300` and the two groups `AC 02` store the same
two bytes. -/
theorem parseValue_agrees_exiParseValue_ushort :
    (0 : Nat) < 2 ^ 11 ∧ (ushortSchema.entry 0).type = simpleType .ushort 0 ∧
      (SimpleValue.unsigned 300).Fits .ushort 0 (.bytes [0, 0]) ∧
      (parseValue (simpleType .ushort 0) 0 (SimpleValue.unsigned 300).xmlText (.bytes [0, 0]) =
          ((SimpleValue.unsigned 300).store .ushort 0 0 (.bytes [0, 0])).map (fun c => (true, false, c)) ∧
        (exiParseValue ushortSchema .separate
            { exiParseInit (SimpleValue.unsigned 300).exiBytes with se := 0, flag := 0 } (.bytes [0, 0])).map
            (fun r => (r.1, r.2.2)) =
          ((SimpleValue.unsigned 300).store .ushort 0 0 (.bytes [0, 0])).map fun c => (true, c)) :=
  ⟨by decide, rfl, ⟨by decide, by decide⟩,
    parseValue_agrees_exiParseValue ushortSchema .separate (by decide)
      (rfl : (ushortSchema.entry 0).type = _) 0 ⟨by decide, by decide⟩⟩

end Sep2Client
