import Sep2Client.Exi.Strings

/-!
# The EXI driver

The nine operations of `exi_parser`: `exi_parse_start` reads the EXI header and the event code of
the document element, `exi_parse_next`, `exi_xsi_type`, `exi_parse_end` and `exi_parse_sequence`
read event codes, `exi_parse_value` and `exi_parse_simple` decode a simple value into a field, and
`exi_rebuffer` installs a longer buffer.  Each returns the C return value; `PARSE_INVALID` is
reported through `state`.

IEEE 2030.5 fixes the EXI options, so `exi_parse_header` only checks the header byte `0xa0`, the
six bits of the options document, the `schemaId` literal (decoded into a 64-byte local buffer) and
the end-element bit.  It writes past that buffer: the guard `n && n < 64` admits the length `1`,
whose character count is `-1`, and up to 61 characters of several bytes each
(`header_overflows_schemaId`).
-/

namespace Sep2Client

/-- A `StackItem` as the sequence operation reads it: the entry and how many times it matched. -/
structure StackItem where
  se : Nat
  count : Nat

variable (S : Schema) (L : SxLayout)

/-- `pack_signed (dest, p)`: `parse_integer`, then store `sx` in a `w`-byte field. -/
def packSigned (p : Parser) (cell : Cell) (w : Nat) : Option (Bool × Parser × Cell) :=
  let (ok, p) := parseInteger L p
  if ok then (storeInt cell w (L.get p).toNat).map fun cell => (true, p, cell)
  else some (false, p, cell)

/-- `pack_unsigned (dest, p)`: `parse_uint`, then store `ux` in a `w`-byte field. -/
def packUnsigned (p : Parser) (cell : Cell) (w : Nat) : Option (Bool × Parser × Cell) :=
  let (ok, p) := parseUint p
  if ok then (storeInt cell w p.ux.toNat).map fun cell => (true, p, cell)
  else some (false, p, cell)

/-- `parse_bits (&x, p, 8)` and store `f x` in a one-byte field, as the byte kinds do. -/
def packByte (p : Parser) (cell : Cell) (f : UInt32 → Nat) : Option (Bool × Parser × Cell) :=
  match parseBits p 8 with
  | none => some (false, p, cell)
  | some (x, p) => (storeInt cell 1 (f x)).map fun cell => (true, p, cell)

/-- `exi_parse_value (p, value)`: decode the simple type of `p->se` into the field.  `none` is a
write past the field. -/
def exiParseValue (p : Parser) (cell : Cell) : Option (Bool × Parser × Cell) :=
  let type := (S.entry p.se).type ^^^ stSimple
  let n := type >>> 4
  match XsType.ofNat? (type &&& 0xf) with
  | some .string => exiParseString S p cell n
  | some .boolean =>
    match parseBit p with
    | none => some (false, p, cell)
    | some (b, p) => (orFlag cell b p.flag).map fun cell => (true, p, cell)
  | some .hexBinary =>
    match cell with
    | .bytes field => (parseBinary p n field).map fun (ok, p, field) => (ok, p, .bytes field)
    | .str _ => none
  | some .anyUri => exiParseString S p cell 0
  | some .long => packSigned L p cell 8
  | some .int => packSigned L p cell 4
  | some .short => packSigned L p cell 2
  | some .byte => packByte p cell fun x => (x - 128).toNat
  | some .ulong => packUnsigned p cell 8
  | some .uint => packUnsigned p cell 4
  | some .ushort => packUnsigned p cell 2
  | some .ubyte => packByte p cell UInt32.toNat
  | _ => some (false, p, cell)

/-! ## Buffers -/

/-- `exi_rebuffer (p, data, length)`: read from `data` on. -/
def exiRebuffer (p : Parser) (data : List UInt8) : Parser :=
  { p with buf := data, truncated := false }

/-- `exi_parse_init (p, schema, data, length)`: a zeroed parser reading `data`, with an empty
global string table. -/
def exiParseInit (data : List UInt8) : Parser :=
  ⟨data, 0, 0, 0, 0, 0, 0, 0, 0, false, 0, 0, 0, 0, 0, [], [], false⟩

/-! ## The header -/

/-- The bytes of `"$EXI"`. -/
def exiMagic : List UInt8 := [0x24, 0x45, 0x58, 0x49]

/-- The options document after the header byte: six bits `x`, the `schemaId` length `n` (a C `int`
taken from `ux`), the literal of `n - 2` characters decoded into the 64-byte `schemaId`, and the
end-element bit, whose value is returned.  The results of `parse_bits` and `parse_uint` are not
checked.  `none` is a write past `schemaId`. -/
def exiOptions (p : Parser) : Option (Int × Parser) :=
  let (x, p) := (parseBits p 6).getD (0, p)
  let p := (parseUint p).2
  let n := toCInt p.ux
  if n ≠ 0 ∧ n < 64 then do
    let (bytes, p) ← parseLiteral p (n - 2)
    let _ ← writeAt (List.replicate 64 0) 0 bytes
    if x = 0xc ∧ cString bytes = S.schemaId then
      match parseBit p with
      | none => some (n - 2, p)
      | some (b, p) => some (b, p)
    else some (0, { p with state := parseInvalid })
  else some (0, { p with state := parseInvalid })

/-- `exi_parse_header (p)`: skip `"$EXI"` when present, `need` five bytes, check the header byte
`0xa0`, then the options document.  `memcmp` reads four bytes whatever the buffer holds; the model
compares the bytes present, and fewer than four never match. -/
def exiParseHeader (p : Parser) : Option (Int × Parser) :=
  let p := if p.buf.take 4 = exiMagic then { p with buf := p.buf.drop 4 } else p
  if p.buf.length < 5 then some (0, p)
  else if p.buf.head? = some 0xa0 then exiOptions S { p with buf := p.buf.drop 1 }
  else some (0, { p with buf := p.buf.drop 1, state := parseInvalid })

/-- `exi_parse_start (p)`: the header, then the event code of the document element. -/
def exiParseStart (p : Parser) : Option (Int × Parser) := do
  let (h, p) ← exiParseHeader S p
  if h = 0 then some (0, p)
  else
    match parseBits p (bitCount S.length) with
    | none => some (0, p)
    | some (type, p) =>
      let p := { p with type := type.toNat }
      if type.toNat < S.length then some (1, { p with se := type.toNat, needToken := true })
      else some (0, { p with state := parseInvalid })

/-- A schema with the identifier `"S1"`, two global elements, and a string field without declared
length (a `char *`) at entry `2`. -/
def tinySchema : Schema :=
  ⟨[0x53, 0x31], 2, 0, [], [],
    [⟨0, 2, 0, 0, 0, 0, false, false, false⟩, ⟨0, 2, 0, 0, 0, 0, false, false, false⟩,
      ⟨0, simpleType .string 0, 1, 1, 0, 0, false, false, false⟩], ["A", "B"], []⟩

set_option maxRecDepth 10000 in
/-- Two options documents that `exi_parse_header` decodes past the 64 bytes of `schemaId`: the
length `1`, whose character count `-1` makes `parse_literal` run on, and the length `63` followed by
61 characters `U+0080`, whose UTF-8 takes 122 bytes. -/
theorem header_overflows_schemaId :
    exiParseHeader tinySchema (exiParseInit [0xA0, 0x30, 0x04, 0x00, 0x00, 0x00]) = none ∧
      exiParseHeader tinySchema
        (exiParseInit ([0xA0, 0x30, 0xFE] ++ (List.replicate 61 [0x00, 0x06]).flatten)) = none :=
  ⟨rfl, rfl⟩

/-! ## Event codes -/

/-- `exi_event (p, se, count)`: when a token is needed, read a `bit_count (n)`-bit event code, where
`n` is the entry's field count, or `1` while `count` is below the minimum. -/
def exiEvent (p : Parser) (se : Nat) (count : Nat) : Bool × Parser :=
  if p.needToken then
    let e := S.entry se
    let p := { p with n := if e.n = 0 ∨ count < e.min then 1 else e.n }
    match parseBits p (bitCount p.n) with
    | none => (false, p)
    | some (token, p) => (true, { p with token := token.toNat, needToken := false })
  else (true, p)

/-- `exi_parse_next (p)`: the event code selects the next field of `p->se`. -/
def exiParseNext (p : Parser) : Bool × Parser :=
  if (S.entry p.se).n ≠ 0 then
    let (ok, p) := exiEvent S p p.se 0
    if !ok then (false, p)
    else if p.token ≥ p.n then (false, { p with state := parseInvalid })
    else
      let p := { p with se := p.se + p.token }
      if (S.entry p.se).n ≠ 0 then (true, { p with needToken := true, state := parseElement })
      else (true, { p with state := parseEnd })
  else (true, { p with state := parseEnd })

/-- Case 4 of `exi_xsi_type`: the local name, a `bit_count (count)`-bit index into `names`,
mapped to the type it names. -/
def xsiLocalName (p : Parser) : Int × Parser :=
  match parseBits p (bitCount S.count) with
  | none => (0, p)
  | some (n, p) =>
    let type := S.types.getD n.toNat 0
    if n.toNat ≥ S.count ∨ type = 0 then (0, { p with state := parseInvalid })
    else (type, { p with exiState := 0 })

/-- Case 3 of `exi_xsi_type`: the compact id of the URI, which must be `0`. -/
def xsiUriId (p : Parser) : Int × Parser :=
  let (ok, p) := parseUint p
  if !ok then (0, p)
  else if p.ux ≠ 0 then (0, { p with state := parseInvalid })
  else xsiLocalName S { p with exiState := 4 }

/-- Case 2 of `exi_xsi_type`: the three bits of the URI, which must be `5` (the target
namespace). -/
def xsiUri (p : Parser) : Int × Parser :=
  match parseBits p 3 with
  | none => (0, p)
  | some (n, p) =>
    if n ≠ 5 then (0, { p with state := parseInvalid }) else xsiUriId S { p with exiState := 3 }

/-- Case 1 of `exi_xsi_type`: the three bits of the `xsi:type` attribute event, which must be
`0`. -/
def xsiAttribute (p : Parser) : Int × Parser :=
  match parseBits p 3 with
  | none => (0, p)
  | some (n, p) =>
    if n ≠ 0 then (0, { p with state := parseInvalid }) else xsiUri S { p with exiState := 2 }

/-- `exi_xsi_type (p)`: `-1` when the event code is an ordinary one, the type named by an
`xsi:type` after the extended code `n`, `0` when incomplete or invalid.  The cases fall through,
so each step is the function of the next sub-state. -/
def exiXsiType (p : Parser) : Int × Parser :=
  match p.exiState with
  | 0 =>
    let (ok, p) := exiEvent S p p.se 0
    if !ok then (0, p)
    else if p.token = p.n then xsiAttribute S { p with exiState := 1 }
    else if p.token > p.n then (0, { p with state := parseInvalid })
    else (-1, p)
  | 1 => xsiAttribute S p
  | 2 => xsiUri S p
  | 3 => xsiUriId S p
  | 4 => xsiLocalName S p
  | _ => (0, { p with state := parseInvalid })

/-- `exi_parse_end (p, se)`: with a token needed, the end-element code is one bit that must be
`0`; otherwise the end was already read and the next call needs a token again. -/
def exiParseEnd (p : Parser) : Bool × Parser :=
  if p.needToken then
    match parseBit p with
    | none => (false, p)
    | some (n, p) => if n ≠ 0 then (false, { p with state := parseInvalid }) else (true, p)
  else (true, { p with needToken := true })

/-- `exi_parse_sequence (p, t)`: a zero event code repeats the element; any other ends the
sequence, moving the code down by one and the state on. -/
def exiParseSequence (p : Parser) (t : StackItem) : Bool × Parser :=
  let (ok, p) := exiEvent S p t.se t.count
  if ok then
    if p.token ≠ 0 then (false, { p with token := p.token - 1, state := p.state + 1 })
    else (true, { p with needToken := true })
  else (false, p)

/-! ## Simple elements -/

/-- Case 2 of `exi_parse_simple`: the empty content, a three-bit second-level code that must be
`0`. -/
def simpleEmpty (p : Parser) (cell : Cell) : Bool × Parser × Cell :=
  match parseBits p 3 with
  | none => (false, p, cell)
  | some (n, p) =>
    if n ≠ 0 then (false, { p with state := parseInvalid }, cell)
    else (true, { p with ch := 0, needToken := false }, cell)

/-- Case 1 of `exi_parse_simple`: the content, through `exi_parse_value`. -/
def simpleContent (p : Parser) (cell : Cell) : Option (Bool × Parser × Cell) :=
  (exiParseValue S L p cell).map fun (ok, p, cell) =>
    if ok then (true, { p with ch := 0 }, cell) else (false, p, cell)

/-- `exi_parse_simple (p, value)`: the characters bit, then the content or the empty-content
code. -/
def exiParseSimple (p : Parser) (cell : Cell) : Option (Bool × Parser × Cell) :=
  match p.ch with
  | 0 =>
    match parseBit p with
    | none => some (false, p, cell)
    | some (n, p) =>
      if n ≠ 0 then some (simpleEmpty { p with ch := 2 } cell)
      else simpleContent S L { p with ch := 1 } cell
  | 1 => simpleContent S L p cell
  | 2 => some (simpleEmpty p cell)
  | _ => some (false, p, cell)

/-! ## The driver operations -/

/-- The operations of `exi_parser` that decode. -/
inductive ExiOp
  | start
  | next
  | xsiType
  | end_
  | sequence (t : StackItem)
  | value
  | simple

/-- An operation's C return value, parser and field. -/
def ExiOp.run (p : Parser) (cell : Cell) : ExiOp → Option (Int × Parser × Cell)
  | .start => (exiParseStart S p).map fun (r, p) => (r, p, cell)
  | .next => let (ok, p) := exiParseNext S p; some (if ok then 1 else 0, p, cell)
  | .xsiType => let (r, p) := exiXsiType S p; some (r, p, cell)
  | .end_ => let (ok, p) := exiParseEnd p; some (if ok then 1 else 0, p, cell)
  | .sequence t => let (ok, p) := exiParseSequence S p t; some (if ok then 1 else 0, p, cell)
  | .value => (exiParseValue S L p cell).map fun (ok, p, cell) => (if ok then 1 else 0, p, cell)
  | .simple => (exiParseSimple S L p cell).map fun (ok, p, cell) => (if ok then 1 else 0, p, cell)

end Sep2Client
