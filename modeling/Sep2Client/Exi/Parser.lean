import Sep2Client.Schema.Core

/-!
# The EXI bit stream

`exi_parse.c` decodes EXI from a byte buffer `[ptr, end)` read at a bit offset `bit`.  Every
primitive first checks `need (p, n)`, that `n` bytes remain, and returns `0` without touching the
parser when they do not; the caller then supplies a longer buffer through `exi_rebuffer` and calls
again.  Decoders that span several primitives keep their progress in sub-states (`ux`, `ux_n`,
`sign`, `exi_state`) so that a second call resumes where the first one stopped.

This file models the parser state and the primitives `parse_byte`, `parse_bit`, `parse_bits`,
`parse_uint`, `parse_binary` and `parse_integer`.  The buffer is the list of bytes from `ptr` to
`end`: consuming a byte drops it.
-/

namespace Sep2Client

/-- Modelled from the spec: the states of the parser are declared in `parse.c`, which is not among
the sources.  The spec names them `NEXT`, `ELEMENT`, `END` and `INVALID`; they are numbered in
that order. -/
def parseNext : Nat := 0

/-- Modelled from the spec: `PARSE_ELEMENT` (see `parseNext`). -/
def parseElement : Nat := 1

/-- Modelled from the spec: `PARSE_END` (see `parseNext`). -/
def parseEnd : Nat := 2

/-- Modelled from the spec: `PARSE_INVALID` (see `parseNext`). -/
def parseInvalid : Nat := 3

/-- The fields of `Parser` that the EXI driver reads and writes.  `buf` is `[ptr, end)`; `se` is
the index of the entry `p->se` points to; `localTable` and `globalTable` are `p->local` and
`p->global`, the per-name string tables and the global one. -/
structure Parser where
  buf : List UInt8
  bit : Nat
  ux : UInt64
  uxN : Nat
  sx : UInt64
  sign : Nat
  exiState : Nat
  ch : Nat
  state : Nat
  needToken : Bool
  token : Nat
  n : Nat
  se : Nat
  type : Nat
  flag : Nat
  localTable : List (String × List (List UInt8))
  globalTable : List (List UInt8)
  truncated : Bool
deriving Repr, DecidableEq

/-- Where `p->sx` is stored.  The `Parser` declaration is in `parse.c`, which is not among the
sources, so whether `sx` is a field of its own or shares a union with `ux` is a parameter. -/
inductive SxLayout
  | separate
  | sharedWithUx
deriving Repr, DecidableEq

namespace SxLayout

/-- The bits `p->sx` reads. -/
def get : SxLayout → Parser → UInt64
  | .separate, p => p.sx
  | .sharedWithUx, p => p.ux

/-- `p->sx = v`. -/
def set : SxLayout → Parser → UInt64 → Parser
  | .separate, p, v => { p with sx := v }
  | .sharedWithUx, p, v => { p with ux := v }

end SxLayout

/-! ## Bytes and bits -/

/-- `parse_byte (&b, p)`: the next eight bits.  At a non-zero bit offset they straddle two bytes,
so two must remain. -/
def parseByte (p : Parser) : Option (UInt8 × Parser) :=
  if p.bit ≠ 0 then
    if p.buf.length < 2 then none
    else some ((p.buf.getD 0 0 <<< p.bit.toUInt8) ||| (p.buf.getD 1 0 >>> (8 - p.bit).toUInt8),
      { p with buf := p.buf.drop 1 })
  else
    match p.buf with
    | [] => none
    | b :: rest => some (b, { p with buf := rest })

/-- `parse_byte` called `m` times, as the loop of `parse_binary` does: the bytes read, stopping at
the first call that fails (a failing call writes nothing and changes nothing). -/
def parseBytes : Nat → Parser → List UInt8 × Parser
  | 0, p => ([], p)
  | m + 1, p =>
    match parseByte p with
    | none => ([], p)
    | some (b, p) => let (bs, p) := parseBytes m p; (b :: bs, p)

/-- `parse_bit (&bit, p)`. -/
def parseBit (p : Parser) : Option (Nat × Parser) :=
  match p.buf with
  | [] => none
  | b :: rest =>
    let v := ((b >>> (7 - p.bit).toUInt8) &&& 1).toNat
    if (p.bit + 1) &&& 8 ≠ 0 then some (v, { p with buf := rest, bit := 0 })
    else some (v, { p with bit := p.bit + 1 })

/-- `parse_bits (&result, p, n)`: load `*ptr`, check `need`, then shift in the `bytes` following
bytes in a 32-bit accumulator and keep the `n` bits that end at the final offset.  When the final
offset is `0` the last byte loaded lies past the ones `need` asked for; its bits are shifted out,
so the model reads it as `0`. -/
def parseBits (p : Parser) (n : Nat) : Option (UInt32 × Parser) :=
  let bit := p.bit + n
  let bytes := bit / 8
  let fin := bit % 8
  if p.buf.length < (if fin ≠ 0 then bytes + 1 else bytes) then none
  else
    let bits := (List.range bytes).foldl
      (fun (acc : UInt32) j => (acc <<< 8) ||| (p.buf.getD (j + 1) 0).toUInt32)
      (p.buf.getD 0 0).toUInt32
    some ((bits >>> (8 - fin).toUInt32) &&& ~~~((0xFFFFFFFF : UInt32) <<< n.toUInt32),
      { p with buf := p.buf.drop bytes, bit := fin })

/-! ## Unsigned integers -/

/-- `(b & 0x7f) << p->ux_n`, a C `int` shift, or-ed into the 64-bit `ux`. -/
def groupTerm (b : UInt8) (uxN : Nat) : UInt64 :=
  intToUInt64 ((b &&& 0x7f).toUInt32 <<< uxN.toUInt32)

/-- The `do … while (b & 0x80)` loop of `parse_uint`.  Each pass reads a byte or returns, so
`fuel` one more than the bytes left is never exhausted. -/
def uintLoop : Nat → Parser → Bool × Parser
  | 0, p => (false, p)
  | fuel + 1, p =>
    if p.uxN = 70 then (false, { p with state := parseInvalid })
    else
      match parseByte p with
      | none => (false, p)
      | some (b, p) =>
        let p := { p with ux := p.ux ||| groupTerm b p.uxN, uxN := p.uxN + 7 }
        if b &&& 0x80 ≠ 0 then uintLoop fuel p else (true, { p with uxN := 0 })

/-- `parse_uint (p)`: an EXI unsigned integer, seven bits per byte, least significant first,
continued while the high bit is set; `ux_n` keeps the progress across calls. -/
def parseUint (p : Parser) : Bool × Parser :=
  uintLoop (p.buf.length + 1) (if p.uxN = 0 then { p with ux := 0 } else p)

/-! ## Binary and signed values -/

/-- Case 1 of `parse_binary`: `need` the `ux` data bytes, then read them into the last `ux` bytes
of the `n`-byte field. -/
def binaryData (p : Parser) (n : Nat) (field : List UInt8) : Option (Bool × Parser × List UInt8) :=
  let m := p.ux.toNat
  if p.buf.length < (if p.bit ≠ 0 then m + 1 else m) then some (false, p, field)
  else
    let (bytes, p) := parseBytes m p
    (writeAt field (n - m) bytes).map fun field => (true, { p with exiState := 0 }, field)

/-- `parse_binary (p, b, n)`: the length, rejected when above `n`, then the data.  A state other
than `0` and `1` falls off the end of the function; the model returns `0` there.  `none` is a write
past the field. -/
def parseBinary (p : Parser) (n : Nat) (field : List UInt8) : Option (Bool × Parser × List UInt8) :=
  match p.exiState with
  | 0 =>
    let (ok, p) := parseUint p
    if !ok then some (false, p, field)
    else
      let p := { p with exiState := 1 }
      if p.ux.toNat > n then some (false, { p with state := parseInvalid }, field)
      else binaryData p n field
  | 1 => binaryData p n field
  | _ => some (false, p, field)

/-- Case 1 of `parse_integer`: the magnitude, negated into `sx` when the sign bit was set. -/
def integerMagnitude (L : SxLayout) (p : Parser) : Bool × Parser :=
  let (ok, p) := parseUint p
  if !ok then (false, p)
  else
    let p := { p with exiState := 0 }
    (true, if p.sign ≠ 0 then L.set p (-p.ux) else p)

/-- `parse_integer (p)`: a sign bit, then an unsigned magnitude.  A state other than `0` and `1`
returns `1` at once. -/
def parseInteger (L : SxLayout) (p : Parser) : Bool × Parser :=
  match p.exiState with
  | 0 =>
    match parseBit p with
    | none => (false, p)
    | some (sign, p) => integerMagnitude L { p with sign, exiState := 1 }
  | 1 => integerMagnitude L p
  | _ => (true, p)

end Sep2Client
