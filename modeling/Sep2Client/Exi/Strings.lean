import Sep2Client.Exi.Parser

/-!
# EXI strings

An EXI string value starts with an unsigned integer `k`: `0` names an entry of the local string
table of the current element name by its compact id, `1` an entry of the global table, and `k ≥ 2`
announces a literal of `k - 2` characters, each an unsigned integer holding a code point.
`exi_parse_string` sizes a literal with `exi_utf8_length`, which scans its groups without consuming
them, and decodes it with `parse_literal`, which re-encodes every code point as UTF-8; the literal
is then added to both tables.

`exi_utf8_length` returns `0` both when bytes are missing and for a literal of no character, and
`exi_parse_string` takes either as "incomplete" (`exiParseString_empty_literal`).
-/

namespace Sep2Client

/-- Modelled from the spec: `bit_count (n)` is not among the sources; the spec says compact ids
"are drawn from the minimum number of bits needed to represent count-1" and event codes are
`bit_count (n)` bits wide.  It is the number of binary digits of `n`, `0` for `0`
(`bitCount_eq_log2`). -/
def bitCount (n : Nat) : Nat := go n n
where
  /-- Halve `n` until it is `0`; `fuel ≥ n` halvings suffice. -/
  go : Nat → Nat → Nat
    | 0, _ => 0
    | fuel + 1, n => if n = 0 then 0 else go fuel (n / 2) + 1

theorem bitCount_go_eq_log2 : ∀ fuel n, n ≤ fuel →
    bitCount.go fuel n = if n = 0 then 0 else Nat.log2 n + 1
  | 0, n, h => by simp [bitCount.go, Nat.le_zero.mp h]
  | fuel + 1, n, h => by
    rw [bitCount.go, bitCount_go_eq_log2 fuel (n / 2) (by omega), Nat.log2.eq_1 n]
    by_cases h0 : n = 0
    · simp [h0]
    · by_cases h2 : 2 ≤ n <;> simp [h0, h2] <;> omega

/-- `bitCount` counts binary digits. -/
theorem bitCount_eq_log2 (n : Nat) : bitCount n = if n = 0 then 0 else Nat.log2 n + 1 :=
  bitCount_go_eq_log2 n n le_rfl

/-- Modelled from the spec: `utf8_encode (s, c)` is not among the sources; the spec says the driver
re-encodes each code point "to UTF-8".  The UTF-8 form of `c`: one byte below `0x80`, two below
`0x800`, three below `0x10000`, four (from the low 21 bits) otherwise. -/
def utf8Encode (c : UInt64) : List UInt8 :=
  let c := c.toNat
  if c < 0x80 then [c.toUInt8]
  else if c < 0x800 then [(0xC0 ||| c >>> 6).toUInt8, (0x80 ||| c &&& 0x3F).toUInt8]
  else if c < 0x10000 then
    [(0xE0 ||| c >>> 12).toUInt8, (0x80 ||| c >>> 6 &&& 0x3F).toUInt8, (0x80 ||| c &&& 0x3F).toUInt8]
  else
    [(0xF0 ||| c >>> 18 &&& 0x7).toUInt8, (0x80 ||| c >>> 12 &&& 0x3F).toUInt8,
      (0x80 ||| c >>> 6 &&& 0x3F).toUInt8, (0x80 ||| c &&& 0x3F).toUInt8]

/-! ## Literals -/

/-- The loop of `parse_literal` for `k` more characters: a `parse_uint` whose result is not checked,
then the UTF-8 of `ux`; a NUL ends the bytes written. -/
def literalBytes : Nat → Parser → List UInt8 × Parser
  | 0, p => ([0], p)
  | k + 1, p =>
    let p := (parseUint p).2
    let (rest, p') := literalBytes k p
    (utf8Encode p.ux ++ rest, p')

/-- `parse_literal (p, s, n)`: the bytes written from `s` on.  `while (n--)` with a negative `n`
counts down through `INT_MIN` and writes about `2^32` characters; the model gives `none`, a write
past any buffer. -/
def parseLiteral (p : Parser) (n : Int) : Option (List UInt8 × Parser) :=
  if n < 0 then none else some (literalBytes n.toNat p)

/-- The loop of `exi_utf8_length (p, n)`, one byte per step: `m` groups of the current code point
read so far, `length` the UTF-8 bytes counted for the finished ones, `n` the code points left.
`start` is the buffer to restore. -/
def utf8LengthLoop (start : List UInt8) : Nat → Parser → Int → Nat → Nat → Int × Parser
  | 0, p, _, _, _ => (0, p)
  | fuel + 1, p, n, m, length =>
    match parseByte p with
    | none => (0, { p with buf := start })
    | some (b, p) =>
      if m + 1 > 3 then (0, { p with state := parseInvalid })
      else if b &&& 0x80 ≠ 0 then utf8LengthLoop start fuel p n (m + 1) length
      else
        let m := if m + 1 = 2 ∧ b &&& 0x70 ≠ 0 then 3
          else if m + 1 = 3 ∧ b &&& 0x7c ≠ 0 then 4 else m + 1
        if n - 1 = 0 then (length + m, { p with buf := start })
        else utf8LengthLoop start fuel p (n - 1) 0 (length + m)

/-- `exi_utf8_length (p, n)`: the UTF-8 length of the next `n` code points, read without moving
`ptr`; `0` when bytes are missing. -/
def exiUtf8Length (p : Parser) (n : Int) : Int × Parser :=
  if n = 0 then (0, p) else utf8LengthLoop p.buf (p.buf.length + 1) p n 0 0

/-! ## String tables -/

/-- Modelled from the spec: `find_table (list, name)` is not among the sources; the spec keys the
local tables "by the element's local name".  The strings of the first table for `name`. -/
def findTable (tables : List (String × List (List UInt8))) (name : String) :
    Option (List (List UInt8)) :=
  (tables.find? (·.1 == name)).map (·.2)

/-- Modelled from the spec: `add_string` and `new_string_table` are not among the sources; entries
"are appended in first-seen order".  Append `s` to the local table of `name`, creating the table
in front of the others when there is none. -/
def addLocal (tables : List (String × List (List UInt8))) (name : String) (s : List UInt8) :
    List (String × List (List UInt8)) :=
  match tables.findIdx? (·.1 == name) with
  | some i => tables.modify (fun t => (t.1, t.2 ++ [s])) i
  | none => (name, [s]) :: tables

/-- `parse_compact_id (p, t, value, n)`: a `bit_count (index - 1)`-bit id into the table, copied
into the `n`-byte field or, for `n = 0`, duplicated behind the pointer. -/
def parseCompactId (p : Parser) (t : Option (List (List UInt8))) (cell : Cell) (n : Nat) :
    Bool × Parser × Cell :=
  let invalid (p : Parser) : Bool × Parser × Cell := (false, { p with state := parseInvalid }, cell)
  match t with
  | some strings =>
    if strings.length = 0 then invalid p
    else
      match parseBits p (bitCount (strings.length - 1)) with
      | none => (false, p, cell)
      | some (id, p) =>
        if id.toNat < strings.length then
          let s := strings.getD id.toNat []
          if n ≠ 0 then
            match cell with
            | .bytes field =>
              if s.length + 1 ≤ n then
                match writeAt field 0 (s ++ [0]) with
                | some field => (true, p, .bytes field)
                | none => invalid p
              else invalid p
            | .str _ => invalid p
          else (true, p, .str (some s))
        else invalid p
  | none => invalid p

/-! ## String values -/

/-- The C string stored at the start of written bytes: up to the first NUL. -/
def cString (bytes : List UInt8) : List UInt8 := bytes.takeWhile (· ≠ 0)

/-- Store a literal's bytes: into the `n`-byte field, or into `malloc (m + 1)` behind the pointer
for `n = 0`.  `none` when the bytes run past the storage. -/
def storeLiteral (cell : Cell) (n m : Nat) (bytes : List UInt8) : Option Cell :=
  if n ≠ 0 then
    match cell with
    | .bytes field => (writeAt field 0 bytes).map Cell.bytes
    | .str _ => none
  else if bytes.length ≤ m + 1 then some (.str (some (cString bytes))) else none

/-- Case 1 of `exi_parse_string`: the value that the string code in `ux` announces.  `none` is a
write past the storage.  `exi_utf8_length` adds the widths up in its `int length`, so `m` is their
sum as a C `int`: past `2 ^ 31` it wraps below `0`. -/
def stringValue (S : Schema) (p : Parser) (cell : Cell) (n : Nat) :
    Option (Bool × Parser × Cell) :=
  let name := seName S p.se
  match p.ux.toNat with
  | 0 =>
    let (ok, p, cell) := parseCompactId p (findTable p.localTable name) cell n
    some (ok, if ok then { p with exiState := 0 } else p, cell)
  | 1 =>
    let (ok, p, cell) := parseCompactId p (some p.globalTable) cell n
    some (ok, if ok then { p with exiState := 0 } else p, cell)
  | _ =>
    let length := toCInt (p.ux - 2)
    let (len, p) := exiUtf8Length p length
    let m := toCInt len.toNat.toUInt64
    if m = 0 then some (false, p, cell)
    else if n ≠ 0 ∧ n ≤ m then some (false, { p with state := parseInvalid }, cell)
    else do
      let (bytes, p) ← parseLiteral p length
      let cell ← storeLiteral cell n m.toNat bytes
      let s := cString bytes
      some (true, { p with localTable := addLocal p.localTable name s,
                           globalTable := p.globalTable ++ [s], exiState := 0 }, cell)

/-- `exi_parse_string (p, value, n)`: the string code, then the value.  A state other than `0` and
`1` falls off the end of the function; the model returns `0` there. -/
def exiParseString (S : Schema) (p : Parser) (cell : Cell) (n : Nat) :
    Option (Bool × Parser × Cell) :=
  match p.exiState with
  | 0 =>
    let (ok, p) := parseUint p
    if !ok then some (false, p, cell) else stringValue S { p with exiState := 1 } cell n
  | 1 => stringValue S p cell n
  | _ => some (false, p, cell)

end Sep2Client
