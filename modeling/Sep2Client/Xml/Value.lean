import Sep2Client.Schema.Core

/-!
# XML values

`parse_value` decodes the text of a simple element, as `parse_text` delivers it (the characters up
to the end tag, or the empty text when the end tag follows at once), into the field of the entry
`p->se`.  A string is copied into a field of declared length or duplicated behind a pointer, an
`anyURI` is always duplicated behind a pointer, a boolean sets its bit of the flag word, a
`hexBinary` is read by `parse_hex` as digit pairs right-aligned in the field, and the integer kinds
by the base-10 decoders `signed_int` and `unsigned_int`.

`parse_hex` returns `0` unless it read at least one digit pair, so the empty `hexBinary` is
rejected (`parseHex_nil`).

The character helpers `hex_digit`, `number64` and `only` are declared in `xml_token.c`, which is not
among the sources.
-/

namespace Sep2Client

/-! ## Characters and numbers -/

/-- The bytes of an ASCII string literal of the source. -/
def ascii (s : String) : List UInt8 := s.toList.map fun c => c.toNat.toUInt8

/-- Modelled from the spec: `hex_digit (d)` is not among the sources; the spec reads `hexBinary` as
"a stream of hex digit pairs".  The value `parse_hex` subtracts from `d` to get the digit: `'0'`
for a decimal digit, `'a' - 10` and `'A' - 10` for the letters, `0` (not a digit) otherwise. -/
def hexDigit (d : UInt8) : UInt8 :=
  if 0x30 ≤ d ∧ d ≤ 0x39 then 0x30
  else if 0x61 ≤ d ∧ d ≤ 0x66 then 0x57
  else if 0x41 ≤ d ∧ d ≤ 0x46 then 0x37
  else 0

/-- Modelled from the spec: XML white space (space, tab, line feed, carriage return). -/
def isXmlSpace (c : UInt8) : Bool := c == 0x20 || c == 0x09 || c == 0x0A || c == 0x0D

/-- Modelled from the spec: `only (data)` is not among the sources, and the spec does not describe
it; it is taken to hold when `data` is not `NULL` and nothing but white space follows. -/
def only : Option (List UInt8) → Bool
  | some s => s.all isXmlSpace
  | none => false

/-- Modelled from the spec: `number64 (x, data)` is not among the sources; the spec says integer
kinds are parsed "with base-10 signed/unsigned decoders".  The decimal digits at the start of
`data`, at least one, accumulated in a 64-bit word, and the text after them; `NULL` (`none`) when
no digit starts `data`. -/
def number64 (data : List UInt8) : Option (UInt64 × List UInt8) :=
  let digits := data.takeWhile fun c => 0x30 ≤ c ∧ c ≤ 0x39
  if digits.isEmpty then none
  else some (digits.foldl (fun x c => x * 10 + (c - 0x30).toUInt64) 0, data.drop digits.length)

/-- `unsigned_int (x, data)`, that is `only (number64 (x, data))`: the number, when nothing but
white space follows it. -/
def unsignedInt (data : List UInt8) : Option UInt64 :=
  match number64 data with
  | some (x, rest) => if only (some rest) then some x else none
  | none => none

/-- `signed_int (y, data)`: an optional `-`, then `unsigned_int`; the sign multiplies the word. -/
def signedInt : List UInt8 → Option UInt64
  | 0x2D :: rest => (unsignedInt rest).map fun x => 0 - x
  | data => unsignedInt data

/-! ## Decimal numerals -/

theorem digitChar_toNat {d : Nat} (hd : d < 10) : (Nat.digitChar d).toNat = 48 + d := by
  have : ∀ d < 10, (Nat.digitChar d).toNat = 48 + d := by decide
  exact this d hd

/-- `number64`'s step on the digit of `n % 10` after the number `n / 10` gives `n`, modulo
`2 ^ 64`. -/
theorem decimal_step (n : Nat) :
    (n / 10).toUInt64 * 10 + ((Nat.digitChar (n % 10)).toNat.toUInt8 - 0x30).toUInt64 = n.toUInt64 := by
  have hd := digitChar_toNat (Nat.mod_lt n (show 10 > 0 by decide))
  have hu : ((Nat.digitChar (n % 10)).toNat.toUInt8).toNat = 48 + n % 10 := by
    show (Nat.digitChar (n % 10)).toNat % 256 = _
    omega
  apply UInt64.toNat.inj
  rw [uint64_add_toNat, uint64_mul_toNat]
  show ((BitVec.ofNat 64 (n / 10)).toNat * 10 % 2 ^ 64 +
    ((Nat.digitChar (n % 10)).toNat.toUInt8 - 0x30).toNat) % 2 ^ 64 = (BitVec.ofNat 64 n).toNat
  rw [UInt8.toNat_sub_of_le _ _ (by show 48 ≤ ((Nat.digitChar (n % 10)).toNat.toUInt8).toNat; omega),
    hu, BitVec.toNat_ofNat, BitVec.toNat_ofNat]
  show (n / 10 % 2 ^ 64 * 10 % 2 ^ 64 + (48 + n % 10 - 48)) % 2 ^ 64 = n % 2 ^ 64
  omega

/-- One step of `toDigitsCore` in base `10`: the digit of `n % 10` goes in front of `ds`, and the
quotient carries on unless it is `0`. -/
theorem toDigitsCore_ten_succ (fuel n : Nat) (ds : List Char) :
    Nat.toDigitsCore 10 (fuel + 1) n ds =
      if n / 10 = 0 then Nat.digitChar (n % 10) :: ds
      else Nat.toDigitsCore 10 fuel (n / 10) (Nat.digitChar (n % 10) :: ds) :=
  rfl

/-- `number64`'s loop reads the digits `toDigitsCore` puts in front of `ds` as the number they
stand for. -/
theorem foldl_toDigitsCore : ∀ (fuel n : Nat) (ds : List Char), n < fuel →
    ((Nat.toDigitsCore 10 fuel n ds).map fun c => c.toNat.toUInt8).foldl
        (fun x c => x * 10 + (c - 0x30).toUInt64) 0 =
      (ds.map fun c => c.toNat.toUInt8).foldl (fun x c => x * 10 + (c - 0x30).toUInt64) n.toUInt64
  | 0, _, _, h => absurd h (Nat.not_lt_zero _)
  | fuel + 1, n, ds, h => by
    rw [toDigitsCore_ten_succ]
    split
    · rename_i h0
      rw [List.map_cons, List.foldl_cons, ← decimal_step n, h0]
      rfl
    · rw [foldl_toDigitsCore fuel (n / 10) _ (by omega), List.map_cons, List.foldl_cons, decimal_step]

/-- `toDigitsCore` puts decimal digits in front of `ds`, the last of them the digit of `n % 10`. -/
theorem toDigitsCore_succ (fuel : Nat) : ∀ (n : Nat) (ds : List Char), ∃ pre,
    Nat.toDigitsCore 10 (fuel + 1) n ds = pre ++ Nat.digitChar (n % 10) :: ds ∧
      ∀ c ∈ pre, 48 ≤ c.toNat ∧ c.toNat ≤ 57 := by
  induction fuel with
  | zero => intro n ds; rw [toDigitsCore_ten_succ]; split <;> exact ⟨[], rfl, by simp⟩
  | succ f ih =>
    intro n ds
    rw [toDigitsCore_ten_succ]
    split
    · exact ⟨[], rfl, by simp⟩
    · obtain ⟨pre, h, hpre⟩ := ih (n / 10) (Nat.digitChar (n % 10) :: ds)
      have hd := digitChar_toNat (Nat.mod_lt (n / 10) (show 10 > 0 by decide))
      refine ⟨pre ++ [Nat.digitChar (n / 10 % 10)], by rw [h]; simp, fun c hc => ?_⟩
      rcases List.mem_append.mp hc with hc | hc
      · exact hpre c hc
      · rw [List.mem_singleton.mp hc, hd]; omega

/-- `unsigned_int` reads the decimal numeral of `v` as `v` modulo `2 ^ 64`. -/
theorem unsignedInt_toString (v : Nat) : unsignedInt (ascii (toString v)) = some v.toUInt64 := by
  obtain ⟨pre, h, hpre⟩ := toDigitsCore_succ v v []
  have hascii : ascii (toString v) = (Nat.toDigitsCore 10 (v + 1) v []).map fun c => c.toNat.toUInt8 :=
    rfl
  have hdig : ∀ c ∈ (Nat.toDigitsCore 10 (v + 1) v []).map (fun c => c.toNat.toUInt8),
      decide (0x30 ≤ c ∧ c ≤ 0x39) = true := fun c hc => by
    obtain ⟨ch, hch, rfl⟩ := List.mem_map.mp hc
    have hch : 48 ≤ ch.toNat ∧ ch.toNat ≤ 57 := by
      rw [h] at hch
      rcases List.mem_append.mp hch with hch | hch
      · exact hpre ch hch
      · rw [List.mem_singleton.mp hch, digitChar_toNat (Nat.mod_lt v (by decide))]; omega
    simp only [decide_eq_true_eq]
    exact ⟨show 48 ≤ ch.toNat % 256 by omega, show ch.toNat % 256 ≤ 57 by omega⟩
  unfold unsignedInt number64
  simp only [hascii, List.takeWhile_eq_self_iff.mpr hdig]
  rw [foldl_toDigitsCore _ _ _ (by omega : v < v + 1), List.drop_length, h]
  simp [only]

/-! ## Binary -/

/-- The `while` loop of `parse_hex`: digit pairs written from `value[m]` on into the `n`-byte field.
It returns `m`, the field, and the text where the loop stopped, or `none` for the `return 0` inside
the loop (a pair with no room left, or a digit without its pair). -/
def hexPairs (n : Nat) : List UInt8 → Nat → List UInt8 → Nat × List UInt8 × Option (List UInt8)
  | [], m, field => (m, field, some [])
  | d :: rest, m, field =>
    if hexDigit d = 0 then (m, field, some (d :: rest))
    else if m = n then (m, field, none)
    else
      match rest with
      | d' :: rest' =>
        if hexDigit d' = 0 then (m, field, none)
        else hexPairs n rest' (m + 1) (field.set m (((d - hexDigit d) <<< 4) ||| (d' - hexDigit d')))
      | [] => (m, field, none)

/-- `parse_hex (value, n, data)`: the digit pairs, at least one and nothing but white space after
them, moved to the end of the `n`-byte field with zeros in front. -/
def parseHex (field : List UInt8) (n : Nat) (data : List UInt8) : Bool × List UInt8 :=
  let (m, field, rest) := hexPairs n data 0 field
  match rest with
  | none => (false, field)
  | some rest =>
    if m = 0 ∨ !only (some rest) then (false, field)
    else if n - m = 0 then (true, field)
    else (true, List.replicate (n - m) 0 ++ field.take m ++ field.drop n)

/-- `parse_hex` rejects the empty text: it reads no digit pair. -/
theorem parseHex_nil (field : List UInt8) (n : Nat) : (parseHex field n []).1 = false := by
  simp [parseHex, hexPairs]

/-! ## Values -/

/-- `pack_signed` and `pack_unsigned`: a decoded number stored in a `w`-byte field. -/
def packNumber (cell : Cell) (w : Nat) : Option UInt64 → Option (Bool × Bool × Cell)
  | some x => (storeInt cell w x.toNat).map fun cell => (true, false, cell)
  | none => some (false, false, cell)

/-- `parse_value (p, value)` on the text `data` for an entry of type `type`, with the boolean bit
`flag`: the C return value, whether `PARSE_INVALID` was set, and the field.  `none` is a store into
storage of the wrong shape. -/
def parseValue (type flag : Nat) (data : List UInt8) (cell : Cell) : Option (Bool × Bool × Cell) :=
  let type := type ^^^ stSimple
  let n := type >>> 4
  match XsType.ofNat? (type &&& 0xf) with
  | some .string =>
    if n ≠ 0 then
      if data.length > n - 1 then some (false, false, cell)
      else
        match cell with
        | .bytes field => (writeAt field 0 (data ++ [0])).map fun field => (true, false, .bytes field)
        | .str _ => none
    else some (true, false, .str (some data))
  | some .boolean =>
    if data = ascii "true" ∨ data = ascii "1" then
      (orFlag cell 1 flag).map fun cell => (true, false, cell)
    else if data = ascii "false" ∨ data = ascii "0" then some (true, false, cell)
    else some (false, true, cell)
  | some .hexBinary =>
    match cell with
    | .bytes field => let (ok, field) := parseHex field n data; some (ok, false, .bytes field)
    | .str _ => none
  | some .anyUri => some (true, false, .str (some data))
  | some .long => packNumber cell 8 (signedInt data)
  | some .int => packNumber cell 4 (signedInt data)
  | some .short => packNumber cell 2 (signedInt data)
  | some .byte => packNumber cell 1 (signedInt data)
  | some .ulong => packNumber cell 8 (unsignedInt data)
  | some .uint => packNumber cell 4 (unsignedInt data)
  | some .ushort => packNumber cell 2 (unsignedInt data)
  | some .ubyte => packNumber cell 1 (unsignedInt data)
  | _ => some (false, false, cell)

/-- `parse_value` duplicates an `anyURI` behind a pointer whatever its declared length. -/
theorem parseValue_anyUri (l flag : Nat) (data : List UInt8) (cell : Cell) :
    parseValue (simpleType .anyUri l) flag data cell = some (true, false, .str (some data)) := by
  simp only [parseValue, simpleType_kind, XsType.ofNat?_toNat]

end Sep2Client
