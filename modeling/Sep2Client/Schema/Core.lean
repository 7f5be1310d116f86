import Sep2Client.Hash.Group

/-!
# Schemas

`schema.c` describes one IEEE 2030.5 version as arrays: global elements (with their names), local
names (with the type each names), and schema entries.  An entry is either a type header (`size`
and derivation `index`) or a field (`offset`, `type`, cardinalities `min`/`max`/`n`, the bit of a
boolean, and the flags `st`, `attribute`, `unbounded`).  The two halves of each union share one
field here: `offset` is also `size`, `type` is also `index`.

A simple type is `ST_SIMPLE | length << 4 | kind` (`simpleType_kind`, `simpleType_length`).
`isPointer` compares the whole type word with the bare kinds `XS_STRING` and `XS_ANY_URI`, so it
answers true only when the length is zero (`isPointer_simpleType`); `objectSize` reads the kind
from the low four bits and counts an `anyURI` as a pointer whatever its length.
-/

namespace Sep2Client

/-- `enum XsType`, the simple kinds `0 … 12`. -/
inductive XsType
  | null | string | boolean | hexBinary | anyUri | long | int | short | byte
  | ulong | uint | ushort | ubyte
deriving Repr, DecidableEq

namespace XsType

/-- The `XsType` a value of `type & 0xf` names, if any. -/
def ofNat? : Nat → Option XsType
  | 0 => some .null | 1 => some .string | 2 => some .boolean | 3 => some .hexBinary
  | 4 => some .anyUri | 5 => some .long | 6 => some .int | 7 => some .short | 8 => some .byte
  | 9 => some .ulong | 10 => some .uint | 11 => some .ushort | 12 => some .ubyte
  | _ => none

/-- The enumerator's value. -/
def toNat : XsType → Nat
  | .null => 0 | .string => 1 | .boolean => 2 | .hexBinary => 3 | .anyUri => 4 | .long => 5
  | .int => 6 | .short => 7 | .byte => 8 | .ulong => 9 | .uint => 10 | .ushort => 11
  | .ubyte => 12

@[simp] theorem ofNat?_toNat (k : XsType) : ofNat? k.toNat = some k := by cases k <;> rfl

/-- A kind fits in the low four bits of a type. -/
theorem toNat_lt (k : XsType) : k.toNat < 2 ^ 4 := by cases k <;> decide

end XsType

/-- `ST_SIMPLE`, the tag bit of a simple type. -/
def stSimple : Nat := 0x8000

/-- `xs_type (b, l) | ST_SIMPLE`: the simple type of kind `b` and declared length `l`. -/
def simpleType (b : XsType) (l : Nat) : Nat := stSimple ||| (l <<< 4 ||| b.toNat)

/-- The low four bits of a simple type are its kind, whatever its length. -/
theorem simpleType_kind (b : XsType) (l : Nat) : (simpleType b l ^^^ stSimple) &&& 0xf = b.toNat := by
  apply Nat.eq_of_testBit_eq
  intro i
  simp only [simpleType, stSimple, Nat.testBit_and, Nat.testBit_xor, Nat.testBit_or,
    Nat.testBit_shiftLeft]
  by_cases hi : i < 4
  · have h1 : Nat.testBit 0x8000 i = false := by interval_cases i <;> rfl
    have h2 : Nat.testBit 0xf i = true := by interval_cases i <;> rfl
    simp [h1, h2, hi]
  · have h2 : Nat.testBit 0xf i = false := by
      rw [show (0xf : Nat) = 2 ^ 4 - 1 by rfl, Nat.testBit_two_pow_sub_one]; simpa using hi
    have h3 : b.toNat.testBit i = false :=
      Nat.testBit_eq_false_of_lt (lt_of_lt_of_le b.toNat_lt
        (Nat.pow_le_pow_right (by omega) (show 4 ≤ i by omega) : 2 ^ 4 ≤ 2 ^ i))
    simp [h2, h3]

/-- Below `2 ^ 11` the length does not reach the `ST_SIMPLE` bit, which `^ ST_SIMPLE` removes. -/
theorem simpleType_xor (b : XsType) {l : Nat} (hl : l < 2 ^ 11) :
    simpleType b l ^^^ stSimple = l <<< 4 ||| b.toNat := by
  have hx : l <<< 4 ||| b.toNat < 2 ^ 15 := by
    apply Nat.or_lt_two_pow
    · rw [Nat.shiftLeft_eq]; omega
    · exact lt_of_lt_of_le b.toNat_lt (by decide)
  show (2 ^ 15 ||| (l <<< 4 ||| b.toNat)) ^^^ 2 ^ 15 = _
  generalize l <<< 4 ||| b.toNat = x at hx ⊢
  apply Nat.eq_of_testBit_eq
  intro i
  simp only [Nat.testBit_xor, Nat.testBit_or, Nat.testBit_two_pow]
  by_cases hi : 15 = i
  · subst hi; simp [Nat.testBit_eq_false_of_lt hx]
  · simp [hi]

/-- `type >> 4` after `^ ST_SIMPLE` is the declared length. -/
theorem simpleType_length (b : XsType) {l : Nat} (hl : l < 2 ^ 11) :
    (simpleType b l ^^^ stSimple) >>> 4 = l := by
  rw [simpleType_xor b hl]
  apply Nat.eq_of_testBit_eq
  intro i
  have : b.toNat.testBit (4 + i) = false :=
    Nat.testBit_eq_false_of_lt (lt_of_lt_of_le b.toNat_lt (Nat.pow_le_pow_right (by omega) (by omega)))
  simp [Nat.testBit_shiftRight, Nat.testBit_or, Nat.testBit_shiftLeft, this]

/-- A `SchemaEntry`; `offset` doubles as the `size` of a type header and `type` as its `index`,
and `isAttribute` is the bit field `attribute` (a keyword of Lean). -/
structure SchemaEntry where
  offset : Nat
  type : Nat
  min : Nat
  max : Nat
  n : Nat
  bit : Nat
  st : Bool
  isAttribute : Bool
  unbounded : Bool
deriving Repr, DecidableEq

namespace SchemaEntry

/-- The `size` half of the first union. -/
def size (se : SchemaEntry) : Nat := se.offset

/-- The `index` half of the second union. -/
def index (se : SchemaEntry) : Nat := se.type

/-- `se->type & ST_SIMPLE`. -/
def isSimple (se : SchemaEntry) : Bool := se.type &&& stSimple != 0

end SchemaEntry

/-- A `Schema`: the fields the modelled functions read. -/
structure Schema where
  schemaId : List UInt8
  length : Nat
  count : Nat
  names : List String
  types : List Nat
  entries : List SchemaEntry
  elements : List String
  ids : List Nat

/-- An entry absent from the array, read as zeros. -/
def SchemaEntry.zero : SchemaEntry := ⟨0, 0, 0, 0, 0, 0, false, false, false⟩

namespace Schema

/-- `schema->entries[i]`. -/
def entry (s : Schema) (i : Nat) : SchemaEntry := s.entries.getD i SchemaEntry.zero

end Schema

/-- `se_name (se, schema)` for the entry at index `index`: a global element's name, or the local
name `ids` maps the entry to. -/
def seName (s : Schema) (index : Nat) : String :=
  if index < s.length then s.elements.getD index ""
  else s.names.getD (s.ids.getD (index - s.length) 0) ""

/-- `is_pointer (type)`: `type ^ ST_SIMPLE` is `XS_STRING` or `XS_ANY_URI`. -/
def isPointer (type : Nat) : Bool :=
  (type ^^^ stSimple) == XsType.string.toNat || (type ^^^ stSimple) == XsType.anyUri.toNat

/-- `is_pointer` holds exactly for the string and `anyURI` kinds of length `0`. -/
theorem isPointer_simpleType (b : XsType) {l : Nat} (hl : l < 2 ^ 11) :
    isPointer (simpleType b l) = (l == 0 && (b == .string || b == .anyUri)) := by
  have hlen := simpleType_length b hl
  rcases Nat.eq_zero_or_pos l with rfl | hpos
  · cases b <;> rfl
  · have hne : ∀ k, k >>> 4 = 0 → simpleType b l ^^^ stSimple ≠ k := fun k hk h => by
      rw [h, hk] at hlen; omega
    rw [isPointer, beq_false_of_ne (hne _ rfl), beq_false_of_ne (hne _ rfl)]
    simp [hpos.ne']

/-- `object_size (type, schema)` in bytes, with `fuel` bounding the chain of element indices it
follows (`none` once the chain has looped through every entry). -/
def objectSizeN (s : Schema) : Nat → Nat → Option Nat
  | 0, _ => none
  | fuel + 1, type =>
    if type &&& stSimple != 0 then
      let t := type ^^^ stSimple
      let n := t >>> 4
      some <| match XsType.ofNat? (t &&& 0xf) with
        | some .string => if n ≠ 0 then n else 8
        | some .boolean => 0
        | some .hexBinary => n
        | some .anyUri => 8
        | some .long => 8 | some .int => 4 | some .short => 2 | some .byte => 1
        | some .ulong => 8 | some .uint => 4 | some .ushort => 2 | some .ubyte => 1
        | _ => 0
    else if type < s.length then objectSizeN s fuel (s.entry type).index
    else some (s.entry type).size

/-- `object_size (type, schema)`. -/
def objectSize (s : Schema) (type : Nat) : Option Nat := objectSizeN s (s.entries.length + 1) type

end Sep2Client
