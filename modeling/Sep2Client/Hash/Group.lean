import Sep2Client.Machine

/-!
# Sparse groups

`hash.c` keeps a hash table as an array of sparse groups.  A group has 58 positions; its word
`bits` holds the occupancy bitmap in bits `0..57` and the number of materialised slots in bits
`58..63`, and its slot array holds only the materialised entries, in position order.  Position `i`
is read at slot `bit_rank (bits, i)`, the number of occupied positions below `i`.

This file models `popcount64`, `bit_rank`, `sg_insert`, `sg_empty` and `sg_element` in the
wrapping 64-bit arithmetic of the C code.  `sgInsert` adds a slot (`sgInsert_slot_length`) and one to
the count (`sgInsert_count`, and at most one when the count wraps: `sgInsert_count_le`) whatever
the state of the position's bit: inserting at a position
whose bit is already set makes the count exceed the bitmap and shifts every later slot of the
group by one.
-/

namespace Sep2Client

/-- `popcount64`: the SWAR population count of `hash.c`, in wrapping 64-bit arithmetic. -/
def popcount64 (x : UInt64) : Nat :=
  let m1 : UInt64 := 0x5555555555555555
  let m2 : UInt64 := 0x3333333333333333
  let m4 : UInt64 := 0x0f0f0f0f0f0f0f0f
  let h01 : UInt64 := 0x0101010101010101
  let x := x - ((x >>> 1) &&& m1)
  let x := (x &&& m2) + ((x >>> 2) &&& m2)
  let x := (x + (x >>> 4)) &&& m4
  ((x * h01) >>> 56).toNat

/-- `bit_rank (bits, i)`: the population count of `bits` shifted left by `64 - i`, so of the bits
below position `i`. -/
def bitRank (bits : UInt64) (i : Nat) : Nat :=
  if i = 0 then 0 else popcount64 (bits <<< (64 - i).toUInt64)

/-- A `SparseGroup`.  `slot` is the slot array, `[]` standing for the NULL pointer of a group that
never received an element; an entry is `none` once `hash_delete` has cleared it. -/
structure SparseGroup (D : Type) where
  slot : List (Option D)
  bits : UInt64
deriving Repr, DecidableEq

namespace SparseGroup

variable {D : Type}

/-- The group `calloc` gives: no slot array and a zero word. -/
def empty : SparseGroup D := ⟨[], 0⟩

/-- The slot count kept in bits `58..63`. -/
def count (g : SparseGroup D) : Nat := (g.bits >>> 58).toNat

end SparseGroup

open SparseGroup

variable {D : Type}

/-- `sg_empty (g, i)`: bit `i` of the bitmap is clear. -/
def sgEmpty (g : SparseGroup D) (i : Nat) : Bool := g.bits &&& ((1 : UInt64) <<< i.toUInt64) == 0

/-- `sg_element (g, i)`: the index in the slot array read for position `i`. -/
def sgElement (g : SparseGroup D) (i : Nat) : Nat := bitRank g.bits i

/-- `sg_insert (g, i, data)`: grow the slot array by one entry at `bit_rank (bits, i)` (the
`realloc` and `memmove`, or the `calloc` of a group without slots), store `data` there, add one to
the count and set bit `i`. -/
def sgInsert (g : SparseGroup D) (i : Nat) (data : D) : SparseGroup D where
  slot := g.slot.insertIdx (bitRank g.bits i) (some data)
  bits := (g.bits + ((1 : UInt64) <<< 58)) ||| ((1 : UInt64) <<< i.toUInt64)

/-- `sg_insert` grows the slot array by one entry. -/
theorem sgInsert_slot_length (g : SparseGroup D) (i : Nat) (data : D)
    (h : bitRank g.bits i ≤ g.slot.length) : (sgInsert g i data).slot.length = g.slot.length + 1 :=
  List.length_insertIdx _ _ h

/-- The count is the word divided by `2 ^ 58`. -/
theorem count_eq_div (g : SparseGroup D) : g.count = g.bits.toNat / 2 ^ 58 :=
  (uint64_shiftRight_toNat g.bits (show 58 < 64 by decide) :).trans (Nat.shiftRight_eq_div_pow _ _)

/-- The count `sg_insert` leaves, for a position of the bitmap: one more, modulo the six bits of
the field. -/
theorem sgInsert_count_eq (g : SparseGroup D) {i : Nat} (data : D) (hi : i < 58) :
    (sgInsert g i data).count = (g.bits.toNat + 2 ^ 58) % 2 ^ 64 / 2 ^ 58 := by
  have h58 : ∀ x : UInt64, (x >>> 58).toNat = x.toNat >>> 58 := fun x =>
    uint64_shiftRight_toNat x (show 58 < 64 by decide)
  have hone : ((1 : UInt64) <<< 58).toNat = 2 ^ 58 :=
    uint64_one_shiftLeft_toNat (show 58 < 64 by decide)
  show ((g.bits + (1 : UInt64) <<< 58 ||| (1 : UInt64) <<< i.toUInt64) >>> 58).toNat = _
  rw [h58, uint64_or_toNat, uint64_add_toNat, hone,
    uint64_one_shiftLeft_toNat (by omega), or_shiftRight_of_lt _ (Nat.pow_lt_pow_right (by omega) hi),
    Nat.shiftRight_eq_div_pow]

/-- `sg_insert` adds one to the count while it stays below `63`, whether or not bit `i` was set. -/
theorem sgInsert_count (g : SparseGroup D) {i : Nat} (data : D) (hi : i < 58) (hc : g.count < 63) :
    (sgInsert g i data).count = g.count + 1 := by
  rw [count_eq_div] at hc
  rw [sgInsert_count_eq g data hi, count_eq_div, Nat.mod_eq_of_lt (by omega),
    Nat.add_div_right _ (by positivity)]

/-- `sg_insert` adds at most one to the count: at `63` the field wraps to `0`. -/
theorem sgInsert_count_le (g : SparseGroup D) {i : Nat} (data : D) (hi : i < 58) :
    (sgInsert g i data).count ≤ g.count + 1 := by
  have hb : g.bits.toNat < 2 ^ 64 := g.bits.toBitVec.isLt
  rw [sgInsert_count_eq g data hi, count_eq_div]
  omega

end Sep2Client
