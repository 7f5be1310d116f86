import Mathlib.Tactic.Ring
import Mathlib.Tactic.NormNum
import Mathlib.Tactic.Linarith
import Mathlib.Tactic.Positivity
import Mathlib.Tactic.IntervalCases
import Mathlib.Tactic.SplitIfs
import Mathlib.Data.Nat.Bitwise
import Mathlib.Data.Nat.Log
import Mathlib.Data.Fintype.Card
import Mathlib.Data.List.InsertIdx
import Mathlib.Data.UInt

/-!
# Machine words and faults

The C sources compute in fixed-width integers and write through raw pointers.  This file gathers
what the models of the separate files share: the faults an operation can run into, the C
conversions between `int` and 64-bit words, little-endian stores, bounded writes into a buffer of
fixed size, and a heap of blocks that `free` releases.

Shifts of a C `int` by a count of 32 or more are undefined in C; the model follows the code as
compiled for x86-64, whose shift instructions take the count modulo 32, as Lean's `UInt32` shifts
do.
-/

namespace Sep2Client

/-- What goes wrong in an operation: a loop that never exits, an access outside the object it
indexes (a read or write past a buffer, a group outside a table, a read through `NULL`), an access
to freed memory, or a `free` of a block that is not allocated. -/
inductive Fault
  | diverges
  | outOfBounds
  | useAfterFree
  | invalidFree
deriving Repr, DecidableEq

/-- A computation followed by `f` ends well only if the computation did. -/
theorem bind_eq_ok {ε α β : Type} {x : Except ε α} {f : α → Except ε β} {r : β}
    (h : x >>= f = .ok r) : ∃ a, x = .ok a ∧ f a = .ok r := by
  cases x with
  | error e => cases h
  | ok a => exact ⟨a, rfl, h⟩

/-- A step that keeps an invariant keeps it along a fold. -/
theorem foldlM_invariant {ε σ α : Type} {I : σ → Prop} {f : σ → α → Except ε σ}
    (hf : ∀ {s s' : σ} {a : α}, I s → f s a = .ok s' → I s') :
    ∀ (l : List α) {s s' : σ}, I s → l.foldlM f s = .ok s' → I s'
  | [], _, _, hs, h => by cases h; exact hs
  | _ :: l, _, _, hs, h => by
    rw [List.foldlM_cons] at h
    obtain ⟨s₁, h₁, h⟩ := bind_eq_ok h
    exact foldlM_invariant hf l (hf hs h₁) h

/-- Two continuations that agree on every result of a computation give the same run. -/
theorem bind_congr_ok {ε α β : Type} {x : Except ε α} {f g : α → Except ε β}
    (h : ∀ a, x = .ok a → f a = g a) : x >>= f = x >>= g := by
  cases x with
  | error e => rfl
  | ok a => exact h a rfl

/-- A C `int`, given by its bit pattern, converted to `uint64_t`: sign extension. -/
def intToUInt64 (v : UInt32) : UInt64 :=
  if v < 0x80000000 then v.toUInt64 else v.toUInt64 ||| 0xFFFFFFFF00000000

/-- A 64-bit word assigned to a C `int`: its low 32 bits, read as a signed value. -/
def toCInt (v : UInt64) : Int :=
  if v.toUInt32 < 0x80000000 then v.toUInt32.toNat else (v.toUInt32.toNat : Int) - 2 ^ 32

/-! ## Machine words as numbers -/

/-- A shift count below `64` survives the `% 64` of the shift instructions. -/
theorem toUInt64_mod_toNat {k : Nat} (hk : k < 64) : (k.toUInt64 % 64).toBitVec.toNat = k := by
  show (k.toUInt64 % 64).toNat = k
  rw [UInt64.toNat_mod, UInt64.toNat_ofNat_of_lt (lt_trans hk (by decide))]
  exact Nat.mod_eq_of_lt hk

theorem uint64_shiftRight_toNat (x : UInt64) {k : Nat} (hk : k < 64) :
    (x >>> k.toUInt64).toNat = x.toNat >>> k := by
  show (x.toBitVec >>> (k.toUInt64 % 64).toBitVec).toNat = _
  simp only [BitVec.ushiftRight_eq', BitVec.toNat_ushiftRight, toUInt64_mod_toNat hk]
  rfl

/-- A shift by any count reads the count modulo `64`. -/
theorem uint64_shiftRight_toNat_mod (x b : UInt64) : (x >>> b).toNat = x.toNat >>> (b.toNat % 64) := by
  show (x.toBitVec >>> (b % 64).toBitVec).toNat = _
  simp only [BitVec.ushiftRight_eq', BitVec.toNat_ushiftRight]
  rfl

theorem uint64_one_shiftLeft_toNat {k : Nat} (hk : k < 64) :
    ((1 : UInt64) <<< k.toUInt64).toNat = 2 ^ k := by
  show ((1 : UInt64).toBitVec <<< (k.toUInt64 % 64).toBitVec).toNat = _
  simp only [BitVec.shiftLeft_eq', BitVec.toNat_shiftLeft, toUInt64_mod_toNat hk]
  show 1 <<< k % 2 ^ 64 = 2 ^ k
  rw [Nat.one_shiftLeft, Nat.mod_eq_of_lt (Nat.pow_lt_pow_right (by omega) hk)]

theorem uint64_or_toNat (a b : UInt64) : (a ||| b).toNat = a.toNat ||| b.toNat :=
  BitVec.toNat_or ..

theorem uint64_add_toNat (a b : UInt64) : (a + b).toNat = (a.toNat + b.toNat) % 2 ^ 64 :=
  BitVec.toNat_add ..

theorem uint64_mul_toNat (a b : UInt64) : (a * b).toNat = a.toNat * b.toNat % 2 ^ 64 :=
  BitVec.toNat_mul ..

theorem uint64_le_iff {a b : UInt64} : a ≤ b ↔ a.toNat ≤ b.toNat := Iff.rfl

theorem uint64_shiftLeft_toNat (x : UInt64) {k : Nat} (hk : k < 64) :
    (x <<< k.toUInt64).toNat = x.toNat * 2 ^ k % 2 ^ 64 := by
  show (x.toBitVec <<< (k.toUInt64 % 64).toBitVec).toNat = _
  simp only [BitVec.shiftLeft_eq', BitVec.toNat_shiftLeft, toUInt64_mod_toNat hk, Nat.shiftLeft_eq]
  rfl

/-- Or-ing a value below `2 ^ k` leaves the bits from `k` on. -/
theorem or_shiftRight_of_lt (y : Nat) {b k : Nat} (hb : b < 2 ^ k) : (y ||| b) >>> k = y >>> k := by
  apply Nat.eq_of_testBit_eq
  intro j
  have : b.testBit (k + j) = false :=
    Nat.testBit_eq_false_of_lt (lt_of_lt_of_le hb (Nat.pow_le_pow_right (by omega) (by omega)))
  simp [Nat.testBit_shiftRight, Nat.testBit_or, this]

/-- Or-ing a value below `2 ^ k` into a multiple of `2 ^ k` adds it. -/
theorem two_pow_mul_or_of_lt (a : Nat) {b k : Nat} (hb : b < 2 ^ k) :
    2 ^ k * a ||| b = 2 ^ k * a + b := by
  apply Nat.eq_of_testBit_eq
  intro j
  rw [Nat.testBit_or, Nat.testBit_mul_pow_two_add a hb, Nat.testBit_mul_pow_two]
  by_cases hj : j < k
  · simp [hj]
  · simp [hj, Nat.le_of_not_lt hj, Nat.testBit_eq_false_of_lt
      (lt_of_lt_of_le hb (Nat.pow_le_pow_right (by omega) (Nat.le_of_not_lt hj)))]

theorem uint32_shiftRight_eight_toNat (x : UInt32) : (x >>> 8).toNat = x.toNat >>> 8 := by
  show (x.toBitVec >>> ((8 : UInt32) % 32).toBitVec).toNat = _
  simp only [BitVec.ushiftRight_eq', BitVec.toNat_ushiftRight]
  rfl

/-- A byte or-ed into the low bits of a 32-bit word is gone after `>> 8`. -/
theorem uint32_or_byte_shiftRight (y : UInt32) (b : UInt8) : (y ||| b.toUInt32) >>> 8 = y >>> 8 := by
  apply UInt32.toNat.inj
  rw [uint32_shiftRight_eight_toNat, uint32_shiftRight_eight_toNat]
  exact or_shiftRight_of_lt y.toNat b.toBitVec.isLt

/-- A byte alone is gone after `>> 8`. -/
theorem uint32_byte_shiftRight (b : UInt8) : b.toUInt32 >>> 8 = 0 := by
  apply UInt32.toNat.inj
  rw [uint32_shiftRight_eight_toNat, Nat.shiftRight_eq_div_pow]
  exact Nat.div_eq_of_lt b.toBitVec.isLt

/-- `b & 0x7f`: the low seven bits of a byte. -/
theorem uint8_and_0x7f_toNat (b : UInt8) : (b &&& 0x7f).toNat = b.toNat % 128 := by
  show (b.toBitVec &&& (0x7f : UInt8).toBitVec).toNat = _
  rw [BitVec.toNat_and]
  exact Nat.and_pow_two_sub_one_eq_mod b.toNat 7

/-- `b & 0x80`: the high bit of a byte is set exactly from `128` on. -/
theorem uint8_and_0x80_ne_zero (b : UInt8) : b &&& 0x80 ≠ 0 ↔ 128 ≤ b.toNat := by
  have hb : b.toNat < 256 := b.toNat_lt_size
  have h0 : b &&& 0x80 = 0 ↔ b.toNat &&& 2 ^ 7 = 0 :=
    ⟨fun h => by simpa using congrArg UInt8.toNat h, fun h => UInt8.toNat.inj h⟩
  rw [Ne, h0, Nat.and_two_pow, Nat.testBit_to_div_mod]
  by_cases h : 128 ≤ b.toNat <;> simp [h] <;> omega

theorem uint8_shiftRight_toNat (x : UInt8) {k : Nat} (hk : k < 8) :
    (x >>> k.toUInt8).toNat = x.toNat >>> k := by
  show (x.toBitVec >>> (k.toUInt8 % 8).toBitVec).toNat = _
  have hmod : (k.toUInt8 % 8).toBitVec.toNat = k := by
    show (k.toUInt8 % 8).toNat = k
    rw [UInt8.toNat_mod, UInt8.toNat_ofNat_of_lt (lt_trans hk (by decide))]
    exact Nat.mod_eq_of_lt hk
  simp only [BitVec.ushiftRight_eq', BitVec.toNat_ushiftRight, hmod]
  rfl

theorem uint8_and_one_toNat (x : UInt8) : (x &&& 1).toNat = x.toNat % 2 := by
  show (x.toBitVec &&& (1 : UInt8).toBitVec).toNat = _
  rw [BitVec.toNat_and]
  exact Nat.and_one_is_mod _

/-- A 32-bit shift by a count below `32` keeps the low 32 bits of the product. -/
theorem uint32_shiftLeft_toNat (x : UInt32) {k : Nat} (hk : k < 32) :
    (x <<< k.toUInt32).toNat = x.toNat * 2 ^ k % 2 ^ 32 := by
  show (x.toBitVec <<< (k.toUInt32 % 32).toBitVec).toNat = _
  have hmod : (k.toUInt32 % 32).toBitVec.toNat = k := by
    show (k.toUInt32 % 32).toNat = k
    rw [UInt32.toNat_mod, UInt32.toNat_ofNat_of_lt (lt_trans hk (by decide))]
    exact Nat.mod_eq_of_lt hk
  simp only [BitVec.shiftLeft_eq', BitVec.toNat_shiftLeft, hmod, Nat.shiftLeft_eq]
  rfl

/-- Widening a byte to 32 bits keeps its value. -/
@[simp] theorem uint8_toUInt32_toNat (x : UInt8) : x.toUInt32.toNat = x.toNat := rfl

theorem uint32_shiftLeft_eight_toNat (x : UInt32) : (x <<< 8).toNat = x.toNat * 2 ^ 8 % 2 ^ 32 :=
  uint32_shiftLeft_toNat x (by decide)

theorem uint32_shiftRight_toNat (x : UInt32) {k : Nat} (hk : k < 32) :
    (x >>> k.toUInt32).toNat = x.toNat >>> k := by
  show (x.toBitVec >>> (k.toUInt32 % 32).toBitVec).toNat = _
  have hmod : (k.toUInt32 % 32).toBitVec.toNat = k := by
    show (k.toUInt32 % 32).toNat = k
    rw [UInt32.toNat_mod, UInt32.toNat_ofNat_of_lt (lt_trans hk (by decide))]
    exact Nat.mod_eq_of_lt hk
  simp only [BitVec.ushiftRight_eq', BitVec.toNat_ushiftRight, hmod]
  rfl

theorem uint32_or_toNat (a b : UInt32) : (a ||| b).toNat = a.toNat ||| b.toNat :=
  BitVec.toNat_or ..

/-- `~(-1 << n)`: the mask of the `n` low bits. -/
theorem uint32_low_mask_toNat {n : Nat} (hn : n < 32) :
    (~~~((0xFFFFFFFF : UInt32) <<< n.toUInt32)).toNat = 2 ^ n - 1 := by
  show (~~~((0xFFFFFFFF : UInt32) <<< n.toUInt32).toBitVec).toNat = _
  rw [BitVec.toNat_not]
  show 2 ^ 32 - 1 - ((0xFFFFFFFF : UInt32) <<< n.toUInt32).toNat = _
  rw [uint32_shiftLeft_toNat _ hn]
  have h1 : 1 ≤ 2 ^ n := Nat.one_le_two_pow
  have h2 : 2 ^ n ≤ 2 ^ 31 := Nat.pow_le_pow_right (by omega) (by omega)
  show 2 ^ 32 - 1 - 4294967295 * 2 ^ n % 2 ^ 32 = _
  generalize 2 ^ n = P at h1 h2 ⊢
  omega

/-- A C `int` below its sign bit converts to `uint64_t` unchanged. -/
theorem intToUInt64_toNat_of_lt {v : UInt32} (h : v.toNat < 2 ^ 31) :
    (intToUInt64 v).toNat = v.toNat := by
  rw [intToUInt64, if_pos (show v < 0x80000000 from h)]
  rfl

/-- The `w` bytes of `v` in little-endian order: what storing `v` in a `w`-byte integer writes. -/
def storeLE (w v : Nat) : List UInt8 := (List.range w).map fun i => (v >>> (8 * i)).toUInt8

/-- `storeLE` writes back the bytes whose little-endian word it is given. -/
theorem storeLE_foldr : ∀ bs : List UInt8,
    storeLE bs.length (bs.foldr (fun b acc => acc * 256 + b.toNat) 0) = bs
  | [] => rfl
  | b :: bs => by
    have hb := b.toNat_lt_size
    set v := bs.foldr (fun b acc => acc * 256 + b.toNat) 0
    have hv : (v * 256 + b.toNat) >>> 8 = v := by
      rw [Nat.shiftRight_eq_div_pow]; show _ / 256 = v; simp only [UInt8.size] at hb; omega
    rw [List.length_cons, List.foldr_cons, storeLE, List.range_succ_eq_map, List.map_cons, List.map_map]
    congr 1
    · exact UInt8.toNat.inj (by show (v * 256 + b.toNat) % 256 = b.toNat; simp only [UInt8.size] at hb; omega)
    · conv_rhs => rw [← storeLE_foldr bs]
      refine List.map_congr_left fun i _ => ?_
      simp only [Function.comp, show 8 * (i + 1) = 8 + 8 * i by omega, Nat.shiftRight_add, hv]

/-- Write `bytes` at offset `off` of a buffer of fixed size; `none` when the write runs past its
end. -/
def writeAt (buf : List UInt8) (off : Nat) (bytes : List UInt8) : Option (List UInt8) :=
  if off + bytes.length ≤ buf.length then
    some (buf.take off ++ bytes ++ buf.drop (off + bytes.length))
  else none

/-- The storage a value function writes through `void *value`: a field kept in place, as its bytes,
or a `char *` field, as the string it points to (`none` for NULL). -/
inductive Cell
  | bytes (b : List UInt8)
  | str (s : Option (List UInt8))
deriving Repr, DecidableEq

/-- `*(uint32_t *)value |= n << p->flag`, on the four bytes of the flag word. -/
def orFlag (cell : Cell) (bit flag : Nat) : Option Cell :=
  match cell with
  | .bytes field =>
    let word := (field.take 4).foldr (fun b acc => acc * 256 + b.toNat) 0
    (writeAt field 0 (storeLE 4 (word ||| (bit <<< flag) % 2 ^ 32))).map Cell.bytes
  | .str _ => none

/-- `*dest = v` for a `w`-byte integer field. -/
def storeInt (cell : Cell) (w v : Nat) : Option Cell :=
  match cell with
  | .bytes field => (writeAt field 0 (storeLE w v)).map Cell.bytes
  | .str _ => none

/-- Or-ing a clear bit into a flag word of four bytes leaves the field as it was. -/
theorem orFlag_zero {field : List UInt8} (h : 4 ≤ field.length) (flag : Nat) :
    orFlag (.bytes field) 0 flag = some (.bytes field) := by
  obtain ⟨b0, b1, b2, b3, rest, rfl⟩ : ∃ b0 b1 b2 b3 rest, field = b0 :: b1 :: b2 :: b3 :: rest := by
    match field, h with
    | b0 :: b1 :: b2 :: b3 :: rest, _ => exact ⟨b0, b1, b2, b3, rest, rfl⟩
  have hw : [b0, b1, b2, b3].foldr (fun b acc => acc * 256 + b.toNat) 0 < 2 ^ 32 := by
    have := b0.toNat_lt_size; have := b1.toNat_lt_size; have := b2.toNat_lt_size; have := b3.toNat_lt_size
    simp only [List.foldr, UInt8.size] at *; omega
  have hs := storeLE_foldr [b0, b1, b2, b3]
  simp only [List.length_cons, List.length_nil, Nat.reduceAdd] at hs
  simp only [orFlag, List.take, Nat.zero_shiftLeft, Nat.zero_mod, Nat.or_zero, Nat.mod_eq_of_lt hw, hs]
  simp [writeAt]

/-- A write that fits leaves the buffer's size unchanged. -/
theorem writeAt_length {buf bytes out : List UInt8} {off : Nat}
    (h : writeAt buf off bytes = some out) : out.length = buf.length := by
  unfold writeAt at h
  split at h
  · cases h; simp; omega
  · cases h

/-! ## The heap

A heap block is named by a non-zero number, its address (`0` is `NULL`); its memory is a word at each
byte offset, which is all the walkers over object trees read.  A `Heap` records the blocks `free`
has released, in order, and carries the facts that make that record a trace of frees: no block is
released twice and a released block is no longer live. -/

/-- The live blocks with their words, and the blocks released so far. -/
structure Heap where
  blocks : Nat → Option (Nat → Nat)
  freed : List Nat
  freed_nodup : freed.Nodup
  freed_dead : ∀ b ∈ freed, blocks b = none

namespace Heap

/-- A heap of live blocks from which nothing has been released yet. -/
def ofBlocks (blocks : Nat → Option (Nat → Nat)) : Heap :=
  ⟨blocks, [], List.nodup_nil, fun _ h => absurd h (List.not_mem_nil _)⟩

/-- `*(word *)(b + off)`: the word at offset `off` of block `b`, a fault unless `b` is live. -/
def load (h : Heap) (b off : Nat) : Except Fault Nat :=
  match h.blocks b with
  | some words => .ok (words off)
  | none => .error (if b ∈ h.freed then .useAfterFree else .outOfBounds)

/-- A live block is not among the released ones. -/
theorem not_mem_freed (h : Heap) {b : Nat} (hb : (h.blocks b).isSome) : b ∉ h.freed :=
  fun hm => by simp [h.freed_dead b hm] at hb

/-- Releasing block `b` leaves it and every block released before dead. -/
theorem release_dead (h : Heap) (b : Nat) :
    ∀ x ∈ h.freed ++ [b], Function.update h.blocks b none x = none := fun x hx => by
  by_cases hxb : x = b
  · subst hxb; exact Function.update_same _ _ _
  · rw [Function.update_noteq hxb]
    exact h.freed_dead x ((List.mem_append.mp hx).resolve_right (by simpa using hxb))

/-- Overwriting a live block leaves the released blocks dead. -/
theorem overwrite_dead (h : Heap) {b : Nat} (hb : (h.blocks b).isSome) (words : Nat → Nat) :
    ∀ x ∈ h.freed, Function.update h.blocks b (some words) x = none := fun x hx => by
  have hxb : x ≠ b := fun e => h.not_mem_freed hb (e ▸ hx)
  rw [Function.update_noteq hxb, h.freed_dead x hx]

/-- `free (b)`: release a live block; `free (NULL)` does nothing. -/
def free (h : Heap) (b : Nat) : Except Fault Heap :=
  if b = 0 then .ok h
  else if hb : (h.blocks b).isSome then
    .ok ⟨Function.update h.blocks b none, h.freed ++ [b],
      h.freed_nodup.append (List.nodup_singleton b) (List.disjoint_singleton.mpr (h.not_mem_freed hb)),
      h.release_dead b⟩
  else .error .invalidFree

/-- `memcpy (b + off, src + srcOff, size)` between live blocks. -/
def copy (h : Heap) (b off src srcOff size : Nat) : Except Fault Heap :=
  match hb : h.blocks b, h.blocks src with
  | some dst, some words =>
    let copied k := if off ≤ k ∧ k < off + size then words (srcOff + (k - off)) else dst k
    .ok ⟨Function.update h.blocks b (some copied), h.freed, h.freed_nodup,
      h.overwrite_dead (by simp [hb]) copied⟩
  | none, _ => .error (if b ∈ h.freed then .useAfterFree else .outOfBounds)
  | _, none => .error (if src ∈ h.freed then .useAfterFree else .outOfBounds)

end Heap

end Sep2Client
