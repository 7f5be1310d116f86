import Sep2Client.Hash.Group

/-!
# Population count and rank

A sparse group finds the slot of position `i` with `bit_rank (bits, i)`, the `popcount64` of the
bitmap shifted left by `64 - i`.  `popcount64` is the SWAR count of `hash.c`: it replaces every
2-bit field of the word by the number of its set bits, adds neighbouring fields into 4-bit fields
and then bytes, and sums the eight bytes into the top one with one multiplication.

A word is written here as a sum of fields (`fieldSum`), and each step of `popcount64` is an
identity between such sums that holds because no field overflows (`swar_step_pairs`,
`swar_step_nibbles`, `swar_step_bytes`, `swar_step_total`).  So `popcount64` counts the set bits
of every 64-bit word (`popcount64_eq_bitsBelow`), `bit_rank` counts those below `i`
(`bitRank_eq_bitsBelow`), and the rank of a bitmap position never reads the count kept in bits
`58..63` (`popcount64_bitRank_count`).
-/

namespace Sep2Client

/-! ## Counting set bits -/

/-- The number of set bits of `n` below position `i`: what the spec says `bit_rank` counts, and,
for `i = 64`, what `popcount64` counts. -/
def bitsBelow (n i : Nat) : Nat := (List.range i).countP fun j => n.testBit j

@[simp] theorem bitsBelow_zero (n : Nat) : bitsBelow n 0 = 0 := rfl

theorem bitsBelow_succ (n i : Nat) : bitsBelow n (i + 1) = bitsBelow n i + (n.testBit i).toNat := by
  rw [bitsBelow, List.range_succ, List.countP_append, bitsBelow]
  cases h : n.testBit i <;> simp [h]

/-- `bitsBelow n i` reads only the bits of `n` below `i`. -/
theorem bitsBelow_congr {n n' : Nat} : ∀ {i : Nat}, (∀ j < i, n.testBit j = n'.testBit j) →
    bitsBelow n i = bitsBelow n' i
  | 0, _ => rfl
  | i + 1, h => by
    rw [bitsBelow_succ, bitsBelow_succ, bitsBelow_congr fun j hj => h j (by omega), h i (by omega)]

@[simp] theorem bitsBelow_zero_left (i : Nat) : bitsBelow 0 i = 0 :=
  List.countP_eq_zero.mpr fun _ _ => by simp

theorem bitsBelow_le (n i : Nat) : bitsBelow n i ≤ i :=
  (List.countP_le_length _).trans_eq (List.length_range i)

/-- Shifting left by `s` moves the bits below `i` to the positions from `s` to `s + i`. -/
theorem bitsBelow_shiftLeft (n s : Nat) : ∀ i, bitsBelow (n <<< s) (s + i) = bitsBelow n i
  | 0 => by
    rw [Nat.add_zero, @bitsBelow_congr _ 0 s fun j hj => by simp [hj]]
    exact bitsBelow_zero_left s
  | i + 1 => by
    rw [← Nat.add_assoc, bitsBelow_succ, bitsBelow_shiftLeft n s i, bitsBelow_succ]
    simp

/-! ## Words as sums of fields

`popcount64` works on the fields of a word: 2-bit fields, then 4-bit, then bytes.  A word is
written `fieldSum w m f`, the number whose `w`-bit fields are `f 0, …, f (m - 1)`, lowest first;
each step of the population count is an identity between such sums, true because no field
overflows. -/

/-- The number whose `w`-bit fields, lowest first, are `f 0, …, f (m - 1)`. -/
def fieldSum (w : Nat) : Nat → (Nat → Nat) → Nat
  | 0, _ => 0
  | m + 1, f => f 0 + 2 ^ w * fieldSum w m (fun j => f (j + 1))

/-- `f 0 + ⋯ + f (m - 1)`. -/
def fieldTotal : Nat → (Nat → Nat) → Nat
  | 0, _ => 0
  | m + 1, f => f 0 + fieldTotal m (fun j => f (j + 1))

section Fields

variable {w : Nat}

theorem fieldSum_congr : ∀ {m : Nat} {f g : Nat → Nat}, (∀ j < m, f j = g j) →
    fieldSum w m f = fieldSum w m g
  | 0, _, _, _ => rfl
  | m + 1, f, g, h => by
    rw [fieldSum, fieldSum, h 0 (by omega), fieldSum_congr fun j hj => h (j + 1) (by omega)]

/-- Fields add one by one; no carry is involved in the identity itself. -/
theorem fieldSum_add : ∀ (m : Nat) (f g : Nat → Nat),
    fieldSum w m f + fieldSum w m g = fieldSum w m (fun j => f j + g j)
  | 0, _, _ => rfl
  | m + 1, f, g => by
    rw [fieldSum, fieldSum, fieldSum, ← fieldSum_add m]
    ring

theorem fieldSum_lt : ∀ {m : Nat} {f : Nat → Nat}, (∀ j < m, f j < 2 ^ w) →
    fieldSum w m f < 2 ^ (w * m)
  | 0, _, _ => by simp [fieldSum]
  | m + 1, f, h => by
    have h0 := h 0 (by omega)
    have ht := @fieldSum_lt m (fun j => f (j + 1)) fun j hj => h (j + 1) (by omega)
    rw [fieldSum, Nat.mul_succ, Nat.pow_add, Nat.mul_comm (2 ^ (w * m))]
    calc f 0 + 2 ^ w * fieldSum w m (fun j => f (j + 1))
        < 2 ^ w * (fieldSum w m (fun j => f (j + 1)) + 1) := by rw [Nat.mul_succ]; omega
      _ ≤ 2 ^ w * 2 ^ (w * m) := Nat.mul_le_mul_left _ ht

/-- Fields subtract one by one when no field of the subtrahend is larger. -/
theorem fieldSum_sub {m : Nat} {f g : Nat → Nat} (h : ∀ j < m, g j ≤ f j) :
    fieldSum w m g ≤ fieldSum w m f ∧
      fieldSum w m f - fieldSum w m g = fieldSum w m (fun j => f j - g j) := by
  have hsum : fieldSum w m g + fieldSum w m (fun j => f j - g j) = fieldSum w m f := by
    rw [fieldSum_add]
    exact fieldSum_congr fun j hj => by have := h j hj; omega
  omega

/-- The low field of `a + 2 ^ w * b`, for `a < 2 ^ w`, is `a`, and the others are those of `b`. -/
theorem testBit_add_two_pow_mul {a : Nat} (b : Nat) (ha : a < 2 ^ w) (j : Nat) :
    (a + 2 ^ w * b).testBit j = if j < w then a.testBit j else b.testBit (j - w) := by
  rw [Nat.add_comm, Nat.testBit_mul_pow_two_add _ ha]

/-- Fields `and` one by one. -/
theorem fieldSum_and : ∀ {m : Nat} {f g : Nat → Nat}, (∀ j < m, f j < 2 ^ w) →
    (∀ j < m, g j < 2 ^ w) → fieldSum w m f &&& fieldSum w m g = fieldSum w m (fun j => f j &&& g j)
  | 0, _, _, _, _ => by simp [fieldSum]
  | m + 1, f, g, hf, hg => by
    rw [fieldSum, fieldSum, fieldSum, ← fieldSum_and (fun j hj => hf (j + 1) (by omega))
      (fun j hj => hg (j + 1) (by omega))]
    apply Nat.eq_of_testBit_eq
    intro j
    rw [Nat.testBit_and, testBit_add_two_pow_mul _ (hf 0 (by omega)),
      testBit_add_two_pow_mul _ (hg 0 (by omega)),
      testBit_add_two_pow_mul _ (Nat.and_lt_two_pow _ (hg 0 (by omega))), Nat.testBit_and,
      Nat.testBit_and]
    split <;> rfl

/-- Two neighbouring `w`-bit fields make one `2 * w`-bit field. -/
theorem fieldSum_pairs : ∀ (m : Nat) (f : Nat → Nat),
    fieldSum w (2 * m) f = fieldSum (2 * w) m (fun j => f (2 * j) + 2 ^ w * f (2 * j + 1))
  | 0, _ => rfl
  | m + 1, f => by
    have hpairs : fieldSum w (2 * m) (fun j => f (j + 2)) = _ := fieldSum_pairs m fun j => f (j + 2)
    rw [show 2 * (m + 1) = 2 * m + 1 + 1 by omega, fieldSum, fieldSum, fieldSum, hpairs,
      Nat.two_mul w, Nat.pow_add]
    simp only [Nat.mul_add, Nat.add_assoc, Nat.mul_zero, Nat.zero_add, Nat.mul_one]
    ring

/-- The top field. -/
theorem fieldSum_succ_top : ∀ (m : Nat) (f : Nat → Nat),
    fieldSum w (m + 1) f = fieldSum w m f + 2 ^ (w * m) * f m
  | 0, f => by simp [fieldSum]
  | m + 1, f => by
    rw [fieldSum, fieldSum_succ_top m, fieldSum, Nat.mul_succ, Nat.pow_add]
    ring

/-- Dropping the low field divides by `2 ^ w`. -/
theorem fieldSum_div {m : Nat} {f : Nat → Nat} (h0 : f 0 < 2 ^ w) :
    fieldSum w (m + 1) f / 2 ^ w = fieldSum w m (fun j => f (j + 1)) := by
  rw [fieldSum, Nat.add_mul_div_left _ _ (Nat.two_pow_pos w), Nat.div_eq_of_lt h0, Nat.zero_add]

/-- The top field of a sum whose lower fields do not overflow. -/
theorem fieldSum_div_top {m : Nat} {f : Nat → Nat} (h : ∀ j < m, f j < 2 ^ w) :
    fieldSum w (m + 1) f / 2 ^ (w * m) = f m := by
  rw [fieldSum_succ_top, Nat.add_mul_div_left _ _ (Nat.two_pow_pos _), Nat.div_eq_of_lt (fieldSum_lt h),
    Nat.zero_add]

/-- A number below `2 ^ m` is the sum of its `m` bits. -/
theorem fieldSum_bits : ∀ {m x : Nat}, x < 2 ^ m → fieldSum 1 m (fun i => (x.testBit i).toNat) = x
  | 0, x, hx => by simp at hx; simp [hx, fieldSum]
  | m + 1, x, hx => by
    have hhalf := @fieldSum_bits m (x / 2) (by rw [Nat.pow_succ] at hx; omega)
    simp only [← Nat.testBit_succ] at hhalf
    rw [fieldSum, hhalf, Nat.testBit_zero]
    have := Nat.mod_two_eq_zero_or_one x
    rcases this with h | h <;> simp [h] <;> omega

theorem fieldTotal_succ_top : ∀ (m : Nat) (f : Nat → Nat),
    fieldTotal (m + 1) f = fieldTotal m f + f m
  | 0, f => by simp [fieldTotal]
  | m + 1, f => by
    rw [fieldTotal, fieldTotal_succ_top m, fieldTotal]
    omega

/-- Summing neighbouring fields keeps the total. -/
theorem fieldTotal_pairs : ∀ (m : Nat) (f : Nat → Nat),
    fieldTotal m (fun j => f (2 * j) + f (2 * j + 1)) = fieldTotal (2 * m) f
  | 0, _ => rfl
  | m + 1, f => by
    have hpairs := fieldTotal_pairs m fun j => f (j + 2)
    rw [show 2 * (m + 1) = 2 * m + 1 + 1 by omega, fieldTotal, fieldTotal, fieldTotal, ← hpairs]
    simp only [Nat.mul_add, Nat.mul_zero, Nat.zero_add, Nat.mul_one, Nat.add_assoc]

theorem fieldTotal_le {B : Nat} : ∀ {m : Nat} {f : Nat → Nat}, (∀ j < m, f j ≤ B) →
    fieldTotal m f ≤ m * B
  | 0, _, _ => by simp [fieldTotal]
  | m + 1, f, h => by
    have := @fieldTotal_le B m (fun j => f (j + 1)) fun j hj => h (j + 1) (by omega)
    have := h 0 (by omega)
    rw [fieldTotal, Nat.succ_mul]
    omega

/-- The bits of a number in `bitsBelow` are the fields of width `1`. -/
theorem fieldTotal_bits (x : Nat) : ∀ m, fieldTotal m (fun i => (x.testBit i).toNat) = bitsBelow x m
  | 0 => rfl
  | m + 1 => by rw [fieldTotal_succ_top, fieldTotal_bits x m, bitsBelow_succ]

end Fields

/-- The low field of `a + 2 ^ w * b` under the mask `2 ^ w - 1`. -/
theorem add_two_pow_mul_and {w a : Nat} (b : Nat) (ha : a < 2 ^ w) :
    (a + 2 ^ w * b) &&& (2 ^ w - 1) = a := by
  rw [Nat.and_pow_two_sub_one_eq_mod, Nat.add_mul_mod_self_left, Nat.mod_eq_of_lt ha]

/-- Shifting right by one field moves every field down; the top one is `0`. -/
theorem fieldSum_shiftRight {w : Nat} (m : Nat) {f : Nat → Nat} (h0 : f 0 < 2 ^ w)
    (htop : f (m + 1) = 0) : fieldSum w (m + 1) f >>> w = fieldSum w (m + 1) (fun j => f (j + 1)) := by
  rw [Nat.shiftRight_eq_div_pow, fieldSum_div h0, fieldSum_succ_top m (fun j => f (j + 1)), htop,
    Nat.mul_zero, Nat.add_zero]

/-- A word below `2 ^ 64` in 2-bit fields: each field is its two bits. -/
theorem fieldSum_bit_pairs {x : Nat} (hx : x < 2 ^ 64) :
    x = fieldSum 2 32 (fun j => (x.testBit (2 * j)).toNat + 2 ^ 1 * (x.testBit (2 * j + 1)).toNat) :=
  calc x = fieldSum 1 (2 * 32) (fun i => (x.testBit i).toNat) := (fieldSum_bits hx).symm
    _ = _ := fieldSum_pairs 32 _

/-! ## The steps of `popcount64` -/

/-- `x -= (x >> 1) & m1`: each 2-bit field now holds the number of its set bits. -/
theorem swar_step_pairs {x : Nat} (hx : x < 2 ^ 64) :
    (x >>> 1) &&& 0x5555555555555555 ≤ x ∧
      x - ((x >>> 1) &&& 0x5555555555555555) =
        fieldSum 2 32 (fun j => (x.testBit (2 * j)).toNat + (x.testBit (2 * j + 1)).toNat) := by
  have hb : ∀ i, (x.testBit i).toNat ≤ 1 := fun i => Bool.toNat_le _
  have hhalf : x >>> 1 = fieldSum 2 32
      (fun j => (x.testBit (2 * j + 1)).toNat + 2 ^ 1 * (x.testBit (2 * j + 2)).toNat) := by
    rw [@fieldSum_bit_pairs (x >>> 1)
      (lt_of_le_of_lt (Nat.shiftRight_eq_div_pow x 1 ▸ Nat.div_le_self x _) hx)]
    refine fieldSum_congr fun j _ => ?_
    simp only [Nat.testBit_shiftRight]
    rw [show 1 + 2 * j = 2 * j + 1 by omega, show 1 + (2 * j + 1) = 2 * j + 2 by omega]
  have hand : (x >>> 1) &&& 0x5555555555555555 =
      fieldSum 2 32 (fun j => (x.testBit (2 * j + 1)).toNat) := by
    rw [hhalf, show (0x5555555555555555 : Nat) = fieldSum 2 32 (fun _ => 2 ^ 1 - 1) by decide,
      fieldSum_and (fun j _ => by have := hb (2 * j + 1); have := hb (2 * j + 2); omega)
        (fun _ _ => by decide)]
    exact fieldSum_congr fun j _ => add_two_pow_mul_and _ (by have := hb (2 * j + 1); omega)
  have hsub := @fieldSum_sub 2 32
    (fun j => (x.testBit (2 * j)).toNat + 2 ^ 1 * (x.testBit (2 * j + 1)).toNat)
    (fun j => (x.testBit (2 * j + 1)).toNat) fun j _ => by dsimp only; omega
  rw [← fieldSum_bit_pairs hx] at hsub
  rw [hand]
  exact ⟨hsub.1, hsub.2.trans (fieldSum_congr fun j _ => by dsimp only; omega)⟩

/-- `x = (x & m2) + ((x >> 2) & m2)`: each 4-bit field now holds the sum of its two 2-bit fields. -/
theorem swar_step_nibbles {c : Nat → Nat} (hc : ∀ j, c j ≤ 2) (hc32 : c 32 = 0) :
    (fieldSum 2 32 c &&& 0x3333333333333333) + ((fieldSum 2 32 c >>> 2) &&& 0x3333333333333333) =
      fieldSum 4 16 (fun i => c (2 * i) + c (2 * i + 1)) := by
  have hmask : (0x3333333333333333 : Nat) = fieldSum 4 16 (fun _ => 2 ^ 2 - 1) := by decide
  have hlow : fieldSum 2 32 c &&& 0x3333333333333333 = fieldSum 4 16 (fun i => c (2 * i)) := by
    rw [show fieldSum 2 32 c = fieldSum (2 * 2) 16 _ from fieldSum_pairs 16 c, hmask,
      fieldSum_and (fun i _ => by have := hc (2 * i); have := hc (2 * i + 1); omega)
        (fun _ _ => by decide)]
    exact fieldSum_congr fun i _ => add_two_pow_mul_and _ (by have := hc (2 * i); omega)
  have hhigh : (fieldSum 2 32 c >>> 2) &&& 0x3333333333333333 =
      fieldSum 4 16 (fun i => c (2 * i + 1)) := by
    rw [fieldSum_shiftRight 31 (by have := hc 0; omega) hc32,
      show fieldSum 2 32 (fun j => c (j + 1)) = fieldSum (2 * 2) 16 _ from fieldSum_pairs 16 _, hmask,
      fieldSum_and (fun i _ => by have := hc (2 * i + 1); have := hc (2 * i + 1 + 1); omega)
        (fun _ _ => by decide)]
    exact fieldSum_congr fun i _ => add_two_pow_mul_and _ (by have := hc (2 * i + 1); omega)
  rw [hlow, hhigh, fieldSum_add]

/-- `x = (x + (x >> 4)) & m4`: each byte now holds the sum of its two 4-bit fields; the sum before
the mask does not wrap. -/
theorem swar_step_bytes {d : Nat → Nat} (hd : ∀ i, d i ≤ 4) (hd16 : d 16 = 0) :
    fieldSum 4 16 d + (fieldSum 4 16 d >>> 4) < 2 ^ 64 ∧
      (fieldSum 4 16 d + (fieldSum 4 16 d >>> 4)) &&& 0x0f0f0f0f0f0f0f0f =
        fieldSum 8 8 (fun k => d (2 * k) + d (2 * k + 1)) := by
  have hsum : fieldSum 4 16 d + (fieldSum 4 16 d >>> 4) = fieldSum 4 16 (fun i => d i + d (i + 1)) := by
    rw [fieldSum_shiftRight 15 (by have := hd 0; omega) hd16, fieldSum_add]
  rw [hsum]
  refine ⟨fieldSum_lt fun i _ => by have := hd i; have := hd (i + 1); omega, ?_⟩
  rw [show fieldSum 4 16 (fun i => d i + d (i + 1)) = fieldSum (2 * 4) 8 _ from fieldSum_pairs 8 _,
    show (0x0f0f0f0f0f0f0f0f : Nat) = fieldSum 8 8 (fun _ => 2 ^ 4 - 1) by decide,
    fieldSum_and (fun k _ => by
      have := hd (2 * k); have := hd (2 * k + 1); have := hd (2 * k + 1 + 1); omega)
      (fun _ _ => by decide)]
  exact fieldSum_congr fun k _ => add_two_pow_mul_and _
    (by have := hd (2 * k); have := hd (2 * k + 1); omega)

/-- `(x * h01) >> 56`: the multiplication adds every byte into the top one, and no partial sum
reaches a byte's capacity. -/
theorem swar_step_total {e : Nat → Nat} (he : ∀ k, e k ≤ 8) :
    fieldSum 8 8 e * 0x0101010101010101 % 2 ^ 64 / 2 ^ 56 = fieldTotal 8 e := by
  have hprefix : ∀ p < 8, fieldTotal (p + 1) e < 2 ^ 8 := fun p hp => by
    have := @fieldTotal_le 8 (p + 1) e fun k _ => he k
    have : (p + 1) * 8 ≤ 64 := by omega
    omega
  have hmul : fieldSum 8 8 e * 0x0101010101010101 = fieldSum 8 8 (fun p => fieldTotal (p + 1) e) +
      2 ^ 64 * (e 1 + e 2 + e 3 + e 4 + e 5 + e 6 + e 7 + 2 ^ 8 * (e 2 + e 3 + e 4 + e 5 + e 6 + e 7) +
        2 ^ 16 * (e 3 + e 4 + e 5 + e 6 + e 7) + 2 ^ 24 * (e 4 + e 5 + e 6 + e 7) +
        2 ^ 32 * (e 5 + e 6 + e 7) + 2 ^ 40 * (e 6 + e 7) + 2 ^ 48 * e 7) := by
    simp only [fieldSum, fieldTotal]
    ring
  rw [hmul, Nat.add_mul_mod_self_left, Nat.mod_eq_of_lt (fieldSum_lt hprefix),
    show (56 : Nat) = 8 * 7 from rfl, fieldSum_div_top fun p hp => hprefix p (by omega)]

/-! ## `popcount64` and `bit_rank` count set bits -/

/-- `popcount64 (x)` is the number of set bits of `x`. -/
theorem popcount64_eq_bitsBelow (x : UInt64) : popcount64 x = bitsBelow x.toNat 64 := by
  have hx : x.toNat < 2 ^ 64 := x.toBitVec.isLt
  -- the bits, then the 2-bit, 4-bit and 8-bit field counts
  let b : Nat → Nat := fun i => (x.toNat.testBit i).toNat
  let c : Nat → Nat := fun j => b (2 * j) + b (2 * j + 1)
  let d : Nat → Nat := fun i => c (2 * i) + c (2 * i + 1)
  let e : Nat → Nat := fun k => d (2 * k) + d (2 * k + 1)
  have hb : ∀ i, b i ≤ 1 := fun i => Bool.toNat_le _
  have hb64 : ∀ i, 64 ≤ i → b i = 0 := fun i hi => by
    simp [b, Nat.testBit_eq_false_of_lt (lt_of_lt_of_le hx (Nat.pow_le_pow_right (by omega) hi))]
  have hc : ∀ j, c j ≤ 2 := fun j => by
    show b (2 * j) + b (2 * j + 1) ≤ 2; have := hb (2 * j); have := hb (2 * j + 1); omega
  have hd : ∀ i, d i ≤ 4 := fun i => by
    show c (2 * i) + c (2 * i + 1) ≤ 4; have := hc (2 * i); have := hc (2 * i + 1); omega
  have he : ∀ k, e k ≤ 8 := fun k => by
    show d (2 * k) + d (2 * k + 1) ≤ 8; have := hd (2 * k); have := hd (2 * k + 1); omega
  have hc32 : c 32 = 0 := by simp only [c, hb64 64 le_rfl, hb64 65 (by omega)]
  have hd16 : d 16 = 0 := by
    simp only [d, c, hb64 64 le_rfl, hb64 65 (by omega), hb64 66 (by omega), hb64 67 (by omega)]
  -- the steps on the 64-bit words
  obtain ⟨hle, hpairs⟩ := swar_step_pairs hx
  simp only [popcount64]
  have hy : (x - ((x >>> 1) &&& (0x5555555555555555 : UInt64))).toNat = fieldSum 2 32 c := by
    have h1 : ((x >>> 1) &&& (0x5555555555555555 : UInt64)).toNat =
        x.toNat >>> 1 &&& 0x5555555555555555 := by
      rw [UInt64.and_toNat, uint64_shiftRight_toNat_mod]; rfl
    rw [UInt64.toNat_sub_of_le _ _ (uint64_le_iff.mpr (h1 ▸ hle)), h1, hpairs]
  generalize x - ((x >>> 1) &&& (0x5555555555555555 : UInt64)) = y at hy ⊢
  have hz : ((y &&& (0x3333333333333333 : UInt64)) + ((y >>> 2) &&& 0x3333333333333333)).toNat =
      fieldSum 4 16 d := by
    rw [uint64_add_toNat, UInt64.and_toNat, UInt64.and_toNat, uint64_shiftRight_toNat_mod, hy]
    erw [swar_step_nibbles hc hc32]
    exact Nat.mod_eq_of_lt (fieldSum_lt fun i _ => by have := hc (2 * i); have := hc (2 * i + 1); omega)
  generalize (y &&& (0x3333333333333333 : UInt64)) + ((y >>> 2) &&& 0x3333333333333333) = z at hz ⊢
  have hu : ((z + (z >>> 4)) &&& (0x0f0f0f0f0f0f0f0f : UInt64)).toNat = fieldSum 8 8 e := by
    obtain ⟨hlt, hbytes⟩ := swar_step_bytes hd hd16
    rw [UInt64.and_toNat, uint64_add_toNat, uint64_shiftRight_toNat_mod, hz]
    erw [Nat.mod_eq_of_lt hlt]
    exact hbytes
  generalize (z + (z >>> 4)) &&& (0x0f0f0f0f0f0f0f0f : UInt64) = u at hu ⊢
  rw [uint64_shiftRight_toNat_mod, uint64_mul_toNat, hu]
  erw [Nat.shiftRight_eq_div_pow, swar_step_total he]
  rw [← fieldTotal_bits x.toNat 64, ← fieldTotal_pairs 32, ← fieldTotal_pairs 16, ← fieldTotal_pairs 8]

/-- `bit_rank (bits, i)` is the number of set bits of `bits` below `i`. -/
theorem bitRank_eq_bitsBelow (x : UInt64) {i : Nat} (hi : i < 64) :
    bitRank x i = bitsBelow x.toNat i := by
  unfold bitRank
  split_ifs with h0
  · rw [h0]; rfl
  · have hshift := bitsBelow_shiftLeft x.toNat (64 - i) i
    rw [Nat.sub_add_cancel (by omega), Nat.shiftLeft_eq] at hshift
    rw [popcount64_eq_bitsBelow, uint64_shiftLeft_toNat x (show 64 - i < 64 by omega), ← hshift]
    exact bitsBelow_congr fun j hj => by rw [Nat.testBit_mod_two_pow]; simp [hj]

/-- The population count and the rank are the numbers of set bits, and the rank of a position of
the bitmap never reads the count kept in bits `58..63`. -/
theorem popcount64_bitRank_count (x : UInt64) :
    popcount64 x = bitsBelow x.toNat 64 ∧ (∀ i < 64, bitRank x i = bitsBelow x.toNat i) ∧
      ∀ (y : UInt64) (i : Nat), i ≤ 58 → x.toNat % 2 ^ 58 = y.toNat % 2 ^ 58 →
        bitRank x i = bitRank y i := by
  refine ⟨popcount64_eq_bitsBelow x, fun i hi => bitRank_eq_bitsBelow x hi, fun y i hi hxy => ?_⟩
  rw [bitRank_eq_bitsBelow x (by omega), bitRank_eq_bitsBelow y (by omega)]
  refine bitsBelow_congr fun j hj => ?_
  have := congrArg (Nat.testBit · j) hxy
  simp only [Nat.testBit_mod_two_pow] at this
  simpa [show j < 58 by omega] using this

end Sep2Client
