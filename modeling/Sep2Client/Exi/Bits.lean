import Sep2Client.Exi.Extend

/-!
# The bit stream of `parse_bits`

EXI reads its input as a stream of bits, the bits of each byte most significant first, and the
parser's cursor `(ptr, bit)` stands at position `8 * ptr + bit` of it.  `parse_bits` loads the byte
at `ptr` into a 32-bit accumulator, shifts in the `(bit + n) / 8` bytes that follow, and keeps the
`n` bits that end at the final offset.  This file says what that reads in terms of the stream itself
(`streamBits`, read as a number by `bitsValue`) and proves it for every buffer, every offset below
`8` and every width up to `24` (`parseBits_reads_stream`); `parse_bit` is the case of one bit.

Three facts make the proof: the accumulator holds the value of the bytes loaded, at most four of
them, so its 32 bits never overflow (`parseBits_acc_toNat`); a shift and a mask cut a window out of
the value of a bit list (`bitsValue_window`); and the window lies within the bytes `need` asks for,
where the bytes loaded are those of the buffer (`take_map_range_getD`).
-/

namespace Sep2Client

/-! ## Bit lists -/

/-- The `k` low bits of `v`, most significant first. -/
def natBits (v : Nat) : Nat → List Bool
  | 0 => []
  | k + 1 => v.testBit k :: natBits v k

/-- The bits of a byte, most significant first, as EXI reads them. -/
def byteBits (b : UInt8) : List Bool := natBits b.toNat 8

/-- The bit stream of a buffer: bit `8 * k + r` is bit `7 - r` of byte `k`. -/
def streamBits (buf : List UInt8) : List Bool := buf.flatMap byteBits

/-- The number bits spell, the first one most significant. -/
def bitsValue (bs : List Bool) : Nat := bs.foldl (fun acc b => 2 * acc + b.toNat) 0

theorem length_natBits (v : Nat) : ∀ k, (natBits v k).length = k
  | 0 => rfl
  | k + 1 => by rw [natBits, List.length_cons, length_natBits v k]

@[simp] theorem length_byteBits (b : UInt8) : (byteBits b).length = 8 := length_natBits _ 8

@[simp] theorem streamBits_nil : streamBits [] = [] := rfl

@[simp] theorem streamBits_append (a b : List UInt8) :
    streamBits (a ++ b) = streamBits a ++ streamBits b := List.flatMap_append _ _ _

@[simp] theorem streamBits_cons (b : UInt8) (l : List UInt8) :
    streamBits (b :: l) = byteBits b ++ streamBits l := rfl

theorem length_streamBits : ∀ buf : List UInt8, (streamBits buf).length = 8 * buf.length
  | [] => rfl
  | b :: l => by
    rw [streamBits_cons, List.length_append, length_byteBits, length_streamBits l, List.length_cons]
    ring

theorem streamBits_take : ∀ (buf : List UInt8) (k : Nat),
    streamBits (buf.take k) = (streamBits buf).take (8 * k)
  | [], _ => by simp
  | _ :: _, 0 => by simp
  | b :: l, k + 1 => by
    rw [List.take_succ_cons, streamBits_cons, streamBits_cons, streamBits_take l k,
      show 8 * (k + 1) = 8 + 8 * k by ring, List.take_append_eq_append_take,
      List.take_of_length_le (show (byteBits b).length ≤ 8 + 8 * k by rw [length_byteBits]; omega),
      length_byteBits, Nat.add_sub_cancel_left]

theorem bitsValue_foldl (bs : List Bool) : ∀ a : Nat,
    bs.foldl (fun acc b => 2 * acc + b.toNat) a = a * 2 ^ bs.length + bitsValue bs := by
  induction bs with
  | nil => intro a; simp [bitsValue]
  | cons b bs ih =>
    intro a
    have h0 := ih (2 * 0 + b.toNat)
    rw [List.foldl_cons, ih]
    show _ = a * _ + List.foldl _ (2 * 0 + b.toNat) bs
    rw [h0, List.length_cons, Nat.pow_succ]
    ring

theorem bitsValue_append (a b : List Bool) :
    bitsValue (a ++ b) = bitsValue a * 2 ^ b.length + bitsValue b := by
  rw [bitsValue, List.foldl_append, bitsValue_foldl]
  rfl

theorem bitsValue_cons (b : Bool) (bs : List Bool) :
    bitsValue (b :: bs) = b.toNat * 2 ^ bs.length + bitsValue bs := by
  rw [← List.singleton_append, bitsValue_append]
  cases b <;> rfl

theorem bitsValue_lt : ∀ bs : List Bool, bitsValue bs < 2 ^ bs.length
  | [] => by decide
  | b :: bs => by
    rw [bitsValue_cons, List.length_cons, Nat.pow_succ]
    have := bitsValue_lt bs
    have : b.toNat ≤ 1 := Bool.toNat_le b
    nlinarith

/-- The `k` low bits of `v` spell `v % 2 ^ k`. -/
theorem bitsValue_natBits (v : Nat) : ∀ k, bitsValue (natBits v k) = v % 2 ^ k
  | 0 => by simp [natBits, bitsValue, Nat.mod_one]
  | k + 1 => by
    rw [natBits, bitsValue_cons, length_natBits, bitsValue_natBits v k, Nat.mod_pow_succ,
      Nat.testBit_to_div_mod]
    have := Nat.mod_two_eq_zero_or_one (v / 2 ^ k)
    rcases this with h | h <;> simp [h]; ring

theorem bitsValue_byteBits (b : UInt8) : bitsValue (byteBits b) = b.toNat := by
  rw [byteBits, bitsValue_natBits, Nat.mod_eq_of_lt (show b.toNat < 2 ^ 8 from b.toNat_lt_size)]

/-- The window of `n` bits from position `a`: shift off what follows, keep `n` bits. -/
theorem bitsValue_window (bs : List Bool) {a n : Nat} (h : a + n ≤ bs.length) :
    bitsValue bs / 2 ^ (bs.length - (a + n)) % 2 ^ n = bitsValue ((bs.drop a).take n) := by
  have hsplit : bs = bs.take a ++ (bs.drop a).take n ++ bs.drop (a + n) := by
    rw [List.append_assoc, ← List.drop_drop, List.take_append_drop, List.take_append_drop]
  have hlen : (bs.drop (a + n)).length = bs.length - (a + n) := List.length_drop _ _
  have hwin : ((bs.drop a).take n).length = n := by simp; omega
  have hval : bitsValue bs = bitsValue (bs.drop (a + n)) + (bitsValue (bs.take a) * 2 ^ n +
      bitsValue ((bs.drop a).take n)) * 2 ^ (bs.length - (a + n)) := by
    conv_lhs => rw [hsplit]
    rw [bitsValue_append, bitsValue_append, hlen, hwin, Nat.add_comm]
  rw [hval, Nat.add_mul_div_right _ _ (Nat.two_pow_pos _), Nat.div_eq_of_lt (hlen ▸ bitsValue_lt _),
    Nat.zero_add, Nat.mul_comm, Nat.mul_add_mod,
    Nat.mod_eq_of_lt (lt_of_lt_of_eq (bitsValue_lt _) (by rw [hwin]))]

/-! ## The accumulator -/

/-- The first `c` entries of `l`, read with a default, are `l.take c` while `c ≤ l.length`. -/
theorem take_map_range_getD {α : Type} (l : List α) (d : α) {m c : Nat} (hc : c ≤ m)
    (hl : c ≤ l.length) : ((List.range m).map (l.getD · d)).take c = l.take c := by
  apply List.ext_getElem
  · simp; omega
  · intro i h1 h2
    simp [List.getD_eq_getElem?_getD, List.getElem?_eq_getElem (show i < l.length by simp at h2; omega)]

/-- The accumulator of `parse_bits` after `k` shifts holds the first `k + 1` bytes. -/
theorem parseBits_acc_toNat (buf : List UInt8) : ∀ k ≤ 3,
    ((List.range k).foldl (fun (acc : UInt32) j => (acc <<< 8) ||| (buf.getD (j + 1) 0).toUInt32)
      (buf.getD 0 0).toUInt32).toNat = bitsValue (streamBits ((List.range (k + 1)).map (buf.getD · 0)))
  | 0, _ => by
    rw [show List.range 1 = [0] from rfl, List.map_singleton, streamBits_cons, streamBits_nil,
      List.append_nil, bitsValue_byteBits]
    exact uint8_toUInt32_toNat _
  | k + 1, hk => by
    have ih := parseBits_acc_toNat buf k (by omega)
    have hlt := bitsValue_lt (streamBits ((List.range (k + 1)).map (buf.getD · 0)))
    rw [length_streamBits, List.length_map, List.length_range] at hlt
    have hb : (buf.getD (k + 1) 0).toNat < 2 ^ 8 := (buf.getD (k + 1) 0).toNat_lt_size
    rw [List.range_succ, List.foldl_append, List.foldl_cons, List.foldl_nil, uint32_or_toNat,
      uint32_shiftLeft_eight_toNat, ih,
      uint8_toUInt32_toNat, List.range_succ (k + 1), List.map_append, streamBits_append,
      bitsValue_append, List.map_singleton, streamBits_cons, streamBits_nil, List.append_nil,
      bitsValue_byteBits, length_byteBits]
    have : 8 * (k + 1) ≤ 24 := by omega
    rw [Nat.mod_eq_of_lt (lt_of_lt_of_le (Nat.mul_lt_mul_of_pos_right hlt (Nat.two_pow_pos 8))
      (by rw [← Nat.pow_add]; exact Nat.pow_le_pow_right (by omega) (by omega))), Nat.mul_comm,
      two_pow_mul_or_of_lt _ hb, Nat.mul_comm]

/-! ## `parse_bits` and `parse_bit` -/

/-- The value `parse_bits` computes: the window of `n` bits that ends at the final offset. -/
theorem parseBits_value (buf : List UInt8) {bit n : Nat} (hbit : bit < 8) (hn : n ≤ 24)
    (hneed : (bit + n + 7) / 8 ≤ buf.length) :
    (((List.range ((bit + n) / 8)).foldl
          (fun (acc : UInt32) j => (acc <<< 8) ||| (buf.getD (j + 1) 0).toUInt32)
          (buf.getD 0 0).toUInt32 >>> (8 - (bit + n) % 8).toUInt32) &&&
          ~~~((0xFFFFFFFF : UInt32) <<< n.toUInt32)).toNat =
      bitsValue (((streamBits buf).drop bit).take n) := by
  set L := (List.range ((bit + n) / 8 + 1)).map (buf.getD · 0)
  have hlen : (streamBits L).length = 8 * ((bit + n) / 8 + 1) := by
    rw [length_streamBits, List.length_map, List.length_range]
  have hagree : (streamBits L).take (8 * ((bit + n + 7) / 8)) =
      (streamBits buf).take (8 * ((bit + n + 7) / 8)) := by
    rw [← streamBits_take, ← streamBits_take, take_map_range_getD _ _ (by omega) hneed]
  have hwin : ((streamBits L).drop bit).take n = ((streamBits buf).drop bit).take n := by
    have htake (l : List Bool) : l.take (bit + n) = (l.take (8 * ((bit + n + 7) / 8))).take (bit + n) := by
      rw [List.take_take, Nat.min_eq_left (by omega)]
    rw [List.take_drop, List.take_drop, htake (streamBits L), htake (streamBits buf), hagree]
  rw [UInt32.and_toNat, uint32_shiftRight_toNat _ (by omega), uint32_low_mask_toNat (by omega),
    Nat.and_pow_two_sub_one_eq_mod, Nat.shiftRight_eq_div_pow, parseBits_acc_toNat buf _ (by omega),
    show 8 - (bit + n) % 8 = (streamBits L).length - (bit + n) by rw [hlen]; omega,
    bitsValue_window _ (by rw [hlen]; omega), hwin]

/-- `parse_bit` is `parse_bits` with `n = 1`. -/
theorem parseBit_eq_parseBits (p : Parser) (hbit : p.bit < 8) :
    parseBit p = (parseBits p 1).map fun r => (r.1.toNat, r.2) := by
  obtain ⟨buf, bit⟩ := p
  simp only at hbit
  cases buf with
  | nil => simp only [parseBit, parseBits]; rw [if_pos (by simp only [List.length_nil]; split <;> omega)]; rfl
  | cons b rest =>
    have hneed : (bit + 1 + 7) / 8 ≤ (b :: rest).length := by simp only [List.length_cons]; omega
    rw [parseBits_of_le (by simp only [List.length_cons]; split <;> omega), Option.map_some']
    have hval : ((b >>> (7 - bit).toUInt8) &&& 1).toNat =
        bitsValue (((streamBits (b :: rest)).drop bit).take 1) := by
      rw [streamBits_cons, List.drop_append_of_le_length (by simp; omega),
        List.take_append_of_le_length (by simp; omega), ← bitsValue_window _ (by simp; omega),
        bitsValue_byteBits, length_byteBits, uint8_and_one_toNat, uint8_shiftRight_toNat _ (by omega),
        Nat.shiftRight_eq_div_pow, show 8 - (bit + 1) = 7 - bit by omega, pow_one]
    rw [← parseBits_value (b :: rest) hbit (by omega) hneed] at hval
    have h8 : ∀ k < 8, ((k + 1) &&& 8 ≠ 0 ↔ k = 7) := by decide
    simp only [parseBit, ← hval]
    by_cases h7 : bit = 7
    · subst h7; rfl
    · rw [if_neg (mt (h8 bit hbit).mp h7), Nat.div_eq_of_lt (by omega : bit + 1 < 8),
        Nat.mod_eq_of_lt (by omega : bit + 1 < 8)]
      rfl

/-- `parse_bits` with `bit < 8` and `n ≤ 24`: when the `⌈(bit + n) / 8⌉` bytes `need` asks for
remain, it reads the `n` bits of the stream from position `8 * ptr + bit`, most significant first,
and moves the cursor to `8 * ptr + bit + n`; otherwise it fails and the parser is left as it was.
`parse_bit` is the case `n = 1`. -/
theorem parseBits_reads_stream (p : Parser) {n : Nat} (hbit : p.bit < 8) (hn : n ≤ 24) :
    ((p.bit + n + 7) / 8 ≤ p.buf.length →
      ∃ x : UInt32, parseBits p n =
          some (x, { p with buf := p.buf.drop ((p.bit + n) / 8), bit := (p.bit + n) % 8 }) ∧
        x.toNat = bitsValue (((streamBits p.buf).drop p.bit).take n)) ∧
    (p.buf.length < (p.bit + n + 7) / 8 → parseBits p n = none) ∧
    parseBit p = (parseBits p 1).map fun r => (r.1.toNat, r.2) := by
  refine ⟨fun hneed => ⟨_, parseBits_of_le (by split <;> omega), parseBits_value p.buf hbit hn hneed⟩,
    fun hlt => ?_, parseBit_eq_parseBits p hbit⟩
  simp only [parseBits]
  rw [if_pos (by split <;> omega)]

/-- The cursor three bits into `A5 3C 0F`, twelve bits: a window across two byte boundaries. -/
theorem parseBits_reads_stream_offset :
    ({ exiParseInit [0xA5, 0x3C, 0x0F] with bit := 3 } : Parser).bit < 8 ∧ 12 ≤ 24 ∧
    ((3 + 12 + 7) / 8 ≤ [(0xA5 : UInt8), 0x3C, 0x0F].length →
      ∃ x : UInt32, parseBits { exiParseInit [0xA5, 0x3C, 0x0F] with bit := 3 } 12 =
          some (x, { exiParseInit [0xA5, 0x3C, 0x0F] with
            buf := [(0xA5 : UInt8), 0x3C, 0x0F].drop ((3 + 12) / 8), bit := (3 + 12) % 8 }) ∧
        x.toNat = bitsValue (((streamBits [0xA5, 0x3C, 0x0F]).drop 3).take 12)) ∧
    ([(0xA5 : UInt8), 0x3C, 0x0F].length < (3 + 12 + 7) / 8 →
      parseBits { exiParseInit [0xA5, 0x3C, 0x0F] with bit := 3 } 12 = none) ∧
    parseBit { exiParseInit [0xA5, 0x3C, 0x0F] with bit := 3 } =
      (parseBits { exiParseInit [0xA5, 0x3C, 0x0F] with bit := 3 } 1).map fun r => (r.1.toNat, r.2) :=
  ⟨by decide, by decide,
    @parseBits_reads_stream { exiParseInit [0xA5, 0x3C, 0x0F] with bit := 3 } 12 (by decide) (by decide)⟩

example : parseBits { exiParseInit [0xA5, 0x3C, 0x0F] with bit := 3 } 12 =
    some (0x29E, { exiParseInit [0x3C, 0x0F] with bit := 7 }) := by decide

end Sep2Client
