import Sep2Client.Exi.Extend

/-!
# Decoded numbers

The spec reads an EXI Unsigned Integer as base-128, least significant group first, the high bit of
every group but the last set, at most ten groups (`uintEncoding`); an Integer is a sign bit
followed by the Unsigned Integer of the value, or of `|v| - 1` for a negative value; a Binary is the
Unsigned Integer length followed by that many bytes.

`parse_uint` accumulates each group as `(b & 0x7f) << p->ux_n`, a shift of a C `int`, before it
is or-ed into the 64-bit `ux`.  Every value below `2 ^ 31` is decoded exactly, whatever follows
it (`parseUint_uintEncoding`).  From the fifth group on the shifted group no longer fits the `int`:
`2 ^ 31` decodes as the sign-extended `0xFFFFFFFF80000000` (`parseUint_int_shift`), and `2 ^ 32`
as `0`.  A Binary of `2 ^ 32` bytes then reads as the empty one, whatever the declared length
(`parseBinary_length_wraps`).  `parse_integer` negates the magnitude without subtracting one, so
the encoding of `-1` stores `0` (`exiParseValue_minus_one`).
-/

namespace Sep2Client

/-! ## The encodings of the spec -/

/-- At most `k` groups of the EXI Unsigned Integer encoding of `v`. -/
def uintGroups : Nat → Nat → List UInt8
  | 0, _ => []
  | k + 1, v => if v < 128 then [v.toUInt8] else (v % 128 + 128).toUInt8 :: uintGroups k (v / 128)

/-- The EXI Unsigned Integer encoding of `v`: ten groups hold every value below `2 ^ 70`. -/
def uintEncoding (v : Nat) : List UInt8 := uintGroups 10 v

/-! ## The bytes `parse_byte` reads -/

/-- The bytes that successive `parse_byte` calls read from `p`: the buffer itself at bit offset `0`,
otherwise each byte's low bits joined to the high bits of the next. -/
def byteSeq (p : Parser) : List UInt8 :=
  if p.bit ≠ 0 then
    List.zipWith (fun a b => (a <<< p.bit.toUInt8) ||| (b >>> (8 - p.bit).toUInt8)) p.buf p.buf.tail
  else p.buf

/-- `parse_byte` reads the first byte of `byteSeq` and moves `ptr` by one. -/
theorem parseByte_eq_byteSeq (p : Parser) :
    parseByte p = match byteSeq p with
      | [] => none
      | b :: _ => some (b, { p with buf := p.buf.drop 1 }) := by
  unfold parseByte byteSeq
  by_cases hbit : p.bit ≠ 0
  · rw [if_pos hbit, if_pos hbit]
    match hb : p.buf with
    | [] => rfl
    | [_] => rfl
    | a :: b :: rest => simp
  · rw [if_neg hbit, if_neg hbit]
    match hb : p.buf with
    | [] => rfl
    | _ :: _ => rfl

/-- Moving `ptr` by `k` drops `k` bytes of `byteSeq`. -/
theorem byteSeq_drop (p : Parser) (k : Nat) :
    byteSeq { p with buf := p.buf.drop k } = (byteSeq p).drop k := by
  unfold byteSeq
  by_cases hb : p.bit ≠ 0
  · simp only [if_pos hb]
    generalize p.buf = buf
    induction k generalizing buf with
    | zero => rfl
    | succ k ih =>
      cases buf with
      | nil => simp
      | cons a l =>
        rw [List.drop_succ_cons, ih l]
        cases l <;> simp
  · simp only [if_neg hb]

theorem length_byteSeq_le (p : Parser) : (byteSeq p).length ≤ p.buf.length := by
  unfold byteSeq; split <;> simp

/-! ## Unsigned integers below the sign bit

While the value read so far stays below `2 ^ 31`, every shifted group fits the C `int` and the
or into `ux` adds it: the loop of `parse_uint` then reads a sequence of groups exactly, one group
per pass (`uintLoop_groups`), and with it the spec's encoding of every value below `2 ^ 31`.  The
shift of `parseUint_int_shift` is the first to go wrong. -/

/-- The number that EXI groups spell: seven bits each, least significant group first. -/
def groupsValue : List UInt8 → Nat
  | [] => 0
  | b :: l => b.toNat % 128 + 128 * groupsValue l

/-- A group below the sign bit of the C `int` is added unchanged. -/
theorem groupTerm_toNat (b : UInt8) {s : Nat} (hs : s < 31)
    (h : b.toNat % 128 * 2 ^ s < 2 ^ 31) : (groupTerm b s).toNat = b.toNat % 128 * 2 ^ s := by
  have hterm : ((b &&& 0x7f).toUInt32 <<< s.toUInt32).toNat = b.toNat % 128 * 2 ^ s := by
    rw [uint32_shiftLeft_toNat _ (by omega)]
    show (b &&& 0x7f).toNat * 2 ^ s % 2 ^ 32 = _
    rw [uint8_and_0x7f_toNat, Nat.mod_eq_of_lt (by omega)]
  rw [groupTerm, intToUInt64_toNat_of_lt (by rw [hterm]; exact h), hterm]

/-- The accumulator after group `j`: the group's seven bits added above the `7 * j` bits read. -/
theorem ux_or_groupTerm {ux : UInt64} {b : UInt8} {j : Nat} (hj : 7 * j < 31)
    (hux : ux.toNat < 2 ^ (7 * j)) (hb : b.toNat % 128 * 2 ^ (7 * j) < 2 ^ 31) :
    ux ||| groupTerm b (7 * j) = (ux.toNat + b.toNat % 128 * 2 ^ (7 * j)).toUInt64 := by
  have hux' : ux.toNat < 2 ^ 31 := lt_of_lt_of_le hux (Nat.pow_le_pow_right (by omega) (by omega))
  have hb' : 2 ^ (7 * j) * (b.toNat % 128) < 2 ^ 31 := by rw [Nat.mul_comm]; exact hb
  apply UInt64.toNat.inj
  rw [uint64_or_toNat, groupTerm_toNat b hj hb, Nat.lor_comm, Nat.mul_comm,
    two_pow_mul_or_of_lt _ hux, Nat.add_comm]
  exact (UInt64.toNat_ofNat_of_lt (by unfold UInt64.size; omega)).symm

/-- One pass of the loop of `parse_uint` at group `j`: the group is added above the `7 * j` bits
read, and the loop goes on exactly when its high bit is set. -/
theorem uintLoop_pass (fuel : Nat) {j : Nat} {p : Parser} {b : UInt8} {bs : List UInt8}
    (huxN : p.uxN = 7 * j) (hj : 7 * j < 31) (hux : p.ux.toNat < 2 ^ (7 * j))
    (hb : b.toNat % 128 * 2 ^ (7 * j) < 2 ^ 31) (hseq : byteSeq p = b :: bs) :
    uintLoop (fuel + 1) p =
      if 128 ≤ b.toNat then
        uintLoop fuel { p with
          buf := p.buf.drop 1, ux := (p.ux.toNat + b.toNat % 128 * 2 ^ (7 * j)).toUInt64, uxN := 7 * j + 7 }
      else (true, { p with
        buf := p.buf.drop 1, ux := (p.ux.toNat + b.toNat % 128 * 2 ^ (7 * j)).toUInt64, uxN := 0 }) := by
  rw [uintLoop, if_neg (by omega), parseByte_eq_byteSeq, hseq]
  simp only [huxN, ux_or_groupTerm hj hux hb, ne_eq, uint8_and_0x80_ne_zero]

/-- The loop of `parse_uint` after `j` groups, over the groups `init` with the high bit set and the
`last` without: each is added above the bits read, as long as the shifts stay below the sign bit
of the C `int`. -/
theorem uintLoop_groups {last : UInt8} {rest : List UInt8} (hlast : last.toNat < 128) :
    ∀ (init : List UInt8) (j fuel : Nat) (p : Parser), p.uxN = 7 * j → 7 * (j + init.length) < 31 →
      p.ux.toNat < 2 ^ (7 * j) → groupsValue (init ++ [last]) * 2 ^ (7 * j) < 2 ^ 31 →
      (∀ b ∈ init, 128 ≤ b.toNat) → byteSeq p = init ++ last :: rest →
      uintLoop (fuel + init.length + 1) p =
        (true, { p with
          buf := p.buf.drop (init.length + 1),
          ux := (p.ux.toNat + groupsValue (init ++ [last]) * 2 ^ (7 * j)).toUInt64, uxN := 0 })
  | [], j, fuel, p, huxN, hj, hux, hv, _, hseq => by
    simp only [List.nil_append, groupsValue, Nat.mul_zero, Nat.add_zero] at hv hseq
    rw [List.length_nil, Nat.add_zero, uintLoop_pass fuel huxN (by simpa using hj) hux hv hseq,
      if_neg (by omega)]
    simp [groupsValue]
  | b :: init, j, fuel, p, huxN, hj, hux, hv, hhigh, hseq => by
    rw [List.length_cons] at hj
    have hj' : 7 * (j + 1 + init.length) < 31 := by omega
    have hsplit : groupsValue (b :: (init ++ [last])) * 2 ^ (7 * j) =
        b.toNat % 128 * 2 ^ (7 * j) + groupsValue (init ++ [last]) * 2 ^ (7 * (j + 1)) := by
      rw [groupsValue, show 7 * (j + 1) = 7 * j + 7 by ring, Nat.pow_add]; ring
    rw [List.cons_append] at hv
    have hnext : p.ux.toNat + b.toNat % 128 * 2 ^ (7 * j) < 2 ^ (7 * (j + 1)) := by
      have := Nat.mul_le_mul_right (2 ^ (7 * j)) (show b.toNat % 128 ≤ 127 by omega)
      rw [show 7 * (j + 1) = 7 * j + 7 by ring, Nat.pow_add]
      omega
    have hj₀ : 7 * j < 31 := by omega
    have hsmall : p.ux.toNat + b.toNat % 128 * 2 ^ (7 * j) < UInt64.size :=
      lt_of_lt_of_le hnext (Nat.pow_le_pow_right (show 0 < 2 by omega) (show 7 * (j + 1) ≤ 64 by omega))
    have hb₀ : b.toNat % 128 * 2 ^ (7 * j) < 2 ^ 31 := by omega
    have hv₁ : groupsValue (init ++ [last]) * 2 ^ (7 * (j + 1)) < 2 ^ 31 := by omega
    rw [show fuel + (b :: init).length + 1 = fuel + init.length + 1 + 1 by simp; omega,
      uintLoop_pass _ huxN hj₀ hux hb₀ hseq, if_pos (hhigh b (List.mem_cons_self _ _)),
      uintLoop_groups hlast init (j + 1) fuel { p with
          buf := p.buf.drop 1, ux := (p.ux.toNat + b.toNat % 128 * 2 ^ (7 * j)).toUInt64, uxN := 7 * j + 7 }
        (by simp only; omega) hj'
        (by rw [UInt64.toNat_ofNat_of_lt hsmall]; exact hnext) hv₁
        (fun b hb => hhigh b (List.mem_cons_of_mem _ hb)) ((byteSeq_drop p 1).trans (by rw [hseq]; rfl))]
    have hval : p.ux.toNat + b.toNat % 128 * 2 ^ (7 * j) + groupsValue (init ++ [last]) * 2 ^ (7 * (j + 1)) =
        p.ux.toNat + groupsValue (b :: (init ++ [last])) * 2 ^ (7 * j) := by omega
    simp only [List.drop_drop, List.length_cons, List.cons_append, UInt64.toNat_ofNat_of_lt hsmall, hval,
      Nat.add_comm 1]

/-- The spec's encoding of `v` in at most `k + 1` groups: groups with the high bit set, then one
without, spelling `v`; every group but the last holds a nonzero part of `v`. -/
theorem uintGroups_split : ∀ (k v : Nat), v < 128 ^ (k + 1) →
    ∃ init last, uintGroups (k + 1) v = init ++ [last] ∧ (∀ b ∈ init, 128 ≤ b.toNat) ∧
      last.toNat < 128 ∧ groupsValue (init ++ [last]) = v ∧ (init = [] ∨ 128 ^ init.length ≤ v)
  | k, v, hv => by
    by_cases hsmall : v < 128
    · have hb : v.toUInt8.toNat = v := Nat.mod_eq_of_lt (by simp [UInt8.size]; omega)
      cases k <;>
        exact ⟨[], v.toUInt8, by simp [uintGroups, hsmall], by simp, by omega,
          by simp [groupsValue, hb]; omega, Or.inl rfl⟩
    · match k, hv with
      | 0, hv => exact absurd hv (by omega)
      | k + 1, hv =>
        obtain ⟨init, last, hgroups, hhigh, hlast, hval, hlen⟩ :=
          uintGroups_split k (v / 128) (Nat.div_lt_of_lt_mul (by rwa [Nat.pow_succ'] at hv))
        have hb : ((v % 128 + 128).toUInt8).toNat = v % 128 + 128 :=
          Nat.mod_eq_of_lt (by simp [UInt8.size]; omega)
        refine ⟨(v % 128 + 128).toUInt8 :: init, last, by rw [uintGroups, if_neg hsmall, hgroups]; rfl,
          List.forall_mem_cons.mpr ⟨by omega, hhigh⟩, hlast, ?_, Or.inr ?_⟩
        · rw [List.cons_append, groupsValue, hval, hb]; omega
        · rw [List.length_cons, Nat.pow_succ]
          rcases hlen with rfl | hlen
          · simp; omega
          · have := Nat.mul_le_mul_right 128 hlen
            have := Nat.div_mul_le_self v 128
            omega

/-- The loop of `parse_uint` from `ux = 0` with no group pending, at any bit offset, reads the
Unsigned Integer encoding of a value below `2 ^ 31` group by group. -/
theorem uintLoop_uintEncoding {p : Parser} {v fuel : Nat} {rest : List UInt8} (hv : v < 2 ^ 31)
    (huxN : p.uxN = 0) (hux : p.ux = 0) (hseq : byteSeq p = uintEncoding v ++ rest)
    (hfuel : p.buf.length < fuel) :
    uintLoop fuel p =
      (true, { p with buf := p.buf.drop (uintEncoding v).length, ux := v.toUInt64, uxN := 0 }) := by
  obtain ⟨init, last, hgroups, hhigh, hlast, hval, hlen⟩ :=
    uintGroups_split 9 v (lt_trans hv (by norm_num))
  have hlen4 : init.length ≤ 4 := by
    rcases hlen with rfl | hlen
    · simp
    · by_contra h
      have := Nat.pow_le_pow_right (show 0 < 128 by omega) (show 5 ≤ init.length by omega)
      have : (2 : Nat) ^ 31 < 128 ^ 5 := by norm_num
      omega
  have hseq' : byteSeq p = init ++ last :: rest := by rw [hseq, uintEncoding, hgroups]; simp
  have hfuel' : fuel = (fuel - init.length - 1) + init.length + 1 := by
    have := length_byteSeq_le p
    rw [hseq'] at this
    simp only [List.length_append, List.length_cons] at this
    omega
  rw [hfuel', uintLoop_groups hlast init 0 _ p huxN (by omega) (by rw [hux]; decide)
    (by rw [hval]; simpa using hv) hhigh hseq']
  simp only [uintEncoding, hgroups, hval, hux, List.length_append, List.length_singleton, Nat.mul_zero,
    Nat.pow_zero, Nat.mul_one, show UInt64.toNat 0 = 0 from rfl, Nat.zero_add]

/-- The decoding of an Unsigned Integer below `2 ^ 31` at a byte boundary, with the bytes after it
left in the buffer. -/
theorem parseUint_eq_of_uintEncoding {p : Parser} {v : Nat} {rest : List UInt8} (hv : v < 2 ^ 31)
    (hbit : p.bit = 0) (huxN : p.uxN = 0) (hbuf : p.buf = uintEncoding v ++ rest) :
    parseUint p = (true, { p with buf := rest, ux := v.toUInt64, uxN := 0 }) := by
  have hseq : byteSeq { p with ux := 0 } = uintEncoding v ++ rest := by
    show (if p.bit ≠ 0 then _ else p.buf) = _
    rw [if_neg (by simp [hbit]), hbuf]
  rw [parseUint, if_pos huxN]
  refine (@uintLoop_uintEncoding { p with ux := 0 } v (p.buf.length + 1) rest hv huxN rfl hseq
    (Nat.lt_succ_self _)).trans ?_
  simp [hbuf]

/-- `parse_uint` with no group pending decodes the Unsigned Integer encoding of every value below
`2 ^ 31` exactly, at any bit offset and whatever follows it: it consumes the groups, leaves the
value in `ux` and `ux_n = 0`, and changes nothing else. -/
theorem parseUint_uintEncoding {p : Parser} {v : Nat} {rest : List UInt8} (hv : v < 2 ^ 31)
    (huxN : p.uxN = 0) (hseq : byteSeq p = uintEncoding v ++ rest) :
    parseUint p =
      (true, { p with buf := p.buf.drop (uintEncoding v).length, ux := v.toUInt64, uxN := 0 }) := by
  rw [parseUint, if_pos huxN]
  exact @uintLoop_uintEncoding { p with ux := 0 } v (p.buf.length + 1) rest hv huxN rfl hseq
    (Nat.lt_succ_self _)

/-- The largest value `parse_uint` decodes exactly, `2 ^ 31 - 1`, in five groups. -/
theorem parseUint_uintEncoding_max :
    (2 ^ 31 - 1 : Nat) < 2 ^ 31 ∧ (exiParseInit (uintEncoding (2 ^ 31 - 1))).uxN = 0 ∧
      byteSeq (exiParseInit (uintEncoding (2 ^ 31 - 1))) = uintEncoding (2 ^ 31 - 1) ++ [] ∧
      parseUint (exiParseInit (uintEncoding (2 ^ 31 - 1))) =
        (true, { exiParseInit (uintEncoding (2 ^ 31 - 1)) with
          buf := (exiParseInit (uintEncoding (2 ^ 31 - 1))).buf.drop (uintEncoding (2 ^ 31 - 1)).length,
          ux := (2 ^ 31 - 1 : Nat).toUInt64, uxN := 0 }) :=
  ⟨by decide, rfl, (List.append_nil _).symm,
    parseUint_uintEncoding (by decide) rfl (List.append_nil _).symm⟩

/-! ## Unsigned integers past 31 bits -/

/-- `2 ^ 31` in five groups: the fifth group, `8`, shifted by `28` as a C `int`, is the sign bit,
and the 64-bit `ux` receives it sign-extended. -/
theorem parseUint_int_shift :
    uintEncoding (2 ^ 31) = [0x80, 0x80, 0x80, 0x80, 0x08] ∧
      groupTerm 0x08 28 = 0xFFFFFFFF80000000 ∧
      parseUint (exiParseInit (uintEncoding (2 ^ 31))) =
        (true, { exiParseInit [] with ux := 0xFFFFFFFF80000000 }) :=
  ⟨by decide, by decide, rfl⟩

theorem uintEncoding_two_pow_32 : uintEncoding (2 ^ 32) = [0x80, 0x80, 0x80, 0x80, 0x10] := by
  decide

/-- `2 ^ 32` decodes as `0`: the fifth group, `16`, shifted by `28`, leaves the 32 bits of an
`int`. -/
theorem parseUint_two_pow_32 :
    parseUint (exiParseInit (uintEncoding (2 ^ 32))) = (true, exiParseInit []) := by
  rw [uintEncoding_two_pow_32]; rfl

/-! ## Binary data -/

theorem writeAt_nil {field : List UInt8} {n : Nat} (h : n ≤ field.length) :
    writeAt field n [] = some field := by
  simp [writeAt, h]

/-- `parse_byte` calls at a byte boundary read a prefix of the buffer, byte by byte. -/
theorem parseBytes_leading (rest : List UInt8) : ∀ (bs : List UInt8) (p : Parser), p.bit = 0 →
    p.buf = bs ++ rest → parseBytes bs.length p = (bs, { p with buf := rest })
  | [], p, _, hbuf => by
    rw [List.nil_append] at hbuf
    subst hbuf
    rfl
  | b :: bs, p, hbit, hbuf => by
    have hp : parseByte p = some (b, { p with buf := bs ++ rest }) := by
      simp [parseByte, hbit, hbuf]
    rw [List.length_cons, parseBytes, hp]
    simp only [parseBytes_leading rest bs { p with buf := bs ++ rest } hbit rfl]

/-- `parse_binary` from its first sub-state at a byte boundary reads the Binary encoding of `bs`,
whose length is at most `n` and below `2 ^ 31`, and stores the bytes right-aligned in the `n`-byte
field. -/
theorem parseBinary_binaryEncoding {p : Parser} {n : Nat} {field bs rest : List UInt8}
    (h0 : p.exiState = 0) (hbit : p.bit = 0) (huxN : p.uxN = 0) (hm : bs.length < 2 ^ 31)
    (hn : bs.length ≤ n) (hf : n ≤ field.length) (hbuf : p.buf = uintEncoding bs.length ++ bs ++ rest) :
    parseBinary p n field = some (true,
      { p with buf := rest, ux := bs.length.toUInt64, uxN := 0, exiState := 0 },
      field.take (n - bs.length) ++ bs ++ field.drop n) := by
  have hux : bs.length.toUInt64.toNat = bs.length := UInt64.toNat_ofNat_of_lt (by
    show bs.length < 2 ^ 64; omega)
  rw [parseBinary_of_zero h0, parseUint_eq_of_uintEncoding hm hbit huxN (by rw [hbuf, List.append_assoc])]
  simp only [Bool.not_true, Bool.false_eq_true, if_false, hux, gt_iff_lt, not_lt.mpr hn]
  have hneed : ¬({ p with buf := bs ++ rest, ux := bs.length.toUInt64, uxN := 0, exiState := 1 } :
      Parser).buf.length < (if p.bit ≠ 0 then bs.length.toUInt64.toNat + 1 else bs.length.toUInt64.toNat) := by
    simp only [hbit, hux, List.length_append, ne_eq, not_true_eq_false, if_false]; omega
  rw [binaryData_of_le hneed, hux, parseBytes_leading rest bs
    { p with buf := bs ++ rest, ux := bs.length.toUInt64, uxN := 0, exiState := 1 } hbit rfl]
  simp only [writeAt, List.length_append, Nat.sub_add_cancel hn, hf, if_true, Option.map_some']


/-- A Binary of `2 ^ 32` bytes, whatever they are and whatever follows, is accepted for every
declared length `n` as the empty one: `parse_binary` succeeds, leaves the field as it was and
stops right after the length, before the data. -/
theorem parseBinary_length_wraps (n : Nat) {field : List UInt8} (hf : n ≤ field.length)
    {s : List UInt8} (rest : List UInt8) (hs : s.length = 2 ^ 32) :
    parseBinary (exiParseInit (uintEncoding s.length ++ s ++ rest)) n field =
      some (true, exiParseInit (s ++ rest), field) := by
  have h₀ : parseBinary (exiParseInit (uintEncoding (2 ^ 32))) n field =
      some (true, exiParseInit [], field) := by
    rw [parseBinary_of_zero rfl, parseUint_two_pow_32]
    simp only [Bool.not_true, Bool.false_eq_true, if_false]
    rw [if_neg (by simp [exiParseInit]), binaryData_of_le (by simp [exiParseInit])]
    simp [exiParseInit, parseBytes, writeAt_nil hf]
  rw [hs, List.append_assoc]
  exact parseBinary_extend (s ++ rest) h₀

/-- The overlong Binary on a four-byte field, with the data `2 ^ 32` zero bytes. -/
theorem parseBinary_length_wraps_four :
    4 ≤ (List.replicate 4 (0 : UInt8)).length ∧
      (List.replicate (2 ^ 32) (0 : UInt8)).length = 2 ^ 32 ∧
      parseBinary (exiParseInit (uintEncoding (List.replicate (2 ^ 32) (0 : UInt8)).length ++
          List.replicate (2 ^ 32) 0 ++ [])) 4 (List.replicate 4 0) =
        some (true, exiParseInit (List.replicate (2 ^ 32) 0 ++ []), List.replicate 4 0) :=
  ⟨le_of_eq (List.length_replicate _ _).symm, List.length_replicate _ _,
    @parseBinary_length_wraps 4 (List.replicate 4 0) (le_of_eq (List.length_replicate _ _).symm)
      (List.replicate (2 ^ 32) 0) [] (List.length_replicate _ _)⟩

/-! ## Signed integers -/

/-- A schema whose only entry is a `long` field. -/
def longSchema : Schema :=
  ⟨[], 0, 0, [], [], [⟨0, simpleType .long 0, 1, 1, 0, 0, false, false, false⟩], [], []⟩

/-- The Integer encoding of `-1` is the sign bit `1` followed by the Unsigned Integer `0`, the
bytes `80 00` from offset `0`.  `parse_integer` sets `sx = -ux = 0`, so `exi_parse_value` stores
`0` in the `long` field, not the eight bytes `FF` of `-1`, wherever `sx` is stored. -/
theorem exiParseValue_minus_one (L : SxLayout) :
    (exiParseValue longSchema L (exiParseInit [0x80, 0x00]) (.bytes (List.replicate 8 0))).map
      (fun r => (r.1, r.2.2)) = some (true, .bytes (List.replicate 8 0)) := by
  cases L <;> rfl

end Sep2Client
