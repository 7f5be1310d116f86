import Sep2Client.Exi.Values

/-!
# A literal fits the length `exi_utf8_length` counts

`exi_parse_string` sizes a literal of `n` characters with `exi_utf8_length`, which scans the EXI
groups of `n` code points without consuming them and counts a UTF-8 length from the number of
groups and the bits of the last one.  It then stores the literal with `parse_literal`, which reads
each code point with `parse_uint` and writes its UTF-8 form, into `m + 1` bytes from `malloc` or
into a field of `n > m` bytes.

Both read the stream through `parse_byte`, whose bytes at any bit offset are `byteSeq`.  A code
point is at most two groups with the high bit set and one without (`CodePoint`, which carries that
shape in its fields).  The scan returns a length other than `0` only when the stream starts with
`n` code points, and the length is their counted widths summed (`exiUtf8Length_ne_zero`);
`parse_literal` decodes exactly those code points (`parseLiteral_codePoints`); and no code point's
UTF-8 form is longer than its counted width (`CodePoint.length_utf8Encode_le`).  So the literal and
its NUL fit the `m + 1` bytes (`parseLiteral_fits_utf8Length`).

This hinges on `ux_n = 0` when `parse_literal` starts: `parse_uint` then starts every code point
afresh.  `exi_parse_string` reads the string code with a `parse_uint` that ended, which leaves it so.
`exiUtf8Length` returns the widths summed without bound; `exi_parse_string` takes the sum as the C
`int` that `exi_utf8_length` accumulates it in (`stringValue`), so a literal of `2 ^ 31` bytes of
UTF-8 or more gives it a negative `m`, which passes the `m >= n` check.
-/

namespace Sep2Client

/-! ## Code points -/

/-- The UTF-8 length `exi_utf8_length` counts for a code point of `m` groups whose last group is
`b`: `m`, one more for two groups holding more than 11 bits (`b & 0x70`) and for three groups
holding more than 16 (`b & 0x7c`). -/
def groupWidth (m : Nat) (b : UInt8) : Nat :=
  if m = 2 ∧ b &&& 0x70 ≠ 0 then 3 else if m = 3 ∧ b &&& 0x7c ≠ 0 then 4 else m

/-- The groups of one code point as `exi_utf8_length` accepts them: at most two groups with the
high bit set, then one without. -/
structure CodePoint where
  init : List UInt8
  last : UInt8
  init_length : init.length ≤ 2
  init_high : ∀ b ∈ init, 128 ≤ b.toNat
  last_low : last.toNat < 128

namespace CodePoint

/-- The bytes of the code point in the stream. -/
def groups (c : CodePoint) : List UInt8 := c.init ++ [c.last]

/-- The code point. -/
def value (c : CodePoint) : Nat := groupsValue c.groups

/-- The UTF-8 length `exi_utf8_length` counts for it. -/
def width (c : CodePoint) : Nat := groupWidth (c.init.length + 1) c.last

@[simp] theorem length_groups (c : CodePoint) : c.groups.length = c.init.length + 1 := by
  simp [groups]

end CodePoint

theorem groupsValue_lt : ∀ l : List UInt8, groupsValue l < 128 ^ l.length
  | [] => Nat.one_pos
  | b :: l => by
    have := groupsValue_lt l
    rw [groupsValue, List.length_cons, Nat.pow_succ]
    omega

/-- The last group holds the high bits. -/
theorem groupsValue_append_last (last : UInt8) : ∀ init : List UInt8,
    groupsValue (init ++ [last]) = groupsValue init + 128 ^ init.length * (last.toNat % 128)
  | [] => by simp [groupsValue]
  | b :: init => by
    rw [List.cons_append, groupsValue, groupsValue, groupsValue_append_last last init, List.length_cons,
      Nat.pow_succ]
    ring

/-- A code point is below the next multiple of its last group's weight. -/
theorem CodePoint.value_lt (c : CodePoint) : c.value < 128 ^ c.init.length * (c.last.toNat + 1) := by
  have := groupsValue_lt c.init
  rw [CodePoint.value, CodePoint.groups, groupsValue_append_last, Nat.mod_eq_of_lt c.last_low, Nat.mul_succ]
  omega

/-- A code point spells at most 21 bits. -/
theorem CodePoint.value_lt_two_pow (c : CodePoint) : c.value < 2 ^ 21 := calc
  c.value < 128 ^ c.init.length * (c.last.toNat + 1) := c.value_lt
  _ ≤ 128 ^ 2 * 128 := Nat.mul_le_mul (Nat.pow_le_pow_right (by omega) c.init_length) (by have := c.last_low; omega)
  _ = 2 ^ 21 := by norm_num

/-! ## `exi_utf8_length` -/

section Scan

variable (start : List UInt8) (n : Int)

/-- The loop of `exi_utf8_length` over one code point: after `j` groups, the `init` groups with the
high bit set and the `last` without are read, and the loop ends or goes on to the next code point
with the code point's width added. -/
theorem utf8LengthLoop_codePoint {last : UInt8} {rest : List UInt8} (hlast : last.toNat < 128) :
    ∀ (init : List UInt8) (j fuel : Nat) (p : Parser) (length : Nat), j + init.length ≤ 2 →
      (∀ b ∈ init, 128 ≤ b.toNat) → byteSeq p = init ++ last :: rest →
      utf8LengthLoop start (fuel + init.length + 1) p n j length =
        if n - 1 = 0 then
          (((length + groupWidth (j + init.length + 1) last : Nat) : Int), { p with buf := start })
        else utf8LengthLoop start fuel { p with buf := p.buf.drop (init.length + 1) } (n - 1) 0
          (length + groupWidth (j + init.length + 1) last)
  | [], j, fuel, p, length, hj, _, hseq => by
    rw [utf8LengthLoop, parseByte_eq_byteSeq, hseq]
    simp only [List.nil_append, List.length_nil]
    rw [if_neg (by omega), if_neg (by rw [uint8_and_0x80_ne_zero]; omega)]
    rfl
  | b :: init, j, fuel, p, length, hj, hhigh, hseq => by
    rw [show fuel + (b :: init).length + 1 = fuel + init.length + 1 + 1 by simp; omega, utf8LengthLoop,
      parseByte_eq_byteSeq, hseq]
    simp only [List.cons_append]
    rw [if_neg (by simp at hj; omega),
      if_pos ((uint8_and_0x80_ne_zero b).mpr (hhigh b (List.mem_cons_self _ _))),
      utf8LengthLoop_codePoint hlast init (j + 1) fuel _ length (by simp at hj; omega)
        (fun b hb => hhigh b (List.mem_cons_of_mem _ hb)) ((byteSeq_drop p 1).trans (by rw [hseq]; rfl))]
    simp only [List.drop_drop, List.length_cons,
      show j + (init.length + 1) + 1 = j + 1 + init.length + 1 by omega, Nat.add_comm 1]

/-- A scan that does not return `0` starts with a code point: at most two groups with the high bit
set, then one without, read within the fuel. -/
theorem utf8LengthLoop_split : ∀ (fuel : Nat) (p : Parser) (j length : Nat),
    (utf8LengthLoop start fuel p n j length).1 ≠ 0 →
    ∃ init last rest, j + init.length ≤ 2 ∧ (∀ b ∈ init, 128 ≤ b.toNat) ∧ last.toNat < 128 ∧
      byteSeq p = init ++ last :: rest ∧ init.length + 1 ≤ fuel
  | 0, _, _, _, h => absurd rfl h
  | fuel + 1, p, j, length, h => by
    rw [utf8LengthLoop, parseByte_eq_byteSeq] at h
    cases hseq : byteSeq p with
    | nil => rw [hseq] at h; exact absurd rfl h
    | cons b bs =>
      simp only [hseq] at h
      by_cases h3 : j + 1 > 3
      · rw [if_pos h3] at h; exact absurd rfl h
      rw [if_neg h3] at h
      by_cases hb : b &&& 0x80 ≠ 0
      · rw [if_pos hb] at h
        obtain ⟨init, last, rest, hj, hhigh, hlast, hseq', hfuel⟩ :=
          utf8LengthLoop_split fuel _ (j + 1) length h
        rw [byteSeq_drop, hseq, List.drop_one, List.tail_cons] at hseq'
        exact ⟨b :: init, last, rest, by simp; omega,
          List.forall_mem_cons.mpr ⟨(uint8_and_0x80_ne_zero b).mp hb, hhigh⟩, hlast,
          by rw [hseq']; rfl, by simp; omega⟩
      · rw [uint8_and_0x80_ne_zero, not_le] at hb
        exact ⟨[], b, bs, by simp; omega, by simp, hb, rfl, by simp⟩

end Scan

/-- `exi_utf8_length`'s loop, from the start of a code point, returns a length other than `0` only
after `n ≥ 1` code points: the length is theirs summed, and `ptr` is restored. -/
theorem utf8LengthLoop_spec (start : List UInt8) : ∀ (fuel : Nat) (p : Parser) (n : Int) (length : Nat)
    {r : Int} {p' : Parser}, utf8LengthLoop start fuel p n 0 length = (r, p') → r ≠ 0 →
    ∃ (cps : List CodePoint) (rest : List UInt8), (cps.length : Int) = n ∧
      byteSeq p = (cps.map CodePoint.groups).flatten ++ rest ∧
      r = ((length + (cps.map CodePoint.width).sum : Nat) : Int) ∧ p' = { p with buf := start } := by
  intro fuel
  induction fuel using Nat.strong_induction_on with
  | _ fuel ih =>
    intro p n length r p' h hr
    obtain ⟨init, last, rest, hj, hhigh, hlast, hseq, hfuel⟩ :=
      utf8LengthLoop_split start n fuel p 0 length (by rw [h]; exact hr)
    obtain ⟨fuel', rfl⟩ : ∃ f, fuel = f + init.length + 1 := ⟨fuel - init.length - 1, by omega⟩
    let c : CodePoint := ⟨init, last, by omega, hhigh, hlast⟩
    rw [utf8LengthLoop_codePoint start n hlast init 0 fuel' p length (by omega) hhigh hseq] at h
    by_cases hn : n - 1 = 0
    · rw [if_pos hn, Prod.mk.injEq] at h
      exact ⟨[c], rest, by simp; omega, by simp [c, CodePoint.groups, hseq],
        by rw [← h.1]; simp [c, CodePoint.width], h.2.symm⟩
    · rw [if_neg hn] at h
      obtain ⟨cps, rest', hlen, hseq', hr', hp'⟩ := ih fuel' (by omega) _ (n - 1) _ h hr
      rw [byteSeq_drop, hseq, show init ++ last :: rest = (init ++ [last]) ++ rest by simp,
        List.drop_left' (by simp)] at hseq'
      refine ⟨c :: cps, rest', by simp; omega, ?_, ?_, by simpa using hp'⟩
      · rw [hseq, hseq']; simp [c, CodePoint.groups]
      · rw [hr']; simp [c, CodePoint.width]; omega

/-! ## `parse_literal` -/

/-- `parse_uint` at the start of an integer reads one code point: `ux` is its value and `ptr` moves
past its groups. -/
theorem parseUint_codePoint {p : Parser} (huxN : p.uxN = 0) (c : CodePoint) {rest : List UInt8}
    (hseq : byteSeq p = c.groups ++ rest) :
    parseUint p = (true, { p with buf := p.buf.drop c.groups.length, ux := c.value.toUInt64 }) := by
  have hlen := length_byteSeq_le p
  rw [hseq, List.length_append, CodePoint.length_groups] at hlen
  have hseq₀ : byteSeq { p with ux := 0 } = c.init ++ c.last :: rest := by
    rw [show byteSeq { p with ux := 0 } = byteSeq p from rfl, hseq]; simp [CodePoint.groups]
  obtain ⟨fuel, hfuel⟩ : ∃ f, p.buf.length + 1 = f + c.init.length + 1 :=
    ⟨p.buf.length - c.init.length, by omega⟩
  rw [parseUint, if_pos huxN, hfuel, uintLoop_groups c.last_low c.init 0 fuel { p with ux := 0 } huxN
    (by have := c.init_length; omega) (show (0 : UInt64).toNat < 2 ^ (7 * 0) by decide)
    (by simpa using c.value_lt_two_pow.trans (by norm_num)) c.init_high hseq₀]
  simp [CodePoint.value, CodePoint.groups, huxN]

/-- The UTF-8 form of a sequence of code points. -/
def utf8Of (cps : List CodePoint) : List UInt8 := (cps.map fun c => utf8Encode c.value.toUInt64).flatten

@[simp] theorem utf8Of_nil : utf8Of [] = [] := rfl

@[simp] theorem utf8Of_cons (c : CodePoint) (cps : List CodePoint) :
    utf8Of (c :: cps) = utf8Encode c.value.toUInt64 ++ utf8Of cps := rfl

/-- The loop of `parse_literal` over code points read from the start of an integer: it writes
their UTF-8 forms and a NUL, and moves `ptr` past their groups. -/
theorem literalBytes_codePoints : ∀ (cps : List CodePoint) (p : Parser) {rest : List UInt8},
    p.uxN = 0 → byteSeq p = (cps.map CodePoint.groups).flatten ++ rest →
    ∃ ux, literalBytes cps.length p =
      (utf8Of cps ++ [0],
        { p with buf := p.buf.drop (cps.map CodePoint.groups).flatten.length, ux })
  | [], p, _, _, _ => ⟨p.ux, by simp [literalBytes]⟩
  | c :: cps, p, rest, huxN, hseq => by
    rw [List.map_cons, List.flatten_cons, List.append_assoc] at hseq
    have hp := parseUint_codePoint huxN c hseq
    obtain ⟨ux, hrest⟩ := literalBytes_codePoints cps { p with
        buf := p.buf.drop c.groups.length, ux := c.value.toUInt64 } huxN
      ((byteSeq_drop p _).trans (by rw [hseq, List.drop_left]))
    refine ⟨ux, ?_⟩
    rw [List.length_cons, literalBytes, hp]
    simp only [hrest, utf8Of_cons, List.map_cons, List.flatten_cons, List.append_assoc, List.length_append,
      List.drop_drop]

/-! ## The UTF-8 length of a code point -/

theorem length_utf8Encode (c : UInt64) : (utf8Encode c).length =
    if c.toNat < 0x80 then 1 else if c.toNat < 0x800 then 2 else if c.toNat < 0x10000 then 3 else 4 := by
  dsimp only [utf8Encode]; split_ifs <;> rfl

/-- Below the high bit, `b & 0x70` is clear exactly below `16` and `b & 0x7c` exactly below `4`. -/
theorem uint8_and_0x70_0x7c {b : UInt8} (hb : b.toNat < 128) :
    (b &&& 0x70 = 0 ↔ b.toNat < 16) ∧ (b &&& 0x7c = 0 ↔ b.toNat < 4) := by
  have hand (m : UInt8) : b &&& m = 0 ↔ b.toNat &&& m.toNat = 0 :=
    ⟨fun h => by simpa using congrArg UInt8.toNat h, fun h => UInt8.toNat.inj h⟩
  rw [hand, hand]
  have : ∀ k < 128, (k &&& 0x70 = 0 ↔ k < 16) ∧ (k &&& 0x7c = 0 ↔ k < 4) := by decide
  exact this _ hb

/-- The UTF-8 length of a value, against three thresholds. -/
theorem length_utf8Encode_le_of {v w : Nat} (h1 : 1 ≤ w) (h2 : v < 0x80 ∨ 2 ≤ w)
    (h3 : v < 0x800 ∨ 3 ≤ w)
    (h4 : v < 0x10000 ∨ 4 ≤ w) (hv : v < 2 ^ 64) : (utf8Encode v.toUInt64).length ≤ w := by
  rw [length_utf8Encode, UInt64.toNat_ofNat_of_lt hv]
  split_ifs <;> omega

/-- The UTF-8 form of a code point is no longer than the length `exi_utf8_length` counts for it. -/
theorem CodePoint.length_utf8Encode_le (c : CodePoint) :
    (utf8Encode c.value.toUInt64).length ≤ c.width := by
  have hv := c.value_lt
  have hlast := c.last_low
  have h70 := (uint8_and_0x70_0x7c hlast).1
  have h7c := (uint8_and_0x70_0x7c hlast).2
  have h64 : c.value < 2 ^ 64 := c.value_lt_two_pow.trans (by norm_num)
  rw [CodePoint.width, groupWidth]
  obtain hk | hk | hk : c.init.length = 0 ∨ c.init.length = 1 ∨ c.init.length = 2 := by
    have := c.init_length; omega
  · rw [if_neg (by rintro ⟨h, -⟩; omega), if_neg (by rintro ⟨h, -⟩; omega)]
    rw [hk, Nat.pow_zero, Nat.one_mul] at hv
    exact length_utf8Encode_le_of (by omega) (by omega) (by omega) (by omega) h64
  · rw [hk, Nat.pow_one] at hv
    by_cases h : c.last.toNat < 16
    · rw [if_neg (by rintro ⟨-, h'⟩; exact h' (h70.mpr h)), if_neg (by rintro ⟨h, -⟩; omega)]
      exact length_utf8Encode_le_of (by omega) (by omega) (by omega) (by omega) h64
    · rw [if_pos ⟨by omega, mt h70.mp h⟩]
      exact length_utf8Encode_le_of (by omega) (by omega) (by omega) (by omega) h64
  · rw [hk, show 128 ^ 2 = 16384 from rfl] at hv
    rw [if_neg (by rintro ⟨h, -⟩; omega)]
    by_cases h : c.last.toNat < 4
    · rw [if_neg (by rintro ⟨-, h'⟩; exact h' (h7c.mpr h))]
      exact length_utf8Encode_le_of (by omega) (by omega) (by omega) (by omega) h64
    · rw [if_pos ⟨by omega, mt h7c.mp h⟩]
      exact length_utf8Encode_le_of (by omega) (by omega) (by omega) (by omega) h64

/-! ## A literal fits the length `exi_utf8_length` counted -/

/-- The UTF-8 forms of code points take no more bytes than `exi_utf8_length` counts for them. -/
theorem length_literal_le (cps : List CodePoint) :
    (utf8Of cps).length ≤ (cps.map CodePoint.width).sum := by
  rw [utf8Of, List.length_flatten, List.map_map]
  exact List.sum_le_sum fun c _ => c.length_utf8Encode_le

/-- `exi_utf8_length` returns a length other than `0` only when the stream starts with `n` code
points: the length is theirs summed, and `ptr` is where it was. -/
theorem exiUtf8Length_ne_zero {p p' : Parser} {n m : Int} (h : exiUtf8Length p n = (m, p')) (hm : m ≠ 0) :
    p' = p ∧ ∃ (cps : List CodePoint) (rest : List UInt8), (cps.length : Int) = n ∧
      byteSeq p = (cps.map CodePoint.groups).flatten ++ rest ∧
      m = ((cps.map CodePoint.width).sum : Nat) := by
  unfold exiUtf8Length at h
  by_cases hn0 : n = 0
  · rw [if_pos hn0, Prod.mk.injEq] at h
    exact absurd h.1.symm hm
  rw [if_neg hn0] at h
  obtain ⟨cps, rest, hlen, hseq, hr, rfl⟩ := utf8LengthLoop_spec p.buf _ p n 0 h hm
  exact ⟨rfl, cps, rest, hlen, hseq, by rw [hr, Nat.zero_add]⟩

/-- `parse_literal` over code points read from the start of an integer. -/
theorem parseLiteral_codePoints {p : Parser} (huxN : p.uxN = 0) {cps : List CodePoint} {rest : List UInt8}
    (hseq : byteSeq p = (cps.map CodePoint.groups).flatten ++ rest) :
    ∃ ux, parseLiteral p cps.length = some (utf8Of cps ++ [0],
      { p with buf := p.buf.drop (cps.map CodePoint.groups).flatten.length, ux }) := by
  obtain ⟨ux, hlit⟩ := literalBytes_codePoints cps p huxN hseq
  exact ⟨ux, by rw [parseLiteral, if_neg (by omega), Int.toNat_ofNat, hlit]⟩

theorem parseLiteral_fits_utf8Length (p : Parser) {n m : Int} {p' : Parser} (huxN : p.uxN = 0)
    (h : exiUtf8Length p n = (m, p')) (hm : 0 < m) :
    p' = p ∧ ∃ (cps : List CodePoint) (rest : List UInt8), (cps.length : Int) = n ∧
      byteSeq p = (cps.map CodePoint.groups).flatten ++ rest ∧ m = ((cps.map CodePoint.width).sum : Nat) ∧
      ∃ ux, parseLiteral p' n = some (utf8Of cps ++ [0],
          { p with buf := p.buf.drop (cps.map CodePoint.groups).flatten.length, ux }) ∧
        (utf8Of cps ++ [0]).length ≤ m.toNat + 1 := by
  obtain ⟨rfl, cps, rest, hlen, hseq, hm'⟩ := exiUtf8Length_ne_zero h (by omega)
  obtain ⟨ux, hlit⟩ := parseLiteral_codePoints huxN hseq
  refine ⟨rfl, cps, rest, hlen, hseq, hm', ux, hlen ▸ hlit, ?_⟩
  rw [List.length_append, List.length_singleton, hm', Int.toNat_ofNat]
  exact Nat.add_le_add_right (length_literal_le cps) 1

/-- `é` (the groups `E9 01`) and `A`: three bytes of UTF-8, then the NUL. -/
theorem parseLiteral_fits_utf8Length_accent :
    (exiParseInit [0xE9, 0x01, 0x41]).uxN = 0 ∧
      exiUtf8Length (exiParseInit [0xE9, 0x01, 0x41]) 2 = (3, exiParseInit [0xE9, 0x01, 0x41]) ∧
      (0 : Int) < 3 ∧
      (exiParseInit [0xE9, 0x01, 0x41] = exiParseInit [0xE9, 0x01, 0x41] ∧
        ∃ (cps : List CodePoint) (rest : List UInt8), (cps.length : Int) = 2 ∧
          byteSeq (exiParseInit [0xE9, 0x01, 0x41]) = (cps.map CodePoint.groups).flatten ++ rest ∧
          (3 : Int) = ((cps.map CodePoint.width).sum : Nat) ∧
          ∃ ux, parseLiteral (exiParseInit [0xE9, 0x01, 0x41]) 2 = some (utf8Of cps ++ [0],
              { exiParseInit [0xE9, 0x01, 0x41] with
                buf := [(0xE9 : UInt8), 0x01, 0x41].drop (cps.map CodePoint.groups).flatten.length, ux }) ∧
            (utf8Of cps ++ [0]).length ≤ (3 : Int).toNat + 1) :=
  ⟨rfl, rfl, by decide, parseLiteral_fits_utf8Length _ rfl rfl (by decide)⟩

example : parseLiteral (exiParseInit [0xE9, 0x01, 0x41]) 2 =
    some ([0xC3, 0xA9, 0x41, 0], { exiParseInit [] with ux := 0x41 }) := by decide

end Sep2Client
