import Sep2Client.Xml.Value

/-!
# `hexBinary` text

The spec reads a `hexBinary` value as "a stream of hex digit pairs, right-aligned into a
fixed-length target field (zero-padded at the front)".  The text is a list of `HexPair`s, each
two hex digits of either case, followed by the white space `only` accepts (`hexText`); a pair
stands for the byte `16 * hi + lo` (`HexPair.byte`).

The loop of `parse_hex` is characterised in two halves, as a decoder against a grammar: it reads
the pairs of `hexText ds ++ rest` for any `rest` that does not start with a digit
(`hexPairs_hexText`), and whatever text it stops on was such pairs (`hexPairs_some`).  Together:
`parse_hex` returns `1` exactly on a non-empty text of at most `n` pairs with only white space
after them, and then leaves the `n` bytes of the field as zeros followed by the decoded bytes
(`parseHex_iff`).  An odd number of digits, more than `n` pairs, or anything else after the digits
returns `0`.
-/

namespace Sep2Client

/-! ## Bytes as numbers -/

theorem uint8_le_iff {a b : UInt8} : a ≤ b ↔ a.toNat ≤ b.toNat := Iff.rfl

/-- Two digits below `16` joined as `x << 4 | y` make `16 * x + y`. -/
theorem uint8_shiftLeft_four_or {a b : UInt8} (ha : a.toNat < 16) (hb : b.toNat < 16) :
    ((a <<< 4) ||| b).toNat = 16 * a.toNat + b.toNat := by
  show ((a.toBitVec <<< ((4 : UInt8) % 8).toBitVec) ||| b.toBitVec).toNat = _
  simp only [BitVec.shiftLeft_eq', BitVec.toNat_shiftLeft, BitVec.toNat_or]
  show (a.toNat <<< 4 % 2 ^ 8) ||| b.toNat = _
  rw [Nat.shiftLeft_eq, Nat.mod_eq_of_lt (by omega), Nat.mul_comm]
  exact @two_pow_mul_or_of_lt a.toNat b.toNat 4 hb

/-! ## Digits -/

/-- A hex digit of either case, `0-9`, `a-f` or `A-F`, by its character code. -/
def isHexChar (c : UInt8) : Bool :=
  (48 ≤ c.toNat && c.toNat ≤ 57) || (97 ≤ c.toNat && c.toNat ≤ 102) ||
    (65 ≤ c.toNat && c.toNat ≤ 70)

/-- The value of a hex digit. -/
def hexValue (c : UInt8) : Nat :=
  if c.toNat ≤ 57 then c.toNat - 48 else if c.toNat ≤ 70 then c.toNat - 55 else c.toNat - 87

theorem isHexChar_iff (d : UInt8) :
    isHexChar d = true ↔
      (48 ≤ d.toNat ∧ d.toNat ≤ 57) ∨ (97 ≤ d.toNat ∧ d.toNat ≤ 102) ∨
        (65 ≤ d.toNat ∧ d.toNat ≤ 70) := by
  simp [isHexChar, or_assoc]

/-- `hex_digit` on character codes. -/
theorem hexDigit_toNat (d : UInt8) : (hexDigit d).toNat =
    if 48 ≤ d.toNat ∧ d.toNat ≤ 57 then 48 else if 97 ≤ d.toNat ∧ d.toNat ≤ 102 then 87
    else if 65 ≤ d.toNat ∧ d.toNat ≤ 70 then 55 else 0 := by
  unfold hexDigit
  simp only [uint8_le_iff, show (0x30 : UInt8).toNat = 48 from rfl,
    show (0x39 : UInt8).toNat = 57 from rfl, show (0x61 : UInt8).toNat = 97 from rfl,
    show (0x66 : UInt8).toNat = 102 from rfl, show (0x41 : UInt8).toNat = 65 from rfl,
    show (0x46 : UInt8).toNat = 70 from rfl]
  split_ifs <;> rfl

theorem hexDigit_eq_zero_iff (d : UInt8) : hexDigit d = 0 ↔ isHexChar d = false := by
  have h0 : hexDigit d = 0 ↔ (hexDigit d).toNat = 0 :=
    ⟨fun h => h ▸ rfl, fun h => UInt8.toNat.inj (by rw [h]; rfl)⟩
  rw [h0, hexDigit_toNat, ← Bool.not_eq_true, isHexChar_iff]
  split_ifs <;> simp only [OfNat.ofNat_ne_zero, false_iff, not_not, true_iff] <;> omega

theorem hexDigit_ne_zero {d : UInt8} (h : isHexChar d) : hexDigit d ≠ 0 := by
  rw [Ne, hexDigit_eq_zero_iff, h]
  decide

theorem isHexChar_of_hexDigit {d : UInt8} (h : hexDigit d ≠ 0) : isHexChar d = true := by
  simpa [hexDigit_eq_zero_iff] using h

theorem hexDigit_le (d : UInt8) : hexDigit d ≤ d := by
  rw [uint8_le_iff, hexDigit_toNat]
  split_ifs <;> omega

/-- `d - c` of `parse_hex` is the digit's value. -/
theorem sub_hexDigit_toNat {d : UInt8} (h : isHexChar d) : (d - hexDigit d).toNat = hexValue d := by
  rw [UInt8.toNat_sub_of_le _ _ (hexDigit_le d), hexDigit_toNat, hexValue]
  rcases (isHexChar_iff d).mp h with h | h | h <;> split_ifs <;> omega

theorem hexValue_lt {d : UInt8} (h : isHexChar d) : hexValue d < 16 := by
  rw [isHexChar_iff] at h
  unfold hexValue
  split_ifs <;> omega

/-- White space, all `only` accepts, holds no digit. -/
theorem head_not_hex_of_only {rest : List UInt8} (h : only (some rest) = true) :
    ∀ c ∈ rest.head?, isHexChar c = false := by
  intro c hc
  cases rest with
  | nil => cases hc
  | cons d r =>
    cases hc
    simp only [only, List.all_cons, Bool.and_eq_true, isXmlSpace, Bool.or_eq_true, beq_iff_eq] at h
    rcases h.1 with ((rfl | rfl) | rfl) | rfl <;> decide

/-! ## Digit pairs -/

/-- Two hex digits, the text of one byte of a `hexBinary` value. -/
structure HexPair where
  hi : UInt8
  lo : UInt8
  hi_hex : isHexChar hi
  lo_hex : isHexChar lo

namespace HexPair

/-- The byte a digit pair stands for. -/
def byte (p : HexPair) : UInt8 := (16 * hexValue p.hi + hexValue p.lo).toUInt8

end HexPair

/-- The text of a list of digit pairs. -/
def hexText (ds : List HexPair) : List UInt8 := ds.flatMap fun p => [p.hi, p.lo]

@[simp] theorem hexText_nil : hexText [] = [] := rfl

@[simp] theorem hexText_cons (p : HexPair) (ds : List HexPair) :
    hexText (p :: ds) = p.hi :: p.lo :: hexText ds := rfl

/-- `x | (d - c)` of `parse_hex` is the pair's byte. -/
theorem hexPair_byte (p : HexPair) :
    ((p.hi - hexDigit p.hi) <<< 4 ||| (p.lo - hexDigit p.lo)) = p.byte := by
  have hhi := hexValue_lt p.hi_hex
  have hlo := hexValue_lt p.lo_hex
  apply UInt8.toNat.inj
  rw [uint8_shiftLeft_four_or (by rw [sub_hexDigit_toNat p.hi_hex]; omega)
      (by rw [sub_hexDigit_toNat p.lo_hex]; omega), sub_hexDigit_toNat p.hi_hex,
    sub_hexDigit_toNat p.lo_hex, HexPair.byte, Nat.toUInt8,
    UInt8.toNat_ofNat_of_lt (by unfold UInt8.size; omega)]

/-! ## The loop -/

section Loop

variable {n : Nat}

/-- The loop stops at once on a text that does not start with a digit. -/
theorem hexPairs_of_not_hex {rest : List UInt8} (h : ∀ c ∈ rest.head?, isHexChar c = false)
    (m : Nat) (field : List UInt8) : hexPairs n rest m field = (m, field, some rest) := by
  cases rest with
  | nil => rfl
  | cons d r =>
    unfold hexPairs
    rw [if_pos ((hexDigit_eq_zero_iff d).mpr (h d rfl))]

/-- One pass of the loop over a digit pair with room left writes its byte at `value[m]`. -/
theorem hexPairs_pair (p : HexPair) (t : List UInt8) {m : Nat} (hm : m ≠ n) (field : List UInt8) :
    hexPairs n (p.hi :: p.lo :: t) m field = hexPairs n t (m + 1) (field.set m p.byte) := by
  rw [hexPairs, if_neg (hexDigit_ne_zero p.hi_hex), if_neg hm]
  simp only [if_neg (hexDigit_ne_zero p.lo_hex), hexPair_byte]

/-- Completeness: the loop reads the digit pairs of `hexText ds ++ rest` with room for them into
the bytes from `value[m]` on, whatever follows. -/
theorem hexPairs_hexText (rest : List UInt8) : ∀ (ds : List HexPair) (pre mid post : List UInt8),
    mid.length = ds.length → pre.length + ds.length ≤ n →
    hexPairs n (hexText ds ++ rest) pre.length (pre ++ mid ++ post) =
      hexPairs n rest (pre.length + ds.length) (pre ++ ds.map HexPair.byte ++ post)
  | [], pre, mid, post, hmid, _ => by
    rw [List.length_eq_zero.mp hmid]; rfl
  | p :: ds, pre, x :: mid, post, hmid, hn => by
    rw [List.length_cons, List.length_cons, Nat.succ_inj'] at hmid
    rw [List.length_cons] at hn
    have hset : (pre ++ x :: mid ++ post).set pre.length p.byte = pre ++ [p.byte] ++ mid ++ post := by
      simp [List.set_append_right]
    have hlen : (pre ++ [p.byte]).length = pre.length + 1 := List.length_append _ _
    have hrun := hexPairs_hexText rest ds (pre ++ [p.byte]) mid post hmid (by omega)
    rw [hexText_cons, List.cons_append, List.cons_append, hexPairs_pair p _ (by omega), hset, ← hlen,
      hrun, hlen]
    simp [Nat.add_assoc, Nat.add_comm 1]

/-- Soundness: a text the loop leaves on `rest` without `return 0` is digit pairs, with room for
them, followed by `rest`, which does not start with a digit. -/
theorem hexPairs_some : ∀ (t : List UInt8) (m : Nat) (field : List UInt8) {r : List UInt8}, m ≤ n →
    (hexPairs n t m field).2.2 = some r →
    ∃ ds : List HexPair, t = hexText ds ++ r ∧ m + ds.length ≤ n ∧
      ∀ c ∈ r.head?, isHexChar c = false
  | [], m, field, r, hm, h => by
    cases h
    exact ⟨[], rfl, by simpa using hm, fun c hc => by cases hc⟩
  | d :: t, m, field, r, hm, h => by
    unfold hexPairs at h
    by_cases hd : hexDigit d = 0
    · rw [if_pos hd] at h
      cases h
      exact ⟨[], rfl, by simpa using hm, fun c hc => by cases hc; exact (hexDigit_eq_zero_iff d).mp hd⟩
    rw [if_neg hd] at h
    by_cases hmn : m = n
    · rw [if_pos hmn] at h; cases h
    rw [if_neg hmn] at h
    match t, h with
    | [], h => cases h
    | d' :: t', h =>
      by_cases hd' : hexDigit d' = 0
      · simp only [if_pos hd'] at h; cases h
      simp only [if_neg hd'] at h
      obtain ⟨ds, rfl, hlen, hr⟩ := hexPairs_some t' (m + 1) _ (by omega) h
      exact ⟨⟨d, d', isHexChar_of_hexDigit hd, isHexChar_of_hexDigit hd'⟩ :: ds, rfl,
        by simp only [List.length_cons]; omega, hr⟩

end Loop

/-! ## `parse_hex` -/

/-- `parse_hex` on `k ≥ 1` digit pairs with `k ≤ n` and white space after them: it succeeds, with
the `n - k` bytes in front zeroed and the bytes past `n` untouched. -/
theorem parseHex_hexText {n : Nat} (ds : List HexPair) (rest : List UInt8) {field : List UInt8}
    (hds : ds ≠ []) (hk : ds.length ≤ n) (hf : n ≤ field.length) (hr : only (some rest) = true) :
    parseHex field n (hexText ds ++ rest) =
      (true, List.replicate (n - ds.length) 0 ++ ds.map HexPair.byte ++ field.drop n) := by
  have hloop : hexPairs n (hexText ds ++ rest) 0 field =
      (ds.length, ds.map HexPair.byte ++ field.drop ds.length, some rest) := by
    have := hexPairs_hexText rest ds [] (field.take ds.length) (field.drop ds.length)
      (by simp only [List.length_take]; omega) (by simpa using hk)
    simpa [hexPairs_of_not_hex (head_not_hex_of_only hr)] using this
  have hpos : ds.length ≠ 0 := fun h => hds (List.length_eq_zero.mp h)
  simp only [parseHex, hloop, hpos, hr, false_or, Bool.not_true, Bool.false_eq_true, if_false]
  split_ifs with hn
  · obtain rfl : n = ds.length := by omega
    simp
  · simp [List.take_left', List.drop_append_eq_append_drop, List.drop_drop, hk, Nat.sub_add_cancel hk]

/-- `parse_hex (value, n, t)` on an `n`-byte field returns `1` exactly when `t` is `k` digit
pairs, `1 ≤ k ≤ n`, followed by what `only` accepts; and for such a text the field then holds
`n - k` zeros and the `k` decoded bytes. -/
theorem parseHex_iff (n : Nat) {field : List UInt8} (hf : n ≤ field.length) (t : List UInt8) :
    ((parseHex field n t).1 = true ↔
      ∃ (ds : List HexPair) (rest : List UInt8), t = hexText ds ++ rest ∧ ds ≠ [] ∧
        ds.length ≤ n ∧ only (some rest) = true) ∧
      ∀ (ds : List HexPair) (rest : List UInt8), t = hexText ds ++ rest → ds ≠ [] → ds.length ≤ n →
        only (some rest) = true →
        parseHex field n t = (true, List.replicate (n - ds.length) 0 ++ ds.map HexPair.byte ++ field.drop n) := by
  have hfield : ∀ (ds : List HexPair) (rest : List UInt8), t = hexText ds ++ rest → ds ≠ [] →
      ds.length ≤ n → only (some rest) = true →
      parseHex field n t = (true, List.replicate (n - ds.length) 0 ++ ds.map HexPair.byte ++ field.drop n) :=
    fun ds rest ht hds hk hr => by rw [ht, parseHex_hexText ds rest hds hk hf hr]
  refine ⟨⟨fun h => ?_, fun ⟨ds, rest, ht, hds, hk, hr⟩ => by rw [hfield ds rest ht hds hk hr]⟩, hfield⟩
  rcases hres : hexPairs n t 0 field with ⟨m, f, _ | r⟩
  · simp [parseHex, hres] at h
  have hr : only (some r) = true := by
    by_contra hc
    simp [parseHex, hres, hc] at h
  obtain ⟨ds, rfl, hk, hstop⟩ := hexPairs_some t 0 field (Nat.zero_le n) (by rw [hres])
  have hds : ds ≠ [] := by
    rintro rfl
    rw [hexText_nil, List.nil_append, hexPairs_of_not_hex hstop] at hres
    cases hres
    simp [parseHex, hexPairs_of_not_hex hstop] at h
  exact ⟨ds, r, rfl, hds, by omega, hr⟩

example : parseHex [1, 2, 3, 4] 4 (ascii "ab12") = (true, [0, 0, 0xAB, 0x12]) := by decide

/-- The spec's case: `"ab12"` into a four-byte field. -/
theorem parseHex_iff_ab12 :
    4 ≤ [1, 2, 3, 4].length ∧
      (((parseHex [1, 2, 3, 4] 4 (ascii "ab12")).1 = true ↔
        ∃ (ds : List HexPair) (rest : List UInt8), ascii "ab12" = hexText ds ++ rest ∧ ds ≠ [] ∧
          ds.length ≤ 4 ∧ only (some rest) = true) ∧
        ∀ (ds : List HexPair) (rest : List UInt8), ascii "ab12" = hexText ds ++ rest → ds ≠ [] →
          ds.length ≤ 4 → only (some rest) = true →
          parseHex [1, 2, 3, 4] 4 (ascii "ab12") =
            (true, List.replicate (4 - ds.length) 0 ++ ds.map HexPair.byte ++ [1, 2, 3, 4].drop 4)) :=
  ⟨by decide, parseHex_iff 4 (by decide) (ascii "ab12")⟩

end Sep2Client
