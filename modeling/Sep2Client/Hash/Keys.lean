import Sep2Client.Hash.Table

/-!
# Key policies

The three constructors `new_string_hash`, `new_int64_hash` and `new_int128_hash` of `hash.c` differ
only in the `hash` and `compare` functions they install: djb2 with `strcmp` over strings, Thomas
Wang's 64-bit mix with equality over 64-bit integers, and djb2 with `memcmp` over 16 raw bytes.  C
`char` is signed, so djb2 adds each byte as a signed value.  Every hash is truncated to the C `int`
it returns.
-/

namespace Sep2Client

/-- A C `char`, sign-extended to the 64-bit `unsigned long` it is added to. -/
def signedChar (c : UInt8) : UInt64 :=
  if c < 128 then c.toUInt64 else c.toUInt64 - 256

/-- The djb2 step `hash = ((hash << 5) + hash) + c` over a list of bytes. -/
def djb2 (bytes : List UInt8) : UInt64 :=
  bytes.foldl (fun hash c => ((hash <<< 5) + hash) + signedChar c) 5381

/-- `string_hash`: djb2 over the characters before the NUL. -/
def stringHash (s : List UInt8) : UInt32 := (djb2 s).toUInt32

/-- `strcmp` over the characters before the NUL: the difference of the first pair of bytes that
differ, the terminating NUL included. -/
def strcmp : List UInt8 → List UInt8 → Int
  | [], [] => 0
  | [], b :: _ => -(b.toNat : Int)
  | a :: _, [] => a.toNat
  | a :: as, b :: bs => if a = b then strcmp as bs else (a.toNat : Int) - b.toNat

/-- `int64_hash`: Thomas Wang's 64-bit mix. -/
def int64Hash (key : UInt64) : UInt32 :=
  let key := (~~~key) + (key <<< 21)
  let key := key ^^^ (key >>> 24)
  let key := (key + (key <<< 3)) + (key <<< 8)
  let key := key ^^^ (key >>> 14)
  let key := (key + (key <<< 2)) + (key <<< 4)
  let key := key ^^^ (key >>> 28)
  let key := key + (key <<< 31)
  key.toUInt32

/-- `int64_compare`: `!(*x == *y)`. -/
def int64Compare (x y : UInt64) : Int := if x = y then 0 else 1

/-- `int128_hash`: djb2 over the 16 bytes of the key. -/
def int128Hash (key : List UInt8) : UInt32 := (djb2 (key.take 16)).toUInt32

/-- `int128_compare`: `memcmp` over 16 bytes. -/
def int128Compare (a b : List UInt8) : Int := strcmp (a.take 16) (b.take 16)

variable {D : Type}

/-- The policy `new_string_hash (size, get_key)` installs. -/
def stringPolicy (getKey : D → List UInt8) : HashPolicy D (List UInt8) :=
  ⟨getKey, stringHash, strcmp⟩

/-- The policy `new_int64_hash (size, get_key)` installs. -/
def int64Policy (getKey : D → UInt64) : HashPolicy D UInt64 :=
  ⟨getKey, int64Hash, int64Compare⟩

/-- The policy `new_int128_hash (size, get_key)` installs. -/
def int128Policy (getKey : D → List UInt8) : HashPolicy D (List UInt8) :=
  ⟨getKey, int128Hash, int128Compare⟩

/-- `int64_compare` is zero exactly on equal keys. -/
theorem int64Compare_eq_zero {x y : UInt64} : int64Compare x y = 0 ↔ x = y := by
  unfold int64Compare; split <;> simp_all

end Sep2Client
