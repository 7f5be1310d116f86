import Sep2Client.Exi.Driver

/-!
# Extending the buffer

The EXI driver is meant to be resumable: an operation that returns `0` without `PARSE_INVALID` is
called again after `exi_rebuffer` has installed its unconsumed bytes followed by new ones, and must
then end as it would have on the whole input at once.  This file proves that the primitives that
keep their progress in sub-states live up to it, and with them `exi_parse_value` on every kind but
the strings.

Two facts carry every proof, one per primitive.  A call that does not run out of bytes, because it
succeeds or finds the input invalid from a state that was not (`Completes`), reads the same bits
from a longer buffer, ends the same way and leaves the same bytes unread (`parseByte_extend`,
`parseBits_extend`, `parseUint_settle`, …).  A call that runs out of bytes leaves a state from which
the retry on the longer buffer does what the first call would have done on it
(`parseUint_resume`, …).  `parse_uint` is the
one with a loop: its progress is `ux` and `ux_n`, and its fuel is the number of bytes left, so a
run on a longer buffer is compared with the shorter one at the fuel of its own buffer
(`uintLoop_fuel`).
-/

namespace Sep2Client

/-- The parser after `exi_rebuffer` with its unconsumed bytes followed by `more`. -/
def extendBuf (p : Parser) (more : List UInt8) : Parser := exiRebuffer p (p.buf ++ more)

@[simp] theorem extendBuf_buf (p : Parser) (more : List UInt8) :
    (extendBuf p more).buf = p.buf ++ more := rfl

@[simp] theorem extendBuf_bit (p : Parser) (more : List UInt8) : (extendBuf p more).bit = p.bit := rfl

@[simp] theorem extendBuf_ux (p : Parser) (more : List UInt8) : (extendBuf p more).ux = p.ux := rfl

@[simp] theorem extendBuf_uxN (p : Parser) (more : List UInt8) : (extendBuf p more).uxN = p.uxN := rfl

@[simp] theorem extendBuf_state (p : Parser) (more : List UInt8) :
    (extendBuf p more).state = p.state := rfl

@[simp] theorem extendBuf_exiState (p : Parser) (more : List UInt8) :
    (extendBuf p more).exiState = p.exiState := rfl

@[simp] theorem extendBuf_se (p : Parser) (more : List UInt8) : (extendBuf p more).se = p.se := rfl

@[simp] theorem extendBuf_flag (p : Parser) (more : List UInt8) : (extendBuf p more).flag = p.flag := rfl

/-- A result whose parser has `more` after the bytes it left. -/
def extendOut {β α : Type} (more : List UInt8) : β × Parser × α → β × Parser × α
  | (r, q, c) => (r, extendBuf q more, c)

/-- A call from `p` that left `q` did not stop for want of bytes: it did its work (`done`), or it
found the input invalid from a state that was not. -/
def Completes (p : Parser) (done : Prop) (q : Parser) : Prop :=
  done ∨ (q.state = parseInvalid ∧ p.state ≠ parseInvalid)

/-- A call that has not done its work and left `state` as it was did not complete. -/
theorem Completes.stalled {p q : Parser} {done : Prop} (h : Completes p done q) (hd : ¬done)
    (hs : q.state = p.state) : False := by
  rcases h with h | ⟨hq, hp⟩
  · exact hd h
  · exact hp (hs.symm.trans hq)

theorem Completes.mono {p q : Parser} {done done' : Prop} (h : Completes p done q)
    (hd : done → done') : Completes p done' q :=
  h.imp_left hd

theorem Completes.of_state {p p' q : Parser} {done : Prop} (h : Completes p done q)
    (hs : p'.state = p.state) : Completes p' done q :=
  h.imp_right fun ⟨hq, hp⟩ => ⟨hq, hs ▸ hp⟩

/-! ## Bytes and bits -/

/-- `parse_byte` moves `ptr` by one byte and changes nothing else. -/
theorem parseByte_consumes {p p' : Parser} {b : UInt8} (h : parseByte p = some (b, p')) :
    p' = { p with buf := p'.buf } ∧ p'.buf.length + 1 = p.buf.length := by
  unfold parseByte at h
  split at h
  · split at h
    · cases h
    · cases h; simp; omega
  · split at h
    · cases h
    · cases h; simp_all

/-- `parse_byte` succeeds when `need` passes. -/
theorem parseByte_of_le {p : Parser} (h : (if p.bit ≠ 0 then 2 else 1) ≤ p.buf.length) :
    ∃ b p', parseByte p = some (b, p') := by
  unfold parseByte
  split
  · rename_i hb; rw [if_pos hb] at h; rw [if_neg (by omega)]; exact ⟨_, _, rfl⟩
  · rename_i hb; rw [if_neg hb] at h
    match hbuf : p.buf, h with
    | b :: rest, _ => exact ⟨b, _, rfl⟩

theorem parseByte_extend {p p' : Parser} {b : UInt8} (more : List UInt8)
    (h : parseByte p = some (b, p')) : parseByte (extendBuf p more) = some (b, extendBuf p' more) := by
  unfold parseByte at h ⊢
  by_cases hbit : p.bit ≠ 0
  · rw [if_pos hbit] at h
    split at h
    · cases h
    · rename_i hlen
      cases h
      simp only [extendBuf, exiRebuffer, if_pos hbit, List.length_append]
      rw [if_neg (by omega)]
      simp [List.getElem?_append_left (by omega : 0 < p.buf.length),
        List.getElem?_append_left (by omega : 1 < p.buf.length),
        List.drop_append_of_le_length (by omega : 1 ≤ p.buf.length)]
  · rw [if_neg hbit] at h
    simp only [extendBuf, exiRebuffer, if_neg hbit]
    match hb : p.buf, h with
    | b :: rest, h => cases h; simp [hb]

theorem parseBit_extend {p p' : Parser} {v : Nat} (more : List UInt8)
    (h : parseBit p = some (v, p')) : parseBit (extendBuf p more) = some (v, extendBuf p' more) := by
  unfold parseBit at h ⊢
  match hb : p.buf, h with
  | b :: rest, h =>
    simp only [extendBuf, exiRebuffer, hb, List.cons_append] at h ⊢
    split at h <;> cases h <;> simp_all

/-- The loop of `parse_binary` reads the same bytes from a longer buffer once `need` has passed. -/
theorem parseBytes_extend (more : List UInt8) : ∀ (m : Nat) (p : Parser),
    (if p.bit ≠ 0 then m + 1 else m) ≤ p.buf.length →
    parseBytes m (extendBuf p more) = ((parseBytes m p).1, extendBuf (parseBytes m p).2 more)
  | 0, _, _ => rfl
  | m + 1, p, h => by
    obtain ⟨b, p', hp⟩ := parseByte_of_le
      (show (if p.bit ≠ 0 then 2 else 1) ≤ p.buf.length by split at h <;> split <;> omega)
    obtain ⟨hp', hlen⟩ := parseByte_consumes hp
    rw [parseBytes, parseBytes, parseByte_extend more hp, hp]
    simp only
    rw [parseBytes_extend more m p' (by rw [hp']; simp only; split at h <;> split <;> omega)]

/-- `parse_bit` moves only `ptr` and `bit`. -/
theorem parseBit_frame {p p' : Parser} {v : Nat} (h : parseBit p = some (v, p')) :
    p' = { p with buf := p'.buf, bit := p'.bit } := by
  unfold parseBit at h
  split at h
  · cases h
  · split at h <;> cases h <;> rfl

/-- The accumulator of `parse_bits` agrees on a longer buffer while it reads only bytes of the
shorter one. -/
theorem parseBits_fold_extend (buf more : List UInt8) {k : Nat} (hk : k < buf.length) :
    (List.range k).foldl (fun (acc : UInt32) j => (acc <<< 8) ||| ((buf ++ more).getD (j + 1) 0).toUInt32)
      ((buf ++ more).getD 0 0).toUInt32 =
    (List.range k).foldl (fun (acc : UInt32) j => (acc <<< 8) ||| (buf.getD (j + 1) 0).toUInt32)
      (buf.getD 0 0).toUInt32 := by
  induction k with
  | zero => simp [List.getElem?_append_left hk]
  | succ k ih =>
    rw [List.range_succ, List.foldl_append, List.foldl_append, ih (by omega)]
    simp [List.getElem?_append_left hk]

/-- What a successful `parse_bits` read and did. -/
theorem parseBits_eq_some {p p' : Parser} {n : Nat} {x : UInt32} (h : parseBits p n = some (x, p')) :
    (if (p.bit + n) % 8 ≠ 0 then (p.bit + n) / 8 + 1 else (p.bit + n) / 8) ≤ p.buf.length ∧
      x = ((List.range ((p.bit + n) / 8)).foldl
          (fun (acc : UInt32) j => (acc <<< 8) ||| (p.buf.getD (j + 1) 0).toUInt32)
          (p.buf.getD 0 0).toUInt32 >>> (8 - (p.bit + n) % 8).toUInt32) &&&
          ~~~((0xFFFFFFFF : UInt32) <<< n.toUInt32) ∧
      p' = { p with buf := p.buf.drop ((p.bit + n) / 8), bit := (p.bit + n) % 8 } := by
  by_cases hlt : p.buf.length < (if (p.bit + n) % 8 ≠ 0 then (p.bit + n) / 8 + 1 else (p.bit + n) / 8)
  · simp only [parseBits] at h; rw [if_pos hlt] at h; cases h
  · simp only [parseBits] at h; rw [if_neg hlt] at h
    simp only [Option.some.injEq, Prod.mk.injEq] at h
    exact ⟨by omega, h.1.symm, h.2.symm⟩

/-- `parse_bits` when `need` passes. -/
theorem parseBits_of_le {p : Parser} {n : Nat}
    (h : (if (p.bit + n) % 8 ≠ 0 then (p.bit + n) / 8 + 1 else (p.bit + n) / 8) ≤ p.buf.length) :
    parseBits p n = some (((List.range ((p.bit + n) / 8)).foldl
          (fun (acc : UInt32) j => (acc <<< 8) ||| (p.buf.getD (j + 1) 0).toUInt32)
          (p.buf.getD 0 0).toUInt32 >>> (8 - (p.bit + n) % 8).toUInt32) &&&
          ~~~((0xFFFFFFFF : UInt32) <<< n.toUInt32),
      { p with buf := p.buf.drop ((p.bit + n) / 8), bit := (p.bit + n) % 8 }) := by
  simp only [parseBits]; rw [if_neg (by omega)]

theorem parseBits_extend {p p' : Parser} {n : Nat} {x : UInt32} (more : List UInt8)
    (h : parseBits p n = some (x, p')) : parseBits (extendBuf p more) n = some (x, extendBuf p' more) := by
  obtain ⟨hneed, rfl, rfl⟩ := parseBits_eq_some h
  rw [@parseBits_of_le (extendBuf p more) n
    (by simp only [extendBuf_bit, extendBuf_buf, List.length_append]; exact le_trans hneed (by omega))]
  simp only [extendBuf_bit, extendBuf_buf]
  have hdrop : (p.buf ++ more).drop ((p.bit + n) / 8) = p.buf.drop ((p.bit + n) / 8) ++ more :=
    List.drop_append_of_le_length (by split at hneed <;> omega)
  congr 2
  · by_cases hfin : (p.bit + n) % 8 ≠ 0
    · rw [if_pos hfin] at hneed
      rw [parseBits_fold_extend p.buf more (by omega)]
    · rw [not_not.mp hfin]
      rcases hb : (p.bit + n) / 8 with _ | k
      · simp only [List.range_zero, List.foldl_nil, Nat.sub_zero]
        rw [show Nat.toUInt32 8 = 8 from rfl, uint32_byte_shiftRight, uint32_byte_shiftRight]
      · rw [if_neg hfin, hb] at hneed
        rw [List.range_succ, List.foldl_append, List.foldl_append, parseBits_fold_extend p.buf more (by omega)]
        simp only [List.foldl_cons, List.foldl_nil, Nat.sub_zero]
        rw [show Nat.toUInt32 8 = 8 from rfl, uint32_or_byte_shiftRight, uint32_or_byte_shiftRight]
  · simp [extendBuf, exiRebuffer, hdrop]

/-! ## Unsigned integers -/

/-- `parse_uint` changes only `ptr`, `ux`, `ux_n` and `state`. -/
theorem uintLoop_frame : ∀ (fuel : Nat) (p : Parser),
    ∃ buf ux uxN state, (uintLoop fuel p).2 = { p with buf, ux, uxN, state }
  | 0, p => ⟨p.buf, p.ux, p.uxN, p.state, rfl⟩
  | fuel + 1, p => by
    rw [uintLoop]
    split
    · exact ⟨_, _, _, _, rfl⟩
    · split
      · exact ⟨_, _, _, _, rfl⟩
      · rename_i b p' hp
        obtain ⟨hp', -⟩ := parseByte_consumes hp
        split
        · obtain ⟨buf, ux, uxN, state, h⟩ := uintLoop_frame fuel
            { p' with ux := p'.ux ||| groupTerm b p'.uxN, uxN := p'.uxN + 7 }
          exact ⟨buf, ux, uxN, state, by rw [h, hp']⟩
        · exact ⟨p'.buf, _, _, _, by rw [hp']⟩

/-- Each pass of the loop reads a byte, so fuel beyond the bytes left is never used. -/
theorem uintLoop_fuel : ∀ {fuel fuel' : Nat} {p : Parser}, p.buf.length < fuel →
    p.buf.length < fuel' → uintLoop fuel p = uintLoop fuel' p
  | 0, _, _, h, _ => absurd h (Nat.not_lt_zero _)
  | _, 0, _, _, h' => absurd h' (Nat.not_lt_zero _)
  | fuel + 1, fuel' + 1, p, h, h' => by
    rw [uintLoop, uintLoop]
    split
    · rfl
    · split
      · rfl
      · rename_i b p' hp
        have hlen := (parseByte_consumes hp).2
        split
        · exact uintLoop_fuel (by simp only; omega) (by simp only; omega)
        · rfl

/-- A loop that finishes leaves `state` alone. -/
theorem uintLoop_ok_state : ∀ {fuel : Nat} {p q : Parser}, uintLoop fuel p = (true, q) →
    q.state = p.state
  | 0, _, _, h => by cases h
  | fuel + 1, p, q, h => by
    rw [uintLoop] at h
    split at h
    · cases h
    · split at h
      · cases h
      · rename_i b p' hp
        have hs : p'.state = p.state := (congrArg Parser.state (parseByte_consumes hp).1 :)
        split at h
        · exact (uintLoop_ok_state h).trans hs
        · cases h; exact hs

/-- A loop that does not run out of bytes reads the same groups from a longer buffer and ends the
same way. -/
theorem uintLoop_settle (more : List UInt8) : ∀ {fuel : Nat} {p q : Parser} {ok : Bool},
    p.buf.length < fuel → uintLoop fuel p = (ok, q) → Completes p (ok = true) q →
    uintLoop ((p.buf ++ more).length + 1) (extendBuf p more) = (ok, extendBuf q more)
  | 0, _, _, _, h, _, _ => absurd h (Nat.not_lt_zero _)
  | fuel + 1, p, q, ok, h, hq, hc => by
    rw [uintLoop] at hq
    rw [uintLoop]
    by_cases hn : p.uxN = 70
    · rw [if_pos hn] at hq
      cases hq
      rw [if_pos (show (extendBuf p more).uxN = 70 from hn)]
      rfl
    · rw [if_neg hn] at hq
      rw [if_neg (show (extendBuf p more).uxN ≠ 70 from hn)]
      cases hp : parseByte p with
      | none => rw [hp] at hq; cases hq; exact (hc.stalled Bool.false_ne_true rfl).elim
      | some r =>
        obtain ⟨b, p'⟩ := r
        obtain ⟨hp', hlen⟩ := parseByte_consumes hp
        rw [hp] at hq
        rw [parseByte_extend more hp]
        simp only at hq ⊢
        split at hq
        · rename_i hcont
          rw [if_pos hcont, ← uintLoop_settle more (by simp only; omega) hq
            (hc.of_state (congrArg Parser.state hp' :))]
          exact uintLoop_fuel (by simp only [extendBuf_buf, List.length_append]; omega) (by simp)
        · rename_i hcont
          cases hq
          rw [if_neg hcont]
          rfl

/-- A loop that runs out of bytes without `PARSE_INVALID` leaves a state from which the loop on a
longer buffer does what it would have done from the start. -/
theorem uintLoop_resume (more : List UInt8) : ∀ {fuel : Nat} {p q : Parser}, p.buf.length < fuel →
    uintLoop fuel p = (false, q) → q.state ≠ parseInvalid →
    uintLoop ((p.buf ++ more).length + 1) (extendBuf p more) =
      uintLoop ((q.buf ++ more).length + 1) (extendBuf q more)
  | 0, _, _, h, _, _ => absurd h (Nat.not_lt_zero _)
  | fuel + 1, p, q, h, hq, hs => by
    rw [uintLoop] at hq
    by_cases hn : p.uxN = 70
    · rw [if_pos hn] at hq; cases hq; exact absurd rfl hs
    · rw [if_neg hn] at hq
      cases hp : parseByte p with
      | none => rw [hp] at hq; cases hq; rfl
      | some r =>
        obtain ⟨b, p'⟩ := r
        have hlen := (parseByte_consumes hp).2
        rw [hp] at hq
        simp only at hq
        split at hq
        · rename_i hc
          rw [← uintLoop_resume more (by simp only; omega) hq hs, uintLoop,
            if_neg (show (extendBuf p more).uxN ≠ 70 from hn), parseByte_extend more hp]
          simp only [hc, if_true, ne_eq, not_false_eq_true]
          exact uintLoop_fuel (by simp only [extendBuf_buf, List.length_append]; omega) (by simp)
        · cases hq

/-- A loop that fails from a state with `ux_n = 0 → ux = 0` ends in such a state. -/
theorem uintLoop_fail_ux : ∀ {fuel : Nat} {p q : Parser}, (p.uxN = 0 → p.ux = 0) →
    uintLoop fuel p = (false, q) → q.uxN = 0 → q.ux = 0
  | 0, _, _, hp, hq, hz => by cases hq; exact hp hz
  | fuel + 1, p, q, hp, hq, hz => by
    rw [uintLoop] at hq
    split at hq
    · cases hq; exact hp hz
    · split at hq
      · cases hq; exact hp hz
      · split at hq
        · exact uintLoop_fail_ux (fun h => by simp at h) hq hz
        · cases hq

/-- The state `parse_uint` starts its loop from: `ux` cleared unless a number is under way. -/
theorem parseUint_eq (p : Parser) :
    parseUint p = uintLoop (p.buf.length + 1) (if p.uxN = 0 then { p with ux := 0 } else p) := rfl

theorem parseUint_frame (p : Parser) :
    ∃ buf ux uxN state, (parseUint p).2 = { p with buf, ux, uxN, state } := by
  obtain ⟨buf, ux, uxN, state, h⟩ := uintLoop_frame (p.buf.length + 1)
    (if p.uxN = 0 then { p with ux := 0 } else p)
  refine ⟨buf, ux, uxN, state, ?_⟩
  rw [parseUint_eq, h]
  split <;> rfl

/-- `parse_uint` keeps the sub-state, the entry, the sign and the state of `exi_parse_simple`. -/
theorem parseUint_preserves (p : Parser) :
    (parseUint p).2.exiState = p.exiState ∧ (parseUint p).2.se = p.se ∧ (parseUint p).2.sign = p.sign ∧
      (parseUint p).2.ch = p.ch := by
  obtain ⟨_, _, _, _, h⟩ := parseUint_frame p
  rw [h]; exact ⟨rfl, rfl, rfl, rfl⟩

/-- The start state commutes with extending the buffer. -/
theorem parseUint_start_extend (p : Parser) (more : List UInt8) :
    (if (extendBuf p more).uxN = 0 then { extendBuf p more with ux := 0 } else extendBuf p more) =
      extendBuf (if p.uxN = 0 then { p with ux := 0 } else p) more := by
  split <;> simp_all [extendBuf, exiRebuffer]

/-- A `parse_uint` that does not run out of bytes reads the same number from a longer buffer. -/
theorem parseUint_settle {p q : Parser} {ok : Bool} (more : List UInt8) (h : parseUint p = (ok, q))
    (hc : Completes p (ok = true) q) : parseUint (extendBuf p more) = (ok, extendBuf q more) := by
  rw [parseUint_eq] at h ⊢
  have hbuf : (if p.uxN = 0 then { p with ux := 0 } else p).buf = p.buf := by split <;> rfl
  have := uintLoop_settle more (by rw [hbuf]; omega) h (hc.of_state (by split <;> rfl))
  rw [hbuf] at this
  rw [parseUint_start_extend, extendBuf_buf, this]

theorem parseUint_extend {p q : Parser} (more : List UInt8) (h : parseUint p = (true, q)) :
    parseUint (extendBuf p more) = (true, extendBuf q more) :=
  parseUint_settle more h (.inl rfl)

/-- A `parse_uint` that finishes leaves `state` alone. -/
theorem parseUint_ok_state {p q : Parser} (h : parseUint p = (true, q)) : q.state = p.state := by
  rw [parseUint_eq] at h
  rw [uintLoop_ok_state h]
  split <;> rfl

/-- A `parse_uint` that runs out of bytes resumes: on the longer buffer, the retry does what the
first call would have done. -/
theorem parseUint_resume {p q : Parser} (more : List UInt8) (h : parseUint p = (false, q))
    (hs : q.state ≠ parseInvalid) :
    parseUint (extendBuf q more) = parseUint (extendBuf p more) := by
  rw [parseUint_eq] at h
  have hq := uintLoop_fail_ux (by split <;> simp_all) h
  have hq' : (if q.uxN = 0 then { q with ux := 0 } else q) = q := by
    split
    · rename_i h0; cases q; simp_all
    · rfl
  have hbuf : (if p.uxN = 0 then { p with ux := 0 } else p).buf = p.buf := by split <;> rfl
  have := uintLoop_resume more (by rw [hbuf]; omega) h hs
  rw [hbuf] at this
  rw [parseUint_eq, parseUint_eq, parseUint_start_extend, parseUint_start_extend, hq', extendBuf_buf,
    extendBuf_buf, this]

/-! ## Binary data -/

/-- Case 1 of `parse_binary` when `need` fails: nothing changes. -/
theorem binaryData_of_lt {p : Parser} {n : Nat} {field : List UInt8}
    (h : p.buf.length < (if p.bit ≠ 0 then p.ux.toNat + 1 else p.ux.toNat)) :
    binaryData p n field = some (false, p, field) := by
  simp only [binaryData]; rw [if_pos h]

/-- Case 1 of `parse_binary` when `need` passes. -/
theorem binaryData_of_le {p : Parser} {n : Nat} {field : List UInt8}
    (h : ¬ p.buf.length < (if p.bit ≠ 0 then p.ux.toNat + 1 else p.ux.toNat)) :
    binaryData p n field = (writeAt field (n - p.ux.toNat) (parseBytes p.ux.toNat p).1).map
      fun field => (true, { (parseBytes p.ux.toNat p).2 with exiState := 0 }, field) := by
  simp only [binaryData]; rw [if_neg h]

theorem binaryData_fail {p q : Parser} {n : Nat} {field f : List UInt8}
    (h : binaryData p n field = some (false, q, f)) : q = p ∧ f = field := by
  by_cases hlt : p.buf.length < (if p.bit ≠ 0 then p.ux.toNat + 1 else p.ux.toNat)
  · rw [binaryData_of_lt hlt] at h; cases h; exact ⟨rfl, rfl⟩
  · rw [binaryData_of_le hlt] at h
    obtain ⟨_, _, he⟩ := Option.map_eq_some'.mp h
    cases he

/-- Case 1 of `parse_binary`, when it does not run out of bytes, reads the same data from a longer
buffer. -/
theorem binaryData_settle {p : Parser} {n : Nat} {field : List UInt8} (more : List UInt8)
    (h : ∀ ok q f, binaryData p n field = some (ok, q, f) → Completes p (ok = true) q) :
    binaryData (extendBuf p more) n field = (binaryData p n field).map (extendOut more) := by
  by_cases hlt : p.buf.length < (if p.bit ≠ 0 then p.ux.toNat + 1 else p.ux.toNat)
  · exact ((h _ _ _ (binaryData_of_lt hlt)).stalled Bool.false_ne_true rfl).elim
  · have hlt' : ¬(extendBuf p more).buf.length <
        (if (extendBuf p more).bit ≠ 0 then (extendBuf p more).ux.toNat + 1 else (extendBuf p more).ux.toNat) := by
      simp only [extendBuf_buf, extendBuf_ux, extendBuf_bit, List.length_append]; omega
    rw [binaryData_of_le hlt, binaryData_of_le hlt', extendBuf_ux, parseBytes_extend more _ p (by omega)]
    cases writeAt field (n - p.ux.toNat) (parseBytes p.ux.toNat p).1 <;> rfl

/-- `parse_binary` in sub-state `0`: the length, checked against `n`, then the data. -/
theorem parseBinary_of_zero {p : Parser} {n : Nat} {field : List UInt8} (h0 : p.exiState = 0) :
    parseBinary p n field =
      (let (ok, p) := parseUint p
       if !ok then some (false, p, field)
       else
         let p := { p with exiState := 1 }
         if p.ux.toNat > n then some (false, { p with state := parseInvalid }, field)
         else binaryData p n field) := by
  simp only [parseBinary, h0]

/-- `parse_binary` in sub-state `1`: the data. -/
theorem parseBinary_of_one {p : Parser} {n : Nat} {field : List UInt8} (h1 : p.exiState = 1) :
    parseBinary p n field = binaryData p n field := by
  simp only [parseBinary, h1]

/-- `parse_binary` in a sub-state it does not know returns `0` and changes nothing. -/
theorem parseBinary_high {p : Parser} {n : Nat} {field : List UInt8} (h2 : 2 ≤ p.exiState) :
    parseBinary p n field = some (false, p, field) := by
  unfold parseBinary; split <;> first | omega | rfl

/-- A failing `parse_binary` keeps the entry and the state of `exi_parse_simple`. -/
theorem parseBinary_fail_keeps {p q : Parser} {n : Nat} {field f : List UInt8}
    (h : parseBinary p n field = some (false, q, f)) : q.se = p.se ∧ q.ch = p.ch := by
  rcases (by omega : p.exiState = 0 ∨ p.exiState = 1 ∨ 2 ≤ p.exiState) with h0 | h1 | h2
  · rw [parseBinary_of_zero h0] at h
    rcases hu : parseUint p with ⟨_ | _, p1⟩ <;> rw [hu] at h <;>
      have hse : p1.se = p.se ∧ p1.ch = p.ch := by
        rw [← (parseUint_preserves p).2.1, ← (parseUint_preserves p).2.2.2, hu]; exact ⟨rfl, rfl⟩
    · cases h; exact hse
    · simp only [Bool.not_true, Bool.false_eq_true, if_false] at h
      split at h
      · cases h; exact hse
      · rw [(binaryData_fail h).1]; exact hse
  · rw [parseBinary_of_one h1] at h
    rw [(binaryData_fail h).1]; exact ⟨rfl, rfl⟩
  · rw [parseBinary_high h2] at h; cases h; exact ⟨rfl, rfl⟩

/-- A `parse_binary` that does not run out of bytes reads the same length and data from a longer
buffer. -/
theorem parseBinary_settle {p : Parser} {n : Nat} {field : List UInt8} (more : List UInt8)
    (h : ∀ ok q f, parseBinary p n field = some (ok, q, f) → Completes p (ok = true) q) :
    parseBinary (extendBuf p more) n field = (parseBinary p n field).map (extendOut more) := by
  rcases (by omega : p.exiState = 0 ∨ p.exiState = 1 ∨ 2 ≤ p.exiState) with h0 | h1 | h2
  · rw [parseBinary_of_zero h0] at h ⊢
    rw [parseBinary_of_zero (by rwa [extendBuf_exiState])]
    rcases hu : parseUint p with ⟨_ | _, p1⟩ <;> rw [hu] at h
    · rw [parseUint_settle more hu (h _ _ _ rfl)]
      rfl
    · rw [parseUint_extend more hu]
      simp only [Bool.not_true, Bool.false_eq_true, if_false, extendBuf_ux] at h ⊢
      split
      · rfl
      · rename_i hn
        rw [if_neg hn] at h
        exact binaryData_settle more fun ok q f hb => (h ok q f hb).of_state (parseUint_ok_state hu :)
  · rw [parseBinary_of_one h1] at h ⊢
    rw [parseBinary_of_one (by rwa [extendBuf_exiState])]
    exact binaryData_settle more h
  · rw [parseBinary_high h2] at h ⊢
    exact ((h _ _ _ rfl).stalled Bool.false_ne_true rfl).elim

theorem parseBinary_extend {p q : Parser} {n : Nat} {field f : List UInt8} (more : List UInt8)
    (h : parseBinary p n field = some (true, q, f)) :
    parseBinary (extendBuf p more) n field = some (true, extendBuf q more, f) := by
  rw [parseBinary_settle more fun _ _ _ h' => by rw [h] at h'; cases h'; exact .inl rfl, h]
  rfl

/-- A `parse_binary` that returns `0` without `PARSE_INVALID` resumes: in sub-state `0` through
`parse_uint`, in sub-state `1` by calling the data step again. -/
theorem parseBinary_resume {p q : Parser} {n : Nat} {field f : List UInt8} (more : List UInt8)
    (h : parseBinary p n field = some (false, q, f)) (hs : q.state ≠ parseInvalid) :
    parseBinary (extendBuf q more) n f = parseBinary (extendBuf p more) n field := by
  rcases (by omega : p.exiState = 0 ∨ p.exiState = 1 ∨ 2 ≤ p.exiState) with h0 | h1 | h2
  · have hp0 : (extendBuf p more).exiState = 0 := by rwa [extendBuf_exiState]
    rw [parseBinary_of_zero h0] at h
    rcases hu : parseUint p with ⟨_ | _, p1⟩ <;> rw [hu] at h
    · cases h
      have hq0 : (extendBuf q more).exiState = 0 := by
        rw [extendBuf_exiState, ← h0, ← (parseUint_preserves p).1, hu]
      rw [parseBinary_of_zero hq0, parseBinary_of_zero hp0, parseUint_resume more hu hs]
    · simp only [Bool.not_true, Bool.false_eq_true, if_false] at h
      split at h
      · cases h; exact absurd rfl hs
      · rename_i hn
        obtain ⟨rfl, rfl⟩ := binaryData_fail h
        rw [parseBinary_of_zero hp0, parseUint_extend more hu]
        simp only [Bool.not_true, Bool.false_eq_true, if_false, extendBuf_ux]
        rw [if_neg hn, parseBinary_of_one rfl]
        rfl
  · rw [parseBinary_of_one h1] at h
    obtain ⟨rfl, rfl⟩ := binaryData_fail h
    rfl
  · rw [parseBinary_high h2] at h
    cases h
    rfl

/-! ## Signed integers -/

/-- The magnitude step keeps the entry and the state of `exi_parse_simple`. -/
theorem integerMagnitude_keeps (L : SxLayout) (p : Parser) :
    (integerMagnitude L p).2.se = p.se ∧ (integerMagnitude L p).2.ch = p.ch := by
  unfold integerMagnitude
  cases hu : parseUint p with
  | mk ok p1 =>
    have : p1.se = p.se ∧ p1.ch = p.ch := by
      rw [← (parseUint_preserves p).2.1, ← (parseUint_preserves p).2.2.2, hu]; exact ⟨rfl, rfl⟩
    cases ok
    · exact this
    · simp only [Bool.not_true, Bool.false_eq_true, if_false]
      split <;> cases L <;> exact this

/-- A failing `integerMagnitude` keeps the sub-state it started in. -/
theorem integerMagnitude_fail_exiState {L : SxLayout} {p q : Parser}
    (h : integerMagnitude L p = (false, q)) : q.exiState = p.exiState := by
  unfold integerMagnitude at h
  cases hu : parseUint p with
  | mk ok p1 =>
    rw [hu] at h
    cases ok
    · cases h; rw [← (parseUint_preserves p).1, hu]
    · simp at h

/-- The magnitude step, when it does not run out of bytes, reads the same number from a longer
buffer. -/
theorem integerMagnitude_settle {L : SxLayout} {p q : Parser} {ok : Bool} (more : List UInt8)
    (h : integerMagnitude L p = (ok, q)) (hc : Completes p (ok = true) q) :
    integerMagnitude L (extendBuf p more) = (ok, extendBuf q more) := by
  unfold integerMagnitude at h ⊢
  rcases hu : parseUint p with ⟨_ | _, p1⟩ <;> rw [hu] at h
  · cases h
    rw [parseUint_settle more hu hc]
    rfl
  · rw [parseUint_extend more hu]
    simp only [Bool.not_true, Bool.false_eq_true, if_false, Prod.mk.injEq] at h ⊢
    obtain ⟨rfl, rfl⟩ := h
    refine ⟨rfl, ?_⟩
    by_cases hsg : p1.sign = 0 <;> cases L <;> simp [hsg, extendBuf, exiRebuffer, SxLayout.set]

theorem integerMagnitude_resume {L : SxLayout} {p q : Parser} (more : List UInt8)
    (h : integerMagnitude L p = (false, q)) (hs : q.state ≠ parseInvalid) :
    integerMagnitude L (extendBuf q more) = integerMagnitude L (extendBuf p more) := by
  unfold integerMagnitude at h
  cases hu : parseUint p with
  | mk ok p1 =>
    rw [hu] at h
    cases ok
    · cases h
      unfold integerMagnitude
      rw [parseUint_resume more hu hs]
    · simp at h

/-- `parse_integer` keeps the entry and the state of `exi_parse_simple`. -/
theorem parseInteger_keeps (L : SxLayout) (p : Parser) :
    (parseInteger L p).2.se = p.se ∧ (parseInteger L p).2.ch = p.ch := by
  unfold parseInteger
  split
  · split
    · exact ⟨rfl, rfl⟩
    · rename_i sign p1 hb
      rw [(integerMagnitude_keeps _ _).1, (integerMagnitude_keeps _ _).2, parseBit_frame hb]
      exact ⟨rfl, rfl⟩
  · exact integerMagnitude_keeps L p
  · exact ⟨rfl, rfl⟩

/-- A `parse_integer` that does not run out of bytes reads the same sign and magnitude from a longer
buffer. -/
theorem parseInteger_settle {L : SxLayout} {p q : Parser} {ok : Bool} (more : List UInt8)
    (h : parseInteger L p = (ok, q)) (hc : Completes p (ok = true) q) :
    parseInteger L (extendBuf p more) = (ok, extendBuf q more) := by
  rcases (by omega : p.exiState = 0 ∨ p.exiState = 1 ∨ 2 ≤ p.exiState) with h0 | h1 | h2
  · simp only [parseInteger, h0, extendBuf_exiState] at h ⊢
    cases hb : parseBit p with
    | none => rw [hb] at h; cases h; exact (hc.stalled Bool.false_ne_true rfl).elim
    | some r =>
      obtain ⟨sign, p1⟩ := r
      rw [hb] at h
      rw [parseBit_extend more hb]
      exact integerMagnitude_settle more h (hc.of_state (congrArg Parser.state (parseBit_frame hb) :))
  · simp only [parseInteger, h1, extendBuf_exiState] at h ⊢
    exact integerMagnitude_settle more h hc
  · have hp : ∀ r : Parser, 2 ≤ r.exiState → parseInteger L r = (true, r) := fun r hr => by
      unfold parseInteger; split <;> first | omega | rfl
    rw [hp p h2] at h
    cases h
    exact hp _ h2

/-- A `parse_integer` that returns `0` without `PARSE_INVALID` resumes: the sign bit is read once,
and the magnitude continues in sub-state `1`. -/
theorem parseInteger_resume {L : SxLayout} {p q : Parser} (more : List UInt8)
    (h : parseInteger L p = (false, q)) (hs : q.state ≠ parseInvalid) :
    parseInteger L (extendBuf q more) = parseInteger L (extendBuf p more) := by
  have h1 : ∀ r : Parser, r.exiState = 1 → parseInteger L r = integerMagnitude L r := fun r hr => by
    simp only [parseInteger, hr]
  rcases (by omega : p.exiState = 0 ∨ p.exiState = 1 ∨ 2 ≤ p.exiState) with h0 | hp1 | h2
  · simp only [parseInteger, h0] at h
    cases hb : parseBit p with
    | none => rw [hb] at h; cases h; rfl
    | some r =>
      obtain ⟨sign, p1⟩ := r
      rw [hb] at h
      have hq := integerMagnitude_fail_exiState h
      rw [h1 (extendBuf q more) hq, integerMagnitude_resume more h hs]
      simp only [parseInteger, h0, extendBuf_exiState, parseBit_extend more hb]
      rfl
  · rw [h1 p hp1] at h
    rw [h1 (extendBuf q more) ((integerMagnitude_fail_exiState h).trans hp1), h1 (extendBuf p more) hp1,
      integerMagnitude_resume more h hs]
  · have hp : parseInteger L p = (true, p) := by unfold parseInteger; split <;> first | omega | rfl
    rw [hp] at h; cases h

/-! ## Values -/

theorem SxLayout.get_extend (L : SxLayout) (p : Parser) (more : List UInt8) :
    L.get (extendBuf p more) = L.get p := by cases L <;> rfl

/-- A value step whose store ran reports `1`: the stored cell mapped to a result is never one
marked `0`. -/
theorem map_stored_ne_fail {o : Option Cell} {p q : Parser} {c : Cell} :
    o.map (fun cell => (true, p, cell)) ≠ some (false, q, c) := fun h => by
  obtain ⟨_, _, he⟩ := Option.map_eq_some'.mp h
  cases he

theorem packByte_fail {p q : Parser} {cell c : Cell} {f : UInt32 → Nat}
    (h : packByte p cell f = some (false, q, c)) : q = p ∧ c = cell := by
  unfold packByte at h
  split at h
  · cases h; exact ⟨rfl, rfl⟩
  · exact absurd h map_stored_ne_fail

theorem packUnsigned_resume {p q : Parser} {cell c : Cell} {w : Nat} (more : List UInt8)
    (h : packUnsigned p cell w = some (false, q, c)) (hs : q.state ≠ parseInvalid) :
    q.se = p.se ∧ q.ch = p.ch ∧
      packUnsigned (extendBuf q more) c w = packUnsigned (extendBuf p more) cell w := by
  unfold packUnsigned at h
  cases hu : parseUint p with
  | mk ok p1 =>
    rw [hu] at h
    cases ok
    · cases h
      refine ⟨by rw [← (parseUint_preserves p).2.1, hu], by rw [← (parseUint_preserves p).2.2.2, hu], ?_⟩
      unfold packUnsigned
      rw [parseUint_resume more hu hs]
    · exact absurd h map_stored_ne_fail

theorem packSigned_resume {L : SxLayout} {p q : Parser} {cell c : Cell} {w : Nat} (more : List UInt8)
    (h : packSigned L p cell w = some (false, q, c)) (hs : q.state ≠ parseInvalid) :
    q.se = p.se ∧ q.ch = p.ch ∧
      packSigned L (extendBuf q more) c w = packSigned L (extendBuf p more) cell w := by
  unfold packSigned at h
  cases hu : parseInteger L p with
  | mk ok p1 =>
    rw [hu] at h
    cases ok
    · cases h
      refine ⟨by rw [← (parseInteger_keeps L p).1, hu], by rw [← (parseInteger_keeps L p).2, hu], ?_⟩
      unfold packSigned
      rw [parseInteger_resume more hu hs]
    · exact absurd h map_stored_ne_fail

theorem packUnsigned_settle {p : Parser} {cell : Cell} {w : Nat} (more : List UInt8)
    (h : ∀ ok q c, packUnsigned p cell w = some (ok, q, c) → Completes p (ok = true) q) :
    packUnsigned (extendBuf p more) cell w = (packUnsigned p cell w).map (extendOut more) := by
  unfold packUnsigned at h ⊢
  rcases hu : parseUint p with ⟨_ | _, p1⟩ <;> rw [hu] at h
  · rw [parseUint_settle more hu (h _ _ _ rfl)]
    rfl
  · rw [parseUint_extend more hu]
    simp only [if_true, extendBuf_ux]
    cases storeInt cell w p1.ux.toNat <;> rfl

theorem packSigned_settle {L : SxLayout} {p : Parser} {cell : Cell} {w : Nat} (more : List UInt8)
    (h : ∀ ok q c, packSigned L p cell w = some (ok, q, c) → Completes p (ok = true) q) :
    packSigned L (extendBuf p more) cell w = (packSigned L p cell w).map (extendOut more) := by
  unfold packSigned at h ⊢
  rcases hu : parseInteger L p with ⟨_ | _, p1⟩ <;> rw [hu] at h
  · rw [parseInteger_settle more hu (h _ _ _ rfl)]
    rfl
  · rw [parseInteger_settle more hu (.inl rfl)]
    simp only [if_true, SxLayout.get_extend]
    cases storeInt cell w (L.get p1).toNat <;> rfl

theorem packByte_settle {p : Parser} {cell : Cell} {f : UInt32 → Nat} (more : List UInt8)
    (h : ∀ ok q c, packByte p cell f = some (ok, q, c) → Completes p (ok = true) q) :
    packByte (extendBuf p more) cell f = (packByte p cell f).map (extendOut more) := by
  unfold packByte at h ⊢
  cases hb : parseBits p 8 with
  | none => rw [hb] at h; exact ((h _ _ _ rfl).stalled Bool.false_ne_true rfl).elim
  | some r =>
    obtain ⟨x, p1⟩ := r
    rw [parseBits_extend more hb]
    simp only
    cases storeInt cell 1 (f x) <;> rfl

/-- `exi_parse_value` on a kind other than the strings, when it does not run out of bytes, decodes
the same value from a longer buffer, ends the same way and leaves the extra bytes unread. -/
theorem exiParseValue_settle (S : Schema) (L : SxLayout) {p : Parser} {cell : Cell}
    (more : List UInt8)
    (hk : XsType.ofNat? (((S.entry p.se).type ^^^ stSimple) &&& 0xf) ∉ [some .string, some .anyUri])
    (h : ∀ ok q c, exiParseValue S L p cell = some (ok, q, c) → Completes p (ok = true) q) :
    exiParseValue S L (extendBuf p more) cell = (exiParseValue S L p cell).map (extendOut more) := by
  simp only [exiParseValue, extendBuf_se] at h ⊢
  generalize XsType.ofNat? (((S.entry p.se).type ^^^ stSimple) &&& 0xf) = k at hk h ⊢
  rcases k with _ | k
  · exact ((h _ _ _ rfl).stalled Bool.false_ne_true rfl).elim
  · cases k <;> simp only [List.mem_cons, List.mem_singleton, not_or] at hk <;> simp only at h ⊢
    case string => exact absurd trivial hk.1
    case anyUri => exact absurd trivial hk.2.1
    case null => exact ((h _ _ _ rfl).stalled Bool.false_ne_true rfl).elim
    case boolean =>
      cases hb : parseBit p with
      | none => rw [hb] at h; exact ((h _ _ _ rfl).stalled Bool.false_ne_true rfl).elim
      | some r =>
        obtain ⟨v, p1⟩ := r
        rw [parseBit_extend more hb]
        simp only [extendBuf_flag]
        cases orFlag cell v p1.flag <;> rfl
    case hexBinary =>
      cases cell with
      | str _ => rfl
      | bytes field =>
        simp only at h ⊢
        rw [parseBinary_settle more fun ok q f hb => h ok q (.bytes f) (by rw [hb]; rfl)]
        cases parseBinary p _ field <;> rfl
    case long | int | short => exact packSigned_settle more h
    case ulong | uint | ushort => exact packUnsigned_settle more h
    case byte | ubyte => exact packByte_settle more h

/-- A call of `exi_parse_value` on a kind other than the strings that returns `0` without
`PARSE_INVALID` leaves the state of `exi_parse_simple` alone, and the call on the rebuffered state
returns what the call on the whole input would have. -/
theorem exiParseValue_retry (S : Schema) (L : SxLayout) {p q : Parser} {cell c : Cell}
    (more : List UInt8)
    (hk : XsType.ofNat? (((S.entry p.se).type ^^^ stSimple) &&& 0xf) ∉ [some .string, some .anyUri])
    (h : exiParseValue S L p cell = some (false, q, c)) (hs : q.state ≠ parseInvalid) :
    q.se = p.se ∧ q.ch = p.ch ∧
      exiParseValue S L (extendBuf q more) c = exiParseValue S L (extendBuf p more) cell := by
  simp only [exiParseValue, extendBuf_se] at h ⊢
  generalize hk' : XsType.ofNat? (((S.entry p.se).type ^^^ stSimple) &&& 0xf) = k at hk h ⊢
  rcases k with _ | k
  · cases h; exact ⟨rfl, rfl, by rw [hk']⟩
  · cases k <;> simp only [List.mem_cons, List.mem_singleton, not_or] at hk <;> simp only at h
    case string => exact absurd trivial hk.1
    case anyUri => exact absurd trivial hk.2.1
    case null => cases h; exact ⟨rfl, rfl, by rw [hk']⟩
    case boolean =>
      split at h
      · cases h; exact ⟨rfl, rfl, by rw [hk']⟩
      · exact absurd h map_stored_ne_fail
    case hexBinary =>
      cases cell with
      | str _ => cases h
      | bytes field =>
        obtain ⟨⟨ok, q', f⟩, hb, he⟩ := Option.map_eq_some'.mp h
        simp only [Prod.mk.injEq] at he
        obtain ⟨rfl, rfl, rfl⟩ := he
        refine ⟨(parseBinary_fail_keeps hb).1, (parseBinary_fail_keeps hb).2, ?_⟩
        rw [(parseBinary_fail_keeps hb).1, hk']
        simp only
        rw [parseBinary_resume more hb hs]
    case long | int | short =>
      obtain ⟨hse, hch, hr⟩ := packSigned_resume more h hs
      exact ⟨hse, hch, by rw [hse, hk']; exact hr⟩
    case ulong | uint | ushort =>
      obtain ⟨hse, hch, hr⟩ := packUnsigned_resume more h hs
      exact ⟨hse, hch, by rw [hse, hk']; exact hr⟩
    case byte | ubyte =>
      obtain ⟨rfl, rfl⟩ := packByte_fail h
      exact ⟨rfl, rfl, by rw [hk']⟩

/-- `exi_parse_value` on every kind but the strings resumes: when it returns `0` without
`PARSE_INVALID`, the call on the rebuffered state returns what the call on the whole input would
have. -/
theorem exiParseValue_resume (S : Schema) (L : SxLayout) {p q : Parser} {cell c : Cell}
    (more : List UInt8)
    (hk : XsType.ofNat? (((S.entry p.se).type ^^^ stSimple) &&& 0xf) ∉ [some .string, some .anyUri])
    (h : exiParseValue S L p cell = some (false, q, c)) (hs : q.state ≠ parseInvalid) :
    exiParseValue S L (extendBuf q more) c = exiParseValue S L (extendBuf p more) cell :=
  (exiParseValue_retry S L more hk h hs).2.2

/-- A schema whose only entry is an `unsignedLong` field. -/
def ulongSchema : Schema :=
  ⟨[], 0, 0, [], [], [⟨0, simpleType .ulong 0, 1, 1, 0, 0, false, false, false⟩], [], []⟩

/-- The group `0x80` announces a second one that has not arrived; the retry after `0x01` comes does
what the call on `80 01` does. -/
theorem exiParseValue_resume_ulong :
    XsType.ofNat? (((ulongSchema.entry 0).type ^^^ stSimple) &&& 0xf) ∉
        [some .string, some .anyUri] ∧
      exiParseValue ulongSchema .separate (exiParseInit [0x80]) (.bytes (List.replicate 8 0)) =
        some (false, { exiParseInit [] with uxN := 7 }, .bytes (List.replicate 8 0)) ∧
      ({ exiParseInit [] with uxN := 7 } : Parser).state ≠ parseInvalid ∧
      exiParseValue ulongSchema .separate (extendBuf { exiParseInit [] with uxN := 7 } [0x01])
          (.bytes (List.replicate 8 0)) =
        exiParseValue ulongSchema .separate (extendBuf (exiParseInit [0x80]) [0x01])
          (.bytes (List.replicate 8 0)) :=
  ⟨by decide, rfl, by decide, exiParseValue_resume _ _ [0x01] (by decide) rfl (by decide)⟩

/-- `exi_parse_value` on every kind but the strings is prefix-stable: a value decoded from a buffer
is decoded the same from any extension of it, which it leaves unread. -/
theorem exiParseValue_extend (S : Schema) (L : SxLayout) {p q : Parser} {cell c : Cell}
    (more : List UInt8)
    (hk : XsType.ofNat? (((S.entry p.se).type ^^^ stSimple) &&& 0xf) ∉ [some .string, some .anyUri])
    (h : exiParseValue S L p cell = some (true, q, c)) :
    exiParseValue S L (extendBuf p more) cell = some (true, extendBuf q more, c) := by
  rw [exiParseValue_settle S L more hk fun _ _ _ h' => by rw [h] at h'; cases h'; exact .inl rfl, h]
  rfl

/-- The single group `0x05` decodes to `5` whatever bytes follow it. -/
theorem exiParseValue_extend_ulong :
    XsType.ofNat? (((ulongSchema.entry 0).type ^^^ stSimple) &&& 0xf) ∉
        [some .string, some .anyUri] ∧
      exiParseValue ulongSchema .separate (exiParseInit [0x05]) (.bytes (List.replicate 8 0)) =
        some (true, { exiParseInit [] with ux := 5 }, .bytes [5, 0, 0, 0, 0, 0, 0, 0]) ∧
      exiParseValue ulongSchema .separate (extendBuf (exiParseInit [0x05]) [0xAA])
          (.bytes (List.replicate 8 0)) =
        some (true, extendBuf { exiParseInit [] with ux := 5 } [0xAA], .bytes [5, 0, 0, 0, 0, 0, 0, 0]) :=
  ⟨by decide, rfl, exiParseValue_extend _ _ [0xAA] (by decide) rfl⟩

end Sep2Client
