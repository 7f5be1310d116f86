import Sep2Client.Exi.Protocol

/-!
# Input that arrives in chunks

An operation of the EXI driver that has finished, because it did its work or found the input
invalid, ends the same way on a longer buffer and leaves the extra bytes unread
(`ExiOp.run_settle`).  An operation that returned `0` without `PARSE_INVALID` resumes
(`ExiOp.run_retry`).  Together they say that a caller who feeds the input chunk by chunk gets what
one call on the whole input returns, however the input is cut (`feedRun_eq_run`).  Such a caller
calls the operation again after each chunk for as long as it returns `0` without `PARSE_INVALID`.

As for the retry, the proof goes step by step in the order of the C code.  A step that completes
reads the same bits from the longer buffer and hands the next step the same state.  A step that
runs out of bytes leaves `state` as it was, so it has not finished.
-/

namespace Sep2Client

@[simp] theorem extendBuf_token (p : Parser) (more : List UInt8) : (extendBuf p more).token = p.token :=
  rfl

@[simp] theorem extendBuf_n (p : Parser) (more : List UInt8) : (extendBuf p more).n = p.n := rfl

theorem extendBuf_extendBuf (p : Parser) (m m' : List UInt8) :
    extendBuf (extendBuf p m) m' = extendBuf p (m ++ m') := by
  simp [extendBuf, exiRebuffer]

variable (S : Schema) (L : SxLayout) (more : List UInt8)

/-- `exi_event` leaves `state` alone. -/
theorem exiEvent_state (p : Parser) (se count : Nat) : (exiEvent S p se count).2.state = p.state := by
  unfold exiEvent
  split
  · simp only
    split
    · rfl
    · rename_i hb
      exact (congrArg Parser.state (parseBits_eq_some hb).2.2 :)
  · rfl

/-! ## Event codes -/

/-- `exi_parse_next`, when it does not run out of bytes, selects the same field from a longer
buffer. -/
theorem exiParseNext_settle {p q : Parser} {ok : Bool} (h : exiParseNext S p = (ok, q))
    (hc : Completes p (ok = true) q) : exiParseNext S (extendBuf p more) = (ok, extendBuf q more) := by
  unfold exiParseNext at h ⊢
  rw [extendBuf_se]
  split at h
  · rename_i hn
    rw [if_pos hn]
    rcases he : exiEvent S p p.se 0 with ⟨_ | _, p1⟩ <;> rw [he] at h <;>
      simp only [Bool.not_false, Bool.not_true, Bool.false_eq_true, if_true, if_false] at h
    · cases h
      exact (hc.stalled Bool.false_ne_true (by rw [← exiEvent_state S p p.se 0, he])).elim
    · rw [exiEvent_extend S more he]
      simp only [Bool.not_true, Bool.false_eq_true, if_false, extendBuf_token, extendBuf_n, extendBuf_se]
      split_ifs at h ⊢ <;> cases h <;> rfl
  · rename_i hn
    rw [if_neg hn]
    cases h
    rfl

/-- `exi_parse_end`, when it does not run out of bytes, reads the same bit from a longer buffer. -/
theorem exiParseEnd_settle {p q : Parser} {ok : Bool} (h : exiParseEnd p = (ok, q))
    (hc : Completes p (ok = true) q) : exiParseEnd (extendBuf p more) = (ok, extendBuf q more) := by
  unfold exiParseEnd at h ⊢
  rw [extendBuf_needToken]
  split at h
  · rename_i hnt
    rw [if_pos hnt]
    cases hb : parseBit p with
    | none => rw [hb] at h; cases h; exact (hc.stalled Bool.false_ne_true rfl).elim
    | some r =>
      obtain ⟨v, p1⟩ := r
      rw [hb] at h
      rw [parseBit_extend more hb]
      simp only at h ⊢
      split_ifs at h ⊢ <;> cases h <;> rfl
  · rename_i hnt
    rw [if_neg hnt]
    cases h
    rfl

/-! ## `xsi:type`, step by step -/

section XsiType

variable {p q : Parser} {r : Int}

theorem xsiLocalName_settle (h : xsiLocalName S p = (r, q)) (hc : Completes p (r ≠ 0) q) :
    xsiLocalName S (extendBuf p more) = (r, extendBuf q more) := by
  unfold xsiLocalName at h ⊢
  cases hb : parseBits p (bitCount S.count) with
  | none => rw [hb] at h; cases h; exact (hc.stalled (fun h => h rfl) rfl).elim
  | some x =>
    obtain ⟨n, p1⟩ := x
    rw [hb] at h
    rw [parseBits_extend more hb]
    simp only at h ⊢
    split_ifs at h ⊢ <;> cases h <;> rfl

theorem xsiUriId_settle (h : xsiUriId S p = (r, q)) (hc : Completes p (r ≠ 0) q) :
    xsiUriId S (extendBuf p more) = (r, extendBuf q more) := by
  unfold xsiUriId at h ⊢
  rcases hu : parseUint p with ⟨_ | _, p1⟩ <;> rw [hu] at h <;>
    simp only [Bool.not_false, Bool.not_true, Bool.false_eq_true, if_true, if_false] at h
  · cases h
    rw [parseUint_settle more hu (hc.mono fun h => absurd rfl h)]
    rfl
  · rw [parseUint_extend more hu]
    simp only [Bool.not_true, Bool.false_eq_true, if_false, extendBuf_ux]
    split_ifs at h ⊢
    · cases h; rfl
    · exact xsiLocalName_settle S more h (hc.of_state (parseUint_ok_state hu :))

theorem xsiUri_settle (h : xsiUri S p = (r, q)) (hc : Completes p (r ≠ 0) q) :
    xsiUri S (extendBuf p more) = (r, extendBuf q more) := by
  unfold xsiUri at h ⊢
  cases hb : parseBits p 3 with
  | none => rw [hb] at h; cases h; exact (hc.stalled (fun h => h rfl) rfl).elim
  | some x =>
    obtain ⟨n, p1⟩ := x
    rw [hb] at h
    rw [parseBits_extend more hb]
    simp only at h ⊢
    split_ifs at h ⊢
    · cases h; rfl
    · exact xsiUriId_settle S more h (hc.of_state (congrArg Parser.state (parseBits_eq_some hb).2.2 :))

theorem xsiAttribute_settle (h : xsiAttribute S p = (r, q)) (hc : Completes p (r ≠ 0) q) :
    xsiAttribute S (extendBuf p more) = (r, extendBuf q more) := by
  unfold xsiAttribute at h ⊢
  cases hb : parseBits p 3 with
  | none => rw [hb] at h; cases h; exact (hc.stalled (fun h => h rfl) rfl).elim
  | some x =>
    obtain ⟨n, p1⟩ := x
    rw [hb] at h
    rw [parseBits_extend more hb]
    simp only at h ⊢
    split_ifs at h ⊢
    · cases h; rfl
    · exact xsiUri_settle S more h (hc.of_state (congrArg Parser.state (parseBits_eq_some hb).2.2 :))

/-- `exi_xsi_type`, when it does not run out of bytes, reads the same type from a longer buffer. -/
theorem exiXsiType_settle (h : exiXsiType S p = (r, q)) (hc : Completes p (r ≠ 0) q) :
    exiXsiType S (extendBuf p more) = (r, extendBuf q more) := by
  unfold exiXsiType at h
  split at h
  · rename_i h0
    have hs : ∀ {p1 : Parser}, exiEvent S p p.se 0 = (true, p1) ∨ exiEvent S p p.se 0 = (false, p1) →
        p1.state = p.state := fun he => by
      rcases he with he | he <;> rw [← exiEvent_state S p p.se 0, he]
    rcases he : exiEvent S p p.se 0 with ⟨_ | _, p1⟩ <;> rw [he] at h <;>
      simp only [Bool.not_false, Bool.not_true, Bool.false_eq_true, if_true, if_false] at h
    · cases h
      exact (hc.stalled (fun h => h rfl) (hs (.inr he))).elim
    · simp only [exiXsiType, extendBuf_exiState, h0, extendBuf_se, exiEvent_extend S more he,
        Bool.not_true, Bool.false_eq_true, if_false, extendBuf_token, extendBuf_n]
      split_ifs at h ⊢
      · exact xsiAttribute_settle S more h (hc.of_state (hs (.inl he) :))
      · cases h; rfl
      · cases h; rfl
  · rename_i h1
    simp only [exiXsiType, extendBuf_exiState, h1]
    exact xsiAttribute_settle S more h hc
  · rename_i h2
    simp only [exiXsiType, extendBuf_exiState, h2]
    exact xsiUri_settle S more h hc
  · rename_i h3
    simp only [exiXsiType, extendBuf_exiState, h3]
    exact xsiUriId_settle S more h hc
  · rename_i h4
    simp only [exiXsiType, extendBuf_exiState, h4]
    exact xsiLocalName_settle S more h hc
  · cases h
    unfold exiXsiType
    rw [extendBuf_exiState]
    split <;> first | rfl | contradiction

end XsiType

/-! ## Simple elements, step by step -/

section Simple

variable {p q : Parser} {cell c : Cell} {ok : Bool}

theorem simpleEmpty_settle (h : simpleEmpty p cell = (ok, q, c)) (hc : Completes p (ok = true) q) :
    simpleEmpty (extendBuf p more) cell = (ok, extendBuf q more, c) := by
  unfold simpleEmpty at h ⊢
  cases hb : parseBits p 3 with
  | none => rw [hb] at h; cases h; exact (hc.stalled Bool.false_ne_true rfl).elim
  | some x =>
    obtain ⟨n, p1⟩ := x
    rw [hb] at h
    rw [parseBits_extend more hb]
    simp only at h ⊢
    split_ifs at h ⊢ <;> cases h <;> rfl

theorem simpleContent_settle
    (hk : XsType.ofNat? (((S.entry p.se).type ^^^ stSimple) &&& 0xf) ∉ [some .string, some .anyUri])
    (h : ∀ ok q c, simpleContent S L p cell = some (ok, q, c) → Completes p (ok = true) q) :
    simpleContent S L (extendBuf p more) cell = (simpleContent S L p cell).map (extendOut more) := by
  unfold simpleContent at h ⊢
  rw [exiParseValue_settle S L more hk fun ok q c hv => ?_, Option.map_map, Option.map_map]
  · congr 1
    funext ⟨ok, q, c⟩
    cases ok <;> rfl
  · cases ok
    · exact h false q c (by rw [hv]; rfl)
    · exact .inl rfl

/-- `exi_parse_simple` on a kind other than the strings, when it does not run out of bytes, decodes
the same content from a longer buffer. -/
theorem exiParseSimple_settle
    (hk : XsType.ofNat? (((S.entry p.se).type ^^^ stSimple) &&& 0xf) ∉ [some .string, some .anyUri])
    (h : ∀ ok q c, exiParseSimple S L p cell = some (ok, q, c) → Completes p (ok = true) q) :
    exiParseSimple S L (extendBuf p more) cell = (exiParseSimple S L p cell).map (extendOut more) := by
  unfold exiParseSimple at h ⊢
  rw [extendBuf_ch]
  revert h
  rcases hch : p.ch with _ | _ | _ | n <;> intro h
  · cases hb : parseBit p with
    | none => rw [hb] at h; exact ((h _ _ _ rfl).stalled Bool.false_ne_true rfl).elim
    | some x =>
      obtain ⟨v, p1⟩ := x
      rw [hb] at h
      rw [parseBit_extend more hb]
      have hs : p1.state = p.state := (congrArg Parser.state (parseBit_frame hb) :)
      have hse : p1.se = p.se := (congrArg Parser.se (parseBit_frame hb) :)
      simp only at h ⊢
      split_ifs at h ⊢
      · rcases he : simpleEmpty { p1 with ch := 2 } cell with ⟨ok, q, c⟩
        rw [he] at h
        exact congrArg some (simpleEmpty_settle more he ((h ok q c rfl).of_state hs))
      · exact simpleContent_settle S L more (by rw [← hse] at hk; exact hk)
          fun ok q c hq => (h ok q c hq).of_state hs
  · exact simpleContent_settle S L more hk h
  · rcases he : simpleEmpty p cell with ⟨ok, q, c⟩
    exact congrArg some (simpleEmpty_settle more he (h ok q c (by rw [he])))
  · exact ((h _ _ _ rfl).stalled Bool.false_ne_true rfl).elim

/-- `simple_empty` keeps the entry. -/
theorem simpleEmpty_se (p : Parser) (cell : Cell) : (simpleEmpty p cell).2.1.se = p.se := by
  unfold simpleEmpty
  cases hb : parseBits p 3 with
  | none => rfl
  | some x =>
    obtain ⟨n, p1⟩ := x
    have hse : p1.se = p.se := (congrArg Parser.se (parseBits_eq_some hb).2.2 :)
    simp only
    split_ifs <;> exact hse

/-- `exi_parse_simple` on a kind other than the strings that returns `0` without `PARSE_INVALID`
keeps the entry. -/
theorem exiParseSimple_fail_se
    (hk : XsType.ofNat? (((S.entry p.se).type ^^^ stSimple) &&& 0xf) ∉ [some .string, some .anyUri])
    (h : exiParseSimple S L p cell = some (false, q, c)) (hs : q.state ≠ parseInvalid) : q.se = p.se := by
  have hcontent : ∀ {p' : Parser}, p'.se = p.se → simpleContent S L p' cell = some (false, q, c) →
      q.se = p.se := fun hse h' => by
    obtain ⟨⟨ok, q', c'⟩, hv, he⟩ := Option.map_eq_some'.mp h'
    cases ok <;> simp only [Bool.false_eq_true, if_false, if_true, Prod.mk.injEq, Bool.true_eq_false,
      false_and] at he
    obtain ⟨rfl, rfl⟩ := he.2
    rw [(exiParseValue_retry S L [] (hse ▸ hk) hv hs).1, hse]
  unfold exiParseSimple at h
  split at h
  · split at h
    · cases h; rfl
    · rename_i v p1 hb
      have hse : p1.se = p.se := (congrArg Parser.se (parseBit_frame hb) :)
      split_ifs at h
      · rw [← hse, ← simpleEmpty_se { p1 with ch := 2 } cell, Option.some.inj h]
      · exact hcontent (by exact hse) h
  · exact hcontent rfl h
  · rw [← simpleEmpty_se p cell, Option.some.inj h]
  · cases h; rfl

end Simple

/-! ## The driver -/

/-- The return value of the operations that return a flag: `0` only when the flag is clear. -/
theorem completes_of_ite {p q : Parser} {ok : Bool}
    (h : Completes p ((if ok then (1 : Int) else 0) ≠ 0) q) : Completes p (ok = true) q :=
  h.mono fun hr => by
    cases ok
    · exact absurd rfl hr
    · rfl

/-- A resumable operation that has finished, from a state that was not invalid, ends the same way on
a longer buffer, with the same return value and field, and leaves the extra bytes unread. -/
theorem ExiOp.run_settle {op : ExiOp} {p : Parser} {cell : Cell} (hop : op.Resumable S p)
    (h : ∀ r q c, op.run S L p cell = some (r, q, c) → Completes p (r ≠ 0) q) :
    op.run S L (extendBuf p more) cell = (op.run S L p cell).map (extendOut more) := by
  cases op with
  | start => exact hop.elim
  | sequence _ => exact hop.elim
  | next =>
    rcases hn : exiParseNext S p with ⟨ok, q⟩
    have hc := completes_of_ite (h (if ok then 1 else 0) q cell (by simp only [ExiOp.run, hn]))
    simp only [ExiOp.run, hn, exiParseNext_settle S more hn hc]
    rfl
  | end_ =>
    rcases hn : exiParseEnd p with ⟨ok, q⟩
    have hc := completes_of_ite (h (if ok then 1 else 0) q cell (by simp only [ExiOp.run, hn]))
    simp only [ExiOp.run, hn, exiParseEnd_settle more hn hc]
    rfl
  | xsiType =>
    rcases hx : exiXsiType S p with ⟨r, q⟩
    simp only [ExiOp.run, hx, exiXsiType_settle S more hx (h r q cell (by simp only [ExiOp.run, hx]))]
    rfl
  | value =>
    simp only [ExiOp.run] at h ⊢
    rw [exiParseValue_settle S L more hop fun ok q c hv => completes_of_ite (h _ q c (by rw [hv]; rfl)),
      Option.map_map, Option.map_map]
    congr 1
  | simple =>
    simp only [ExiOp.run] at h ⊢
    rw [exiParseSimple_settle S L more hop fun ok q c hv => completes_of_ite (h _ q c (by rw [hv]; rfl)),
      Option.map_map, Option.map_map]
    congr 1

/-- The value and simple operations return `0` only from a call that returned the clear flag. -/
theorem flag_eq_zero {x : Option (Bool × Parser × Cell)} {q : Parser} {c : Cell}
    (h : (x.map fun (ok, p, cell) => ((if ok then 1 else 0 : Int), p, cell)) = some (0, q, c)) :
    x = some (false, q, c) := by
  obtain ⟨⟨ok, q', c'⟩, hv, he⟩ := Option.map_eq_some'.mp h
  cases ok <;> simp only [Bool.false_eq_true, if_false, if_true, Prod.mk.injEq, one_ne_zero, false_and] at he
  rwa [← he.2.1, ← he.2.2]

theorem ExiOp.Resumable.extendBuf {op : ExiOp} {p : Parser} (h : op.Resumable S p) :
    op.Resumable S (extendBuf p more) := by
  cases op <;> exact h

/-- An operation that returns `0` without `PARSE_INVALID` keeps the entry whose kind makes it
resumable, so it stays resumable. -/
theorem ExiOp.Resumable.retry {op : ExiOp} {p q : Parser} {cell c : Cell} (hop : op.Resumable S p)
    (h : op.run S L p cell = some (0, q, c)) (hs : q.state ≠ parseInvalid) : op.Resumable S q := by
  cases op with
  | start => exact hop.elim
  | sequence _ => exact hop.elim
  | next | xsiType | end_ => trivial
  | value =>
    unfold ExiOp.Resumable at hop ⊢
    rwa [(exiParseValue_retry S L [] hop (flag_eq_zero h) hs).1]
  | simple =>
    unfold ExiOp.Resumable at hop ⊢
    rwa [exiParseSimple_fail_se S L hop (flag_eq_zero h) hs]

/-! ## Chunks -/

/-- The caller of the driver when the input after the bytes `p` holds arrives in the chunks `ms`. It
runs `op`.  While `op` returns `0` without `PARSE_INVALID` and a chunk has come, it rebuffers with
the bytes not consumed followed by the chunk and runs `op` again.  Once `op` has finished, the chunks
still to come are only appended to the buffer. -/
def feedRun (op : ExiOp) (p : Parser) (cell : Cell) : List (List UInt8) → Option (Int × Parser × Cell)
  | [] => op.run S L p cell
  | m :: ms => do
    let (r, q, c) ← op.run S L p cell
    if r = 0 ∧ q.state ≠ parseInvalid then feedRun op (exiRebuffer q (q.buf ++ m)) c ms
    else pure (r, exiRebuffer q (q.buf ++ (m :: ms).flatten), c)

section Feed

variable {op : ExiOp} {m : List UInt8} {ms : List (List UInt8)}

/-- One round of the protocol: when the rounds after a retry answer as the rest of the input does,
so does the whole run. -/
theorem feedRun_cons {p : Parser} {cell : Cell} (hop : op.Resumable S p) (hp : p.state ≠ parseInvalid)
    (hrest : ∀ q c, op.Resumable S q → q.state ≠ parseInvalid →
      feedRun S L op (extendBuf q m) c ms = op.run S L (extendBuf q (m ++ ms.flatten)) c) :
    feedRun S L op p cell (m :: ms) = op.run S L (extendBuf p (m ++ ms.flatten)) cell := by
  rcases hrun : op.run S L p cell with _ | ⟨r, q, c⟩
  · rw [ExiOp.run_settle S L _ hop (fun _ _ _ h => by rw [hrun] at h; cases h), hrun]
    simp only [feedRun, hrun, Option.bind_eq_bind, Option.none_bind, Option.map_none']
  · by_cases hr : r = 0 ∧ q.state ≠ parseInvalid
    · obtain ⟨rfl, hs⟩ := hr
      simp only [feedRun, hrun, Option.bind_eq_bind, Option.some_bind, true_and, ne_eq, hs,
        not_false_eq_true, if_true]
      exact (hrest q c (hop.retry S L hrun hs) hs).trans (ExiOp.run_retry S L _ hop hrun hs)
    · have hc : ∀ r' q' c', op.run S L p cell = some (r', q', c') → Completes p (r' ≠ 0) q' :=
        fun r' q' c' h => by
          rw [hrun] at h
          cases h
          by_cases h0 : r = 0
          · exact .inr ⟨not_not.mp fun hq => hr ⟨h0, hq⟩, hp⟩
          · exact .inl h0
      rw [ExiOp.run_settle S L _ hop hc, hrun]
      simp only [feedRun, hrun, Option.bind_eq_bind, Option.some_bind, hr, if_false, List.flatten_cons]
      rfl

end Feed

/-- The resumption protocol reads input that arrives in chunks as one call reads the whole of it:
however the bytes after those `p` holds are cut into the chunks `m :: ms`, a resumable operation
run from a state that is not invalid, and run again after each chunk while it returns `0` without
`PARSE_INVALID`, ends with the return value, field and parser state of one call on all the bytes. -/
theorem feedRun_eq_run {op : ExiOp} {p : Parser} (cell : Cell) (m : List UInt8) (ms : List (List UInt8))
    (hop : op.Resumable S p) (hp : p.state ≠ parseInvalid) :
    feedRun S L op p cell (m :: ms) = op.run S L (extendBuf p (m :: ms).flatten) cell := by
  rw [List.flatten_cons]
  induction ms generalizing p cell m with
  | nil => exact feedRun_cons S L hop hp fun q c _ _ => by simp [feedRun]
  | cons m' ms ih =>
    refine feedRun_cons S L hop hp fun q c hq hs => ?_
    rw [ih c m' (hq.extendBuf S m) hs, extendBuf_extendBuf, List.flatten_cons]

/-- The characters bit, then the `unsignedLong` content `80 01` (the value `128`), so that each
group straddles two bytes, cut after the first and the second byte: the first call reads the bit
and waits, the second reads the first group and waits, the third finishes.  The protocol ends as
the call on all three bytes does. -/
theorem feedRun_eq_run_simple :
    ExiOp.simple.Resumable ulongSchema (exiParseInit [0x40]) ∧
      (exiParseInit [0x40]).state ≠ parseInvalid ∧
      feedRun ulongSchema .separate .simple (exiParseInit [0x40]) (.bytes (List.replicate 8 0))
          [[0x00], [0x80]] =
        ExiOp.simple.run ulongSchema .separate (extendBuf (exiParseInit [0x40]) [[0x00], [0x80]].flatten)
          (.bytes (List.replicate 8 0)) :=
  ⟨by decide, by decide, feedRun_eq_run _ _ _ [0x00] [[0x80]] (by decide) (by decide)⟩

example : (feedRun ulongSchema .separate .simple (exiParseInit [0x40]) (.bytes (List.replicate 8 0))
    [[0x00], [0x80]]).map (fun r => (r.1, r.2.2)) = some (1, .bytes [0x80, 0, 0, 0, 0, 0, 0, 0]) := by
  decide

end Sep2Client
