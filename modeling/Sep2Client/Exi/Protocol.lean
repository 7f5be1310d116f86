import Sep2Client.Exi.Extend
import Sep2Client.Exi.Resume

/-!
# The resumption protocol of the EXI driver

The caller of the driver runs an operation, and when it returns `0` without `PARSE_INVALID` it
rebuffers with the bytes not consumed followed by new ones and runs the operation again
(`resumeRun`).  This file proves the protocol sound for every operation but two: for
`exi_parse_next`, `exi_xsi_type` and `exi_parse_end`, and for `exi_parse_simple` and
`exi_parse_value` on a kind other than the strings, the protocol answers what one call on the whole
input answers (`resumeRun_eq_run`).  The two left out are `exi_parse_start`, which consumes the
header before it can run out of bytes (`start_not_resumable`), and `exi_parse_sequence`, which also
returns `0` when a sequence ends, after it has moved the state on, so that the protocol calls it a
second time.

Each operation keeps its progress where the retry looks for it: `exi_event` leaves `need_token`
set until the code is read, `exi_xsi_type` numbers its steps in `exi_state`, `exi_parse_simple` in
`ch`.  The proof therefore goes step by step, in the order in which the cases of the C code fall
through.  A step that runs out of bytes has consumed nothing, and the retry runs it again; a step
that completes reads the same bits from the longer buffer (`parseBits_extend`, `parseUint_extend`,
…) and hands the next step the same state.
-/

namespace Sep2Client

@[simp] theorem extendBuf_needToken (p : Parser) (more : List UInt8) :
    (extendBuf p more).needToken = p.needToken := rfl

@[simp] theorem extendBuf_ch (p : Parser) (more : List UInt8) : (extendBuf p more).ch = p.ch := rfl

variable (S : Schema) (L : SxLayout) (more : List UInt8)

/-! ## Event codes -/

/-- An `exi_event` that runs out of bytes has only set `n`; the retry reads the code from the longer
buffer. -/
theorem exiEvent_resume {p q : Parser} {se count : Nat} (h : exiEvent S p se count = (false, q)) :
    q.se = p.se ∧ q.exiState = p.exiState ∧
      exiEvent S (extendBuf q more) se count = exiEvent S (extendBuf p more) se count := by
  unfold exiEvent at h
  split at h
  · rename_i hnt
    simp only at h
    split at h
    · cases h
      refine ⟨rfl, rfl, ?_⟩
      simp only [exiEvent, extendBuf, exiRebuffer, hnt, if_true]
    · cases h
  · cases h

/-- An `exi_event` that reads its code reads the same code from a longer buffer. -/
theorem exiEvent_extend {p q : Parser} {se count : Nat} (h : exiEvent S p se count = (true, q)) :
    exiEvent S (extendBuf p more) se count = (true, extendBuf q more) := by
  unfold exiEvent at h ⊢
  split at h
  · rename_i hnt
    simp only at h
    split at h
    · cases h
    · rename_i token p1 hb
      cases h
      have hb' := parseBits_extend more hb
      simp only [extendBuf, exiRebuffer, hnt] at hb'
      simp only [extendBuf_needToken, hnt, if_true, extendBuf, exiRebuffer, hb']
  · rename_i hnt
    cases h
    simp only [extendBuf_needToken, hnt]
    rfl

/-- `exi_parse_next` returns `0` without `PARSE_INVALID` only when its event code is missing. -/
theorem exiParseNext_resume {p q : Parser} (h : exiParseNext S p = (false, q))
    (hs : q.state ≠ parseInvalid) : exiParseNext S (extendBuf q more) = exiParseNext S (extendBuf p more) := by
  unfold exiParseNext at h
  split at h
  · rename_i hn
    rcases he : exiEvent S p p.se 0 with ⟨_ | _, p1⟩ <;> rw [he] at h <;>
      simp only [Bool.not_false, Bool.not_true, Bool.false_eq_true, if_true, if_false] at h
    · cases h
      obtain ⟨hse, -, hr⟩ := exiEvent_resume S more he
      simp only [exiParseNext, extendBuf_se, hse, if_pos hn, hr]
    · split_ifs at h <;> cases h
      exact (hs rfl).elim
  · cases h

/-- `exi_parse_end` returns `0` without `PARSE_INVALID` only when its bit is missing, and then has
changed nothing. -/
theorem exiParseEnd_resume {p q : Parser} (h : exiParseEnd p = (false, q))
    (hs : q.state ≠ parseInvalid) : exiParseEnd (extendBuf q more) = exiParseEnd (extendBuf p more) := by
  unfold exiParseEnd at h
  split at h
  · split at h
    · cases h; rfl
    · split_ifs at h <;> cases h
      exact (hs rfl).elim
  · cases h

/-! ## `xsi:type`, step by step -/

section XsiType

variable {p q : Parser}

/-- Step 4, the local name: it runs out of bytes before reading anything. -/
theorem xsiLocalName_resume (h4 : p.exiState = 4) (h : xsiLocalName S p = (0, q))
    (hs : q.state ≠ parseInvalid) : exiXsiType S (extendBuf q more) = xsiLocalName S (extendBuf p more) := by
  unfold xsiLocalName at h
  split at h
  · cases h
    simp only [exiXsiType, extendBuf_exiState, h4]
  · simp only at h
    split_ifs at h with hbad
    · cases h; exact (hs rfl).elim
    · have hty : S.types.getD _ 0 ≠ 0 := fun h0 => hbad (Or.inr h0)
      exact absurd (Int.ofNat_eq_zero.mp (congrArg Prod.fst h)) hty

/-- Step 3, the compact id of the URI: `parse_uint` resumes, and after it step 4 does. -/
theorem xsiUriId_resume (h3 : p.exiState = 3) (h : xsiUriId S p = (0, q))
    (hs : q.state ≠ parseInvalid) : exiXsiType S (extendBuf q more) = xsiUriId S (extendBuf p more) := by
  unfold xsiUriId at h
  rcases hu : parseUint p with ⟨_ | _, p1⟩ <;> rw [hu] at h <;>
    simp only [Bool.not_false, Bool.not_true, Bool.false_eq_true, if_true, if_false] at h
  · cases h
    have h3' : (extendBuf q more).exiState = 3 := by
      rw [extendBuf_exiState, ← h3, ← (parseUint_preserves p).1, hu]
    simp only [exiXsiType, h3']
    unfold xsiUriId
    rw [parseUint_resume more hu hs]
  · split_ifs at h with hux
    · cases h; exact (hs rfl).elim
    · rw [xsiLocalName_resume S more rfl h hs]
      unfold xsiUriId
      rw [parseUint_extend more hu]
      simp only [extendBuf_ux, hux, Bool.not_true, Bool.false_eq_true, if_false]
      rfl

/-- Step 2, the URI: three bits, then step 3. -/
theorem xsiUri_resume (h2 : p.exiState = 2) (h : xsiUri S p = (0, q))
    (hs : q.state ≠ parseInvalid) : exiXsiType S (extendBuf q more) = xsiUri S (extendBuf p more) := by
  unfold xsiUri at h
  split at h
  · cases h
    simp only [exiXsiType, extendBuf_exiState, h2]
  · rename_i n p1 hb
    split_ifs at h with hn
    · cases h; exact (hs rfl).elim
    · rw [xsiUriId_resume S more rfl h hs]
      unfold xsiUri
      simp only [parseBits_extend more hb, if_neg hn]
      rfl

/-- Step 1, the `xsi:type` attribute event: three bits, then step 2. -/
theorem xsiAttribute_resume (h1 : p.exiState = 1) (h : xsiAttribute S p = (0, q))
    (hs : q.state ≠ parseInvalid) :
    exiXsiType S (extendBuf q more) = xsiAttribute S (extendBuf p more) := by
  unfold xsiAttribute at h
  split at h
  · cases h
    simp only [exiXsiType, extendBuf_exiState, h1]
  · rename_i n p1 hb
    split_ifs at h with hn
    · cases h; exact (hs rfl).elim
    · rw [xsiUri_resume S more rfl h hs]
      unfold xsiAttribute
      simp only [parseBits_extend more hb, if_neg hn]
      rfl

/-- `exi_xsi_type` returns `0` without `PARSE_INVALID` only when it runs out of bytes, and then
resumes at the step it stopped in. -/
theorem exiXsiType_resume (h : exiXsiType S p = (0, q)) (hs : q.state ≠ parseInvalid) :
    exiXsiType S (extendBuf q more) = exiXsiType S (extendBuf p more) := by
  unfold exiXsiType at h
  split at h
  · rename_i h0
    rcases he : exiEvent S p p.se 0 with ⟨_ | _, p1⟩ <;> rw [he] at h <;>
      simp only [Bool.not_false, Bool.not_true, Bool.false_eq_true, if_true, if_false] at h
    · cases h
      obtain ⟨hse, hst, hr⟩ := exiEvent_resume S more he
      simp only [exiXsiType, extendBuf_exiState, hst, h0, extendBuf_se, hse, hr]
    · split_ifs at h with htok hgt
      · rw [xsiAttribute_resume S more rfl h hs]
        simp only [exiXsiType, extendBuf_exiState, h0, extendBuf_se, exiEvent_extend S more he,
          Bool.not_true, Bool.false_eq_true, if_false]
        rw [if_pos (show (extendBuf p1 more).token = (extendBuf p1 more).n from htok)]
        rfl
      · cases h; exact (hs rfl).elim
      · cases h
  · rename_i h1
    rw [xsiAttribute_resume S more h1 h hs]
    simp only [exiXsiType, extendBuf_exiState, h1]
  · rename_i h2
    rw [xsiUri_resume S more h2 h hs]
    simp only [exiXsiType, extendBuf_exiState, h2]
  · rename_i h3
    rw [xsiUriId_resume S more h3 h hs]
    simp only [exiXsiType, extendBuf_exiState, h3]
  · rename_i h4
    rw [xsiLocalName_resume S more h4 h hs]
    simp only [exiXsiType, extendBuf_exiState, h4]
  · cases h; exact (hs rfl).elim

end XsiType

/-! ## Simple elements, step by step -/

section Simple

variable {p q : Parser} {cell c : Cell}

/-- Case 2 of `exi_parse_simple`, the empty content: it runs out of bytes before reading anything. -/
theorem simpleEmpty_resume (h2 : p.ch = 2) (h : simpleEmpty p cell = (false, q, c))
    (hs : q.state ≠ parseInvalid) :
    exiParseSimple S L (extendBuf q more) c = some (simpleEmpty (extendBuf p more) cell) := by
  unfold simpleEmpty at h
  split at h
  · cases h
    simp only [exiParseSimple, extendBuf_ch, h2]
  · split_ifs at h <;> cases h
    exact (hs rfl).elim

/-- Case 1 of `exi_parse_simple`, the content: `exi_parse_value` resumes and leaves `ch` at `1`. -/
theorem simpleContent_resume
    (hk : XsType.ofNat? (((S.entry p.se).type ^^^ stSimple) &&& 0xf) ∉ [some .string, some .anyUri])
    (h1 : p.ch = 1) (h : simpleContent S L p cell = some (false, q, c)) (hs : q.state ≠ parseInvalid) :
    exiParseSimple S L (extendBuf q more) c = simpleContent S L (extendBuf p more) cell := by
  obtain ⟨⟨ok, q', c'⟩, hv, he⟩ := Option.map_eq_some'.mp h
  cases ok <;> simp only [Bool.false_eq_true, if_false, if_true, Prod.mk.injEq, Bool.true_eq_false,
    false_and] at he
  obtain ⟨rfl, rfl⟩ := he.2
  obtain ⟨-, hch, hr⟩ := exiParseValue_retry S L more hk hv hs
  simp only [exiParseSimple, extendBuf_ch, hch, h1]
  unfold simpleContent
  rw [hr]

/-- `exi_parse_simple` on a kind other than the strings returns `0` without `PARSE_INVALID` only when
it runs out of bytes, and then resumes at the case it stopped in. -/
theorem exiParseSimple_resume
    (hk : XsType.ofNat? (((S.entry p.se).type ^^^ stSimple) &&& 0xf) ∉ [some .string, some .anyUri])
    (h : exiParseSimple S L p cell = some (false, q, c)) (hs : q.state ≠ parseInvalid) :
    exiParseSimple S L (extendBuf q more) c = exiParseSimple S L (extendBuf p more) cell := by
  unfold exiParseSimple at h
  split at h
  · rename_i h0
    split at h
    · cases h; rfl
    · rename_i n p1 hb
      have hse : p1.se = p.se := by rw [parseBit_frame hb]
      split_ifs at h with hn
      · rw [simpleEmpty_resume S L more rfl (Option.some.inj h) hs]
        simp only [exiParseSimple, extendBuf_ch, h0, parseBit_extend more hb, if_pos hn]
        rfl
      · rw [simpleContent_resume S L more (by rw [← hse] at hk; exact hk) rfl h hs]
        simp only [exiParseSimple, extendBuf_ch, h0, parseBit_extend more hb, if_neg hn]
        rfl
  · rename_i h1
    rw [simpleContent_resume S L more hk h1 h hs]
    simp only [exiParseSimple, extendBuf_ch, h1]
  · rename_i h2
    rw [simpleEmpty_resume S L more h2 (Option.some.inj h) hs]
    simp only [exiParseSimple, extendBuf_ch, h2]
  · cases h; rfl

end Simple

/-! ## The driver -/

/-- The operations whose `0` the protocol may retry: all but `exi_parse_start` and
`exi_parse_sequence`, and the simple ones on a kind other than the strings. -/
def ExiOp.Resumable (S : Schema) (p : Parser) : ExiOp → Prop
  | .next | .xsiType | .end_ => True
  | .value | .simple =>
    XsType.ofNat? (((S.entry p.se).type ^^^ stSimple) &&& 0xf) ∉ [some .string, some .anyUri]
  | .start | .sequence _ => False

instance (S : Schema) (p : Parser) : (op : ExiOp) → Decidable (op.Resumable S p)
  | .next | .xsiType | .end_ => isTrue trivial
  | .value | .simple => inferInstanceAs (Decidable (_ ∉ _))
  | .start | .sequence _ => isFalse id

/-- A resumable operation that returns `0` without `PARSE_INVALID` resumes: the call on the
rebuffered state returns what the call on the whole input returns. -/
theorem ExiOp.run_retry {op : ExiOp} {p q : Parser} {cell c : Cell} (hop : op.Resumable S p)
    (h : op.run S L p cell = some (0, q, c)) (hs : q.state ≠ parseInvalid) :
    op.run S L (extendBuf q more) c = op.run S L (extendBuf p more) cell := by
  cases op with
  | start => exact hop.elim
  | sequence _ => exact hop.elim
  | next =>
    rcases hn : exiParseNext S p with ⟨_ | _, p1⟩ <;>
      simp only [ExiOp.run, hn, Option.some.injEq, Prod.mk.injEq, Bool.false_eq_true, if_false, if_true,
        one_ne_zero, false_and] at h
    obtain ⟨-, rfl, rfl⟩ := h
    simp only [ExiOp.run, exiParseNext_resume S more hn hs]
  | end_ =>
    rcases hn : exiParseEnd p with ⟨_ | _, p1⟩ <;>
      simp only [ExiOp.run, hn, Option.some.injEq, Prod.mk.injEq, Bool.false_eq_true, if_false, if_true,
        one_ne_zero, false_and] at h
    obtain ⟨-, rfl, rfl⟩ := h
    simp only [ExiOp.run, exiParseEnd_resume more hn hs]
  | xsiType =>
    rcases hx : exiXsiType S p with ⟨r, p1⟩
    simp only [ExiOp.run, hx, Option.some.injEq, Prod.mk.injEq] at h
    obtain ⟨rfl, rfl, rfl⟩ := h
    simp only [ExiOp.run, exiXsiType_resume S more hx hs]
  | value =>
    obtain ⟨⟨ok, q', c'⟩, hv, he⟩ := Option.map_eq_some'.mp h
    cases ok <;> simp only [Bool.false_eq_true, if_false, if_true, Prod.mk.injEq, one_ne_zero, false_and] at he
    obtain ⟨rfl, rfl⟩ := he.2
    simp only [ExiOp.run, (exiParseValue_retry S L more hop hv hs).2.2]
  | simple =>
    obtain ⟨⟨ok, q', c'⟩, hv, he⟩ := Option.map_eq_some'.mp h
    cases ok <;> simp only [Bool.false_eq_true, if_false, if_true, Prod.mk.injEq, one_ne_zero, false_and] at he
    obtain ⟨rfl, rfl⟩ := he.2
    simp only [ExiOp.run, exiParseSimple_resume S L more hop hv hs]

/-- The resumption protocol is sound for every operation but `exi_parse_start` and
`exi_parse_sequence`: when a resumable operation returns `0` without `PARSE_INVALID`, rebuffering
with the bytes not consumed followed by `more` and calling it again answers what one call on the
whole input answers, with the same return value, field and parser state. -/
theorem resumeRun_eq_run {op : ExiOp} {p q : Parser} {cell c : Cell} (hop : op.Resumable S p)
    (h : op.run S L p cell = some (0, q, c)) (hs : q.state ≠ parseInvalid) :
    resumeRun S L op p cell more = op.run S L (extendBuf p more) cell := by
  simp only [resumeRun, h, Option.bind_eq_bind, Option.some_bind, true_and, ne_eq, hs,
    not_false_eq_true, if_true]
  exact ExiOp.run_retry S L more hop h hs

/-- The characters bit `0` of an `unsignedLong` simple element, whose value has not arrived: the
retry after the byte `0x0A` comes answers what the call on `00 0A` does. -/
theorem resumeRun_eq_run_simple :
    ExiOp.simple.Resumable ulongSchema (exiParseInit [0x00]) ∧
      ExiOp.simple.run ulongSchema .separate (exiParseInit [0x00]) (.bytes (List.replicate 8 0)) =
        some (0, { exiParseInit [0x00] with bit := 1, ch := 1 }, .bytes (List.replicate 8 0)) ∧
      ({ exiParseInit [0x00] with bit := 1, ch := 1 } : Parser).state ≠ parseInvalid ∧
      resumeRun ulongSchema .separate .simple (exiParseInit [0x00]) (.bytes (List.replicate 8 0)) [0x0A] =
        ExiOp.simple.run ulongSchema .separate (extendBuf (exiParseInit [0x00]) [0x0A])
          (.bytes (List.replicate 8 0)) :=
  ⟨by decide, rfl, by decide, resumeRun_eq_run _ _ [0x0A] (by decide) rfl (by decide)⟩

end Sep2Client
