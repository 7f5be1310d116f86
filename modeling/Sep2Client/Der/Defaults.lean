import Sep2Client.Machine

/-!
# The default control overlay

`update_defaults (s)` recomputes the overlay of default DER controls of the device `s->context`
after its schedule changed.  `d->active` becomes the union of the `der` masks of the active event
blocks.  The programs of `d->derpl` are visited in primacy order while some flag is uncovered: a
program whose `DefaultDERControl` supplies uncovered flags gets a `DefaultControl` node holding
them, and the flags it supplies are covered from then on.  The nodes, built newest first, are
reversed into `d->defaults`.  `DEFAULT_START` is queued for a node whose control was in no node
of the previous overlay, and `DEFAULT_END` for a previous node whose control is in no new one.
Controls are compared as the `dderc` pointers they are: by address, so a control whose flags were
changed in place is still the same control.

The overlay is the one the spec describes (`overlay`): each flag that no active block asserts goes
to the first program that supplies it.  So the nodes are non-empty, disjoint from each other and
from `d->active`, and with it they cover every supplied flag (`updateDefaults_overlay`).  The
events are exactly the starts of the new controls and the ends of the dropped ones
(`updateDefaults_events`).  Over any run of schedule updates, each control's starts and ends
therefore alternate, and no active flag is ever supplied by a default (`defaultsRun_alternates`).

`get_subordinate`, `se_flags`, `find_by_data`, `list_subtract`, `list_reverse` and `insert_event`
are not among the sources.
-/

namespace Sep2Client

/-! ## Bit masks -/

theorem uint32_ext_iff {a b : UInt32} :
    a = b ↔ ∀ i : Fin 32, a.toBitVec.getLsbD i = b.toBitVec.getLsbD i :=
  ⟨fun h _ => h ▸ rfl, fun h => UInt32.eq_of_toBitVec_eq (BitVec.eq_of_getLsbD_eq h)⟩

@[simp] theorem uint32_toBitVec_and (a b : UInt32) :
    (a &&& b).toBitVec = a.toBitVec &&& b.toBitVec := rfl

@[simp] theorem uint32_toBitVec_or (a b : UInt32) :
    (a ||| b).toBitVec = a.toBitVec ||| b.toBitVec := rfl

@[simp] theorem uint32_toBitVec_not (a : UInt32) : (~~~a).toBitVec = ~~~a.toBitVec := rfl

@[simp] theorem uint32_toBitVec_zero : (0 : UInt32).toBitVec = 0#32 := rfl

theorem uint32_getLsbD_and (a b : UInt32) (i : Fin 32) :
    (a &&& b).toBitVec.getLsbD i = (a.toBitVec.getLsbD i && b.toBitVec.getLsbD i) :=
  BitVec.getLsbD_and ..

theorem uint32_getLsbD_or (a b : UInt32) (i : Fin 32) :
    (a ||| b).toBitVec.getLsbD i = (a.toBitVec.getLsbD i || b.toBitVec.getLsbD i) :=
  BitVec.getLsbD_or ..

theorem uint32_getLsbD_not (a : UInt32) (i : Fin 32) :
    (~~~a).toBitVec.getLsbD i = !a.toBitVec.getLsbD i := by
  simp [BitVec.getLsbD_not, i.isLt]

theorem uint32_getLsbD_zero (i : Fin 32) : (0 : UInt32).toBitVec.getLsbD i = false :=
  BitVec.getLsbD_zero

/-! Each fact below is a law of `Bool` read bit by bit. -/

theorem uint32_and_zero (x : UInt32) : x &&& 0 = 0 := by
  simp only [uint32_ext_iff, uint32_getLsbD_and, uint32_getLsbD_zero, Bool.and_false,
    implies_true]

theorem uint32_zero_and (x : UInt32) : 0 &&& x = 0 := by
  simp only [uint32_ext_iff, uint32_getLsbD_and, uint32_getLsbD_zero, Bool.false_and,
    implies_true]

theorem uint32_zero_or (x : UInt32) : 0 ||| x = x := by
  simp only [uint32_ext_iff, uint32_getLsbD_or, uint32_getLsbD_zero, Bool.false_or, implies_true]

theorem uint32_or_assoc (a b c : UInt32) : a ||| b ||| c = a ||| (b ||| c) := by
  simp only [uint32_ext_iff, uint32_getLsbD_or, Bool.or_assoc, implies_true]

/-- Uncovered by `c` and by `f` is uncovered by `c ||| f`: `mask &= ~flags`. -/
theorem uint32_not_and_not (c f : UInt32) : ~~~c &&& ~~~f = ~~~(c ||| f) := by
  simp only [uint32_ext_iff, uint32_getLsbD_and, uint32_getLsbD_or, uint32_getLsbD_not,
    Bool.not_or, implies_true]

/-- Flags already covered by `c` add nothing to it. -/
theorem uint32_or_eq_of_and_not {c f : UInt32} (h : f &&& ~~~c = 0) : c ||| f = c := by
  simp only [uint32_ext_iff, uint32_getLsbD_and, uint32_getLsbD_or, uint32_getLsbD_not,
    uint32_getLsbD_zero] at h ⊢
  intro i
  have := h i
  revert this
  cases c.toBitVec.getLsbD i <;> cases f.toBitVec.getLsbD i <;> decide

theorem uint32_and_or_eq_zero {x c f : UInt32} (h : x &&& (c ||| f) = 0) :
    x &&& c = 0 ∧ x &&& f = 0 := by
  simp only [uint32_ext_iff, uint32_getLsbD_and, uint32_getLsbD_or, uint32_getLsbD_zero] at h ⊢
  refine ⟨fun i => ?_, fun i => ?_⟩ <;> have := h i <;> revert this <;>
    cases x.toBitVec.getLsbD i <;> cases c.toBitVec.getLsbD i <;> cases f.toBitVec.getLsbD i <;>
    decide

theorem uint32_eq_zero_of_and {x f : UInt32} (h₁ : x &&& ~~~f = 0) (h₂ : x &&& f = 0) : x = 0 := by
  simp only [uint32_ext_iff, uint32_getLsbD_and, uint32_getLsbD_not, uint32_getLsbD_zero] at h₁ h₂ ⊢
  intro i
  have h₁ := h₁ i
  have h₂ := h₂ i
  revert h₁ h₂
  cases x.toBitVec.getLsbD i <;> cases f.toBitVec.getLsbD i <;> decide

/-- The part of `f` outside `c`: disjoint from `c`, inside `f`, and with `c` all of `c ||| f`. -/
theorem uint32_and_not_and_self (f c : UInt32) : f &&& ~~~c &&& c = 0 := by
  simp only [uint32_ext_iff, uint32_getLsbD_and, uint32_getLsbD_not, uint32_getLsbD_zero]
  intro i
  cases f.toBitVec.getLsbD i <;> cases c.toBitVec.getLsbD i <;> decide

theorem uint32_and_not_and_not (f c : UInt32) : f &&& ~~~c &&& ~~~f = 0 := by
  simp only [uint32_ext_iff, uint32_getLsbD_and, uint32_getLsbD_not, uint32_getLsbD_zero]
  intro i
  cases f.toBitVec.getLsbD i <;> cases c.toBitVec.getLsbD i <;> decide

theorem uint32_or_and_not (c f : UInt32) : c ||| f &&& ~~~c = c ||| f := by
  simp only [uint32_ext_iff, uint32_getLsbD_and, uint32_getLsbD_or, uint32_getLsbD_not]
  intro i
  cases c.toBitVec.getLsbD i <;> cases f.toBitVec.getLsbD i <;> decide

theorem uint32_and_not_and_eq_zero {y f : UInt32} (h : y &&& f = 0) (c : UInt32) :
    f &&& ~~~c &&& y = 0 := by
  simp only [uint32_ext_iff, uint32_getLsbD_and, uint32_getLsbD_not, uint32_getLsbD_zero] at h ⊢
  intro i
  have := h i
  revert this
  cases y.toBitVec.getLsbD i <;> cases f.toBitVec.getLsbD i <;> cases c.toBitVec.getLsbD i <;>
    decide

theorem uint32_or_and_eq_zero {a b c : UInt32} (ha : a &&& c = 0) (hb : b &&& c = 0) :
    (a ||| b) &&& c = 0 := by
  simp only [uint32_ext_iff, uint32_getLsbD_and, uint32_getLsbD_or, uint32_getLsbD_zero] at ha hb ⊢
  intro i
  have ha := ha i
  have hb := hb i
  revert ha hb
  cases a.toBitVec.getLsbD i <;> cases b.toBitVec.getLsbD i <;> cases c.toBitVec.getLsbD i <;>
    decide

/-! ## The device's overlay -/

/-- Modelled from the spec: a `DefaultDERControl` resource, by its address, with the flags
`se_flags` reads from its `DERControlBase`. -/
structure DefaultDerControl where
  addr : Nat
  flags : UInt32
deriving Repr, DecidableEq

/-- Modelled from the spec: a DER program, with the `DefaultDERControl` subordinate that
`get_subordinate (l->data, SE_DefaultDERControl)` finds, if any. -/
structure DerProgram where
  dderc : Option DefaultDerControl
deriving Repr, DecidableEq

/-- The flags a program's default control supplies, none without one. -/
def DerProgram.flags (P : DerProgram) : UInt32 := (P.dderc.map DefaultDerControl.flags).getD 0

/-- `DefaultControl`: a node of the overlay, its control and the flags it supplies. -/
structure DefaultControl where
  dderc : DefaultDerControl
  active : UInt32
deriving Repr, DecidableEq

/-- The `dderc` pointer of a node: the address of its control, whatever flags the control has. -/
def DefaultControl.addr (x : DefaultControl) : Nat := x.dderc.addr

/-- `EventBlock`: the flags `der` its control asserts. -/
structure EventBlock where
  der : UInt32
deriving Repr, DecidableEq

/-- The fields of `DerDevice` that `update_defaults` reads and writes. -/
structure DerDeviceDefaults where
  derpl : List DerProgram
  defaults : List DefaultControl
  active : UInt32
deriving Repr, DecidableEq

/-- Modelled from the spec: the `DEFAULT_START` and `DEFAULT_END` events `insert_event` queues,
with the node each is about. -/
inductive DefaultEvent
  | defaultStart (node : DefaultControl)
  | defaultEnd (node : DefaultControl)
deriving Repr, DecidableEq

/-- `insert_default (d, dderc, context, active)`: a new node in front of `d`. -/
def insertDefault (d : List DefaultControl) (dderc : DefaultDerControl) (active : UInt32) :
    List DefaultControl :=
  ⟨dderc, active⟩ :: d

/-- Modelled from the spec: `find_by_data (l, data)` over the nodes of `l`, whose data, after
`next`, is the `dderc` pointer.  It compares pointers: a node holds the control at the same
address, whatever flags the control had when the node was made. -/
def findByData (l : List DefaultControl) (dderc : DefaultDerControl) : Bool :=
  l.any fun x => x.addr == dderc.addr

/-- Modelled from the spec: `list_subtract (a, b)`, the nodes of `a` whose data pointer is in no
node of `b`. -/
def listSubtract (a b : List DefaultControl) : List DefaultControl :=
  a.filter fun x => !findByData b x.dderc

/-- The `while (l && mask)` loop of `update_defaults` over the programs `l`, with the uncovered
flags `mask`, the nodes `m` built so far, newest first, and the events queued so far; `old` is
the previous `d->defaults`. -/
def defaultsLoop (old : List DefaultControl) :
    List DerProgram → UInt32 → List DefaultControl → List DefaultEvent →
      List DefaultControl × List DefaultEvent
  | [], _, m, ev => (m, ev)
  | P :: l, mask, m, ev =>
    if mask = 0 then (m, ev)
    else
      match P.dderc with
      | none => defaultsLoop old l mask m ev
      | some dderc =>
        let flags := dderc.flags
        let active := flags &&& mask
        if active ≠ 0 then
          let ev := if !findByData old dderc then ev ++ [.defaultStart ⟨dderc, active⟩] else ev
          defaultsLoop old l (mask &&& ~~~flags) (insertDefault m dderc active) ev
        else defaultsLoop old l mask m ev

/-- `foreach (eb, s->active) mask |= eb->der`. -/
def unionDer (blocks : List EventBlock) : UInt32 :=
  blocks.foldl (fun mask eb => mask ||| eb.der) 0

/-- `update_defaults (s)` for the device `s->context`, `s->active` being `blocks`: the device after
it and the events it queues, in order.  `list_reverse` is modelled from the spec as `reverse`. -/
def updateDefaults (blocks : List EventBlock) (d : DerDeviceDefaults) :
    DerDeviceDefaults × List DefaultEvent :=
  let mask := unionDer blocks
  let (m, ev) := defaultsLoop d.defaults d.derpl (~~~mask) [] []
  ({ d with active := mask, defaults := m.reverse },
    ev ++ (listSubtract d.defaults m).map .defaultEnd)

/-! ## The overlay the spec describes -/

/-- The overlay of the programs `l` over the covered flags `c`: in primacy order, a program with a
default control gets the flags it supplies that are not covered, when there are any, and they are
covered from then on. -/
def overlay (c : UInt32) : List DerProgram → List DefaultControl
  | [] => []
  | P :: l =>
    match P.dderc with
    | none => overlay c l
    | some dd =>
      (if dd.flags &&& ~~~c ≠ 0 then [⟨dd, dd.flags &&& ~~~c⟩] else []) ++ overlay (c ||| dd.flags) l

/-- The flags the default controls of the programs `l` supply. -/
def suppliedFlags : List DerProgram → UInt32
  | [] => 0
  | P :: l => P.flags ||| suppliedFlags l

/-- The flags the nodes of an overlay supply. -/
def nodeFlags : List DefaultControl → UInt32
  | [] => 0
  | x :: l => x.active ||| nodeFlags l

/-! ## The loop builds the overlay -/

/-- Nothing uncovered, nothing supplied: the loop's early exit at `mask == 0`. -/
theorem overlay_eq_nil : ∀ (l : List DerProgram) {c : UInt32}, ~~~c = 0 → overlay c l = []
  | [], _, _ => rfl
  | P :: l, c, hc => by
    cases hP : P.dderc with
    | none => simp only [overlay, hP]; exact overlay_eq_nil l hc
    | some dd =>
      simp only [overlay, hP, hc, uint32_and_zero, ne_eq, not_true_eq_false, if_false,
        List.nil_append]
      exact overlay_eq_nil l (by rw [← uint32_not_and_not, hc, uint32_zero_and])

/-- The loop from the uncovered flags `~~~c` adds the overlay of the programs left over `c` to the
nodes, newest first, and queues `DEFAULT_START` for those of its controls `old` lacks. -/
theorem defaultsLoop_eq (old : List DefaultControl) : ∀ (l : List DerProgram) (c : UInt32)
    (m : List DefaultControl) (ev : List DefaultEvent),
    defaultsLoop old l (~~~c) m ev =
      ((overlay c l).reverse ++ m,
        ev ++ ((overlay c l).filter fun x => !findByData old x.dderc).map .defaultStart)
  | [], c, m, ev => by simp [defaultsLoop, overlay]
  | P :: l, c, m, ev => by
    by_cases h0 : ~~~c = 0
    · rw [defaultsLoop, if_pos h0, overlay_eq_nil _ h0]; simp
    rw [defaultsLoop, if_neg h0]
    cases hP : P.dderc with
    | none => simp only [overlay, hP]; exact defaultsLoop_eq old l c m ev
    | some dd =>
      simp only [overlay, hP]
      by_cases ha : dd.flags &&& ~~~c = 0
      · simp only [ha, ne_eq, not_true_eq_false, if_false, List.nil_append,
          uint32_or_eq_of_and_not ha]
        exact defaultsLoop_eq old l c m ev
      · simp only [ha, ne_eq, not_false_eq_true, if_true, uint32_not_and_not,
          defaultsLoop_eq old l (c ||| dd.flags)]
        cases hf : findByData old dd <;> simp [insertDefault, hf]

/-! ## What the overlay guarantees -/

/-- A node of the overlay over `c` supplies some flag, none of `c`, and only flags of its own
control. -/
theorem mem_overlay : ∀ (l : List DerProgram) {c : UInt32}, ∀ x ∈ overlay c l,
    x.active ≠ 0 ∧ x.active &&& c = 0 ∧ x.active &&& ~~~x.dderc.flags = 0
  | [], _, x, hx => by cases hx
  | P :: l, c, x, hx => by
    cases hP : P.dderc with
    | none => simp only [overlay, hP] at hx; exact mem_overlay l x hx
    | some dd =>
      simp only [overlay, hP, List.mem_append] at hx
      rcases hx with hx | hx
      · split_ifs at hx with ha
        · obtain rfl := List.mem_singleton.mp hx
          exact ⟨ha, uint32_and_not_and_self _ _, uint32_and_not_and_not _ _⟩
        · cases hx
      · obtain ⟨hne, hc, hf⟩ := mem_overlay l x hx
        exact ⟨hne, (uint32_and_or_eq_zero hc).1, hf⟩

/-- No flag is supplied by two nodes. -/
theorem overlay_pairwise : ∀ (l : List DerProgram) (c : UInt32),
    (overlay c l).Pairwise fun x y => x.active &&& y.active = 0
  | [], _ => List.Pairwise.nil
  | P :: l, c => by
    cases hP : P.dderc with
    | none => simp only [overlay, hP]; exact overlay_pairwise l c
    | some dd =>
      simp only [overlay, hP]
      refine List.pairwise_append.mpr ⟨by split_ifs <;> simp, overlay_pairwise l _, fun x hx y hy => ?_⟩
      split_ifs at hx
      · obtain rfl := List.mem_singleton.mp hx
        exact uint32_and_not_and_eq_zero (uint32_and_or_eq_zero (mem_overlay l y hy).2.1).2 c
      · cases hx

/-- A node's control is the default control of one of the programs. -/
theorem overlay_dderc_mem : ∀ (l : List DerProgram) {c : UInt32}, ∀ x ∈ overlay c l,
    x.dderc ∈ l.filterMap DerProgram.dderc
  | [], _, x, hx => by cases hx
  | P :: l, c, x, hx => by
    cases hP : P.dderc with
    | none =>
      simp only [overlay, hP] at hx
      rw [List.filterMap_cons_none hP]
      exact overlay_dderc_mem l x hx
    | some dd =>
      simp only [overlay, hP, List.mem_append] at hx
      rw [List.filterMap_cons_some hP]
      rcases hx with hx | hx
      · split_ifs at hx
        · obtain rfl := List.mem_singleton.mp hx
          exact List.mem_cons_self _ _
        · cases hx
      · exact List.mem_cons_of_mem _ (overlay_dderc_mem l x hx)

/-- The programs name each control resource with one set of flags, as one `update_defaults` reads
them through the `dderc` pointers: two of their controls at one address are the same. -/
def Consistent (l : List DerProgram) : Prop :=
  ∀ x ∈ l.filterMap DerProgram.dderc, ∀ y ∈ l.filterMap DerProgram.dderc, x.addr = y.addr → x = y

instance : DecidablePred Consistent := fun l =>
  inferInstanceAs (Decidable (∀ x ∈ l.filterMap DerProgram.dderc, ∀ y ∈ l.filterMap DerProgram.dderc,
    x.addr = y.addr → x = y))

/-- No resource has two nodes: after its own node, a control's flags are all covered. -/
theorem overlay_addr_nodup : ∀ (l : List DerProgram) (c : UInt32), Consistent l →
    ((overlay c l).map DefaultControl.addr).Nodup
  | [], _, _ => List.nodup_nil
  | P :: l, c, hl => by
    have hsub : ∀ {x}, x ∈ l.filterMap DerProgram.dderc → x ∈ (P :: l).filterMap DerProgram.dderc :=
      fun hx => ((List.sublist_cons_self P l).filterMap _).subset hx
    have hl' : Consistent l := fun x hx y hy => hl x (hsub hx) y (hsub hy)
    cases hP : P.dderc with
    | none => simp only [overlay, hP]; exact overlay_addr_nodup l c hl'
    | some dd =>
      simp only [overlay, hP, List.map_append]
      refine List.nodup_append.mpr ⟨by split_ifs <;> simp, overlay_addr_nodup l _ hl', fun a ha hb => ?_⟩
      have had : a = dd.addr := by split_ifs at ha <;> simp_all [DefaultControl.addr]
      obtain ⟨x, hx, rfl⟩ := List.mem_map.mp hb
      have hdd : x.dderc = dd := hl _ (hsub (overlay_dderc_mem l x hx)) _
        (by rw [List.filterMap_cons_some hP]; exact List.mem_cons_self _ _) had
      obtain ⟨hne, hc, hf⟩ := mem_overlay l x hx
      rw [hdd] at hf
      exact hne (uint32_eq_zero_of_and hf (uint32_and_or_eq_zero hc).2)

/-- With `c`, the nodes cover every flag the programs supply. -/
theorem overlay_cover : ∀ (l : List DerProgram) (c : UInt32),
    c ||| nodeFlags (overlay c l) = c ||| suppliedFlags l
  | [], _ => rfl
  | P :: l, c => by
    have hsup : suppliedFlags (P :: l) = P.flags ||| suppliedFlags l := rfl
    cases hP : P.dderc with
    | none =>
      simp only [overlay, hP, hsup, DerProgram.flags, Option.map_none', Option.getD_none,
        uint32_zero_or]
      exact overlay_cover l c
    | some dd =>
      have ih := overlay_cover l (c ||| dd.flags)
      simp only [overlay, hP, hsup, DerProgram.flags, Option.map_some', Option.getD_some]
      split_ifs with ha
      · rw [List.singleton_append, nodeFlags, ← uint32_or_assoc, uint32_or_and_not, ih,
          uint32_or_assoc]
      · have hc := uint32_or_eq_of_and_not (not_not.mp ha)
        rw [hc] at ih
        rw [List.nil_append, hc, ih, ← uint32_or_assoc, hc]

/-- Bit `i` of the union of the blocks, from any start. -/
theorem foldl_der_getLsbD : ∀ (blocks : List EventBlock) (acc : UInt32) (i : Nat),
    (blocks.foldl (fun mask eb => mask ||| eb.der) acc).toBitVec.getLsbD i =
      (acc.toBitVec.getLsbD i || blocks.any fun eb => eb.der.toBitVec.getLsbD i)
  | [], _, _ => by simp
  | eb :: bs, acc, i => by simp [foldl_der_getLsbD bs, Bool.or_assoc]

/-- `!find_by_data (l, dderc)`: no node of `l` holds the control at the address of `dderc`. -/
theorem not_findByData (l : List DefaultControl) (dderc : DefaultDerControl) :
    (!findByData l dderc) = decide (dderc.addr ∉ l.map DefaultControl.addr) := by
  rw [Bool.eq_iff_iff]
  simp [findByData, List.any_eq_true]

theorem findByData_reverse (l : List DefaultControl) (dderc : DefaultDerControl) :
    findByData l.reverse dderc = findByData l dderc := by
  simp [findByData, List.any_reverse]

/-- `update_defaults` sets `d->active` to the union of the blocks and `d->defaults` to their
overlay. -/
theorem updateDefaults_fst (blocks : List EventBlock) (d : DerDeviceDefaults) :
    (updateDefaults blocks d).1 =
      { d with active := unionDer blocks, defaults := overlay (unionDer blocks) d.derpl } := by
  simp [updateDefaults, defaultsLoop_eq]

/-- The events of `update_defaults`: `DEFAULT_START` for the new nodes whose control `old` lacks,
in primacy order, then `DEFAULT_END` for the old nodes whose control the overlay lacks. -/
theorem updateDefaults_snd (blocks : List EventBlock) (d : DerDeviceDefaults) :
    (updateDefaults blocks d).2 =
      ((overlay (unionDer blocks) d.derpl).filter fun x => !findByData d.defaults x.dderc).map
          .defaultStart ++
        (listSubtract d.defaults (overlay (unionDer blocks) d.derpl)).map .defaultEnd := by
  simp only [updateDefaults, defaultsLoop_eq, List.append_nil, List.nil_append, listSubtract,
    findByData_reverse]

/-! ## `update_defaults` -/

/-- After `update_defaults`, `d->active` holds the flags some active block asserts, and
`d->defaults` is the overlay of the programs over them: the nodes are non-empty, disjoint from
`d->active` and from each other, and with `d->active` they cover every flag a program's default
control supplies. -/
theorem updateDefaults_overlay (blocks : List EventBlock) (d : DerDeviceDefaults) :
    let d' := (updateDefaults blocks d).1
    (∀ i, d'.active.toBitVec.getLsbD i = blocks.any fun eb => eb.der.toBitVec.getLsbD i) ∧
      d'.defaults = overlay d'.active d.derpl ∧
      (∀ x ∈ d'.defaults, x.active ≠ 0 ∧ x.active &&& d'.active = 0) ∧
      d'.defaults.Pairwise (fun x y => x.active &&& y.active = 0) ∧
      d'.active ||| nodeFlags d'.defaults = d'.active ||| suppliedFlags d.derpl := by
  simp only [updateDefaults_fst]
  refine ⟨fun i => ?_, trivial, fun x hx => ?_, overlay_pairwise _ _, overlay_cover _ _⟩
  · simp [unionDer, foldl_der_getLsbD]
  · exact ⟨(mem_overlay _ x hx).1, (mem_overlay _ x hx).2.1⟩

/-- The events of `update_defaults`: a `DEFAULT_START` for each new node whose control was the
`dderc` of no previous node, then a `DEFAULT_END` for each previous node whose control is the
`dderc` of no new one, and nothing else.  Controls are compared as `dderc` pointers, by address. -/
theorem updateDefaults_events (blocks : List EventBlock) (d : DerDeviceDefaults) :
    let new := (updateDefaults blocks d).1.defaults
    (updateDefaults blocks d).2 =
      (new.filter fun x => x.addr ∉ d.defaults.map DefaultControl.addr).map .defaultStart ++
        (d.defaults.filter fun x => x.addr ∉ new.map DefaultControl.addr).map .defaultEnd := by
  simp only [updateDefaults_fst]
  rw [updateDefaults_snd, listSubtract]
  simp only [not_findByData, DefaultControl.addr]

/-- A control whose flags changed in place, from `0x10` to `0x30`, is the same resource: neither a
`DEFAULT_END` nor a `DEFAULT_START` is queued for it. -/
example : (updateDefaults [] ⟨[⟨some ⟨7, 0x30⟩⟩], [⟨⟨7, 0x10⟩, 0x10⟩], 0⟩).2 = [] := by
  decide

/-! ## Runs of schedule updates

`schedule_der` installs a new program list in `d->derpl`, and the scheduler recomputes the
overlay with `update_defaults` on every schedule update.  Over any run of both from a device with
no default, each control's `DEFAULT_START` and `DEFAULT_END` events alternate, starting with a
`DEFAULT_START`, and the control is in the overlay exactly after a `DEFAULT_START`: no start or end
is lost or repeated.  Each program list is taken to name a control resource with one set of flags
(`Consistent`), as the programs one call of `update_defaults` reads through their pointers do; from
one update to the next the flags of a control may change.  And at every step no flag is both active and supplied by a default, the
spec's invariant on the overlay (`defaultsRun_alternates`). -/

/-- Modelled from the spec: a run of schedule updates, each installing the program list of the
step, as `schedule_der` does, then calling `update_defaults` with the blocks active after it.  The
device after the run and every event queued, in order. -/
def defaultsRun : List (List DerProgram × List EventBlock) → DerDeviceDefaults →
    DerDeviceDefaults × List DefaultEvent
  | [], d => (d, [])
  | (derpl, blocks) :: us, d =>
    let (d, ev) := updateDefaults blocks { d with derpl }
    let (d, ev') := defaultsRun us d
    (d, ev ++ ev')

/-- The kind of an event about the control at address `a`: `true` for `DEFAULT_START`, `false` for
`DEFAULT_END`. -/
def DefaultEvent.about (a : Nat) : DefaultEvent → Option Bool
  | .defaultStart x => if x.addr = a then some true else none
  | .defaultEnd x => if x.addr = a then some false else none

/-- The events about the control at address `a`, in order. -/
def eventsAbout (a : Nat) (H : List DefaultEvent) : List Bool :=
  H.filterMap (DefaultEvent.about a)

/-- `k` events about a control that alternate from a `DEFAULT_START`. -/
def alternation (k : Nat) : List Bool := (List.range k).map fun i => i % 2 == 0

theorem alternation_succ (k : Nat) : alternation (k + 1) = alternation k ++ [k % 2 == 0] := by
  simp [alternation, List.range_succ]

/-- The events about address `a` of the nodes of `L` that pass `q`, each turned into an event of
kind `b`: one when `L` holds `a` once and its node passes. -/
theorem eventsAbout_filter_map (a : Nat) (b : Bool) (k : DefaultControl → DefaultEvent)
    (hk : ∀ x, (k x).about a = if x.addr = a then some b else none)
    (q : Nat → Bool) : ∀ (L : List DefaultControl), (L.map DefaultControl.addr).Nodup →
      eventsAbout a ((L.filter fun x => q x.addr).map k) =
        if a ∈ L.map DefaultControl.addr ∧ q a then [b] else []
  | [], _ => by simp [eventsAbout]
  | x :: L, hL => by
    rw [List.map_cons, List.nodup_cons] at hL
    have ih := eventsAbout_filter_map a b k hk q L hL.2
    by_cases hx : x.addr = a
    · subst hx
      have hrest : eventsAbout x.addr ((L.filter fun y => q y.addr).map k) = [] := by
        rw [ih, if_neg (fun h => hL.1 h.1)]
      have hx : (k x).about x.addr = some b := by rw [hk, if_pos rfl]
      simp only [eventsAbout] at hrest ⊢
      cases hq : q x.addr
      · rw [List.filter_cons, if_neg (Bool.eq_false_iff.mp hq), hrest,
          if_neg fun h => Bool.false_ne_true h.2]
      · rw [List.filter_cons, if_pos hq, List.map_cons, List.filterMap_cons_some hx, hrest,
          if_pos ⟨List.mem_map_of_mem _ (List.mem_cons_self _ _), rfl⟩]
    · simp only [eventsAbout] at ih ⊢
      cases hq : q x.addr <;>
        simp [List.filter_cons, hq, hk, hx, ih, List.map_cons, List.mem_cons, Ne.symm hx]

/-- The events about address `a` of one `update_defaults` on a device whose overlay has one node per
resource: a `DEFAULT_START` if `a` joins the overlay, a `DEFAULT_END` if it leaves, else none. -/
theorem eventsAbout_updateDefaults (blocks : List EventBlock) (d : DerDeviceDefaults)
    (hd : (d.defaults.map DefaultControl.addr).Nodup) (hl : Consistent d.derpl) (a : Nat) :
    eventsAbout a (updateDefaults blocks d).2 =
      (if a ∈ (overlay (unionDer blocks) d.derpl).map DefaultControl.addr ∧
          a ∉ d.defaults.map DefaultControl.addr then [true] else []) ++
        (if a ∈ d.defaults.map DefaultControl.addr ∧
          a ∉ (overlay (unionDer blocks) d.derpl).map DefaultControl.addr then [false] else []) := by
  have hstart := eventsAbout_filter_map a true DefaultEvent.defaultStart (fun _ => rfl)
    (fun c => decide (c ∉ d.defaults.map DefaultControl.addr)) _
    (overlay_addr_nodup d.derpl (unionDer blocks) hl)
  have hend := eventsAbout_filter_map a false DefaultEvent.defaultEnd (fun _ => rfl)
    (fun c => decide (c ∉ (overlay (unionDer blocks) d.derpl).map DefaultControl.addr)) _ hd
  simp only [decide_eq_true_eq] at hstart hend
  rw [updateDefaults_snd, eventsAbout, List.filterMap_append, ← eventsAbout, ← eventsAbout,
    listSubtract]
  simp only [not_findByData]
  exact congrArg₂ _ hstart hend

/-- The covered flags and the flags of the overlay over them do not meet. -/
theorem nodeFlags_overlay (c : UInt32) (l : List DerProgram) : nodeFlags (overlay c l) &&& c = 0 :=
  go (overlay c l) fun x hx => (mem_overlay l x hx).2.1
where
  go : ∀ (L : List DefaultControl), (∀ x ∈ L, x.active &&& c = 0) → nodeFlags L &&& c = 0
    | [], _ => uint32_zero_and c
    | x :: L, h => uint32_or_and_eq_zero (h x (List.mem_cons_self _ _))
        (go L fun y hy => h y (List.mem_cons_of_mem _ hy))

/-- What a run keeps, for the control at one address: its events so far alternate from a
`DEFAULT_START`, and it is in the overlay exactly after an odd number of them. -/
def RunInv (a : Nat) (d : DerDeviceDefaults) (H : List DefaultEvent) : Prop :=
  (d.defaults.map DefaultControl.addr).Nodup ∧
    ∃ k, eventsAbout a H = alternation k ∧ (a ∈ d.defaults.map DefaultControl.addr ↔ k % 2 = 1)

theorem runInv_updateDefaults {a : Nat} {d : DerDeviceDefaults} {H : List DefaultEvent}
    (h : RunInv a d H) {derpl : List DerProgram} (hl : Consistent derpl) (blocks : List EventBlock) :
    RunInv a (updateDefaults blocks { d with derpl }).1
      (H ++ (updateDefaults blocks { d with derpl }).2) := by
  obtain ⟨hnd, k, hk, hmem⟩ := h
  have hev := eventsAbout_updateDefaults blocks { d with derpl } hnd hl a
  rw [RunInv, updateDefaults_fst, eventsAbout, List.filterMap_append, ← eventsAbout, ← eventsAbout,
    hev, hk]
  refine ⟨overlay_addr_nodup _ _ hl, ?_⟩
  dsimp only
  by_cases hn : a ∈ (overlay (unionDer blocks) derpl).map DefaultControl.addr <;>
    by_cases ho : a ∈ d.defaults.map DefaultControl.addr
  · exact ⟨k, by simp [hn, ho], by simp [hn, ho] at hmem ⊢; exact hmem⟩
  · have hk : k % 2 = 0 := by simp only [ho, false_iff] at hmem; omega
    refine ⟨k + 1, by simp [hn, ho, alternation_succ, hk], by simp only [hn, true_iff]; omega⟩
  · have hk : k % 2 = 1 := hmem.mp ho
    refine ⟨k + 1, by simp [hn, ho, alternation_succ, hk], by simp only [hn, false_iff]; omega⟩
  · exact ⟨k, by simp [hn, ho], by simp only [hn, ho, false_iff] at hmem ⊢; exact hmem⟩

theorem defaultsRun_inv (a : Nat) : ∀ (us : List (List DerProgram × List EventBlock))
    (d : DerDeviceDefaults) (H : List DefaultEvent), (∀ u ∈ us, Consistent u.1) → RunInv a d H →
      RunInv a (defaultsRun us d).1 (H ++ (defaultsRun us d).2)
  | [], _, H, _, h => by simpa [defaultsRun] using h
  | (derpl, blocks) :: us, d, H, hus, h => by
    have := defaultsRun_inv a us _ _ (fun u hu => hus u (List.mem_cons_of_mem _ hu))
      (runInv_updateDefaults h (hus _ (List.mem_cons_self _ _)) blocks)
    simpa [defaultsRun, List.append_assoc] using this

/-- Every update leaves the overlay off the active flags. -/
theorem defaultsRun_disjoint : ∀ (us : List (List DerProgram × List EventBlock))
    (d : DerDeviceDefaults), nodeFlags d.defaults &&& d.active = 0 →
      nodeFlags (defaultsRun us d).1.defaults &&& (defaultsRun us d).1.active = 0
  | [], _, h => h
  | (derpl, blocks) :: us, d, _ => by
    have := defaultsRun_disjoint us (updateDefaults blocks { d with derpl }).1
      (by rw [updateDefaults_fst]; exact nodeFlags_overlay (unionDer blocks) derpl)
    simpa only [defaultsRun] using this

/-- Over any run of schedule updates from a device with no default, each installing a program list
that names every control resource with one set of flags, the `DEFAULT_START` and `DEFAULT_END`
events about the control at each address alternate, starting with a `DEFAULT_START`, however its
flags change from one update to the next; the control is in `d->defaults` exactly when the last of
them is a `DEFAULT_START`; and no flag of `d->active` is supplied by a default. -/
theorem defaultsRun_alternates (us : List (List DerProgram × List EventBlock)) (d : DerDeviceDefaults)
    (hd : d.defaults = []) (hus : ∀ u ∈ us, Consistent u.1) (a : Nat) :
    (∃ k, eventsAbout a (defaultsRun us d).2 = alternation k ∧
        (a ∈ (defaultsRun us d).1.defaults.map DefaultControl.addr ↔ k % 2 = 1)) ∧
      nodeFlags (defaultsRun us d).1.defaults &&& (defaultsRun us d).1.active = 0 := by
  refine ⟨(defaultsRun_inv a us d [] hus ⟨by simp [hd], 0, rfl, by simp [hd]⟩).2, ?_⟩
  exact defaultsRun_disjoint us d (by rw [hd, nodeFlags, uint32_zero_and])

/-- The spec's default fall-through as a run: a program whose default control supplies flag
`0x10`, first with no block active, then with a block asserting `0x10`. -/
def fallThrough : List (List DerProgram × List EventBlock) :=
  [([⟨some ⟨7, 0x10⟩⟩], []), ([⟨some ⟨7, 0x10⟩⟩], [⟨0x10⟩])]

/-- The default starts while no block asserts its flag, and ends once a block does. -/
example :
    (defaultsRun fallThrough ⟨[], [], 0⟩).2 =
      [.defaultStart ⟨⟨7, 0x10⟩, 0x10⟩, .defaultEnd ⟨⟨7, 0x10⟩, 0x10⟩] := by
  decide

theorem defaultsRun_alternates_fallThrough :
    (⟨[], [], 0⟩ : DerDeviceDefaults).defaults = [] ∧ (∀ u ∈ fallThrough, Consistent u.1) ∧
      (∃ k, eventsAbout 7 (defaultsRun fallThrough ⟨[], [], 0⟩).2 = alternation k ∧
          (7 ∈ (defaultsRun fallThrough ⟨[], [], 0⟩).1.defaults.map DefaultControl.addr ↔
            k % 2 = 1)) ∧
        nodeFlags (defaultsRun fallThrough ⟨[], [], 0⟩).1.defaults &&&
          (defaultsRun fallThrough ⟨[], [], 0⟩).1.active = 0 :=
  ⟨rfl, by decide, defaultsRun_alternates fallThrough ⟨[], [], 0⟩ rfl (by decide) 7⟩

end Sep2Client
