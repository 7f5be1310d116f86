import Sep2Client.Xml.Value

/-!
# Freeing object trees

`free_elements` walks the fields of an object from an entry to the terminator of its type (an
entry that is neither simple nor a substitution and has `n = 0`).  It frees the strings behind a
simple field for which `is_pointer` holds, recurses into the `(type, data)` pair of a substitution
field, frees every node of the list behind an unbounded complex field together with the child it
holds, and recurses in place into the `max` inline children of a bounded complex field.
`free_object` frees the elements of an object and then the object; `replace_object` frees the
elements of the destination, copies the source over it and frees the source's block.

The walk runs on the heap of `Sep2Client.Machine`, so a read through a freed or `NULL` pointer and
a second `free` of a block are faults.  A fuel argument bounds the number of steps: a list that
loops back, or a schema whose containment loops, makes the C walk run forever.

`is_pointer` answers false for an `anyURI` of non-zero declared length, for which both drivers
still allocate a string (`parseValue_anyUri`); the walk then leaves that string allocated
(`free_object_leaks_anyUri`).
-/

namespace Sep2Client

/-- Modelled from the spec: `List` is declared in `list.c`, which is not among the sources; the spec
keeps an unbounded field as "a singly-linked list of owned children".  A node holds the pointers
`next` and `data`, in that order, one word each. -/
def listNext : Nat := 0

/-- Modelled from the spec: the offset of `data` in a list node (see `listNext`). -/
def listData : Nat := 8

/-- The offset of `int type` in a `SubstitutionType`. -/
def substType : Nat := 0

/-- The offset of `void *data` in a `SubstitutionType`, after the padding of a 64-bit target. -/
def substData : Nat := 8

/-- The first entry `free_object_elements` walks: the one after the type header of `type`, which
for a global element is the header its `index` names. -/
def firstField (S : Schema) (type : Nat) : Nat :=
  (if type < S.length then (S.entry type).index else type) + 1

/-- The loop of a simple pointer field: free `*value` for at most `k` words from offset `off` of
block `b` on, stopping at the first `NULL`. -/
def freePointers : Nat → Heap → Nat → Nat → Except Fault Heap
  | 0, h, _, _ => .ok h
  | k + 1, h, b, off => do
    let v ← h.load b off
    if v = 0 then .ok h
    else
      let h ← h.free v
      freePointers k h b (off + 8)

/-- The `while (l)` loop over the list behind an unbounded field: `visit` is `free_elements` on a
node's data; the data, when not `NULL`, and the node are freed after it. -/
def freeList (visit : Heap → Nat → Except Fault Heap) : Nat → Heap → Nat → Except Fault Heap
  | 0, _, _ => .error .diverges
  | fuel + 1, h, l =>
    if l = 0 then .ok h
    else do
      let next ← h.load l listNext
      let data ← h.load l listData
      let h ← visit h data
      let data ← h.load l listData
      let h ← (if data ≠ 0 then h.free data else .ok h)
      let h ← h.free l
      freeList visit fuel h next

/-- `free_elements (obj, se, schema)` for the object at offset `off` of block `b`, from entry `i`
on.  A substitution field runs `free_object` on its data: the elements from `firstField`, then the
block. -/
def freeElementsN (S : Schema) : Nat → Heap → Nat → Nat → Nat → Except Fault Heap
  | 0, _, _, _, _ => .error .diverges
  | fuel + 1, h, b, off, i =>
    let se := S.entry i
    let element := off + se.offset
    if se.isSimple then do
      let h ← (if isPointer se.type then freePointers se.max h b element else .ok h)
      freeElementsN S fuel h b off (i + 1)
    else if se.st then do
      let data ← h.load b (element + substData)
      let h ← (if data ≠ 0 then do
          let type ← h.load b (element + substType)
          let h ← freeElementsN S fuel h data 0 (firstField S type)
          h.free data
        else .ok h)
      freeElementsN S fuel h b off (i + 1)
    else if se.n ≠ 0 then do
      let first := se.index
      let h ← (if se.unbounded then do
          let l ← h.load b element
          freeList (fun h data => freeElementsN S fuel h data 0 (first + 1)) fuel h l
        else
          (List.range se.max).foldlM (fun h k =>
            freeElementsN S fuel h b (element + k * (S.entry first).size) (first + 1)) h)
      freeElementsN S fuel h b off (i + 1)
    else .ok h

/-- `free_object_elements (obj, type, schema)` for the object at offset `off` of block `b`. -/
def freeObjectElements (S : Schema) (fuel : Nat) (h : Heap) (b off type : Nat) :
    Except Fault Heap :=
  freeElementsN S fuel h b off (firstField S type)

/-- `free_object (obj, type, schema)` for the object that is block `b`. -/
def freeObject (S : Schema) (fuel : Nat) (h : Heap) (b type : Nat) : Except Fault Heap := do
  let h ← freeObjectElements S fuel h b 0 type
  h.free b

/-- `replace_object (dest, src, type, schema)` for the object at offset `off` of block `b` and the
object that is block `src`.  `object_size` recursing forever is a divergence. -/
def replaceObject (S : Schema) (fuel : Nat) (h : Heap) (b off src type : Nat) :
    Except Fault Heap := do
  let h ← freeObjectElements S fuel h b off type
  let size ← match objectSize S type with
    | some size => .ok size
    | none => .error .diverges
  let h ← h.copy b off src 0 size
  h.free src

/-! ## An `anyURI` of declared length

A schema with one global element of a type whose only field is an `anyURI` of declared length
`255`, and the object the XML driver builds for `<A>x</A>`: block `1` holds the field, a pointer to
block `2`, the string `"x"`. -/

/-- The schema of the fixed input: element `0` of type `1`, whose header is followed by the
`anyURI` field and the terminator. -/
def uriSchema : Schema :=
  ⟨[], 1, 0, [], [],
    [⟨0, 1, 0, 0, 0, 0, false, false, false⟩, ⟨8, 0, 0, 0, 0, 0, false, false, false⟩,
      ⟨0, simpleType .anyUri 255, 1, 1, 0, 0, false, false, false⟩, SchemaEntry.zero], ["A"], []⟩

/-- The object of element `0` in block `1`, its string in block `2`. -/
def uriHeap : Heap :=
  .ofBlocks fun b =>
    if b = 1 then some fun off => if off = 0 then 2 else 0
    else if b = 2 then some fun off => if off = 0 then 0x78 else 0
    else none

/-- `parse_value` stores the text `"x"` of the `anyURI` field as a pointer to a duplicate, yet
`free_object` on the object, given fuel for its two entries, frees only the object's block and
leaves the string allocated. -/
theorem free_object_leaks_anyUri (n : Nat) :
    parseValue (simpleType .anyUri 255) 0 (ascii "x") (.str none) =
        some (true, false, .str (some [0x78])) ∧
      (freeObject uriSchema (n + 2) uriHeap 1 0).toOption.map
        (fun h => (h.freed, (h.blocks 2).isSome)) = some ([1], true) :=
  ⟨parseValue_anyUri _ _ _ _, rfl⟩

end Sep2Client
