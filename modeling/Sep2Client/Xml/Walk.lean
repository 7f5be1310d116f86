import Sep2Client.Xml.Value
import Sep2Client.Exi.Parser

/-!
# The XML walk over a type's fields

The XML driver matches the fields of a type against the tokens of an element.  `xml_start` reads
the document element's start tag; `xml_next` walks the field entries from `p->se` on until one
matches (`PARSE_ELEMENT`) or the terminator ends the type (`PARSE_END`); `xml_end` reads the end
tag, or nothing after a self-closing tag.

`xml_next` treats a field that does not match in three ways.  A missing attribute is skipped.  A
missing child of an element with content is skipped too: `start_tag` meets another tag or the end
tag and `xml_next` moves on, whatever the field's `min`.  Only in a self-closing element does a
field with `min ≥ 1` set `PARSE_INVALID`.  So `<E></E>` and `<E/>` part whenever `E`'s type
requires a child (`required_child_missing`).  `xml_sequence`, which reads the repetitions of a
field, does check `min` when the sequence ends (`xmlSequence`).  `xml_xsi_type` reads the
`xsi:type` attribute as a local name and answers its type (`xmlXsiType`).

The tokenizer `xml_token.c` is not among the sources; the model takes the tokens it delivers as a
list.
-/

namespace Sep2Client

/-- Modelled from the spec: the tokens of `xml_token.c`, which is not among the sources.  The spec
names `XML_DECL`, `START_TAG`, `EMPTY_TAG`, `END_TAG`, `XML_TEXT`, `XML_INCOMPLETE` and
`XML_INVALID`; a tag carries the name and attributes `p->xml->name` and `p->xml->attr` give while
it is the current token. -/
inductive XmlToken
  | decl
  | startTag (name : String) (attrs : List (String × List UInt8))
  | emptyTag (name : String) (attrs : List (String × List UInt8))
  | endTag (name : String)
  | text (content : List UInt8)
  | incomplete
  | invalid
deriving Repr, DecidableEq

/-- The fields of `Parser` and `XmlParser` the XML walk reads and writes.  `tokens` is what the
tokenizer has still to deliver; `token` is `p->token`, `name` and `attrs` those of the last tag;
`ptr` is `p->ptr` as `xml_next` sets it from an attribute's value (the tokenizer's content
pointer, which `parse_token` stores there on `XML_INCOMPLETE`, is not modelled). -/
structure XmlState where
  tokens : List XmlToken
  token : XmlToken
  needToken : Bool
  empty : Bool
  xmlDecl : Bool
  name : String
  attrs : List (String × List UInt8)
  state : Nat
  se : Nat
  ptr : Option (List UInt8)
deriving Repr, DecidableEq

namespace XmlState

/-- `parse_init`: nothing read, a token wanted. -/
def init (tokens : List XmlToken) : XmlState :=
  ⟨tokens, .incomplete, true, false, false, "", [], parseNext, 0, none⟩

end XmlState

/-- `parse_token (p)`: the cached token, or the next one.  `XML_INVALID` sets `PARSE_INVALID`;
`XML_INCOMPLETE` (the model's end of the list) leaves the token wanted. -/
def parseToken (s : XmlState) : XmlToken × XmlState :=
  if !s.needToken then (s.token, s)
  else
    match s.tokens with
    | [] => (.incomplete, { s with token := .incomplete })
    | .invalid :: _ => (.invalid, { s with token := .invalid, state := parseInvalid })
    | .incomplete :: _ => (.incomplete, { s with token := .incomplete })
    | t :: rest =>
      let s := { s with tokens := rest, token := t, needToken := false }
      match t with
      | .startTag name attrs | .emptyTag name attrs => (t, { s with name, attrs })
      | .endTag name => (t, { s with name })
      | _ => (t, s)

/-- `start_tag (p, se)` for the entry at index `i`: the current token is a start or empty tag of
the entry's name.  `p->empty = p->token` sets `empty` for an empty tag, `START_TAG` being `0`. -/
def startTag (S : Schema) (s : XmlState) (i : Nat) : XmlState × Bool :=
  let (t, s) := parseToken s
  match t with
  | .startTag n _ | .emptyTag n _ =>
    if s.empty then ({ s with state := parseInvalid }, false)
    else if seName S i ≠ n then (s, false)
    else
      let s := { s with empty := t matches .emptyTag .., needToken := true }
      if s.empty && (S.entry i).isSimple then ({ s with state := parseInvalid }, false)
      else (s, true)
  | .endTag _ | .incomplete => (s, false)
  | _ => ({ s with state := parseInvalid }, false)

/-- `end_tag (p, se)` for the entry at index `i`. -/
def endTag (S : Schema) (s : XmlState) (i : Nat) : XmlState × Bool :=
  let (t, s) := parseToken s
  match t with
  | .endTag n => if seName S i = n then ({ s with needToken := true }, true) else (s, false)
  | _ => (s, false)

/-- `element_index (schema, name)`: the global element of that name, by its index. -/
def elementIndex (S : Schema) (name : String) : Option Nat :=
  S.elements.indexOf? name

/-- The loop of `xml_start`, for at most `fuel` tokens. -/
def xmlStartLoop (S : Schema) : Nat → XmlState → XmlState × Bool
  | 0, s => (s, false)
  | fuel + 1, s =>
    let (t, s) := parseToken s
    match t with
    | .decl =>
      if s.xmlDecl then ({ s with state := parseInvalid }, false)
      else xmlStartLoop S fuel { s with xmlDecl := true, needToken := true }
    | .startTag n _ | .emptyTag n _ =>
      match elementIndex S n with
      | none => ({ s with state := parseInvalid }, false)
      | some type =>
        let empty := t matches .emptyTag ..
        ({ s with se := type, empty, needToken := !empty }, true)
    | .incomplete => (s, false)
    | _ => ({ s with state := parseInvalid }, false)

/-- `xml_start (p)`: the document element, its type's entry in `se`.  Each pass of the loop
either returns or consumes a token. -/
def xmlStart (S : Schema) (s : XmlState) : XmlState × Bool :=
  xmlStartLoop S (s.tokens.length + 1) { s with needToken := true }

/-- The `while (p->state == PARSE_NEXT)` loop of `xml_next` from the entry at index `i`, for at
most `fuel` entries; `false` is the `return 0` of an incomplete token. -/
def xmlNextLoop (S : Schema) : Nat → XmlState → Nat → XmlState × Bool
  | 0, s, i => ({ s with se := i - 1 }, true)
  | fuel + 1, s, i =>
    if s.state ≠ parseNext then ({ s with se := i - 1 }, true)
    else
      let se := S.entry i
      if se.n = 0 then xmlNextLoop S fuel { s with state := parseEnd } (i + 1)
      else if se.isAttribute then
        match s.attrs.lookup (seName S i) with
        | some v => xmlNextLoop S fuel { s with ptr := some v, state := parseElement } (i + 1)
        | none => xmlNextLoop S fuel { s with ptr := none } (i + 1)
      else if !s.empty then
        let (s, ok) := startTag S s i
        if ok then xmlNextLoop S fuel { s with state := parseElement } (i + 1)
        else if s.token = .incomplete then (s, false)
        else xmlNextLoop S fuel s (i + 1)
      else if se.min ≠ 0 then xmlNextLoop S fuel { s with state := parseInvalid } (i + 1)
      else xmlNextLoop S fuel s (i + 1)

/-- `xml_next (p)` from the entry `p->se`.  The entries past the array read as zeros, whose `n = 0`
ends the walk, so the fuel is never exhausted. -/
def xmlNext (S : Schema) (s : XmlState) : XmlState × Bool :=
  xmlNextLoop S (S.entries.length + 1) s s.se

/-- `xml_end (p, se)` for the entry at index `i`. -/
def xmlEnd (S : Schema) (s : XmlState) (i : Nat) : XmlState × Bool :=
  if s.empty then ({ s with empty := false }, true)
  else
    let (s, ok) := endTag S s i
    if ok then ({ s with empty := false }, true) else (s, false)

/-- Modelled from the spec: `xml_sequence` tests `p->token <= END_TAG` on the codes of
`xml_token.c`, which is not among the sources.  `start_tag` reads `START_TAG` as `0` and
`EMPTY_TAG` as another code, and the spec lists `END_TAG` right after them: the codes up to
`END_TAG` are the three tags. -/
def XmlToken.isTag : XmlToken → Bool
  | .startTag .. | .emptyTag .. | .endTag _ => true
  | _ => false

/-- `xml_sequence (p, t)` for the stack item of the entry at index `i`, matched `count` times so
far: `1` for one more repetition; at any other tag the sequence is over, and `PARSE_INVALID` when
it has fewer than `min` repetitions, else `p->state++`. -/
def xmlSequence (S : Schema) (s : XmlState) (i count : Nat) : XmlState × Bool :=
  let (s, ok) := startTag S s i
  if ok then (s, true)
  else if s.token.isTag then
    if count < (S.entry i).min then ({ s with state := parseInvalid }, false)
    else ({ s with state := s.state + 1 }, false)
  else (s, false)

/-- `local_name_index (schema, name)`: the position of `name` among `schema->names`, which
`bsearch` finds in the sorted array. -/
def localNameIndex (S : Schema) (name : List UInt8) : Option Nat :=
  (S.names.map ascii).indexOf? name

/-- `xml_xsi_type (p)`: the type the `xsi:type` attribute of the current tag names; `-1` without
the attribute, `0` and `PARSE_INVALID` when the name has no type. -/
def xmlXsiType (S : Schema) (s : XmlState) : Int × XmlState :=
  match s.attrs.lookup "xsi:type" with
  | none => (-1, s)
  | some name =>
    match localNameIndex S name with
    | some index => if S.types.getD index 0 ≠ 0 then (S.types.getD index 0, s)
      else (0, { s with state := parseInvalid })
    | none => (0, { s with state := parseInvalid })

/-! ## A required child -/

/-- A schema with one global element `E` of type `1`, whose only field is the child `c`, a
boolean with `min = 1`. -/
def requiredSchema : Schema :=
  ⟨[], 1, 1, ["c"], [0], [⟨0, 1, 0, 0, 0, 0, false, false, false⟩,
    ⟨4, 0, 0, 0, 0, 0, false, false, false⟩,
    ⟨0, simpleType .boolean 0, 1, 1, 1, 0, false, false, false⟩, SchemaEntry.zero], ["E"], [0, 0, 0]⟩

/-- Modelled from the spec: the walker that drives `xml_start`, `xml_next` and `xml_end` is not
among the sources.  For `E` it calls `xml_start`, then `xml_next` from the first field of `E`'s
type (entry `2`, after the type header) and, the type ended, `xml_end` for `E`. -/
def walkE (tokens : List XmlToken) : XmlState × Bool :=
  let (s, _) := xmlStart requiredSchema (XmlState.init tokens)
  let (s, _) := xmlNext requiredSchema { s with se := 2 }
  xmlEnd requiredSchema s 0

/-- `<E></E>` is walked to its end and its end tag read without `PARSE_INVALID`, though the child
`c`, with `min = 1`, never matched; `<E/>` is rejected. -/
theorem required_child_missing :
    (walkE [.startTag "E" [], .endTag "E"]).1.state = parseEnd ∧
      (walkE [.startTag "E" [], .endTag "E"]).1.tokens = [] ∧
      (walkE [.startTag "E" [], .endTag "E"]).2 = true ∧
      (walkE [.emptyTag "E" []]).1.state = parseInvalid := ⟨rfl, rfl, rfl, rfl⟩

end Sep2Client
