import AncillaRouting.Yaml.Lexer

/-!
# From tokens to nodes

Nodes are what a text denotes. Anchors have numbers, and an alias stands for what carries its number
in the whole document, which need not be complete where the alias stands.

A document reader takes one token after another. It remembers the collections that are not complete
and what each of them waits for. A node may be missing in most places; it is then an empty scalar.
A text holds at most one document.
-/

namespace AncillaRouting.Yaml

/-! ## Nodes -/

structure Scalar where
  text : String
  style : ScalarStyle
  /-- A tag that is no UTF-8 text counts as none. -/
  tag : Option String
deriving DecidableEq, Repr

inductive Node where
  | scalar (s : Scalar)
  | sequence (items : List Node)
  | mapping (entries : List (Node × Node))
  | alias (number : Nat)
deriving Repr

def Node.empty : Node := scalar ⟨"", .plain, none⟩

structure Document where
  root : Node
  /-- What carries each anchor number, the last one first: a scalar, or a collection, of which nothing
  is kept. -/
  anchored : List (Nat × Option Scalar)

def Document.scalar? (d : Document) : Node → Option Scalar
  | .scalar s => some s
  | .alias number => (d.anchored.lookup number).join
  | _ => none

/-! ## The reader -/

inductive Frame where
  | root (marked : Bool)
  | complete (root : Node)
  | blockItems (items : List Node)
  | blockItem (items : List Node)
  /-- The next dash of a sequence that is indented like the key in front of it. -/
  | flushItems (items : List Node)
  | flushItem (items : List Node)
  | blockEntries (entries : List (Node × Node))
  | blockKey (entries : List (Node × Node))
  | blockColon (entries : List (Node × Node)) (key : Node)
  | blockValue (entries : List (Node × Node)) (key : Node)
  | flowItem (items : List Node)
  | flowItemComma (items : List Node)
  /-- The parts of a mapping with one entry that is an item of a flow sequence. -/
  | pairKey (items : List Node)
  | pairColon (items : List Node) (key : Node)
  | pairValue (items : List Node) (key : Node)
  | flowEntry (entries : List (Node × Node))
  | flowEntryComma (entries : List (Node × Node))
  | flowKey (entries : List (Node × Node))
  | flowColon (entries : List (Node × Node)) (key : Node)
  | flowValue (entries : List (Node × Node)) (key : Node)

structure Properties where
  anchor : Option String
  tag : Option (List UInt8)

def Properties.none : Properties := ⟨.none, .none⟩

def Properties.isNone (p : Properties) : Bool := p.anchor.isNone && p.tag.isNone

structure DocumentReader where
  frames : List Frame
  properties : Properties
  numbers : List (String × Nat)
  anchored : List (Nat × Option Scalar)
  handles : List (String × List UInt8)

namespace Frame

def wantsNode : Frame → Bool
  | root _ | blockItem _ | flushItem _ | blockKey _ | blockValue .. | flowItem _ | pairKey _
  | pairValue .. | flowEntry _ | flowKey _ | flowValue .. => true
  | _ => false

def allowsBlock : Frame → Bool
  | root _ | blockItem _ | flushItem _ | blockKey _ | blockValue .. => true
  | _ => false

def allowsFlush : Frame → Bool
  | blockKey _ | blockValue .. => true
  | _ => false

def isMissingBefore (t : Token) : Frame → Bool
  | root marked => marked && match t with
    | .documentStart | .documentEnd | .versionDirective .. | .tagDirective .. => true
    | _ => false
  | blockItem _ => t == .blockEntry || t == .blockEnd
  | flushItem _ => t == .blockEntry || t == .key || t == .value || t == .blockEnd
  | blockKey _ | blockValue .. => t == .key || t == .value || t == .blockEnd
  | pairValue .. => t == .flowEntry || t == .flowSequenceEnd
  | flowKey _ => t == .value || t == .flowEntry || t == .flowMappingEnd
  | flowValue .. => t == .flowEntry || t == .flowMappingEnd
  | _ => false

def deliver (n : Node) : List Frame → List Frame
  | root _ :: below => complete n :: below
  | blockItem items :: below => blockItems (n :: items) :: below
  | flushItem items :: below => flushItems (n :: items) :: below
  | blockKey entries :: below => blockColon entries n :: below
  | blockValue entries k :: below => blockEntries ((k, n) :: entries) :: below
  | flowItem items :: below => flowItemComma (n :: items) :: below
  | pairKey items :: below => pairColon items n :: below
  | pairValue items k :: below => flowItemComma (.mapping [(k, n)] :: items) :: below
  | flowEntry entries :: below => flowEntryComma ((n, .empty) :: entries) :: below
  | flowKey entries :: below => flowColon entries n :: below
  | flowValue entries k :: below => flowEntryComma ((k, n) :: entries) :: below
  | frames => frames

/-- Ends what a token ends without being a part of it: a sequence that is not indented, or an entry
without a value. -/
def settle (t : Token) : List Frame → List Frame
  | flushItems items :: below =>
    if t == .blockEntry then flushItems items :: below
    else deliver (.sequence items.reverse) below
  | blockColon entries k :: below =>
    if t == .value then blockColon entries k :: below
    else blockEntries ((k, .empty) :: entries) :: below
  | pairColon items k :: below =>
    if t == .value then pairColon items k :: below
    else flowItemComma (.mapping [(k, .empty)] :: items) :: below
  | flowColon entries k :: below =>
    if t == .value then flowColon entries k :: below
    else flowEntryComma ((k, .empty) :: entries) :: below
  | frames => frames

def advance (t : Token) : List Frame → Option (List Frame)
  | complete n :: below => if t == .documentEnd then some (complete n :: below) else none
  | blockItems items :: below =>
    if t == .blockEntry then some (blockItem items :: below)
    else if t == .blockEnd then some (deliver (.sequence items.reverse) below)
    else none
  | flushItems items :: below =>
    if t == .blockEntry then some (flushItem items :: below) else none
  | blockEntries entries :: below =>
    if t == .key then some (blockKey entries :: below)
    else if t == .blockEnd then some (deliver (.mapping entries.reverse) below)
    else none
  | blockColon entries k :: below => if t == .value then some (blockValue entries k :: below) else none
  | flowItemComma items :: below =>
    if t == .flowEntry then some (flowItem items :: below)
    else if t == .flowSequenceEnd then some (deliver (.sequence items.reverse) below)
    else none
  | pairColon items k :: below => if t == .value then some (pairValue items k :: below) else none
  | flowEntryComma entries :: below =>
    if t == .flowEntry then some (flowEntry entries :: below)
    else if t == .flowMappingEnd then some (deliver (.mapping entries.reverse) below)
    else none
  | flowColon entries k :: below => if t == .value then some (flowValue entries k :: below) else none
  | _ => none

/-- Takes a token after a node. A sequence that is not indented may end with it, and with that an
entry. -/
def proceed (t : Token) (frames : List Frame) : Option (List Frame) :=
  advance t (settle t (settle t frames))

/-- Takes a token that belongs to a collection and stands in the place of a node. The entry of a
flow sequence that has no key loses the token that shows it. -/
def structural? (t : Token) : List Frame → Option (List Frame)
  | flowItem items :: below =>
    if t == .key then some (pairKey items :: below)
    else if t == .flowSequenceEnd then some (deliver (.sequence items.reverse) below)
    else none
  | flowEntry entries :: below =>
    if t == .key then some (flowKey entries :: below)
    else if t == .flowMappingEnd then some (deliver (.mapping entries.reverse) below)
    else none
  | pairKey items :: below =>
    if t == .value || t == .flowEntry || t == .flowSequenceEnd then
      some (pairColon items .empty :: below)
    else none
  | _ => none

def opened? (waiting : Frame) : Token → Option Frame
  | .flowSequenceStart => some (flowItem [])
  | .flowMappingStart => some (flowEntry [])
  | .blockSequenceStart => if waiting.allowsBlock then some (blockItems []) else none
  | .blockMappingStart => if waiting.allowsBlock then some (blockEntries []) else none
  | .blockEntry => if waiting.allowsFlush then some (flushItem []) else none
  | _ => none

end Frame

namespace DocumentReader

/-- Numbers the anchor that was read before a node. The number is that of the names in use so far,
so the anchor after a name that is used again has the same number as that one. -/
def register (r : DocumentReader) (s : Option Scalar) : DocumentReader :=
  match r.properties.anchor with
  | some name =>
    let number := r.numbers.length
    { r with
      properties := .none
      numbers := (name, number) :: r.numbers.filter (·.1 != name)
      anchored := (number, s) :: r.anchored }
  | none => { r with properties := .none }

def addAnchor (r : DocumentReader) (name : String) : Option DocumentReader :=
  if r.properties.anchor.isSome then none
  else some { r with properties := { r.properties with anchor := some name } }

/-- A tag without a handle is complete; any other is written out. -/
def addTag (r : DocumentReader) (handle : String) (suffix : List UInt8) : Option DocumentReader := do
  let tag ← if handle.isEmpty then pure suffix
    else (· ++ suffix) <$> r.handles.lookup handle
  if r.properties.tag.isSome then none
  return { r with properties := { r.properties with tag := some tag } }

def tagged (r : DocumentReader) (text : String) (style : ScalarStyle) : Scalar :=
  ⟨text, style, r.properties.tag.bind fun tag => String.fromUTF8? ⟨tag.toArray⟩⟩

def addScalar (r : DocumentReader) (text : String) (style : ScalarStyle) : DocumentReader :=
  let s := r.tagged text style
  { r.register (some s) with frames := Frame.deliver (.scalar s) r.frames }

def readNode (r : DocumentReader) (waiting : Frame) (t : Token) : Option DocumentReader := do
  match t with
  | .anchor name => r.addAnchor name
  | .tag handle suffix => r.addTag handle suffix
  | .scalar text style => return r.addScalar text style
  | t =>
    if let some frame := waiting.opened? t then
      return { r.register none with frames := frame :: r.frames }
    if !r.properties.isNone then
      let r := r.addScalar "" .plain
      return { r with frames := ← Frame.proceed t r.frames }
    if let .alias name := t then
      return { r with frames := Frame.deliver (.alias (← r.numbers.lookup name)) r.frames }
    if let some frames := Frame.structural? t r.frames then
      return { r with frames }
    if waiting.isMissingBefore t then
      return { r with frames := ← Frame.proceed t (Frame.deliver .empty r.frames) }
    none

def step (r : DocumentReader) (t : Token) : Option DocumentReader :=
  match r.frames with
  | waiting :: _ =>
    if waiting.wantsNode then r.readNode waiting t
    else (fun frames => { r with frames }) <$> Frame.proceed t r.frames
  | [] => none

def finish (r : DocumentReader) : Option Document :=
  match r.frames with
  | [.complete n] => some ⟨n, r.anchored⟩
  | [.root marked] =>
    if !r.properties.isNone then some ⟨.scalar (r.tagged "" .plain), r.anchored⟩
    else if marked then some ⟨.empty, r.anchored⟩
    else none
  | _ => none

end DocumentReader

/-! ## Directives -/

def isDirective : Token → Bool
  | .versionDirective .. | .tagDirective .. => true
  | _ => false

/-- Versions 1.1 and 1.2 can be read; a document names one of them at most once. -/
def versionsAgree (directives : List Token) : Bool :=
  match directives.filter fun t => t matches .versionDirective .. with
  | [] => true
  | [.versionDirective major minor] => major == 1 && (minor == 1 || minor == 2)
  | _ => false

/-- The tag handles of a document: its own, each given once, in front of the two that every document
has. -/
def tagHandles? (directives : List Token) : Option (List (String × List UInt8)) :=
  let own := directives.filterMap fun
    | .tagDirective handle uri => some (handle, uri)
    | _ => none
  if (own.map (·.1)).Nodup then
    some (own ++ [("!", octets ['!']), ("!!", octets "tag:yaml.org,2002:".toList)])
  else none

def documentOfTokens? (tokens : List Token) : Option (Option Document) := do
  let directives := tokens.takeWhile isDirective
  if tokens.isEmpty then return none
  if !versionsAgree directives then none
  let handles ← tagHandles? directives
  let read (marked : Bool) (tokens : List Token) : Option (Option Document) := do
    let r ← tokens.foldlM DocumentReader.step ⟨[.root marked], .none, [], [], handles⟩
    return some (← r.finish)
  match tokens.dropWhile isDirective with
  | .documentStart :: rest => read true rest
  | rest => if directives.isEmpty then read false rest else none

def document? (text : String) : Option (Option Document) := (tokens? text).bind documentOfTokens?

end AncillaRouting.Yaml
