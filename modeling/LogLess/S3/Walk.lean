import LogLess.S3.Tree

/-!
# Listing a page

`Walker::walk` goes through the tree in the order of the keys, depth first, leaves out what the
scope and the prefix leave out, skips directories that lie before the marker, rolls keys up at
the delimiter, and stops when the page is full.
-/

namespace LogLess.S3

structure ListParams where
  /-- The prefix asked for. -/
  pfx : Text
  delimiter : Option Text
  maxKeys : ℕ
  marker : Option Text

/-- `etag`: the length and the time of a file, in hexadecimal. -/
def etag (len mtime : ℕ) : Text :=
  ['"'] ++ Nat.toDigits 16 len ++ ['-'] ++ Nat.toDigits 16 mtime ++ ['"']

/-- A line of a listing. -/
inductive ListUnit where
  | key (key : Text) (size mtime : ℕ) (etag : Text)
  | commonPrefix (p : Text)
deriving DecidableEq

def ListUnit.text : ListUnit → Text
  | .key k _ _ _ => k
  | .commonPrefix p => p

def ListUnit.isCommonPrefix : ListUnit → Bool
  | .key .. => false
  | .commonPrefix _ => true

def ListUnit.ofFile (key : Text) (f : FileData) : ListUnit :=
  .key key f.content.length f.mtime (etag f.content.length f.mtime)

structure Walker where
  out : List ListUnit
  truncated : Bool
  lastPrefix : Option Text

def Walker.empty : Walker := ⟨[], false, none⟩

/-- A loop that its body can leave. -/
def loopWhile {σ ε : Type} (body : σ → ε → σ × Bool) : σ → List ε → σ × Bool
  | s, [] => (s, true)
  | s, e :: es =>
    match body s e with
    | (s', true) => loopWhile body s' es
    | (s', false) => (s', false)

section

variable (p : ListParams)

/-- `Walker::common_prefix`: what a key that starts with the prefix rolls up to. -/
def commonPrefix (key : Text) : Option Text := do
  let d ← p.delimiter
  Rollup.cut p.pfx d key

/-- `Walker::push`: false once the page is full. -/
def Walker.push (w : Walker) (unit : ListUnit) : Walker × Bool :=
  if p.marker.any fun m => unit.text ≤ m then (w, true)
  else if unit.isCommonPrefix && w.lastPrefix = some unit.text then (w, true)
  else if p.maxKeys ≤ w.out.length then ({ w with truncated := true }, false)
  else
    ({ w with
      lastPrefix := if unit.isCommonPrefix then some unit.text else w.lastPrefix
      out := w.out ++ [unit] }, true)

variable (t : Tree) (scope : ReadScope)

/-- An entry that the walk looks at: the key it sorts by, its name, and whether it is a
directory. -/
structure Entry where
  sortKey : Text
  name : Text
  isDir : Bool

/-- The entries of a directory that belong in the listing. -/
def listed (keyPrefix : Text) : Text × Kind → Option Entry
  | (name, kind) =>
    if name.head? = some '.' then none
    else
      match kind with
      | .dir =>
        if scope.reaches (keyPrefix ++ name ++ ['/']) then some ⟨name ++ ['/'], name, true⟩ else none
      | .file _ =>
        let key := keyPrefix ++ name
        if servable key && p.pfx.isPrefixOf key && scope.allows key then some ⟨name, name, false⟩
        else none
      | .other => none

def sortedEntries (dir : Path) (keyPrefix : Text) : List Entry :=
  ((t.readDir dir).filterMap (listed p scope keyPrefix)).insertionSort fun a b =>
    a.sortKey ≤ b.sortKey

/-- The subtree of a directory lies before the marker. -/
def beforeMarker (key : Text) : Bool := p.marker.any fun m => key < m && !key.isPrefixOf m

/-- `Walker::walk`, with the number of levels it may still go down. -/
def walk : ℕ → Path → Text → Walker → Walker × Bool
  | 0, _, _, w => (w, true)
  | n + 1, dir, keyPrefix, w =>
    loopWhile (fun w e =>
      let key := keyPrefix ++ e.sortKey
      if e.isDir then
        if ¬ (p.pfx.isPrefixOf key || key.isPrefixOf p.pfx) then (w, true)
        else if beforeMarker p key then (w, true)
        else
          match (if p.pfx.isPrefixOf key then commonPrefix p key else none) with
          | some cp => w.push p (.commonPrefix cp)
          | none => walk n (dir ++ [e.name]) key w
      else if p.marker.any fun m => key ≤ m then (w, true)
      else
        match commonPrefix p key with
        | some cp => w.push p (.commonPrefix cp)
        | none =>
          match t.kind? (dir ++ [e.name]) with
          | some (.file f) => w.push p (.ofFile key f)
          | _ => (w, true)) w (sortedEntries p t scope dir keyPrefix)

/-- The walk of a listing: `list_objects` starts it if any key is asked for and there is a
directory to start at. -/
def page : Walker :=
  if p.maxKeys = 0 then .empty
  else
    match listBase t p.pfx with
    | none => .empty
    | some (dir, base) => (walk p t scope (t.depth + 1) dir base .empty).1

end

end LogLess.S3
