import LogLess.Lib.Decimal
import LogLess.Lib.Float64
import LogLess.Lib.Lists
import LogLess.Lib.WildTree
import LogLess.Mask

/-!
# Template mining

`Drain`: a fixed-depth parse tree over masked lines. A line joins the most similar template
of its leaf, which then becomes as wide as both, or it starts a template of its own.

The hash maps from ids are lists; the templates are in the order in which they were started.
-/

namespace LogLess

open WildTree Mask

/-- Token used for a position that varies between merged lines. -/
def wildcard : Text := "<*>".toList

structure DrainConfig where
  depth : ℕ
  maxChildren : ℕ
  similarityThreshold : Float64.F64
  maxTemplates : ℕ

def DrainConfig.default : DrainConfig where
  depth := 4
  maxChildren := 100
  similarityThreshold := .finite (Float64.nearest (9 / 10))
  maxTemplates := 10000

/-! ## Templates -/

structure Template where
  id : ℕ
  tokens : List Text
  count : ℕ
  firstSeenUnixSecs : ℕ
  lastSeenUnixSecs : ℕ
  /-- The hash of the text it was started with, or a salted one. -/
  lineageId : ℕ
deriving DecidableEq

def joinTokens (tokens : List Text) : Text := List.intercalate [' '] tokens

/-- The loop of FNV-1a in 64 bits, with the multiplier of the source. -/
def fingerprintOf (templateText : Text) : ℕ :=
  (Utf8.encode templateText).foldl
    (fun hash byte => ((hash ^^^ byte.toNat) * 0x1000000001b3) % 2 ^ 64) 0xcbf29ce484222325

def Template.text (t : Template) : Text := joinTokens t.tokens

def Template.fingerprint (t : Template) : ℕ := fingerprintOf t.text

structure Match where
  /-- The local counter of the template. -/
  templateId : ℕ
  /-- The hash of its text after the line was merged into it. -/
  shapeId : ℕ
  params : List Text
  isNew : Bool
deriving DecidableEq

/-- What a content hash stands for. -/
structure Shape where
  lineageId : ℕ
  text : Text

/-! ## Comparing and widening -/

/-- The positions of a template and a line that hold text in both. -/
def comparable (template tokens : List Text) : List (Text × Text) :=
  (template.zip tokens).filter fun (t, l) =>
    !(t == wildcard || isPlaceholder t || isPlaceholder l)

/-- The fraction of the comparable positions that hold the same token. -/
def similarity (template tokens : List Text) : ℚ :=
  if template.length ≠ tokens.length then 0
  else if template.isEmpty then 1
  else
    let pairs := comparable template tokens
    if pairs.length = 0 then 1
    else Float64.ratio (pairs.filter fun (t, l) => t == l).length pairs.length

/-- Differing positions become wildcards; also says whether one did. -/
def mergeInto : List Text → List Text → List Text × Bool
  | slot :: template, token :: tokens =>
    let (rest, widened) := mergeInto template tokens
    if slot ≠ token && slot ≠ wildcard then (wildcard :: rest, true) else (slot :: rest, widened)
  | template, _ => (template, false)

/-- The raw text at every position the template treats as variable. -/
def paramsFor (template masked raw : List Text) : List Text :=
  let variable_ := template.zipIdx.filter fun (t, i) =>
    t == wildcard || (masked[i]?).any isPlaceholder
  variable_.filterMap fun (_, i) => raw[i]?

/-! ## The parse tree -/

def treeKey (token : Text) : Text := if isPlaceholder token then wildcard else token

/-- The parse trees by token count, with template ids at their leaves. -/
abbrev Roots := List (ℕ × Node Text ℕ)

namespace DrainConfig

variable (c : DrainConfig)

/-- Levels of token-keyed descent. -/
def tokenLevels : ℕ := max (c.depth - 2) 1

def treeKeys (tokens : List Text) : List Text := (tokens.take c.tokenLevels).map treeKey

def leafTemplates (roots : Roots) (tokens : List Text) : List ℕ :=
  match Assoc.get roots tokens.length with
  | none => []
  | some node => node.lookup wildcard (c.treeKeys tokens)

def insertIntoTree (roots : Roots) (tokens : List Text) (id : ℕ) : Roots :=
  let root := (Assoc.get roots tokens.length).getD .empty
  Assoc.insert roots tokens.length
    (root.insert wildcard c.maxChildren (c.treeKeys tokens) id)

end DrainConfig

/-! ## The miner -/

structure Drain where
  config : DrainConfig
  roots : Roots
  templates : List Template
  /-- The hash of each template's current text. -/
  shapeIds : List (ℕ × ℕ)
  /-- Every content hash a template has held. -/
  shapes : List (ℕ × Shape)
  /-- Every lineage id in use. -/
  lineages : List ℕ
  nextId : ℕ
  untemplated : ℕ
  linesSeen : ℕ

namespace Drain

def new (config : DrainConfig) : Drain where
  config := config
  roots := []
  templates := []
  shapeIds := []
  shapes := []
  lineages := []
  nextId := 1
  untemplated := 0
  linesSeen := 0

variable (d : Drain)

def template (id : ℕ) : Option Template := d.templates.find? fun t => t.id == id

/-- A template under its id. -/
def putTemplate (t : Template) : Drain :=
  { d with
    templates :=
      if d.templates.any fun u => u.id == t.id then
        d.templates.map fun u => if u.id == t.id then t else u
      else d.templates ++ [t] }

def insertLineage (lineageId : ℕ) : Drain :=
  { d with
    lineages := if d.lineages.contains lineageId then d.lineages else d.lineages ++ [lineageId] }

/-- Records the hash a template has now, and that it is a shape of its lineage. -/
def noteShape (t : Template) : Drain × ℕ :=
  let hash := fingerprintOf t.text
  ({ d with
    shapeIds := Assoc.insert d.shapeIds t.id hash
    shapes :=
      if (Assoc.get d.shapes hash).isSome then d.shapes
      else Assoc.insert d.shapes hash ⟨t.lineageId, t.text⟩ }, hash)

/-- One template of `restore`. -/
def restoreTemplate (t : Template) : Drain :=
  let d := { d with
    nextId := max d.nextId (t.id + 1)
    roots := d.config.insertIntoTree d.roots t.tokens t.id }
  let d := d.insertLineage t.lineageId
  let (d, _) := d.noteShape t
  d.putTemplate t

def restore (config : DrainConfig) (templates : List Template) : Drain :=
  templates.foldl restoreTemplate (new config)

/-! ## Lines -/

/-- The templates of a line's leaf, with their scores. -/
def scored (masked : List Text) : List (Template × ℚ) :=
  ((d.config.leafTemplates d.roots masked).filterMap d.template).map fun t =>
    (t, similarity t.tokens masked)

/-- The most similar template above the threshold, the last one of these. -/
def best (masked : List Text) : Option Template :=
  (Lists.lastMax ((d.scored masked).filter fun x => d.config.similarityThreshold.le x.2)).map
    Prod.fst

/-- A line joins a template. -/
def join (t : Template) (masked raw : List Text) (now : ℕ) : Drain × Match :=
  let (tokens, widened) := mergeInto t.tokens masked
  let t := { t with tokens := tokens, count := t.count + 1, lastSeenUnixSecs := now }
  let d := d.putTemplate t
  let params := paramsFor tokens masked raw
  -- the hash of a template is always on record
  let (d, shapeId) :=
    if widened then d.noteShape t else (d, (Assoc.get d.shapeIds t.id).getD 0)
  (d, ⟨t.id, shapeId, params, false⟩)

/-- A line starts a template. -/
def start (masked raw : List Text) (now : ℕ) : Drain × Match :=
  let id := d.nextId
  let params := paramsFor masked masked raw
  let d := { d with
    nextId := id + 1
    roots := d.config.insertIntoTree d.roots masked id }
  let text := joinTokens masked
  let born := fingerprintOf text
  -- an earlier template may have been born with this text: salt with the id
  let lineageId :=
    if d.lineages.contains born then fingerprintOf (text ++ [Char.ofNat 0x1F] ++ Decimal.ofNat id)
    else born
  let d := d.insertLineage lineageId
  let t : Template := ⟨id, masked, 1, now, now, lineageId⟩
  let (d, shapeId) := d.noteShape t
  (d.putTemplate t, ⟨id, shapeId, params, true⟩)

def matchMasked (masked raw : List Text) (now : ℕ) : Drain × Option Match :=
  if masked.isEmpty then (d, none)
  else
    match d.best masked with
    | some t =>
      let (d, m) := d.join t masked raw now
      (d, some m)
    | none =>
      if d.config.maxTemplates ≤ d.templates.length then
        ({ d with untemplated := d.untemplated + 1 }, none)
      else
        let (d, m) := d.start masked raw now
        (d, some m)

def addLine (line : Text) (now : ℕ) : Drain × Option Match :=
  let d := { d with linesSeen := d.linesSeen + 1 }
  let (masked, raw) := maskLine line
  d.matchMasked masked raw now

end Drain

end LogLess
