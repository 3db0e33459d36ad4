import LogLess.Policy.AuditLog

/-!
# The logs of an uploader

A line of `parts-uploaded.jsonl` for each file that was uploaded, dropped when central knows that
the file is gone, and a line of `parts-gaveup.jsonl` for each pass that deleted files before central
had them. Both are files of lines of JSON like the audit log of the policy, and a crash may leave any
beginning of a line in them, too.
-/

namespace LogLess.Parts

open Json Serde LineLog

/-! ## Lines -/

structure StateLine where
  path : Text
  size : UInt64
  name : Text
deriving DecidableEq

/-- Unconfirmed files lost to retention or reclaim. -/
structure GaveUp where
  parts : UInt64
  rows : UInt64
  bytes : UInt64
deriving DecidableEq

def u64Value (n : UInt64) : Value := natValue n.toNat

def readU64 (v : Value) : Option UInt64 := (readNat (2 ^ 64) v).map UInt64.ofNat

def stateFields : List Text := ["path", "size", "name"].map String.toList
def gaveUpFields : List Text := ["parts", "rows", "bytes"].map String.toList

def stateValue (l : StateLine) : Value :=
  .obj (stateFields.zip [.str l.path, u64Value l.size, .str l.name])

def gaveUpValue (g : GaveUp) : Value :=
  .obj (gaveUpFields.zip [u64Value g.parts, u64Value g.rows, u64Value g.bytes])

def readStateLine (v : Value) : Option StateLine := do
  let fields ← structFields stateFields v
  let path ← field fields "path" readStr
  let size ← field fields "size" readU64
  let name ← field fields "name" readStr
  return ⟨path, size, name⟩

def readGaveUp (v : Value) : Option GaveUp := do
  let fields ← structFields gaveUpFields v
  let parts ← field fields "parts" readU64
  let rows ← field fields "rows" readU64
  let bytes ← field fields "bytes" readU64
  return ⟨parts, rows, bytes⟩

/-- How a write of a line ends. -/
inductive Write where
  /-- A crash or an error leaves this many bytes. -/
  | torn (k : ℕ)
  | whole
deriving DecidableEq

def Write.of (bytes : List UInt8) : Write → List UInt8
  | .torn k => bytes.take k
  | .whole => bytes

/-! ## The files -/

def stateBytes (l : StateLine) : List UInt8 := Utf8.encode (render (stateValue l) ++ ['\n'])

/-- `load_state_lines`: nothing where the file is not text. -/
def loadStateLines (log : List UInt8) : List StateLine :=
  match Utf8.strict log with
  | none => []
  | some text => (Text.bufLines text).filterMap fun l => (parse l).bind readStateLine

/-- `append_state`. -/
def appendState (log : List UInt8) (l : StateLine) (how : Write) : List UInt8 :=
  log ++ how.of (stateBytes l)

/-- `drop_state`: the file is written anew without the lines of these paths. -/
def dropState (log : List UInt8) (paths : List Text) : List UInt8 :=
  if paths.isEmpty then log
  else ((loadStateLines log).filter fun l => !paths.contains l.path).flatMap stateBytes

def gaveUpBytes (g : GaveUp) : List UInt8 := Utf8.encode (render (gaveUpValue g) ++ ['\n'])

/-- What `note_gave_up` does to the file. -/
def noteGaveUp (log : List UInt8) (g : GaveUp) (how : Write) : List UInt8 :=
  if g.parts = 0 then log else log ++ how.of (gaveUpBytes g)

def GaveUp.add (a g : GaveUp) : GaveUp := ⟨a.parts + g.parts, a.rows + g.rows, a.bytes + g.bytes⟩

def GaveUp.total (gs : List GaveUp) : GaveUp := gs.foldl GaveUp.add ⟨0, 0, 0⟩

/-- `load_gave_up`: what the lines add up to, where the file is text. -/
def loadGaveUp (log : List UInt8) : GaveUp :=
  GaveUp.total ((Text.bufLines ((Utf8.strict log).getD [])).filterMap fun l =>
    (parse l).bind readGaveUp)

/-! ## Their lives -/

def stateCodec : Codec StateLine := jsonCodec stateValue readStateLine
def gaveUpCodec : Codec GaveUp := jsonCodec gaveUpValue readGaveUp

/-- A line can be written so: on a line of its own, and cut where it is text. -/
def fitsLine {ε : Type} (c : Codec ε) (log : List UInt8) (e : ε) : Write → Bool
  | .torn k => c.cutFits log e k
  | .whole => beginsLine log

def landedBy {ε : Type} (c : Codec ε) (e : ε) : Write → List (Landed ε)
  | .torn k => c.remnant e k
  | .whole => [⟨e, true⟩]

/-- `parts-uploaded.jsonl`, and the lines that landed and were not dropped. -/
structure StateLog where
  bytes : List UInt8
  landed : List (Landed StateLine)

namespace StateLog

def fresh : StateLog := ⟨[], []⟩

inductive Event where
  | append (l : StateLine) (how : Write)
  | drop (paths : List Text)

def step (s : StateLog) : Event → StateLog
  | .append l how => ⟨appendState s.bytes l how, s.landed ++ landedBy stateCodec l how⟩
  | .drop paths =>
    ⟨dropState s.bytes paths, s.landed.filter fun x => !paths.contains x.entry.path⟩

def fits (s : StateLog) : Event → Bool
  | .append l how => fitsLine stateCodec s.bytes l how
  | .drop _ => true

end StateLog

/-- `parts-gaveup.jsonl`, and the lines that landed. -/
structure GaveUpLog where
  bytes : List UInt8
  landed : List (Landed GaveUp)

namespace GaveUpLog

def fresh : GaveUpLog := ⟨[], []⟩

/-- A pass that deleted files, and how its write ends. -/
def step (s : GaveUpLog) (e : GaveUp × Write) : GaveUpLog :=
  ⟨noteGaveUp s.bytes e.1 e.2,
    if e.1.parts = 0 then s.landed else s.landed ++ landedBy gaveUpCodec e.1 e.2⟩

def fits (s : GaveUpLog) (e : GaveUp × Write) : Bool :=
  e.1.parts == 0 || fitsLine gaveUpCodec s.bytes e.1 e.2

end GaveUpLog

/-! ## What is written is read back -/

theorem readU64_u64Value (n : UInt64) : readU64 (u64Value n) = some n := by
  rw [readU64, u64Value, readNat_natValue n.toNat_lt, Option.map_some, UInt64.ofNat_toNat]

theorem writes_stateLine (l : StateLine) : stateCodec.Writes l := by
  have hnodup : stateFields.Nodup := by decide +kernel
  have hread : readStateLine (stateValue l) = some l := by
    rw [readStateLine, stateValue, Policy.structFields_zip hnodup rfl]
    show (readU64 (u64Value l.size)).bind (fun n => some (StateLine.mk l.path n l.name)) = _
    rw [readU64_u64Value]
    rfl
  have hvalid : (stateValue l).valid = true := by
    simp only [stateValue, stateFields, List.map_cons, List.map_nil, List.zip_cons_cons,
      List.zip_nil_right, Value.valid, validMembers, u64Value, valid_natValue, Bool.and_self]
  exact writes_json rfl hvalid hread

theorem writes_gaveUp (g : GaveUp) : gaveUpCodec.Writes g := by
  have hnodup : gaveUpFields.Nodup := by decide +kernel
  have hread : readGaveUp (gaveUpValue g) = some g := by
    rw [readGaveUp, gaveUpValue, Policy.structFields_zip hnodup rfl]
    show (readU64 (u64Value g.parts)).bind (fun p => (readU64 (u64Value g.rows)).bind fun r =>
      (readU64 (u64Value g.bytes)).bind fun b => some (GaveUp.mk p r b)) = _
    rw [readU64_u64Value, readU64_u64Value, readU64_u64Value]
    rfl
  have hvalid : (gaveUpValue g).valid = true := by
    simp only [gaveUpValue, gaveUpFields, List.map_cons, List.map_nil, List.zip_cons_cons,
      List.zip_nil_right, Value.valid, validMembers, u64Value, valid_natValue, Bool.and_self]
  exact writes_json rfl hvalid hread

/-- One line, whole or torn. -/
theorem holds_write {ε : Type} {c : Codec ε} {log : List UInt8} {landed : List (Landed ε)}
    (h : Holds c log landed) {e : ε} (he : c.Writes e) {how : Write}
    (hfits : fitsLine c log e how = true) :
    Holds c (log ++ how.of (c.line e)) (landed ++ landedBy c e how) := by
  cases how with
  | torn k => exact h.torn he hfits
  | whole => exact h.append he hfits true

theorem loadStateLines_eq {log : List UInt8} {landed : List (Landed StateLine)}
    (h : Holds stateCodec log landed) : loadStateLines log = landed.map Landed.entry := by
  obtain ⟨text, htext, hread⟩ := Option.map_eq_some_iff.mp h.entries
  rw [loadStateLines, htext]
  exact hread

theorem loadGaveUp_eq {log : List UInt8} {landed : List (Landed GaveUp)}
    (h : Holds gaveUpCodec log landed) :
    loadGaveUp log = GaveUp.total (landed.map Landed.entry) := by
  obtain ⟨text, htext, hread⟩ := Option.map_eq_some_iff.mp h.entries
  rw [loadGaveUp, htext]
  exact congrArg GaveUp.total hread

theorem StateLog.holds_step {s : StateLog} (h : Holds stateCodec s.bytes s.landed) {ev : Event}
    (hfits : s.fits ev = true) : Holds stateCodec (s.step ev).bytes (s.step ev).landed := by
  cases ev with
  | append l how => exact holds_write h (writes_stateLine l) hfits
  | drop paths =>
    by_cases hpaths : paths.isEmpty = true
    · obtain rfl := List.isEmpty_iff.mp hpaths
      have hall : s.landed.filter (fun x => !([] : List Text).contains x.entry.path) = s.landed :=
        List.filter_eq_self.mpr fun _ _ => rfl
      rw [step, dropState, if_pos hpaths]
      simp only
      rw [hall]
      exact h
    · have hbytes : dropState s.bytes paths = ((s.landed.filter fun x =>
          !paths.contains x.entry.path).map Landed.entry).flatMap stateCodec.line := by
        rw [dropState, if_neg hpaths, loadStateLines_eq h, List.filter_map]
        rfl
      rw [step]
      simp only
      rw [hbytes]
      exact Holds.rewrite fun x hx => h.writes x (List.mem_of_mem_filter hx)

theorem GaveUpLog.holds_step {s : GaveUpLog} (h : Holds gaveUpCodec s.bytes s.landed)
    {e : GaveUp × Write} (hfits : s.fits e = true) :
    Holds gaveUpCodec (s.step e).bytes (s.step e).landed := by
  rw [fits, Bool.or_eq_true, beq_iff_eq] at hfits
  rw [step, noteGaveUp]
  by_cases hparts : e.1.parts = 0
  · rw [if_pos hparts, if_pos hparts]
    exact h
  · rw [if_neg hparts, if_neg hparts]
    exact holds_write h (writes_gaveUp e.1) (hfits.resolve_left hparts)

theorem StateLog.holds_run {es : List Event}
    (h : Runs.Meets step (fun s ev => s.fits ev = true) fresh es) :
    Holds stateCodec (Runs.run step fresh es).bytes (Runs.run step fresh es).landed :=
  @Runs.Meets.invariant _ _ step _ (fun s => Holds stateCodec s.bytes s.landed)
    (fun _ _ hs hfits => holds_step hs hfits) _ _ h Holds.nil

theorem GaveUpLog.holds_run {es : List (GaveUp × Write)}
    (h : Runs.Meets step (fun s e => s.fits e = true) fresh es) :
    Holds gaveUpCodec (Runs.run step fresh es).bytes (Runs.run step fresh es).landed :=
  @Runs.Meets.invariant _ _ step _ (fun s => Holds gaveUpCodec s.bytes s.landed)
    (fun _ _ hs hfits => holds_step hs hfits) _ _ h Holds.nil

/-! ## Torn lines -/

open Policy in
/-- **Every entry whose append returned is found again**, once and in order, together with the lines
that a crash left whole, and a start leaves its version readable: as long as every line is written on
a line of its own and every cut leaves text. -/
theorem lines_survive (fr : FracText) (audits : List AuditLog.Event)
    (states : List StateLog.Event) (gaveUps : List (GaveUp × Write))
    (haudits : Runs.Meets (AuditLog.step fr) (fun s ev => s.fits fr ev = true) AuditLog.fresh audits)
    (hstates : Runs.Meets StateLog.step (fun s ev => s.fits ev = true) StateLog.fresh states)
    (hgaveUps : Runs.Meets GaveUpLog.step (fun s e => s.fits e = true) GaveUpLog.fresh gaveUps) :
    let audit := Runs.run (AuditLog.step fr) AuditLog.fresh audits
    let state := Runs.run StateLog.step StateLog.fresh states
    let gaveUp := Runs.run GaveUpLog.step GaveUpLog.fresh gaveUps
    readAudit fr audit.bytes = some (audit.landed.map Landed.entry) ∧
      (∀ file typed compacts, audit.fits fr (.reconcile file typed (.whole compacts)) = true →
        ∃ log, reconcileAudit fr audit.bytes file (.whole compacts) = (.ok (), log) ∧
          hasEntry fr log file.version = true) ∧
      loadStateLines state.bytes = state.landed.map Landed.entry ∧
      loadGaveUp gaveUp.bytes = GaveUp.total (gaveUp.landed.map Landed.entry) := by
  have hholds := AuditLog.holds_run haudits
  exact ⟨hholds.entries, fun _ _ _ hfits => AuditLog.reconcile_readable hholds hfits,
    loadStateLines_eq (StateLog.holds_run hstates), loadGaveUp_eq (GaveUpLog.holds_run hgaveUps)⟩

section

open Policy

/-- Fraction texts that know one half only. -/
def halfText : FracText where
  write _ := "0.5".toList
  read t := if t = "0.5".toList then some (1 / 2) else none
  isNumber_write _ := by decide +kernel
  isSome_read_write _ := by decide +kernel

def exampleFile (version : ℕ) : PolicyFile where
  schemaVersion := policySchemaVersion
  version := version
  updatedAtMs := 0
  updatedBy := "ops".toList
  overrides := []
  document := {
    retention := []
    storage := ⟨0, 1 / 2, 1 / 2, 1 / 2⟩
    ingest := ⟨0, 0⟩
    pushdown := ⟨false, 0⟩ }

theorem exampleFile_typed {version : ℕ} (h : version < 2 ^ 64) :
    (recoveredEntry (exampleFile version)).Writable where
  tsMs := Nat.two_pow_pos 64
  version := h
  policies := ⟨nofun, Nat.two_pow_pos 64, Nat.two_pow_pos 64, Nat.two_pow_pos 64, Nat.two_pow_pos 64⟩
  diff := nofun
  impactSummary := by
    simp only [recoveredEntry, Value.valid, validMembers, Bool.and_self]

def exampleState (path : String) : StateLine := ⟨path.toList, 7, "p".toList⟩

/-- Torn lines that the next writer finds removed, by a drop, and one that nothing follows. -/
theorem lines_survive_drop :
    let audits : List AuditLog.Event :=
      [.append _ (@exampleFile_typed 1 (by decide)) (.whole false),
        .append _ (@exampleFile_typed 2 (by decide)) (.torn 0)]
    let state := Runs.run StateLog.step StateLog.fresh [.append (exampleState "a") .whole,
      .append (exampleState "b") .whole, .append (exampleState "c") (.torn 9),
      .drop ["a".toList], .append (exampleState "d") .whole]
    let gaveUp := Runs.run GaveUpLog.step GaveUpLog.fresh [(⟨1, 2, 3⟩, .whole), (⟨1, 2, 3⟩, .torn 4)]
    (∃ log, reconcileAudit halfText (Runs.run (AuditLog.step halfText) AuditLog.fresh audits).bytes
        (exampleFile 2) (.whole false) = (.ok (), log) ∧ hasEntry halfText log 2 = true) ∧
      loadStateLines state.bytes = [exampleState "b", exampleState "d"] ∧
      loadGaveUp gaveUp.bytes = ⟨1, 2, 3⟩ := by
  intro audits state gaveUp
  have haudits : Runs.Meets (AuditLog.step halfText) (fun s ev => s.fits halfText ev = true)
      AuditLog.fresh audits := by decide +kernel
  have hstates : Runs.Meets StateLog.step (fun s ev => s.fits ev = true) StateLog.fresh
      [.append (exampleState "a") .whole, .append (exampleState "b") .whole,
        .append (exampleState "c") (.torn 9), .drop ["a".toList],
        .append (exampleState "d") .whole] := by decide +kernel
  have hgaveUps : Runs.Meets GaveUpLog.step (fun s e => s.fits e = true) GaveUpLog.fresh
      [(⟨1, 2, 3⟩, .whole), (⟨1, 2, 3⟩, .torn 4)] := by decide +kernel
  have hfits : (Runs.run (AuditLog.step halfText) AuditLog.fresh audits).fits halfText
      (.reconcile (exampleFile 2) (exampleFile_typed (by decide)) (.whole false)) = true := by
    decide +kernel
  obtain ⟨-, hreconcile, hstate, hgaveUp⟩ := lines_survive halfText audits _ _ haudits hstates hgaveUps
  exact ⟨hreconcile _ _ _ hfits, hstate.trans (by decide +kernel), hgaveUp.trans (by decide +kernel)⟩

/-- A line written after a torn one is lost although its write returned, in each of the three logs,
and so is the version of a start. A cut within a character loses every line. -/
theorem line_after_torn_lost :
    let state := Runs.run StateLog.step StateLog.fresh
      [.append (exampleState "a") (.torn 9), .append (exampleState "b") .whole]
    let cut := Runs.run StateLog.step StateLog.fresh
      [.append (exampleState "a") .whole, .append (exampleState "é") (.torn 10)]
    let gaveUp := Runs.run GaveUpLog.step GaveUpLog.fresh
      [(⟨1, 2, 3⟩, .torn 4), (⟨1, 2, 3⟩, .whole)]
    let audit := Runs.run (AuditLog.step halfText) AuditLog.fresh
      [.append _ (@exampleFile_typed 1 (by decide)) (.torn 9)]
    let started := reconcileAudit halfText audit.bytes (exampleFile 1) (.whole false)
    (state.landed = [⟨exampleState "b", true⟩] ∧ loadStateLines state.bytes = []) ∧
      (cut.landed = [⟨exampleState "a", true⟩] ∧ loadStateLines cut.bytes = []) ∧
      (gaveUp.landed = [⟨⟨1, 2, 3⟩, true⟩] ∧ loadGaveUp gaveUp.bytes = ⟨0, 0, 0⟩) ∧
      started.1.isOk = true ∧ hasEntry halfText started.2 1 = false := by
  decide +kernel

end

end LogLess.Parts
