import LogLess.Lib.LineLog
import LogLess.Lib.Runs
import LogLess.Policy.Journal

/-!
# The audit log over its life

Appends, starts that write a lost entry back, crashes that leave any beginning of a line, and
compactions, in any order. `AuditLog.holds_run`: `read_audit` returns the entries that landed, if no
append follows a torn line and no cut falls within a character.
-/

namespace LogLess.Policy

open Json Serde LineLog

variable (fr : FracText)

/-- The lines of the audit log. -/
def auditCodec : Codec AuditEntry where
  encode e := render (entryToValue fr e)
  decode := lineEntry fr

/-- The file, and the entries whose lines landed and were not compacted away. -/
structure AuditLog where
  bytes : List UInt8
  landed : List (Landed AuditEntry)

def AuditLog.fresh : AuditLog := ⟨[], []⟩

namespace AuditLog

/-- `append_audit` of an entry, returned or not. -/
def append (s : AuditLog) (e : AuditEntry) : Append → AuditLog
  | .torn k => ⟨appendAudit fr s.bytes e (.torn k), s.landed ++ (auditCodec fr).remnant e k⟩
  | .whole compacts =>
    let landed := s.landed ++ [⟨e, true⟩]
    ⟨appendAudit fr s.bytes e (.whole compacts),
      if auditCompactBytes < (s.bytes ++ auditLine fr e).length ∧ compacts then
        landed.drop (landed.length - auditKeep)
      else landed⟩

/-- `reconcile_audit` has to write the entry of the version. -/
def lacks (s : AuditLog) (version : ℕ) : Bool :=
  (readAudit fr s.bytes).any fun entries => !entries.any fun e => e.version == version

/-- An entry has numbers of 64 bits and values of JSON, as its type says. -/
inductive Event where
  | append (e : AuditEntry) (typed : e.Writable) (how : Append)
  /-- A start with this policy file. -/
  | reconcile (file : PolicyFile) (typed : (recoveredEntry file).Writable) (how : Append)

def step (s : AuditLog) : Event → AuditLog
  | .append e _ how => s.append fr e how
  | .reconcile file _ how =>
    if s.lacks fr file.version then s.append fr (recoveredEntry file) how else s

/-- The fractions of the entry are read back as they are written, and the line is written on a line
of its own, as text. -/
def appendFits (s : AuditLog) (e : AuditEntry) : Append → Bool
  | .torn k => e.policies.reread fr == e.policies && (auditCodec fr).cutFits s.bytes e k
  | .whole _ => e.policies.reread fr == e.policies && beginsLine s.bytes

def fits (s : AuditLog) : Event → Bool
  | .append e _ how => s.appendFits fr e how
  | .reconcile file _ how => !s.lacks fr file.version || s.appendFits fr (recoveredEntry file) how

end AuditLog

/-! ## The reader finds what landed -/

variable {fr}

theorem writes_audit {e : AuditEntry} (h : e.Writable) (hstable : e.policies.reread fr = e.policies) :
    (auditCodec fr).Writes e := by
  have hreread : e.reread fr = e := by
    rw [AuditEntry.reread, hstable]
  obtain ⟨ms, hms⟩ : ∃ ms, entryToValue fr e = .obj ms := ⟨_, rfl⟩
  have hread : readEntry fr (entryToValue fr e) = some e := by
    rw [readEntry_entryToValue h, hreread]
  have hjson := @writes_json _ (entryToValue fr) (readEntry fr) e ms hms (valid_entryToValue h) hread
  refine ⟨hjson.newline, hjson.cr, hjson.ne_nil, ?_, ?_⟩
  · show lineEntry fr (render (entryToValue fr e)) = some e
    rw [lineEntry_render h, hreread]
  · intro p q hpq hq
    have htorn : (parse p).bind (readEntry fr) = none := hjson.torn p q hpq hq
    show lineEntry fr p = none
    rw [lineEntry, htorn, ite_self]

namespace AuditLog

theorem drop_holds {bytes : List UInt8} {landed : List (Landed AuditEntry)}
    (h : Holds (auditCodec fr) bytes landed) :
    Holds (auditCodec fr) (compactAudit fr bytes) (landed.drop (landed.length - auditKeep)) := by
  have hread : readAudit fr bytes = some (landed.map Landed.entry) := h.entries
  have hkept : compactAudit fr bytes
      = ((landed.drop (landed.length - auditKeep)).map Landed.entry).flatMap
          (auditCodec fr).line := by
    rw [compactAudit, hread, List.map_drop]
    simp only [List.length_map]
    rfl
  rw [hkept]
  exact Holds.rewrite fun x hx => h.writes x (List.mem_of_mem_drop hx)

theorem holds_append {s : AuditLog} (h : Holds (auditCodec fr) s.bytes s.landed) {e : AuditEntry}
    (he : e.Writable) {how : Append} (hfits : s.appendFits fr e how = true) :
    Holds (auditCodec fr) (s.append fr e how).bytes (s.append fr e how).landed := by
  cases how with
  | torn k =>
    rw [appendFits, Bool.and_eq_true, beq_iff_eq] at hfits
    exact h.torn (writes_audit he hfits.1) hfits.2
  | whole compacts =>
    rw [appendFits, Bool.and_eq_true, beq_iff_eq] at hfits
    have hlanded := h.append (writes_audit he hfits.1) hfits.2 true
    simp only [append, appendAudit]
    split
    · exact drop_holds hlanded
    · exact hlanded

theorem holds_step {s : AuditLog} (h : Holds (auditCodec fr) s.bytes s.landed) {ev : Event}
    (hfits : s.fits fr ev = true) :
    Holds (auditCodec fr) (s.step fr ev).bytes (s.step fr ev).landed := by
  cases ev with
  | append e typed how => exact holds_append h typed hfits
  | reconcile file typed how =>
    rw [step]
    split
    · next hlacks =>
      rw [fits, hlacks, Bool.not_true, Bool.false_or] at hfits
      exact holds_append h typed hfits
    · exact h

/-- What a start leaves in the file. -/
theorem bytes_reconcile (s : AuditLog) (file : PolicyFile)
    (typed : (recoveredEntry file).Writable) (how : Append) :
    (s.step fr (.reconcile file typed how)).bytes = (reconcileAudit fr s.bytes file how).2 := by
  rw [step, lacks, reconcileAudit]
  cases readAudit fr s.bytes with
  | none => rfl
  | some entries =>
    simp only [Option.any_some, Bool.not_eq_true']
    cases entries.any fun e => e.version == file.version with
    | true => rfl
    | false => cases how <;> rfl

/-- **A start leaves the version readable**, if it may append and its append is not torn. -/
theorem reconcile_readable {s : AuditLog} (h : Holds (auditCodec fr) s.bytes s.landed)
    {file : PolicyFile} {typed : (recoveredEntry file).Writable} {compacts : Bool}
    (hfits : s.fits fr (.reconcile file typed (.whole compacts)) = true) :
    ∃ log, reconcileAudit fr s.bytes file (.whole compacts) = (.ok (), log) ∧
      hasEntry fr log file.version = true := by
  have hread : readAudit fr s.bytes = some (s.landed.map Landed.entry) := h.entries
  rw [reconcileAudit, hread]
  simp only
  by_cases hany : ((s.landed.map Landed.entry).any fun e => e.version == file.version) = true
  · rw [if_pos hany]
    refine ⟨_, rfl, ?_⟩
    rw [hasEntry, hread]
    exact hany
  · rw [if_neg hany]
    refine ⟨_, rfl, hasEntry_iff.mpr ?_⟩
    have hlacks : s.lacks fr file.version = true := by
      rw [lacks, hread, Option.any_some, Bool.not_eq_true']
      exact Bool.not_eq_true _ ▸ hany
    rw [fits, hlacks, Bool.not_true, Bool.false_or, appendFits, Bool.and_eq_true] at hfits
    obtain ⟨text, htext, hends⟩ := (Option.any_eq_true _ _).mp hfits.2
    exact readAudit_appendAudit typed htext hends compacts

theorem holds_run {es : List Event}
    (h : Runs.Meets (step fr) (fun s ev => s.fits fr ev = true) fresh es) :
    Holds (auditCodec fr) (Runs.run (step fr) fresh es).bytes
      (Runs.run (step fr) fresh es).landed :=
  @Runs.Meets.invariant _ _ (step fr) _ (fun s => Holds (auditCodec fr) s.bytes s.landed)
    (fun _ _ hs hfits => holds_step hs hfits) _ _ h Holds.nil

end AuditLog

end LogLess.Policy
