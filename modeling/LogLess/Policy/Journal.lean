import LogLess.Policy.Json

/-!
# The files of the runtime policy

`policy.json` holds the document of the newest version and is replaced whole. The audit log has one
line of JSON for each version and is appended to after it, so a crash may leave any beginning of a
line. `load_effective` is what a start makes of both files.

`readAudit_appendAudit`: an entry that is appended to text that ends a line can be read.
-/

namespace LogLess.Policy

open Json Serde

/-! ## The audit log -/

section

variable (fr : FracText)

/-- What `append_audit` writes for an entry. -/
def auditLine (e : AuditEntry) : List UInt8 :=
  Utf8.encode (render (entryToValue fr e) ++ ['\n'])

/-- The entry of a line, if it has one. -/
def lineEntry (line : Text) : Option AuditEntry :=
  if Text.trim line = [] then none else (parse line).bind (readEntry fr)

/-- `read_audit`: the entries of the lines that have one, or an error where the log is not text. -/
def readAudit (log : List UInt8) : Option (List AuditEntry) :=
  (Utf8.strict log).map fun text => (Text.bufLines text).filterMap (lineEntry fr)

def auditCompactBytes : ℕ := 8 * 2 ^ 20
def auditKeep : ℕ := 500

/-- `compact_audit`: the newest entries are kept. -/
def compactAudit (log : List UInt8) : List UInt8 :=
  match readAudit fr log with
  | none => log
  | some entries => (entries.drop (entries.length - auditKeep)).flatMap (auditLine fr)

/-- How an append ends. -/
inductive Append where
  /-- A crash or an error leaves this many bytes of the line. -/
  | torn (k : ℕ)
  /-- The line is whole, and a log that is too long is compacted or not. -/
  | whole (compacts : Bool)

/-- `append_audit`. -/
def appendAudit (log : List UInt8) (e : AuditEntry) : Append → List UInt8
  | .torn k => log ++ (auditLine fr e).take k
  | .whole compacts =>
    let log := log ++ auditLine fr e
    if auditCompactBytes < log.length ∧ compacts then compactAudit fr log else log

end

/-! ## The policy file -/

/-- `policy.json`. -/
structure PolicyFile where
  schemaVersion : ℕ
  version : ℕ
  updatedAtMs : ℕ
  updatedBy : Text
  overrides : List Text
  document : Policies
deriving DecidableEq

def policySchemaVersion : ℕ := 1

inductive StoreError where
  | unreadable
  | corrupt (message : Text)
  | schema (found : ℕ)
  | invalid (problem : Text)

section

variable (fr : FracText) (debug : Text → Text)

/-- `read_policy_file`, of a file that was written. -/
def readPolicyFile (written : PolicyFile) : Except StoreError PolicyFile :=
  if written.schemaVersion ≠ policySchemaVersion then .error (.schema written.schemaVersion)
  else if written.version = 2 ^ 64 - 1 then
    .error (.corrupt
      "version is at its maximum, so no further version can be written".toList)
  else .ok { written with document := written.document.reread fr }

def recoveredEntry (file : PolicyFile) : AuditEntry where
  tsMs := file.updatedAtMs
  actor := file.updatedBy
  version := file.version
  diff := []
  impactSummary := .obj
    [("note".toList, .str "audit line was lost to a crash; diff unknown".toList),
      ("recovered".toList, .bool true)]
  policies := file.document

/-- `reconcile_audit`: the entry of the newest version is written where the log has none. -/
def reconcileAudit (log : List UInt8) (file : PolicyFile) (append : Append) :
    Except StoreError Unit × List UInt8 :=
  match readAudit fr log with
  | none => (.error .unreadable, log)
  | some entries =>
    if entries.any fun e => e.version == file.version then (.ok (), log)
    else
      let log := appendAudit fr log (recoveredEntry file) append
      match append with
      | .torn _ => (.error .unreadable, log)
      | .whole _ => (.ok (), log)

/-- The problem of a document that cannot be loaded, with its path. -/
def Problem.text (p : Problem) : Text := p.path ++ ": ".toList ++ p.message

/-- `load_effective`: the document of the configuration file, overlaid. -/
def loadEffective (defaults : Policies) (file : Option PolicyFile) (log : List UInt8)
    (append : Append) : Except StoreError (Policies × Option PolicyFile) × List UInt8 :=
  match file with
  | none => (.ok (defaults, none), log)
  | some written =>
    match readPolicyFile fr written with
    | .error e => (.error e, log)
    | .ok file =>
      match overlay debug defaults file.document file.overrides with
      | .error why => (.error (.invalid why), log)
      | .ok effective =>
        match effective.validate debug with
        | p :: _ => (.error (.invalid p.text), log)
        | [] =>
          match reconcileAudit fr log file append with
          | (.error e, log) => (.error e, log)
          | (.ok (), log) => (.ok (effective, some file), log)

end

/-! ## Lines -/

variable {fr : FracText}

theorem renderMembers_concat (ms : List (Text × Value)) :
    ∃ t, renderMembers ms = t ++ ['}'] := by
  induction ms with
  | nil => exact ⟨[], rfl⟩
  | cons m ms ih =>
    obtain ⟨t, ht⟩ := ih
    refine ⟨',' :: (quote m.1 ++ ':' :: (render m.2 ++ t)), ?_⟩
    rw [renderMembers, ht]
    simp only [List.append_assoc, List.cons_append]

theorem render_entryToValue (e : AuditEntry) :
    ∃ t, render (entryToValue fr e) = '{' :: (t ++ ['}']) := by
  obtain ⟨k, ms, hms⟩ : ∃ k ms, entryToValue fr e = .obj ((k, natValue e.tsMs) :: ms) :=
    ⟨_, _, rfl⟩
  obtain ⟨t, ht⟩ := renderMembers_concat ms
  refine ⟨quote k ++ ':' :: (render (natValue e.tsMs) ++ t), ?_⟩
  rw [hms, render, ht]
  simp only [List.append_assoc, List.cons_append]

/-- The line of an entry has the entry. -/
theorem lineEntry_render {e : AuditEntry} (h : e.Writable) :
    lineEntry fr (render (entryToValue fr e)) = some (e.reread fr) := by
  have htrim : Text.trim (render (entryToValue fr e)) ≠ [] := by
    obtain ⟨t, ht⟩ := @render_entryToValue fr e
    rw [ht, Text.trim, List.dropWhile_cons_of_neg (by decide), List.reverse_cons,
      List.reverse_append, List.reverse_singleton, List.singleton_append, List.cons_append,
      List.dropWhile_cons_of_neg (by decide)]
    simp
  rw [lineEntry, if_neg htrim, parse_render (valid_entryToValue h), Option.bind_some,
    readEntry_entryToValue h]

/-- **An entry can be read** where it is appended to text that ends a line. -/
theorem readAudit_append {e : AuditEntry} (h : e.Writable) {log : List UInt8} {text : Text}
    (htext : Utf8.strict log = some text) (hends : Text.endsLine text = true) {entries : List AuditEntry}
    (hread : readAudit fr log = some entries) :
    readAudit fr (log ++ auditLine fr e) = some (entries ++ [e.reread fr]) := by
  have hline : '\n' ∉ render (entryToValue fr e) := by
    intro hmem
    exact absurd (le_of_mem_render _ (valid_entryToValue h) hmem) (by decide)
  have hcr : (render (entryToValue fr e)).getLast? ≠ some '\r' := by
    obtain ⟨t, ht⟩ := @render_entryToValue fr e
    rw [ht, ← List.cons_append, List.getLast?_concat]
    decide
  rw [readAudit, htext, Option.map_some, Option.some.injEq] at hread
  rw [readAudit, auditLine, Utf8.strict_append htext, Option.map_some,
    Text.bufLines_append hends hline hcr, List.filterMap_append, hread]
  simp only [List.filterMap_cons, lineEntry_render h, List.filterMap_nil]

/-- The newest entry can be read after the log is compacted, too. -/
theorem readAudit_appendAudit {e : AuditEntry} (h : e.Writable) {log : List UInt8} {text : Text}
    (htext : Utf8.strict log = some text) (hends : Text.endsLine text = true) (compacts : Bool) :
    ∃ entries, readAudit fr (appendAudit fr log e (.whole compacts)) = some entries ∧
      ∃ x ∈ entries, x.version = e.version := by
  obtain ⟨before, hbefore⟩ : ∃ before, readAudit fr log = some before :=
    ⟨_, by rw [readAudit, htext, Option.map_some]⟩
  have hread := readAudit_append h htext hends hbefore
  simp only [appendAudit]
  split
  · have hagain : (e.reread fr).Writable := ⟨h.tsMs, h.version,
      ⟨h.policies.retention, h.policies.budget, h.policies.timeout, h.policies.capacity,
        h.policies.trigger⟩, h.diff, h.impactSummary⟩
    obtain ⟨kept, hkept⟩ : ∃ kept, (before ++ [e.reread fr]).drop
        ((before ++ [e.reread fr]).length - auditKeep) = kept ++ [e.reread fr] := by
      refine ⟨before.drop ((before ++ [e.reread fr]).length - auditKeep), ?_⟩
      rw [List.drop_append_of_le_length]
      rw [List.length_append]
      have hkeep : 1 ≤ auditKeep := by decide
      simp only [List.length_cons, List.length_nil]
      omega
    have hcompact : compactAudit fr (log ++ auditLine fr e)
        = kept.flatMap (auditLine fr) ++ auditLine fr (e.reread fr) := by
      rw [compactAudit, hread]
      simp only
      rw [hkept, List.flatMap_append, List.flatMap_cons, List.flatMap_nil, List.append_nil]
    have hlines : kept.flatMap (auditLine fr)
        = Utf8.encode (kept.flatMap fun x => render (entryToValue fr x) ++ ['\n']) := by
      rw [Utf8.encode, List.flatMap_assoc]
      rfl
    have hkeptEnds := Text.endsLine_flatMap (fun x => render (entryToValue fr x)) kept
    have hstrict := Utf8.strict_encode
      (kept.flatMap fun x => render (entryToValue fr x) ++ ['\n'])
    obtain ⟨old, hold⟩ : ∃ old, readAudit fr (kept.flatMap (auditLine fr)) = some old :=
      ⟨_, by rw [readAudit, hlines, hstrict, Option.map_some]⟩
    have hlast := readAudit_append hagain (hlines ▸ hstrict) hkeptEnds hold
    rw [hcompact]
    exact ⟨_, hlast, (e.reread fr).reread fr, List.mem_append_right _ List.mem_cons_self, rfl⟩
  · exact ⟨_, hread, e.reread fr, List.mem_append_right _ List.mem_cons_self, rfl⟩

theorem fits_of_readAudit {log : List UInt8} {entries : List AuditEntry}
    (h : readAudit fr log = some entries) {e : AuditEntry} (he : e ∈ entries) :
    e.policies.Fits := by
  obtain ⟨text, -, rfl⟩ := Option.map_eq_some_iff.mp h
  obtain ⟨line, -, hline⟩ := List.mem_filterMap.mp he
  unfold lineEntry at hline
  split at hline
  · cases hline
  · obtain ⟨v, -, hentry⟩ := Option.bind_eq_some_iff.mp hline
    obtain ⟨fields, -, hentry⟩ := Option.bind_eq_some_iff.mp hentry
    obtain ⟨ts, -, hentry⟩ := Option.bind_eq_some_iff.mp hentry
    obtain ⟨actor, -, hentry⟩ := Option.bind_eq_some_iff.mp hentry
    obtain ⟨version, -, hentry⟩ := Option.bind_eq_some_iff.mp hentry
    obtain ⟨diff, -, hentry⟩ := Option.bind_eq_some_iff.mp hentry
    obtain ⟨summary, -, hentry⟩ := Option.bind_eq_some_iff.mp hentry
    obtain ⟨policies, hpolicies, hentry⟩ := Option.bind_eq_some_iff.mp hentry
    cases hentry
    obtain ⟨vp, -, hpolicies⟩ := Option.bind_eq_some_iff.mp hpolicies
    exact fits_of_readPolicies hpolicies

/-! ## Loading -/

/-- What a version is written as. -/
structure PolicyFile.Drafted (debug : Text → Text) (defaults : Policies) (f : PolicyFile) :
    Prop where
  schema : f.schemaVersion = policySchemaVersion
  updatedAtMs : f.updatedAtMs < 2 ^ 64
  overrides : f.overrides = overridesBetween defaults f.document
  valid : f.document.validate debug = []
  fits : f.document.Fits

/-- A file that can be loaded again, with its fractions as they are written. -/
def PolicyFile.loadable (fr : FracText) (f : PolicyFile) : Bool :=
  f.document.reread fr == f.document && f.version < 2 ^ 64 - 1

/-- The log has an entry of this version. -/
def hasEntry (fr : FracText) (log : List UInt8) (version : ℕ) : Bool :=
  (readAudit fr log).any fun entries => entries.any fun e => e.version == version

/-- The log has the entry, or one can be appended. -/
def ready (fr : FracText) (log : List UInt8) (version : ℕ) : Bool :=
  hasEntry fr log version || (Utf8.strict log).any Text.endsLine

theorem hasEntry_iff {log : List UInt8} {version : ℕ} :
    hasEntry fr log version = true ↔
      ∃ entries, readAudit fr log = some entries ∧ ∃ x ∈ entries, x.version = version := by
  rw [hasEntry, Option.any_eq_true]
  simp only [List.any_eq_true, beq_iff_eq]

section

variable {debug : Text → Text} {defaults : Policies} {f : PolicyFile} {log : List UInt8}

/-- The entry is there afterwards, unless its append is torn. -/
theorem reconcileAudit_spec (hf : f.Drafted debug defaults) (hversion : f.version < 2 ^ 64)
    (h : ready fr log f.version = true) (append : Append) :
    (∃ log', reconcileAudit fr log f append = (.ok (), log') ∧
      hasEntry fr log' f.version = true) ∨
    ∃ k log', append = .torn k ∧ reconcileAudit fr log f append = (.error .unreadable, log') := by
  have hwritable : (recoveredEntry f).Writable := by
    refine ⟨hf.updatedAtMs, hversion, hf.fits, nofun, ?_⟩
    simp only [recoveredEntry, Value.valid, validMembers, Bool.and_self]
  rw [ready, Bool.or_eq_true, hasEntry_iff, Option.any_eq_true] at h
  obtain ⟨entries, hread⟩ : ∃ entries, readAudit fr log = some entries := by
    rcases h with ⟨entries, hread, -⟩ | ⟨text, htext, -⟩
    · exact ⟨entries, hread⟩
    · exact ⟨_, by rw [readAudit, htext, Option.map_some]⟩
  unfold reconcileAudit
  rw [hread]
  simp only
  by_cases hany : (entries.any fun e => e.version == f.version) = true
  · left
    rw [if_pos hany]
    refine ⟨log, rfl, ?_⟩
    rw [hasEntry, hread]
    exact hany
  · rw [if_neg hany]
    cases append with
    | torn k => exact .inr ⟨k, _, rfl, rfl⟩
    | whole compacts =>
      left
      refine ⟨_, rfl, ?_⟩
      rcases h with ⟨entries', hread', x, hx, hx'⟩ | ⟨text, htext, hends⟩
      · rw [hread, Option.some.injEq] at hread'
        subst hread'
        exact absurd (List.any_eq_true.mpr ⟨x, hx, by simpa using hx'⟩) hany
      · exact hasEntry_iff.mpr (readAudit_appendAudit hwritable htext hends compacts)

/-- **A start** loads the document of the newest version, over the same configuration file. -/
theorem loadEffective_spec (hf : f.Drafted debug defaults) (hloadable : f.loadable fr = true)
    (h : ready fr log f.version = true) (append : Append) :
    (∃ log', loadEffective fr debug defaults (some f) log append
        = (.ok (f.document, some f), log') ∧ hasEntry fr log' f.version = true) ∨
    ∃ k e log', append = .torn k ∧
      loadEffective fr debug defaults (some f) log append = (.error e, log') := by
  rw [PolicyFile.loadable, Bool.and_eq_true, beq_iff_eq, decide_eq_true_eq] at hloadable
  obtain ⟨hstable, hversion⟩ := hloadable
  have hread : readPolicyFile fr f = .ok f := by
    have hne : f.version ≠ 2 ^ 64 - 1 := hversion.ne
    rw [readPolicyFile, if_neg (not_not.mpr hf.schema), if_neg hne, hstable]
  have hoverlay := @overlay_overridesBetween debug defaults f.document
    (Policies.length_lt_of_validate hf.valid)
  rw [← hf.overrides] at hoverlay
  unfold loadEffective
  simp only [hread, hoverlay, hf.valid]
  rcases reconcileAudit_spec hf (by omega) h append with
    ⟨log', hreconcile, hentry⟩ | ⟨k, log', htorn, hreconcile⟩
  · left
    rw [hreconcile]
    exact ⟨log', rfl, hentry⟩
  · right
    rw [hreconcile]
    exact ⟨k, .unreadable, log', htorn, rfl⟩

end

end LogLess.Policy
