import LogLess.Auth.Admit
import LogLess.Lib.Assoc
import LogLess.Lib.Lists
import LogLess.Lib.Rollup
import LogLess.Lib.Text
import Mathlib.Data.Char

/-!
# The store as the S3 server sees it

A tree of files and directories under one root, the scope of a reader, and which keys are
served. A key is a path with its names joined by slashes.

Names are text: no key resolves to a name that is not UTF-8, and a listing skips it. Strings
are compared bytewise in the source, which for UTF-8 is the order of the characters.
-/

namespace LogLess.S3

/-! ## Files and directories -/

/-- A regular file. -/
structure FileData where
  content : List UInt8
  /-- In nanoseconds since 1970, and zero before. -/
  mtime : ℕ
deriving DecidableEq

/-- What `symlink_metadata` says a name is. -/
inductive Kind where
  | file (f : FileData)
  | dir
  /-- A link, wherever it leads, or a device. -/
  | other
deriving DecidableEq

/-- A name in a directory. -/
def validName (name : Text) : Prop := name ≠ [] ∧ '/' ∉ name ∧ Char.ofNat 0 ∉ name

/-- A tree of files: what is at each path below the root. -/
structure Tree where
  entries : List (Path × Kind)
  nodup : (entries.map Prod.fst).Nodup
  names : ∀ e ∈ entries, e.1 ≠ [] ∧ ∀ name ∈ e.1, validName name
  parents : ∀ (dir : Path) (name : Text), dir ++ [name] ∈ entries.map Prod.fst → dir ≠ [] →
    Assoc.get entries dir = some .dir

namespace Tree

variable (t : Tree)

/-- `symlink_metadata`. -/
def kind? (path : Path) : Option Kind :=
  if path = [] then some .dir else Assoc.get t.entries path

/-- `read_dir`, in the order of the file system. -/
def readDir (dir : Path) : List (Text × Kind) :=
  t.entries.filterMap fun e =>
    if e.1.dropLast = dir then e.1.getLast?.map fun name => (name, e.2) else none

/-- No path is longer. -/
def depth : ℕ := (t.entries.map fun e => e.1.length).foldr max 0

end Tree

/-- The key of a directory. -/
def dirKey (dir : Path) : Text := dir.flatMap fun name => name ++ ['/']

/-- The key of a file. -/
def fileKey (path : Path) : Text := dirKey path.dropLast ++ path.getLastD []

/-! ## Scopes -/

/-- The prefixes of keys that a reader may read; the empty one is the whole store. -/
structure ReadScope where
  roots : List Text
deriving DecidableEq

namespace ReadScope

def whole : ReadScope := ⟨[[]]⟩

def everyTenant : Text := ['*']

/-- The names of the directories of a tenant and of an index. -/
def tenantDir (tenant : Text) : Text := "tenant=".toList ++ tenant

def indexDir (index : Text) : Text := "index=".toList ++ index

/-- `ReadScope::of`. -/
def of (principal : Auth.Principal) : ReadScope :=
  if principal.tenant = everyTenant then whole
  else if ¬ validIdent principal.tenant then ⟨[]⟩
  else
    match principal.indexes with
    | .all => ⟨[dirKey [tenantDir principal.tenant]]⟩
    | .only list => ⟨(list.filter fun i => validIdent i).map fun i =>
        dirKey [tenantDir principal.tenant, indexDir i]⟩

def isWhole (scope : ReadScope) : Bool := scope.roots.any List.isEmpty

def allows (scope : ReadScope) (key : Text) : Bool :=
  scope.roots.any fun root => root.isPrefixOf key

/-- Inside the scope, or on the way down to it. -/
def reaches (scope : ReadScope) (dirKey : Text) : Bool :=
  scope.roots.any fun root => root.isPrefixOf dirKey || dirKey.isPrefixOf root

end ReadScope

/-! ## Keys -/

def metaDir : Text := "_meta".toList

def servable (key : Text) : Bool :=
  ".parquet".toList.isSuffixOf key
    || (".pq".toList.isSuffixOf key && (Text.splitAt '/' key).any fun segment => segment = metaDir)

/-- A segment that no path may have. -/
def badSegment (s : Text) : Bool :=
  s.isEmpty || s.head? = some '.' || s.contains '\\' || s.contains (Char.ofNat 0)

def safeSegments (key : Text) : Option (List Text) :=
  if key.isEmpty then none
  else
    let segments := Text.splitAt '/' key
    if segments.any badSegment then none else some segments

/-- Walks down from a directory; every name but the last must be a directory that is not
reached through a link, and so must the last one, or it must be a file. -/
def Tree.descend (t : Tree) (last : Kind → Bool) : Path → List Text → Option Path
  | path, [] => some path
  | path, segment :: segments =>
    match t.kind? (path ++ [segment]) with
    | none => none
    | some kind =>
      if (if segments.isEmpty then last kind else kind = .dir) then
        t.descend last (path ++ [segment]) segments
      else none

def Kind.isFile : Kind → Bool
  | .file _ => true
  | _ => false

/-- `Inner::resolve`. -/
def resolve (t : Tree) (key : Text) : Option Path := do
  let segments ← safeSegments key
  if ¬ servable key then none else t.descend Kind.isFile [] segments

/-- The directory part of a prefix: up to its last slash. -/
def baseOf (pfx : Text) : Text :=
  match Text.rsplitOnce '/' pfx with
  | some (before, _) => before ++ ['/']
  | none => []

/-- `list_base`: the directory to start walking at and its key. -/
def listBase (t : Tree) (pfx : Text) : Option (Path × Text) :=
  let base := baseOf pfx
  if base.isEmpty then some ([], base)
  else do
    let segments ← safeSegments base.dropLast
    let dir ← t.descend (fun kind => kind = .dir) [] segments
    some (dir, base)

/-! ## Facts about trees -/

namespace Tree

variable {t : Tree} {dir path : Path} {name : Text} {kind : Kind}

theorem mem_readDir : (name, kind) ∈ t.readDir dir ↔ (dir ++ [name], kind) ∈ t.entries := by
  rw [readDir, List.mem_filterMap]
  constructor
  · rintro ⟨⟨path, kind'⟩, he, hsome⟩
    simp only at hsome
    split at hsome
    · next hdir =>
      obtain ⟨last, hlast, heq⟩ := Option.map_eq_some_iff.mp hsome
      obtain ⟨rfl, rfl⟩ := Prod.mk.inj heq
      rwa [← hdir, List.dropLast_append_getLast? last hlast]
    · cases hsome
  · intro he
    exact ⟨_, he, by simp⟩

theorem nodup_readDir (t : Tree) (dir : Path) : ((t.readDir dir).map Prod.fst).Nodup := by
  have hentries : (t.readDir dir).Pairwise fun a b => a.1 ≠ b.1 := by
    rw [readDir, List.pairwise_filterMap]
    refine (List.pairwise_map.mp t.nodup).imp ?_
    rintro ⟨p, k⟩ ⟨q, l⟩ hne a ha b hb heq
    simp only at ha hb hne
    split at ha
    · next hp =>
      split at hb
      · next hq =>
        obtain ⟨x, hx, rfl⟩ := Option.map_eq_some_iff.mp ha
        obtain ⟨y, hy, rfl⟩ := Option.map_eq_some_iff.mp hb
        obtain rfl : x = y := heq
        apply hne
        rw [← List.dropLast_append_getLast? x hx, ← List.dropLast_append_getLast? x hy, hp, hq]
      · cases hb
    · cases ha
  exact List.pairwise_map.mpr hentries

theorem kind?_eq_some (hne : path ≠ []) : t.kind? path = some kind ↔ (path, kind) ∈ t.entries := by
  rw [kind?, if_neg hne, Assoc.get_eq_some_iff t.nodup]

theorem validName_of_mem (h : (path, kind) ∈ t.entries) : ∀ n ∈ path, validName n :=
  (t.names _ h).2

/-- What leads to something is a directory. -/
theorem kind?_of_append {rest : Path} (hne : rest ≠ []) (h : (dir ++ rest, kind) ∈ t.entries) :
    t.kind? dir = some .dir := by
  induction rest using List.reverseRecOn generalizing kind with
  | nil => exact absurd rfl hne
  | append_singleton rest name ih =>
    rw [← List.append_assoc] at h
    by_cases hdir : dir ++ rest = []
    · rw [(List.append_eq_nil_iff.mp hdir).1]
      rfl
    · have hparent := t.parents _ _ (List.mem_map_of_mem h) hdir
      by_cases hrest : rest = []
      · rw [hrest, List.append_nil] at hparent hdir
        rw [kind?, if_neg hdir, hparent]
      · exact ih hrest (Assoc.mem_of_get hparent)

theorem length_le_depth (h : (path, kind) ∈ t.entries) : path.length ≤ t.depth := by
  have hmax : ∀ (ns : List ℕ) (n : ℕ), n ∈ ns → n ≤ ns.foldr max 0 := by
    intro ns n hn
    induction ns with
    | nil => cases hn
    | cons m ns ih =>
      rw [List.foldr_cons]
      rcases List.mem_cons.mp hn with rfl | hn
      · exact le_max_left _ _
      · exact (ih hn).trans (le_max_right _ _)
  exact hmax _ _ (List.mem_map_of_mem (f := fun e : Path × Kind => e.1.length) h)

end Tree

theorem dirKey_append (a b : Path) : dirKey (a ++ b) = dirKey a ++ dirKey b := List.flatMap_append

theorem dirKey_concat (dir : Path) (name : Text) :
    dirKey (dir ++ [name]) = dirKey dir ++ (name ++ ['/']) := by
  simp [dirKey, List.flatMap_append]

theorem fileKey_concat (dir : Path) (name : Text) : fileKey (dir ++ [name]) = dirKey dir ++ name := by
  simp [fileKey]

/-- The key of what is below a directory starts with the key of the directory. -/
theorem dirKey_isPrefix_fileKey (dir : Path) {rest : Path} (h : rest ≠ []) :
    dirKey dir <+: fileKey (dir ++ rest) := by
  obtain ⟨before, name, rfl⟩ : ∃ before name, rest = before ++ [name] :=
    ⟨_, _, (List.dropLast_append_getLast h).symm⟩
  rw [← List.append_assoc, fileKey_concat, dirKey_append, List.append_assoc]
  exact List.prefix_append _ _

theorem dirKey_isPrefix (dir rest : Path) : dirKey dir <+: dirKey (dir ++ rest) := by
  rw [dirKey_append]
  exact List.prefix_append _ _

/-- A key is split into the names it is made of. -/
theorem splitAt_fileKey {path : Path} (hne : path ≠ []) (h : ∀ name ∈ path, '/' ∉ name) :
    Text.splitAt '/' (fileKey path) = path := by
  obtain ⟨dir, name, rfl⟩ : ∃ dir name, path = dir ++ [name] :=
    ⟨_, _, (List.dropLast_append_getLast hne).symm⟩
  rw [fileKey_concat]
  have hname : '/' ∉ name := h name (by simp)
  replace h : ∀ n ∈ dir, '/' ∉ n := fun n hn => h n (List.mem_append_left _ hn)
  clear hne
  induction dir with
  | nil => exact Text.splitAt_of_notMem hname
  | cons n dir ih =>
    have hn := h n List.mem_cons_self
    have hkey : dirKey (n :: dir) ++ name = n ++ '/' :: (dirKey dir ++ name) := by
      simp [dirKey, List.append_assoc]
    rw [hkey, Text.splitAt_append_sep, Text.splitAt_of_notMem hn,
      ih fun m hm => h m (List.mem_cons_of_mem _ hm)]
    rfl

theorem splitAt_dirKey {path : Path} (h : ∀ name ∈ path, '/' ∉ name) :
    Text.splitAt '/' (dirKey path) = path ++ [[]] := by
  have hkey : dirKey path = fileKey (path ++ [[]]) := by rw [fileKey_concat, List.append_nil]
  rw [hkey, splitAt_fileKey (by simp)]
  intro name hname
  rcases List.mem_append.mp hname with hname | hname
  · exact h name hname
  · simp [List.mem_singleton.mp hname]

theorem dirKey_splitAt (t : Text) : dirKey (Text.splitAt '/' t) = t ++ ['/'] :=
  Text.flatMap_splitAt '/' t

/-- A path is found exactly if it is there: every name on the way is then a directory. -/
theorem Tree.descend_eq_some {t : Tree} {last : Kind → Bool} {path segments q : Path}
    (hne : segments ≠ []) :
    t.descend last path segments = some q ↔
      q = path ++ segments ∧ ∃ kind, t.kind? q = some kind ∧ last kind = true := by
  induction segments generalizing path with
  | nil => exact absurd rfl hne
  | cons segment segments ih =>
    have hsplit : path ++ segment :: segments = (path ++ [segment]) ++ segments := by simp
    rw [descend]
    by_cases hsegs : segments = []
    · subst hsegs
      cases hkind : t.kind? (path ++ [segment]) with
      | none =>
        simp only [reduceCtorEq, false_iff]
        rintro ⟨rfl, kind, hk, -⟩
        rw [hkind] at hk
        cases hk
      | some kind =>
        simp only [List.isEmpty_nil, if_true, descend]
        constructor
        · intro h
          split at h
          · next hlast =>
            obtain rfl := Option.some.inj h
            exact ⟨rfl, kind, hkind, hlast⟩
          · cases h
        · rintro ⟨rfl, k, hk, hlast⟩
          rw [hkind, Option.some.injEq] at hk
          rw [hk, if_pos hlast]
    · have hempty : segments.isEmpty = false := by simpa using hsegs
      constructor
      · intro h
        cases hkind : t.kind? (path ++ [segment]) with
        | none => rw [hkind] at h; cases h
        | some kind =>
          simp only [hkind, hempty, Bool.false_eq_true, if_false] at h
          by_cases hd : decide (kind = .dir) = true
          · rw [if_pos hd, ih hsegs] at h
            rw [hsplit]
            exact h
          · rw [if_neg hd] at h
            cases h
      · rintro ⟨rfl, kind, hk, hlast⟩
        have hmem : (path ++ segment :: segments, kind) ∈ t.entries :=
          (Tree.kind?_eq_some (by simp)).mp hk
        have hdir : t.kind? (path ++ [segment]) = some .dir :=
          Tree.kind?_of_append hsegs (hsplit ▸ hmem)
        simp only [hdir, hempty, Bool.false_eq_true, if_false, decide_true, if_true]
        rw [ih hsegs]
        exact ⟨hsplit, kind, hk, hlast⟩

/-! ## The base of a listing -/

theorem baseOf_isPrefix (pfx : Text) : baseOf pfx <+: pfx := by
  unfold baseOf
  cases h : Text.rsplitOnce '/' pfx with
  | none => exact List.nil_prefix
  | some v =>
    obtain ⟨before, rest⟩ := v
    have := Text.eq_of_rsplitOnce h
    exact ⟨rest, by rw [this]; simp⟩

theorem baseOf_eq (pfx : Text) : baseOf pfx = [] ∨ ∃ before, baseOf pfx = before ++ ['/'] := by
  unfold baseOf
  cases Text.rsplitOnce '/' pfx with
  | none => exact .inl rfl
  | some v => exact .inr ⟨v.1, rfl⟩

theorem listBase_eq_some {t : Tree} {pfx : Text} {dir : Path} {base : Text}
    (h : listBase t pfx = some (dir, base)) :
    base = dirKey dir ∧ base = baseOf pfx ∧ t.kind? dir = some .dir ∧
      ∀ name ∈ dir, name.head? ≠ some '.' := by
  rw [listBase] at h
  rcases baseOf_eq pfx with hbase | ⟨before, hbase⟩
  · simp only [hbase, List.isEmpty_nil, if_true, Option.some.injEq, Prod.mk.injEq] at h
    obtain ⟨rfl, rfl⟩ := h
    exact ⟨rfl, hbase.symm, rfl, by simp⟩
  · have hempty : (before ++ ['/']).isEmpty = false := by simp
    simp only [hbase, hempty, Bool.false_eq_true, if_false, List.dropLast_concat,
      Option.bind_eq_bind] at h
    obtain ⟨segments, hsafe, h⟩ := Option.bind_eq_some_iff.mp h
    obtain ⟨q, hdescend, h⟩ := Option.bind_eq_some_iff.mp h
    obtain ⟨rfl, rfl⟩ := Prod.mk.inj (Option.some.inj h)
    unfold safeSegments at hsafe
    split at hsafe
    · cases hsafe
    · simp only at hsafe
      split at hsafe
      · cases hsafe
      · next hgood =>
        obtain rfl := Option.some.inj hsafe
        rw [Tree.descend_eq_some (Text.splitAt_ne_nil _ _)] at hdescend
        obtain ⟨rfl, kind, hkind, hlast⟩ := hdescend
        rw [List.nil_append] at hkind ⊢
        refine ⟨(dirKey_splitAt before).symm, hbase.symm, ?_, ?_⟩
        · rw [hkind, of_decide_eq_true hlast]
        · intro name hname hdot
          apply hgood
          exact List.any_eq_true.mpr ⟨name, hname, by simp [badSegment, hdot]⟩

/-- A prefix whose directory part has a backslash lists nothing. -/
theorem listBase_of_backslash (t : Tree) {pfx : Text} (h : '\\' ∈ baseOf pfx) :
    listBase t pfx = none := by
  rcases baseOf_eq pfx with hbase | ⟨before, hbase⟩
  · rw [hbase] at h
    cases h
  · rw [hbase] at h
    have hmem : '\\' ∈ before := by simpa using h
    obtain ⟨part, hpart, hc⟩ := Text.exists_mem_splitAt hmem (show '\\' ≠ '/' by decide)
    have hsafe : safeSegments before = none := by
      unfold safeSegments
      split
      · rfl
      · simp only
        rw [if_pos]
        exact List.any_eq_true.mpr ⟨part, hpart, by simp [badSegment, hc]⟩
    simp [listBase, hbase, hsafe]

/-- A directory with names that a key may have can be listed. -/
theorem listBase_of_dir {t : Tree} {pfx : Text} {dir : Path} (hbase : baseOf pfx = dirKey dir)
    (hdir : t.kind? dir = some .dir) (hdots : ∀ name ∈ dir, name.head? ≠ some '.')
    (hvalid : ∀ name ∈ dir, validName name) (hback : '\\' ∉ baseOf pfx) :
    listBase t pfx = some (dir, baseOf pfx) := by
  by_cases hnil : dir = []
  · subst hnil
    rw [listBase, hbase]
    rfl
  · obtain ⟨before, hbefore⟩ : ∃ before, baseOf pfx = before ++ ['/'] := by
      rcases baseOf_eq pfx with h | h
      · rw [h] at hbase
        obtain ⟨name, rest, rfl⟩ := List.exists_cons_of_ne_nil hnil
        simp [dirKey] at hbase
      · exact h
    have hsplit : Text.splitAt '/' before = dir := by
      have hkeys : Text.splitAt '/' (before ++ ['/']) = Text.splitAt '/' (dirKey dir) := by
        rw [← hbefore, hbase]
      rw [Text.splitAt_append_sep, splitAt_dirKey fun n hn => (hvalid n hn).2.1] at hkeys
      exact (List.append_inj' hkeys rfl).1
    have hne : before ≠ [] := by
      rintro rfl
      have hmem : ([] : Text) ∈ dir := by rw [← hsplit]; simp [Text.splitAt]
      exact (hvalid [] hmem).1 rfl
    have hgood : ¬ (dir.any badSegment = true) := by
      rw [List.any_eq_true]
      rintro ⟨name, hname, hbad⟩
      have hv := hvalid name hname
      have hslash : '\\' ∉ name := by
        intro hc
        apply hback
        rw [hbase]
        exact List.mem_flatMap.mpr ⟨name, hname, List.mem_append_left _ hc⟩
      simp [badSegment, hv.1, hv.2.2, hdots name hname, hslash] at hbad
    have hsafe : safeSegments before = some dir := by
      rw [safeSegments, if_neg (by simpa using hne)]
      simp only [hsplit]
      rw [if_neg hgood]
    have hdescend : t.descend (fun kind => kind = .dir) [] dir = some dir := by
      rw [Tree.descend_eq_some hnil]
      exact ⟨rfl, .dir, hdir, by simp⟩
    simp [listBase, hbefore, hsafe, hdescend]

/-- The directory part of a prefix of a key is the key of a directory on the way. -/
theorem exists_dir_of_isPrefix {names : Path} {key before : Text}
    (hkey : Text.splitAt '/' key = names) (h : before ++ ['/'] <+: key) :
    ∃ dir rest, rest ≠ [] ∧ names = dir ++ rest ∧ dirKey dir = before ++ ['/'] := by
  obtain ⟨t, rfl⟩ := h
  refine ⟨Text.splitAt '/' before, Text.splitAt '/' t, Text.splitAt_ne_nil _ _, ?_,
    dirKey_splitAt before⟩
  rw [← hkey, List.append_assoc, List.singleton_append, Text.splitAt_append_sep]

namespace ReadScope

variable {scope : ReadScope} {key key' : Text}

theorem allows_iff : scope.allows key = true ↔ ∃ root ∈ scope.roots, root <+: key := by
  simp [allows]

theorem reaches_iff :
    scope.reaches key = true ↔ ∃ root ∈ scope.roots, root <+: key ∨ key <+: root := by
  simp [reaches]

/-- The way down to what is allowed is reached. -/
theorem reaches_of_allows (hkey : key <+: key') (h : scope.allows key' = true) :
    scope.reaches key = true := by
  obtain ⟨root, hroot, hpre⟩ := allows_iff.mp h
  exact reaches_iff.mpr ⟨root, hroot, List.prefix_or_prefix_of_prefix hpre hkey⟩

theorem reaches_of_reaches (hkey : key <+: key') (h : scope.reaches key' = true) :
    scope.reaches key = true := by
  obtain ⟨root, hroot, hpre | hpre⟩ := reaches_iff.mp h
  · exact reaches_iff.mpr ⟨root, hroot, List.prefix_or_prefix_of_prefix hpre hkey⟩
  · exact reaches_iff.mpr ⟨root, hroot, .inr (hkey.trans hpre)⟩

end ReadScope

end LogLess.S3
