import LogLess.S3.Serve

/-!
# What a scoped reader sees

A reader whose scope is not the whole store is served files of its scope, sees keys of its scope
and the way down to it in listings, and gets the same replies from two stores that agree on the
files and directories of its scope and on the directories above it.
-/

namespace LogLess.S3

open Auth

/-! ## Listings -/

section

variable {p : ListParams} {t t' : Tree} {scope : ReadScope}

theorem mem_page {u : ListUnit} (hu : u ∈ (page p t scope).out) : u ∈ pushed p t scope := by
  by_cases hmax : p.maxKeys = 0
  · rw [page, if_pos hmax] at hu
    cases hu
  · rw [(page_eq (by omega) pairwise_pushedOnce fun _ => mem_pushedOnce).1] at hu
    exact mem_pushedOnce.mp (List.mem_of_mem_filter (List.mem_of_mem_take hu))

/-- A key is in the scope; a common prefix is in it or on the way down to it. -/
def ListUnit.seenIn (scope : ReadScope) : ListUnit → Prop
  | .key k _ _ _ => scope.allows k = true
  | .commonPrefix cp => scope.reaches cp = true

theorem seenIn_of_mem_pushed {u : ListUnit} (hu : u ∈ pushed p t scope) : u.seenIn scope := by
  rw [pushed] at hu
  split at hu
  · cases hu
  · next dir base hbase =>
    obtain ⟨x, hx, rfl⟩ := List.mem_map.mp hu
    rw [(listBase_eq_some hbase).1] at hx
    rcases listed_of_mem_candidates hx with ⟨path, f, h, hunit⟩ | ⟨path, cp, h, hunit⟩
    · rw [hunit]
      unfold unitOf
      split
      · next cp hcp => exact ReadScope.reaches_of_allows (commonPrefix_isPrefix hcp) h.allowed
      · exact h.allowed
    · rw [hunit]
      exact ReadScope.reaches_of_reaches (commonPrefix_isPrefix h.rolled) h.reached

/-- The same files in the scope, and the same directories in it and above it. -/
structure Agree (scope : ReadScope) (t t' : Tree) : Prop where
  files : ∀ path f, scope.allows (fileKey path) = true →
    ((path, .file f) ∈ t.entries ↔ (path, .file f) ∈ t'.entries)
  dirs : ∀ path, scope.reaches (dirKey path) = true →
    ((path, .dir) ∈ t.entries ↔ (path, .dir) ∈ t'.entries)

theorem Agree.listedFile (h : Agree scope t t') {dir path : Path} {f : FileData} :
    ListedFile p t scope dir path f ↔ ListedFile p t' scope dir path f :=
  ⟨fun hf => { hf with mem := (h.files path f hf.allowed).mp hf.mem },
    fun hf => { hf with mem := (h.files path f hf.allowed).mpr hf.mem }⟩

theorem Agree.listedDir (h : Agree scope t t') {dir path : Path} {cp : Text} :
    ListedDir p t scope dir path cp ↔ ListedDir p t' scope dir path cp :=
  ⟨fun hd => { hd with mem := (h.dirs path hd.reached).mp hd.mem },
    fun hd => { hd with mem := (h.dirs path hd.reached).mpr hd.mem }⟩

theorem Agree.pushed (h : Agree scope t t') (hd : p.delimiter ≠ some []) (u : ListUnit) :
    u ∈ pushed p t scope ↔ u ∈ pushed p t' scope := by
  by_cases hback : '\\' ∈ baseOf p.pfx
  · simp [S3.pushed, listBase_of_backslash _ hback]
  · rw [mem_pushed hd hback, mem_pushed hd hback]
    simp only [h.listedFile, h.listedDir]

/-- The page of a listing shows nothing else of the stores. -/
theorem Agree.page (h : Agree scope t t') (hd : p.delimiter ≠ some []) :
    (page p t scope).out = (page p t' scope).out ∧
      (page p t scope).truncated = (page p t' scope).truncated := by
  by_cases hmax : p.maxKeys = 0
  · simp [S3.page, hmax]
  · have hlines : (pushedOnce p t scope).Pairwise fun u v => u.text < v.text :=
      pairwise_pushedOnce
    have hmem : ∀ u, u ∈ pushedOnce p t scope ↔ u ∈ S3.pushed p t scope := fun _ => mem_pushedOnce
    obtain ⟨hout, htrunc⟩ := page_eq (by omega) hlines hmem
    obtain ⟨hout', htrunc'⟩ := page_eq (by omega) hlines fun u => (hmem u).trans (h.pushed hd u)
    exact ⟨hout.trans hout'.symm, htrunc.trans htrunc'.symm⟩

/-! ## Objects -/

/-- A regular file that is reached through directories only. -/
def Reached (t : Tree) (path : Path) (f : FileData) : Prop :=
  (path, .file f) ∈ t.entries ∧
    ∀ dir rest, path = dir ++ rest → rest ≠ [] → t.kind? dir = some .dir

theorem reached_of_mem {path : Path} {f : FileData} (h : (path, .file f) ∈ t.entries) :
    Reached t path f := by
  refine ⟨h, ?_⟩
  rintro dir rest rfl hne
  exact Tree.kind?_of_append hne h

theorem safeSegments_eq_some {key : Text} {path : Path} (h : safeSegments key = some path) :
    path = Text.splitAt '/' key ∧ path ≠ [] ∧ fileKey path = key := by
  unfold safeSegments at h
  split at h
  · cases h
  · simp only at h
    split at h
    · cases h
    · obtain rfl := Option.some.inj h
      refine ⟨rfl, Text.splitAt_ne_nil _ _, ?_⟩
      -- the names with slashes between them make up the key
      have hne := Text.splitAt_ne_nil '/' key
      have hjoin := dirKey_splitAt key
      rw [← List.dropLast_append_getLast hne, dirKey_concat, ← List.append_assoc] at hjoin
      have hkey := (List.append_inj' hjoin rfl).1
      rw [← List.dropLast_append_getLast hne, fileKey_concat]
      exact hkey

theorem fileOf_eq_some {key : Text} {f : FileData} : fileOf t key = some f ↔
    ∃ path, safeSegments key = some path ∧ servable key = true ∧ (path, .file f) ∈ t.entries := by
  rw [fileOf, resolve]
  constructor
  · intro h
    obtain ⟨path, hresolve, h⟩ := Option.bind_eq_some_iff.mp h
    obtain ⟨segments, hsafe, hresolve⟩ := Option.bind_eq_some_iff.mp hresolve
    split at hresolve
    · cases hresolve
    · next hserv =>
      obtain ⟨-, hne, -⟩ := safeSegments_eq_some hsafe
      rw [Tree.descend_eq_some hne] at hresolve
      obtain ⟨rfl, -⟩ := hresolve
      refine ⟨_, hsafe, by simpa using hserv, ?_⟩
      split at h
      · next f' hkind =>
        obtain rfl := Option.some.inj h
        exact (Tree.kind?_eq_some hne).mp hkind
      · cases h
  · rintro ⟨path, hsafe, hserv, hmem⟩
    obtain ⟨-, hne, -⟩ := safeSegments_eq_some hsafe
    have hkind := (Tree.kind?_eq_some hne).mpr hmem
    have hdescend : t.descend Kind.isFile [] path = some path := by
      rw [Tree.descend_eq_some hne]
      exact ⟨rfl, .file f, hkind, rfl⟩
    simp [hsafe, hserv, hdescend, hkind]

theorem Agree.fileOf (h : Agree scope t t') {key : Text} (hkey : scope.allows key = true) :
    fileOf t key = fileOf t' key := by
  ext f
  rw [fileOf_eq_some, fileOf_eq_some]
  refine exists_congr fun path => and_congr_right fun hsafe => and_congr_right fun _ => ?_
  rw [h.files path f]
  rw [(safeSegments_eq_some hsafe).2.2]
  exact hkey

/-! ## What a principal may read -/

/-- A path in the part of the store that belongs to the principal: below its tenant, and below
one of its indexes if it has a list of these. -/
def Within (principal : Principal) (path : Path) : Prop :=
  match principal.indexes with
  | .all => ∃ rest, rest ≠ [] ∧ path = ReadScope.tenantDir principal.tenant :: rest
  | .only list => ∃ index ∈ list, ∃ rest, rest ≠ [] ∧
      path = ReadScope.tenantDir principal.tenant :: ReadScope.indexDir index :: rest

theorem slash_notMem_of_validIdent {s : Text} (h : validIdent s = true) : '/' ∉ s := by
  intro hmem
  simp only [validIdent, Bool.and_eq_true, List.all_eq_true] at h
  have := h.1.2 '/' hmem
  revert this
  decide

theorem slash_notMem_tenantDir {s : Text} (h : validIdent s = true) :
    '/' ∉ ReadScope.tenantDir s := by
  have hname : '/' ∉ "tenant=".toList := by simp
  intro hmem
  rcases List.mem_append.mp hmem with hmem | hmem
  · exact hname hmem
  · exact slash_notMem_of_validIdent h hmem

theorem slash_notMem_indexDir {s : Text} (h : validIdent s = true) :
    '/' ∉ ReadScope.indexDir s := by
  have hname : '/' ∉ "index=".toList := by simp
  intro hmem
  rcases List.mem_append.mp hmem with hmem | hmem
  · exact hname hmem
  · exact slash_notMem_of_validIdent h hmem

/-- The names of a key below a directory. -/
theorem splitAt_below (dir : Path) (hdir : ∀ name ∈ dir, '/' ∉ name) (rest : Text) :
    Text.splitAt '/' (dirKey dir ++ rest) = dir ++ Text.splitAt '/' rest := by
  induction dir with
  | nil => rfl
  | cons name dir ih =>
    have hkey : dirKey (name :: dir) ++ rest = name ++ '/' :: (dirKey dir ++ rest) := by
      simp [dirKey, List.append_assoc]
    rw [hkey, Text.splitAt_append_sep, Text.splitAt_of_notMem (hdir name List.mem_cons_self),
      ih fun n hn => hdir n (List.mem_cons_of_mem _ hn), List.singleton_append, List.cons_append]

theorem within_of_allows {principal : Principal} (hwhole : (ReadScope.of principal).isWhole = false)
    {key : Text} (h : (ReadScope.of principal).allows key = true) :
    Within principal (Text.splitAt '/' key) := by
  obtain ⟨root, hroot, ⟨rest, rfl⟩⟩ := ReadScope.allows_iff.mp h
  unfold ReadScope.of at hroot hwhole
  by_cases htenant : principal.tenant = ReadScope.everyTenant
  · rw [if_pos htenant] at hwhole
    exact absurd hwhole (by decide)
  · rw [if_neg htenant] at hroot
    by_cases hvalid : validIdent principal.tenant = true
    · rw [if_neg (not_not.mpr hvalid)] at hroot
      unfold Within
      cases hindexes : principal.indexes with
      | all =>
        simp only [hindexes, List.mem_singleton] at hroot ⊢
        refine ⟨Text.splitAt '/' rest, Text.splitAt_ne_nil _ _, ?_⟩
        rw [hroot, splitAt_below _ (by simpa using slash_notMem_tenantDir hvalid)]
        rfl
      | only list =>
        simp only [hindexes] at hroot ⊢
        obtain ⟨index, hindex, rfl⟩ := List.mem_map.mp hroot
        obtain ⟨hmem, hvalid'⟩ := List.mem_filter.mp hindex
        refine ⟨index, hmem, Text.splitAt '/' rest, Text.splitAt_ne_nil _ _, ?_⟩
        rw [splitAt_below _ (by
          simpa using ⟨slash_notMem_tenantDir hvalid, slash_notMem_indexDir hvalid'⟩)]
        rfl
    · rw [if_pos hvalid] at hroot
      cases hroot

/-! ## Replies -/

/-- A range that is served lies within the file. -/
theorem range_within {value : Text} {len a b : ℕ} (h : parseRange value len = .satisfiable a b) :
    a ≤ b ∧ b < len := by
  unfold parseRange at h
  simp only at h
  split at h
  · cases h
  · split at h
    · cases h
    · split at h
      · cases h
      · split at h
        · split at h
          · cases h
          · split at h
            · cases h
            · next hne =>
              obtain ⟨rfl, rfl⟩ := RangeOutcome.satisfiable.inj h
              omega
        · split at h
          · cases h
          · split at h
            · cases h
            · obtain ⟨rfl, rfl⟩ := RangeOutcome.satisfiable.inj h
              omega
        · split at h
          · split at h
            · cases h
            · split at h
              · cases h
              · obtain ⟨rfl, rfl⟩ := RangeOutcome.satisfiable.inj h
                omega
          · cases h

/-- What a reply holds of a file: nothing, a piece of it, or a length that a piece has. -/
def Body.From (f : FileData) : Body → Prop
  | .bytes _ => True
  | .stream content => content <:+: f.content
  | .head len => len ≤ f.content.length

theorem serveFile_from (id : ℕ) (head : Bool) (headers : List (Text × Text)) (f : FileData) :
    (serveFile headers f id head).body.From f := by
  have hwhole : (if head then Body.head f.content.length else .stream f.content).From f := by
    cases head with
    | true => exact le_rfl
    | false => exact List.infix_rfl
  unfold serveFile
  simp only
  split
  · trivial
  · split
    · trivial
    · split
      · exact hwhole
      · split
        · exact hwhole
        · trivial
        · next a b hrange =>
          obtain ⟨hab, hlen⟩ := range_within hrange
          cases head with
          | true =>
            show b - a + 1 ≤ f.content.length
            omega
          | false =>
            show (f.content.drop a).take (b - a + 1) <:+: f.content
            exact (List.take_prefix _ _).isInfix.trans (List.drop_suffix _ _).isInfix

variable {s s' : Server} {id : ℕ} {req : Request}

/-- The same configuration. -/
structure SameConfig (s s' : Server) : Prop where
  store : s'.store.name = s.store.name
  parts : s'.parts.map Bucket.name = s.parts.map Bucket.name

theorem SameConfig.refl (s : Server) : SameConfig s s := ⟨rfl, rfl⟩

/-- Which bucket of parts is named depends on its name only. -/
theorem SameConfig.parts_filter (h : SameConfig s s') (named : Option Text) :
    (s'.parts.filter fun b => named = some b.name).isSome
      = (s.parts.filter fun b => named = some b.name).isSome := by
  have hparts := h.parts
  cases hs : s.parts with
  | none =>
    rw [hs, Option.map_none, Option.map_eq_none_iff] at hparts
    rw [hparts]
  | some b =>
    rw [hs, Option.map_some] at hparts
    obtain ⟨b', hb', hname⟩ := Option.map_eq_some_iff.mp hparts
    rw [hb', Option.filter_some, Option.filter_some, hname]
    split <;> rfl

/-- A request of a scoped reader, other than for the list of buckets, is answered without the
store, with a file of the scope, or with a listing. -/
theorem route_cases {scope : ReadScope} (hwhole : scope.isWhole = false) (s : Server) (id : ℕ)
    {req : Request} (hroot : req.rawPath ≠ ['/']) :
    (∃ reply text, reply.body = .bytes text ∧
      ∀ s', SameConfig s s' → route s' id (.ok scope) req = reply) ∨
    (∃ key, scope.allows key = true ∧ ∀ s', SameConfig s s' → route s' id (.ok scope) req
      = match fileOf s'.store.root key with
        | none => noSuchKey id
        | some f => serveFile req.headers f id (decide (req.method = "HEAD".toList))) ∨
    ∀ s', SameConfig s s' → route s' id (.ok scope) req
      = (listObjects id s.store.name s'.store.root req.rawQuery scope).with
          "x-amz-bucket-region".toList "us-east-1".toList := by
  unfold route
  simp only [hwhole, Bool.false_eq_true, not_false_eq_true, and_true]
  by_cases hmethod : req.method ≠ "GET".toList ∧ req.method ≠ "HEAD".toList
  · simp only [if_pos hmethod]
    exact .inl ⟨_, _, rfl, fun _ _ => rfl⟩
  · simp only [if_neg hmethod]
    cases hpath : ['/'].isPrefixOf? req.rawPath with
    | none => exact .inl ⟨_, _, rfl, fun _ _ => rfl⟩
    | some rest =>
      cases rest with
      | nil =>
        have hraw : req.rawPath = ['/'] := by
          cases hreq : req.rawPath with
          | nil => rw [hreq] at hpath; cases hpath
          | cons c cs =>
            rw [hreq] at hpath
            simp only [List.isPrefixOf?, beq_iff_eq] at hpath
            split at hpath
            · next hc => rw [← hc, Option.some.inj hpath]
            · cases hpath
        exact absurd hraw hroot
      | cons c rest =>
        simp only
        generalize (Text.splitOnce '/' (c :: rest)).getD (c :: rest, []) = parts
        obtain ⟨bucketRaw, keyRaw⟩ := parts
        simp only
        by_cases hstore : percentDecode bucketRaw false = some s.store.name
        · have hbucket : ∀ s', SameConfig s s' →
              (if percentDecode bucketRaw false = some s'.store.name then some s'.store
                else s'.parts.filter fun b => decide (percentDecode bucketRaw false = some b.name))
              = some s'.store := by
            intro s' hs
            rw [if_pos]
            rw [hs.store]
            exact hstore
          by_cases hkey : keyRaw.isEmpty = true
          · by_cases hhead : req.method = "HEAD".toList
            · refine .inl ⟨(Reply.xml 200 []).with "x-amz-bucket-region".toList
                "us-east-1".toList, [], rfl, fun s' hs => ?_⟩
              simp only [hbucket s' hs, ne_eq, not_true_eq_false, if_false, hkey, if_true, hhead,
                decide_true]
            · by_cases hlocation : ((parseQuery req.rawQuery).any
                  fun q => decide (q.1 = "location".toList)) = true
              · refine .inl ⟨(Reply.xml 200 locationXml).with "x-amz-bucket-region".toList
                  "us-east-1".toList, _, rfl, fun s' hs => ?_⟩
                simp only [hbucket s' hs, ne_eq, not_true_eq_false, if_false, hkey, if_true, hhead,
                  decide_false, Bool.false_eq_true, hlocation]
              · refine .inr (.inr fun s' hs => ?_)
                simp only [hbucket s' hs, ne_eq, not_true_eq_false, if_false, hkey, if_true, hhead,
                  decide_false, Bool.false_eq_true, if_neg hlocation]
                rw [hs.store]
          · rw [Bool.not_eq_true] at hkey
            cases hdecode : percentDecode keyRaw false with
            | none =>
              refine .inl ⟨outOfScope id, _, rfl, fun s' hs => ?_⟩
              simp only [hbucket s' hs, ne_eq, not_true_eq_false, if_false, hkey,
                Option.any_none, Bool.false_eq_true, not_false_eq_true, and_self, if_true]
            | some key =>
              by_cases hallow : scope.allows key = true
              · refine .inr (.inl ⟨key, hallow, fun s' hs => ?_⟩)
                cases hfile : fileOf s'.store.root key <;>
                  simp only [hbucket s' hs, ne_eq, not_true_eq_false, if_false, hkey,
                    Option.any_some, hallow, object, hdecode, Option.bind_some, hfile,
                    Bool.false_eq_true, and_false]
              · refine .inl ⟨outOfScope id, _, rfl, fun s' hs => ?_⟩
                simp only [hbucket s' hs, ne_eq, not_true_eq_false, if_false, hkey,
                  Option.any_some, hallow, Bool.false_eq_true, not_false_eq_true, and_self, if_true]
        · -- another bucket: there is none, or it holds the uploaded parts
          have hnamed : ∀ s', SameConfig s s' →
              ¬ percentDecode bucketRaw false = some s'.store.name := by
            intro s' hs h
            rw [hs.store] at h
            exact hstore h
          cases hparts : (s.parts.filter
              fun b => decide (percentDecode bucketRaw false = some b.name)).isSome with
          | false =>
            refine .inl ⟨Reply.error id 404 "NoSuchBucket".toList
              "The specified bucket does not exist".toList, _, rfl, fun s' hs => ?_⟩
            have hnone := hs.parts_filter (percentDecode bucketRaw false)
            rw [hparts, Option.isSome_eq_false_iff, Option.isNone_iff_eq_none] at hnone
            simp only [if_neg (hnamed s' hs), hnone]
          | true =>
            refine .inl ⟨outOfScope id, _, rfl, fun s' hs => ?_⟩
            have hsome := hs.parts_filter (percentDecode bucketRaw false)
            rw [hparts, Option.isSome_iff_exists] at hsome
            obtain ⟨b, hb⟩ := hsome
            have hname : b.name ≠ s'.store.name := by
              intro heq
              have hdecoded := (Option.filter_eq_some_iff.mp hb).2
              rw [decide_eq_true_eq, heq] at hdecoded
              exact hnamed s' hs hdecoded
            simp only [if_neg (hnamed s' hs), hb, ne_eq, hname, not_false_eq_true, if_true]

theorem delimiter_of_listRequest {query : List (Text × Text)} {r : ListRequest}
    (h : listRequest query = .ok r) : r.params.delimiter ≠ some [] := by
  simp only [listRequest, bind, Except.bind, pure, Except.pure] at h
  split at h
  · cases h
  · split at h
    · cases h
    · split at h
      · cases h
      · split at h
        · cases h
        · obtain rfl := Except.ok.inj h
          exact delimiter_listParams _ _

theorem Agree.listObjects {scope : ReadScope} {t t' : Tree} (h : Agree scope t t') (id : ℕ)
    (bucket rawQuery : Text) :
    listObjects id bucket t' rawQuery scope = listObjects id bucket t rawQuery scope := by
  simp only [S3.listObjects]
  cases hr : listRequest (parseQuery rawQuery) with
  | error message => rfl
  | ok r =>
    obtain ⟨hout, htrunc⟩ := h.page (p := r.params) (delimiter_of_listRequest hr)
    simp only [hout, htrunc]

/-- **A scoped reader sees nothing outside its scope.** Whatever it asks, a file that is served
is a regular file in its part of the store, reached through directories only; the keys of a
listing are of that part and its common prefixes are in it or above it; and two stores that
agree on the files and directories of the scope and on the directories above it give the same
reply to a request for an object or a listing. -/
theorem scoped_reader_isolated (s : Server) (principal : Principal)
    (hwhole : (ReadScope.of principal).isWhole = false) (id : ℕ) (req : Request)
    (hroot : req.rawPath ≠ ['/']) :
    let scope := ReadScope.of principal
    let reply := route s id (.ok scope) req
    ((∃ text, reply.body = .bytes text) ∨
      ∃ path f, Reached s.store.root path f ∧ Within principal path ∧ reply.body.From f) ∧
    (∀ r, listRequest (parseQuery req.rawQuery) = .ok r →
      ∀ u ∈ (page r.params s.store.root scope).out,
        (∀ key size mtime etag, u = .key key size mtime etag →
          Within principal (Text.splitAt '/' key)) ∧
        ∀ cp, u = .commonPrefix cp → ∃ root ∈ scope.roots, root <+: cp ∨ cp <+: root) ∧
    ∀ s', SameConfig s s' → Agree scope s.store.root s'.store.root →
      route s' id (.ok scope) req = reply := by
  intro scope reply
  have hcases := route_cases hwhole s id hroot
  refine ⟨?_, ?_, ?_⟩
  · rcases hcases with ⟨r, text, hbody, h⟩ | ⟨key, hkey, h⟩ | h
    · left
      exact ⟨text, by rw [← hbody, ← h s (SameConfig.refl s)]⟩
    · have hreply : reply = _ := h s (SameConfig.refl s)
      cases hfile : fileOf s.store.root key with
      | none =>
        left
        rw [hreply, hfile]
        exact ⟨_, rfl⟩
      | some f =>
        right
        obtain ⟨path, hsafe, -, hmem⟩ := fileOf_eq_some.mp hfile
        obtain ⟨hpath, -, -⟩ := safeSegments_eq_some hsafe
        refine ⟨path, f, reached_of_mem hmem, ?_, ?_⟩
        · rw [hpath]
          exact within_of_allows hwhole hkey
        · rw [hreply, hfile]
          exact serveFile_from _ _ _ _
    · left
      have hreply : reply = _ := h s (SameConfig.refl s)
      rw [hreply, listObjects]
      split
      · exact ⟨_, rfl⟩
      · exact ⟨_, rfl⟩
  · intro r _ u hu
    have hseen := seenIn_of_mem_pushed (mem_page hu)
    constructor
    · rintro key size mtime etag rfl
      exact within_of_allows hwhole hseen
    · rintro cp rfl
      exact ReadScope.reaches_iff.mp hseen
  · intro s' hs hagree
    rcases hcases with ⟨r, text, -, h⟩ | ⟨key, hkey, h⟩ | h
    · exact (h s' hs).trans (h s (SameConfig.refl s)).symm
    · refine (h s' hs).trans ((h s (SameConfig.refl s)).trans ?_).symm
      rw [hagree.fileOf hkey]
    · refine (h s' hs).trans ((h s (SameConfig.refl s)).trans ?_).symm
      rw [hagree.listObjects]

end

/-! ## Examples -/

/-- A server of one bucket. -/
def serverOf (t : Tree) : Server := ⟨⟨"logs".toList, t, 0⟩, none⟩

theorem sameConfig_serverOf (t t' : Tree) : SameConfig (serverOf t) (serverOf t') := ⟨rfl, rfl⟩

/-- A reader of all indexes of a tenant, and one of a single index. -/
def acmeReader : Principal := ⟨"acme".toList, .all⟩

def payReader : Principal := ⟨"acme".toList, .only ["pay".toList]⟩

def strayRequest : Request :=
  ⟨"GET".toList, "/logs/tenant=acme/x.parquet".toList, [], []⟩

/-- A listing of the index, rolled up. -/
def payRequest : Request :=
  ⟨"GET".toList, "/logs".toList, "delimiter=/&prefix=tenant%3Dacme/index%3Dpay/".toList, []⟩

def strayEntries : List (Path × Kind) :=
  [(["tenant=acme".toList], .dir),
    (["tenant=acme".toList, "x.parquet".toList], .file ⟨[1], 0⟩)]

theorem nodup_strayEntries : (strayEntries.map Prod.fst).Nodup := by decide +kernel

theorem validName_strayEntries :
    ∀ e ∈ strayEntries, e.1 ≠ [] ∧ ∀ name ∈ e.1, validName name := by
  unfold validName
  decide +kernel

theorem parents_strayEntries (dir : Path) (name : Text)
    (hmem : dir ++ [name] ∈ strayEntries.map Prod.fst) (hne : dir ≠ []) :
    Assoc.get strayEntries dir = some .dir := by
  simp only [strayEntries, List.map_cons, List.map_nil, List.mem_cons, List.not_mem_nil,
    or_false] at hmem
  rcases hmem with hmem | hmem
  · have heq : dir ++ [name] = [] ++ _ := hmem
    exact absurd (List.append_inj' heq rfl).1 hne
  · have heq : dir ++ [name] = ["tenant=acme".toList] ++ _ := hmem
    have hdir := (List.append_inj' heq rfl).1
    subst hdir
    decide +kernel

/-- A tenant with a file that is below none of its indexes. -/
def strayFile : Tree :=
  ⟨strayEntries, nodup_strayEntries, validName_strayEntries, parents_strayEntries⟩

/-- The directories of an index, over `entries`. -/
def indexEntries (entries : List (Path × Kind)) : List (Path × Kind) :=
  (["tenant=acme".toList], .dir) :: (["tenant=acme".toList, "index=pay".toList], .dir) :: entries

def hourEntries : List (Path × Kind) :=
  [(["tenant=acme".toList, "index=pay".toList, "hour=x".toList], .dir)]

section

variable {entries : List (Path × Kind)}

theorem nodup_indexEntries (h : entries = [] ∨ entries = hourEntries) :
    ((indexEntries entries).map Prod.fst).Nodup := by
  rcases h with rfl | rfl <;> decide +kernel

theorem validName_indexEntries (h : entries = [] ∨ entries = hourEntries) :
    ∀ e ∈ indexEntries entries, e.1 ≠ [] ∧ ∀ name ∈ e.1, validName name := by
  unfold validName
  rcases h with rfl | rfl <;> decide +kernel

theorem parents_indexEntries (h : entries = [] ∨ entries = hourEntries) (dir : Path) (name : Text)
    (hmem : dir ++ [name] ∈ (indexEntries entries).map Prod.fst) (hne : dir ≠ []) :
    Assoc.get (indexEntries entries) dir = some .dir := by
  have hcases : dir ++ [name] = [] ++ ["tenant=acme".toList] ∨
      dir ++ [name] = ["tenant=acme".toList] ++ ["index=pay".toList] ∨
      dir ++ [name] = ["tenant=acme".toList, "index=pay".toList] ++ ["hour=x".toList] := by
    rcases h with rfl | rfl
    · simp only [indexEntries, List.map_cons, List.map_nil, List.mem_cons, List.not_mem_nil,
        or_false] at hmem
      exact hmem.imp_right .inl
    · simpa [indexEntries, hourEntries] using hmem
  rcases hcases with heq | heq | heq
  · exact absurd (List.append_inj' heq rfl).1 hne
  · rw [(List.append_inj' heq rfl).1]
    rcases h with rfl | rfl <;> decide +kernel
  · rw [(List.append_inj' heq rfl).1]
    rcases h with rfl | rfl <;> decide +kernel

/-- An index with nothing in it, or with an empty directory. -/
def bareIndex (entries : List (Path × Kind)) (h : entries = [] ∨ entries = hourEntries) : Tree :=
  ⟨indexEntries entries, nodup_indexEntries h, validName_indexEntries h, parents_indexEntries h⟩

end

def emptyIndex : Tree := bareIndex [] (.inl rfl)

def emptyHour : Tree := bareIndex hourEntries (.inr rfl)

/-- A reader of all indexes of a tenant is served a file that is in none of them; and two stores
without any file, which agree on the directories above the scope, are told apart by an empty
directory in it. -/
theorem stray_file_is_served :
    ((route (serverOf strayFile) 1 (.ok (.of acmeReader)) strayRequest).body = .stream [1] ∧
      ∀ path f, (path, .file f) ∈ strayFile.entries → ¬ ∃ index rest,
        path = ReadScope.tenantDir acmeReader.tenant :: ReadScope.indexDir index :: rest) ∧
    (∀ path f, (path, .file f) ∉ emptyIndex.entries ∧ (path, .file f) ∉ emptyHour.entries) ∧
    (∀ path, (∃ root ∈ (ReadScope.of payReader).roots, dirKey path <+: root) →
      ((path, .dir) ∈ emptyIndex.entries ↔ (path, .dir) ∈ emptyHour.entries)) ∧
    route (serverOf emptyIndex) 1 (.ok (.of payReader)) payRequest
      ≠ route (serverOf emptyHour) 1 (.ok (.of payReader)) payRequest := by
  refine ⟨⟨by decide +kernel, ?_⟩, ?_, ?_, ?_⟩
  · rintro path f hmem ⟨index, rest, rfl⟩
    simp only [strayFile, strayEntries, List.mem_cons, Prod.mk.injEq, reduceCtorEq, and_false,
      List.not_mem_nil, or_false, false_or, List.cons.injEq] at hmem
    have hindex := hmem.1.2.1
    have hhead := congrArg List.head? hindex
    revert hhead
    simp [ReadScope.indexDir]
  · intro path f
    simp [emptyIndex, emptyHour, bareIndex, indexEntries, hourEntries]
  · rintro path ⟨root, hroot, hpre⟩
    have hroots : (ReadScope.of payReader).roots
        = ["tenant=acme/index=pay/".toList] := by decide +kernel
    rw [hroots, List.mem_singleton] at hroot
    subst hroot
    -- the empty directory is not above the scope
    have hne : path ≠ ["tenant=acme".toList, "index=pay".toList, "hour=x".toList] := by
      rintro rfl
      revert hpre
      decide +kernel
    simp only [emptyIndex, emptyHour, bareIndex, indexEntries, hourEntries, List.mem_cons,
      Prod.mk.injEq, and_true, hne,
      List.not_mem_nil, or_false]
  · decide +kernel

/-- The same store, with another tenant. -/
def twoTenants : Tree where
  entries := (["tenant=zeta".toList], .dir) :: strayFile.entries
  nodup := by decide +kernel
  names := by
    unfold validName
    decide +kernel
  parents := by
    intro dir name hmem hne
    rw [List.map_cons, List.mem_cons] at hmem
    rcases hmem with hmem | hmem
    · have heq : dir ++ [name] = [] ++ _ := hmem
      exact absurd (List.append_inj' heq rfl).1 hne
    · have hdir := strayFile.parents dir name hmem hne
      have hzeta : dir ≠ ["tenant=zeta".toList] := by
        rintro rfl
        revert hdir
        decide +kernel
      rw [← hdir, Assoc.get, Assoc.get, List.find?_cons_of_neg (by simpa using hzeta.symm)]

/-- A reader of all indexes is served the file, and the other tenant makes no difference. -/
theorem scoped_reader_isolated_stray :
    (route (serverOf strayFile) 1 (.ok (.of acmeReader)) strayRequest).body = .stream [1] ∧
      route (serverOf twoTenants) 1 (.ok (.of acmeReader)) strayRequest
        = route (serverOf strayFile) 1 (.ok (.of acmeReader)) strayRequest := by
  have h := scoped_reader_isolated (serverOf strayFile) acmeReader (by decide +kernel) 1
    strayRequest (by decide +kernel)
  refine ⟨by decide +kernel, h.2.2 (serverOf twoTenants) (sameConfig_serverOf _ _) ⟨?_, ?_⟩⟩
  · intro path f _
    simp [serverOf, twoTenants]
  · intro path hreach
    have hne : path ≠ ["tenant=zeta".toList] := by
      rintro rfl
      revert hreach
      decide +kernel
    simp only [serverOf, twoTenants, List.mem_cons, Prod.mk.injEq, and_true, hne, false_or]

end LogLess.S3
