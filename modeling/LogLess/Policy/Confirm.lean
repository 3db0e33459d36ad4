import LogLess.Policy.Impact
import LogLess.Relief.Exact

/-!
# Does a change delete what was reviewed?

A token binds a confirmation to paths. Where the paths are files, that is to what they name.
Where one is a directory that the proposed document lets expire, it is to whatever the
directory holds when the pass comes: a file that was merged into it after the preview is
deleted, and the token has not changed.

A plan is exact where it says what the pass will do: where nothing it chooses is pinned or
cannot be removed, and each row of the catalog has its file.
-/

namespace LogLess.Policy

open Relief

/-! ## Specification -/

/-- The store at some time, with what is pinned and what cannot be removed. -/
structure Moment where
  disk : Disk
  now : ℕ
  pinned : List Path
  stuck : Path → Bool

namespace Moment

variable (store : Path) (base : Tenancy) (m : Moment)

/-- The pass that runs under a document, if its catalog can be written. -/
def pass (p : Policies) : Except ConfigError Pass := do
  let tenancy ← p.tenancyUnder base
  return ⟨tenancy, p.storage.diskBudgetBytes, p.watermarks, m.now, m.pinned, m.stuck, false⟩

/-- Whether the pass under a document deletes a file. -/
def deletes (p : Policies) (path : Path) : Bool :=
  match m.pass base p with
  | .error _ => false
  | .ok pass =>
    (m.disk.fs.size path).isSome
      && ((m.disk.applyAll (pass.effects store m.disk)).fs.size path).isNone

/-- What the change makes the next pass delete. -/
def newlyDeletes (current proposed : Policies) (path : Path) : Bool :=
  m.deletes store base proposed path && !m.deletes store base current path

/-- The level directories that are up under a document. -/
def up (p : Policies) : List (Path × PartitionKey) :=
  match p.tenancyUnder base with
  | .error _ => []
  | .ok tenancy => due tenancy m.now (m.disk.fs.levelsOf store)

/-- The paths that a preview hashes. -/
def newPaths (current proposed : Policies) : List Path :=
  match plan store base m.disk current m.now, plan store base m.disk proposed m.now with
  | .ok baseline, .ok next => next.beyond baseline
  | _, _ => []

end Moment

variable (sha256 : List UInt8 → List UInt8) (store : Path) (base : Tenancy)
  (current proposed : Policies)

/-- What a review promises, where the preview at `before` was confirmed and the change was
accepted at `after`: a change that is not destructive makes no pass delete more, and one that
was accepted for its token makes the pass delete only what it would have deleted then. -/
def Reviewed (before after : Moment) (reviewed applied : Preview) : Prop :=
  (applied.destructive = false → ∀ path, after.newlyDeletes store base current proposed path = false) ∧
    (applied.destructive = true → applied.confirmed true (some reviewed.impactToken) = true → ∀ path,
      after.newlyDeletes store base current proposed path = true →
        before.newlyDeletes store base current proposed path = true)

/-- The files that are now in a directory that only the proposed document lets expire, and
that the current one would keep, were there at the preview, and it would have kept them. -/
def Unmoved (before after : Moment) : Prop :=
  ∀ path, (after.disk.fs.size path).isSome = true →
    (∃ level ∈ after.up store base proposed, level ∉ after.up store base current ∧
      level.1 <+: path) →
    after.deletes store base current path = false →
    (before.disk.fs.size path).isSome = true ∧ before.deletes store base current path = false

/-- A name that a file system can hold. -/
def Clean (p : Path) : Prop := ∀ c ∈ p, '/' ∉ c ∧ Char.ofNat 0 ∉ c

/-- Both plans are exact: the rows have their files, and nothing that is chosen is pinned or
cannot be removed. -/
structure Moment.Plain (m : Moment) : Prop where
  backed : m.disk.Backed store
  names : (∀ p ∈ m.disk.fs.dirs, Clean p) ∧ ∀ f ∈ m.disk.catalog, Clean f.path
  free : ∀ p ∈ [current, proposed], ∀ pl, plan store base m.disk p m.now = .ok pl →
    ∀ q ∈ pl.doomed, Free m.stuck m.pinned m.disk.fs q

/-! ## The token -/

variable {store base current proposed}

theorem pathBytes_inj {p q : Path} (hp : Clean p) (hq : Clean q)
    (h : (p.flatMap fun c => '/' :: c) = q.flatMap fun c => '/' :: c) : p = q := by
  have hsplit : ∀ {r : Path}, Clean r →
      Text.splitAt '/' (r.flatMap fun c => '/' :: c) = [] :: r := by
    intro r hr
    exact Text.splitAt_flatMap_cons (t := []) (by simp) fun c hc => (hr c hc).1
  have := congrArg (Text.splitAt '/') h
  rw [hsplit hp, hsplit hq] at this
  exact (List.cons.inj this).2

/-- The hashed bytes say which paths they are of. -/
theorem tokenInput_inj {ps qs : List Path} {lossy : List Problem} (hp : ∀ p ∈ ps, Clean p)
    (hq : ∀ q ∈ qs, Clean q) (h : tokenInput ps lossy = tokenInput qs lossy) : ps = qs := by
  have hencode : ∀ rs : List Path, rs.flatMap (fun p => pathBytes p ++ [0])
      = Utf8.encode ((rs.map fun p => p.flatMap fun c => '/' :: c).flatMap
        fun t => t ++ [Char.ofNat 0]) := by
    intro rs
    induction rs with
    | nil => rfl
    | cons r rs ih =>
      rw [List.flatMap_cons, ih, List.map_cons, List.flatMap_cons]
      simp [Utf8.encode, pathBytes]
      rfl
  have hzero : ∀ rs : List Path, (∀ r ∈ rs, Clean r) →
      ∀ t ∈ rs.map fun p => p.flatMap fun c => '/' :: c, Char.ofNat 0 ∉ t := by
    intro rs hrs t ht
    obtain ⟨r, hr, rfl⟩ := List.mem_map.mp ht
    intro hmem
    obtain ⟨c, hc, hmem⟩ := List.mem_flatMap.mp hmem
    rcases List.mem_cons.mp hmem with hslash | hmem
    · exact absurd hslash (by decide)
    · exact (hrs r hr c hc).2 hmem
  unfold tokenInput at h
  have hbytes := List.append_cancel_right h
  rw [hencode, hencode] at hbytes
  have htext := congrArg Utf8.strict hbytes
  rw [Utf8.strict_encode, Utf8.strict_encode, Option.some.injEq] at htext
  have hsplit := congrArg (Text.splitAt (Char.ofNat 0)) htext
  rw [Text.splitAt_flatMap (hzero ps hp), Text.splitAt_flatMap (hzero qs hq)] at hsplit
  have hmap := List.append_cancel_right hsplit
  clear h hbytes htext hsplit hencode hzero
  induction ps generalizing qs with
  | nil =>
    rw [List.map_nil, eq_comm, List.map_eq_nil_iff] at hmap
    exact hmap.symm
  | cons p ps ih =>
    cases qs with
    | nil => simp at hmap
    | cons q qs =>
      rw [List.map_cons, List.map_cons, List.cons.injEq] at hmap
      rw [pathBytes_inj (hp p List.mem_cons_self) (hq q List.mem_cons_self) hmap.1,
        ih (fun x hx => hp x (List.mem_cons_of_mem _ hx))
          (fun x hx => hq x (List.mem_cons_of_mem _ hx)) hmap.2]

/-! ## A plan and its pass -/

/-- The files that a plan deletes. -/
def Plan.Covers (pl : Plan) (path : Path) : Prop :=
  (∃ e ∈ pl.expired, e.path <+: path) ∨ path ∈ pl.reclaim.filesDropped

theorem exists_tenancy {d : Disk} {p : Policies} {now : ℕ} {pl : Plan}
    (h : plan store base d p now = .ok pl) :
    ∃ tenancy, p.tenancyUnder base = .ok tenancy ∧
      pl = planWith store tenancy p.storage.diskBudgetBytes p.watermarks now d := by
  unfold plan at h
  cases htenancy : p.tenancyUnder base with
  | error e =>
    rw [htenancy] at h
    cases h
  | ok tenancy =>
    rw [htenancy] at h
    exact ⟨tenancy, rfl, (Except.ok.inj h).symm⟩

section

variable {tenancy : Tenancy} {budget now : ℕ} {wm : Watermarks} {d : Disk}

theorem expired_planWith {path : Path} :
    (∃ e ∈ (planWith store tenancy budget wm now d).expired, e.path <+: path) ↔
      ∃ level ∈ due tenancy now (d.fs.levelsOf store), level.1 <+: path := by
  constructor
  · rintro ⟨e, he, hpre⟩
    exact ⟨(e.path, e.key), mem_expired_enforce.mp (List.mem_map.mpr ⟨e, he, rfl⟩), hpre⟩
  · rintro ⟨level, hlevel, hpre⟩
    obtain ⟨e, he, heq⟩ := List.mem_map.mp (mem_expired_enforce.mpr hlevel)
    refine ⟨e, he, ?_⟩
    rw [← heq] at hpre
    exact hpre

/-- The plan takes the same rows to be left, and chooses from them as the pass does. -/
theorem filesDropped_planWith :
    (planWith store tenancy budget wm now d).reclaim.filesDropped
      = chosen store tenancy budget wm d.walBytes (keptRows tenancy now store d) := by
  have hrows : remaining d.catalog (enforce tenancy now true store d.fs).report.expired
      = keptRows tenancy now store d := by
    refine List.filter_congr fun f _ => congrArg _ ?_
    rw [Bool.eq_iff_iff, List.any_eq_true, List.any_eq_true]
    simp only [List.isPrefixOf_iff_prefix]
    exact @expired_planWith store tenancy budget now wm d f.path
  unfold planWith chosen
  simp only
  rw [hrows]
  split <;> rfl

end

namespace Moment

variable {m : Moment} {p : Policies} {pl : Plan}

/-- **A plan is what the pass does.** -/
theorem deletes_iff (hbacked : m.disk.Backed store)
    (hfree : ∀ q ∈ pl.doomed, Free m.stuck m.pinned m.disk.fs q)
    (hplan : plan store base m.disk p m.now = .ok pl) (path : Path) :
    m.deletes store base p path = true ↔
      (m.disk.fs.size path).isSome = true ∧ pl.Covers path := by
  obtain ⟨tenancy, htenancy, rfl⟩ := exists_tenancy hplan
  have hlevels : ∀ level ∈ due tenancy m.now (m.disk.fs.levelsOf store),
      Free m.stuck m.pinned m.disk.fs level.1 := by
    intro level hlevel
    obtain ⟨e, he, heq⟩ := List.mem_map.mp (mem_expired_enforce.mpr hlevel)
    have := hfree e.path (List.mem_append_left _ (List.mem_map.mpr ⟨e, he, rfl⟩))
    rw [← heq]
    exact this
  have hchosen : ∀ q ∈ chosen store tenancy p.storage.diskBudgetBytes p.watermarks m.disk.walBytes
      (keptRows tenancy m.now store m.disk),
      m.pinned.contains q = false ∧ m.stuck q = false := by
    intro q hq
    obtain ⟨f, hf, rfl⟩ := mem_chosen hq
    rw [← filesDropped_planWith] at hq
    obtain ⟨hpins, hfiles, -⟩ := hfree f.path (List.mem_append_right _ hq)
    constructor
    · rw [← Bool.not_eq_true, List.contains_iff_mem]
      exact fun hmem => hpins _ hmem (List.prefix_refl _)
    · obtain ⟨n, hn⟩ := Option.isSome_iff_exists.mp
        (hbacked.there f (List.filter_sublist.subset hf))
      exact hfiles (f.path, n) (Fs.mem_under.mpr ⟨Assoc.mem_of_get hn, List.prefix_refl _⟩)
  unfold deletes pass
  simp only [htenancy]
  set pass : Pass := ⟨tenancy, p.storage.diskBudgetBytes, p.watermarks, m.now, m.pinned, m.stuck,
    false⟩ with hpass
  show ((m.disk.fs.size path).isSome
    && ((m.disk.applyAll (pass.effects store m.disk)).fs.size path).isNone) = true ↔ _
  have hsize := @Pass.size_effects store pass m.disk hbacked hlevels rfl hchosen path
  have hcovers : (planWith store tenancy p.storage.diskBudgetBytes p.watermarks m.now
      m.disk).Covers path ↔
      (∃ level ∈ due tenancy m.now (m.disk.fs.levelsOf store), level.1 <+: path) ∨
        path ∈ chosen store tenancy p.storage.diskBudgetBytes p.watermarks m.disk.walBytes
          (keptRows tenancy m.now store m.disk) := by
    rw [Plan.Covers, expired_planWith, filesDropped_planWith]
  rw [hsize, hcovers, Bool.and_eq_true, Option.isNone_iff_eq_none]
  refine and_congr_right fun hthere => ?_
  split
  · next hin => exact ⟨fun _ => hin, fun _ => rfl⟩
  · next hout =>
    refine ⟨fun hnone => ?_, fun hin => absurd hin hout⟩
    rw [hnone] at hthere
    cases hthere

end Moment

/-- A plan names level directories, and files where the keys of their rows say. -/
structure Plan.Shaped (store : Path) (d : Disk) (pl : Plan) : Prop where
  doomed : ∀ q, q ∈ pl.doomed ↔ (∃ e ∈ pl.expired, e.path = q) ∨ q ∈ pl.reclaim.filesDropped
  expired : ∀ e ∈ pl.expired, e.path.length = store.length + 4 ∧ e.path ∈ d.fs.dirs
  dropped : ∀ q ∈ pl.reclaim.filesDropped, q.length = store.length + 6 ∧
    ∃ f ∈ d.catalog, f.path = q

theorem shaped_of_plan {d : Disk} {p : Policies} {now : ℕ} {pl : Plan} (hbacked : d.Backed store)
    (h : plan store base d p now = .ok pl) : pl.Shaped store d := by
  obtain ⟨tenancy, -, rfl⟩ := exists_tenancy h
  refine ⟨fun q => ?_, ?_, ?_⟩
  · exact List.mem_append.trans (or_congr_left List.mem_map)
  · intro e he
    have hdue := mem_expired_enforce.mp (List.mem_map.mpr ⟨e, he, rfl⟩)
    have hlevel := (mem_due.mp hdue).1
    refine ⟨?_, Fs.mem_dirs_of_mem_levelsOf hlevel⟩
    obtain ⟨hour, -, hpath⟩ := Fs.mem_levelsOf hlevel
    rw [hpath, List.length_append]
    rfl
  · intro q hq
    rw [filesDropped_planWith] at hq
    obtain ⟨f, hf, rfl⟩ := mem_chosen hq
    have hmem := List.filter_sublist.subset hf
    obtain ⟨-, name, hpath⟩ := hbacked.placed f hmem
    refine ⟨?_, f, hmem, rfl⟩
    rw [hpath]
    simp [PartitionKey.dir, PartitionKey.levelDir]

namespace Plan

variable {d : Disk} {next baseline : Plan}

theorem mem_beyond {q : Path} :
    q ∈ next.beyond baseline ↔ q ∈ next.doomed ∧ ∀ a ∈ baseline.doomed, ¬ a <+: q := by
  rw [beyond, List.mem_insertionSort, List.mem_filter, List.mem_dedup, Bool.not_eq_true',
    List.any_eq_false]
  simp only [List.isPrefixOf_iff_prefix]

/-- What the next plan deletes and the baseline does not is below one of the new paths. -/
theorem mem_beyond_of_covers (hnext : next.Shaped store d) (hbaseline : baseline.Shaped store d)
    {path : Path} (hcovers : next.Covers path) (hnot : ¬ baseline.Covers path) :
    (∃ e ∈ next.expired, e.path <+: path ∧ e.path ∈ next.beyond baseline) ∨
      path ∈ next.reclaim.filesDropped ∧ path ∈ next.beyond baseline := by
  rcases hcovers with ⟨e, he, hpre⟩ | hdropped
  · refine .inl ⟨e, he, hpre, mem_beyond.mpr ⟨?_, ?_⟩⟩
    · exact (hnext.doomed _).mpr (.inl ⟨e, he, rfl⟩)
    · intro a ha habove
      rcases (hbaseline.doomed a).mp ha with ⟨b, hb, rfl⟩ | ha
      · exact hnot (.inl ⟨b, hb, habove.trans hpre⟩)
      · -- a file is no part of the path of a level directory
        have hlong := (hbaseline.dropped a ha).1
        have hshort := (hnext.expired e he).1
        have := habove.length_le
        omega
  · refine .inr ⟨hdropped, mem_beyond.mpr ⟨(hnext.doomed _).mpr (.inr hdropped), ?_⟩⟩
    intro a ha habove
    rcases (hbaseline.doomed a).mp ha with ⟨b, hb, rfl⟩ | ha
    · exact hnot (.inl ⟨b, hb, habove⟩)
    · have heq : a = path := habove.eq_of_length
        ((hbaseline.dropped a ha).1.trans (hnext.dropped path hdropped).1.symm)
      rw [heq] at ha
      exact hnot (.inr ha)

end Plan

/-! ## The review -/

theorem preview_eq_ok {sha256 : List UInt8 → List UInt8} {d : Disk} {now : ℕ} {pv : Preview}
    (h : preview sha256 store base d current proposed now = .ok pv) :
    ∃ baseline next, plan store base d current now = .ok baseline ∧
      plan store base d proposed now = .ok next ∧
      pv.destructive = (!(next.beyond baseline).isEmpty
        || !(lossySettings current proposed).isEmpty) ∧
      pv.impactToken = tokenOf sha256 (tokenInput (next.beyond baseline)
        (lossySettings current proposed)) := by
  unfold preview at h
  cases hbaseline : plan store base d current now with
  | error e =>
    rw [hbaseline] at h
    cases h
  | ok baseline =>
    cases hnext : plan store base d proposed now with
    | error e =>
      rw [hbaseline, hnext] at h
      cases h
    | ok next =>
      rw [hbaseline, hnext] at h
      obtain rfl := Except.ok.inj h
      exact ⟨baseline, next, rfl, rfl, rfl, rfl⟩

namespace Moment.Plain

variable {m : Moment} {baseline next : Plan}

theorem deletes_current (h : m.Plain store base current proposed)
    (hbaseline : plan store base m.disk current m.now = .ok baseline) (path : Path) :
    m.deletes store base current path = true ↔
      (m.disk.fs.size path).isSome = true ∧ baseline.Covers path :=
  deletes_iff h.backed (h.free current (by simp) baseline hbaseline) hbaseline path

theorem deletes_proposed (h : m.Plain store base current proposed)
    (hnext : plan store base m.disk proposed m.now = .ok next) (path : Path) :
    m.deletes store base proposed path = true ↔
      (m.disk.fs.size path).isSome = true ∧ next.Covers path :=
  deletes_iff h.backed (h.free proposed (by simp) next hnext) hnext path

theorem newlyDeletes_iff (h : m.Plain store base current proposed)
    (hbaseline : plan store base m.disk current m.now = .ok baseline)
    (hnext : plan store base m.disk proposed m.now = .ok next) (path : Path) :
    m.newlyDeletes store base current proposed path = true ↔
      (m.disk.fs.size path).isSome = true ∧ next.Covers path ∧ ¬ baseline.Covers path := by
  rw [newlyDeletes, Bool.and_eq_true, Bool.not_eq_true', ← Bool.not_eq_true,
    h.deletes_proposed hnext, h.deletes_current hbaseline]
  tauto

/-- The paths that are hashed are names of the file system. -/
theorem clean_beyond (h : m.Plain store base current proposed)
    (hnext : plan store base m.disk proposed m.now = .ok next) {q : Path}
    (hq : q ∈ next.beyond baseline) : Clean q := by
  have hshaped := shaped_of_plan h.backed hnext
  rcases (hshaped.doomed q).mp (Plan.mem_beyond.mp hq).1 with ⟨e, he, rfl⟩ | hq
  · exact h.names.1 _ (hshaped.expired e he).2
  · obtain ⟨-, f, hf, rfl⟩ := hshaped.dropped q hq
    exact h.names.2 f hf

theorem mem_up (hnext : plan store base m.disk proposed m.now = .ok next) {e : Expired} :
    e ∈ next.expired → (e.path, e.key) ∈ m.up store base proposed := by
  intro he
  obtain ⟨tenancy, htenancy, rfl⟩ := exists_tenancy hnext
  unfold up
  rw [htenancy]
  exact mem_expired_enforce.mp (List.mem_map.mpr ⟨e, he, rfl⟩)

theorem exists_of_mem_up (hnext : plan store base m.disk proposed m.now = .ok next)
    {level : Path × PartitionKey} (h : level ∈ m.up store base proposed) :
    ∃ e ∈ next.expired, e.path = level.1 := by
  obtain ⟨tenancy, htenancy, rfl⟩ := exists_tenancy hnext
  unfold up at h
  rw [htenancy] at h
  obtain ⟨e, he, heq⟩ := List.mem_map.mp (mem_expired_enforce.mpr h)
  exact ⟨e, he, congrArg Prod.fst heq⟩

end Moment.Plain

/-- One bucket, kept for some seconds. -/
def examplePolicies (secs : ℕ) : Policies where
  retention := [⟨"all".toList, 0, secs⟩]
  storage := ⟨10 ^ 9, 4 / 5, 19 / 20, 7 / 10⟩
  ingest := ⟨100, 4096⟩
  pushdown := ⟨true, 17⟩

/-- Some files of the first hour, in the third one. -/
def exampleMoment (names : List String) : Moment where
  disk := Runs.run (Disk.step exampleStore) (.empty exampleStore)
    (names.map fun name => .commit (exampleFile "all" name 1))
  now := 10 ^ 4
  pinned := []
  stuck := fun _ => false

/-- The hash of the one path of the previews here: the directory of the first hour. -/
def exampleDigest : List UInt8 :=
  [71, 112, 34, 20, 221, 163, 228, 99, 238, 233, 186, 216, 117, 28, 222, 233,
    192, 16, 85, 188, 238, 115, 83, 201, 146, 161, 251, 86, 209, 45, 139, 70]

def examplePreview (names : List String) : Except ConfigError Preview :=
  preview (fun _ => exampleDigest) exampleStore standardTenancy (exampleMoment names).disk
    (examplePolicies 86400) (examplePolicies 3600) (exampleMoment names).now

theorem plain_exampleMoment : (exampleMoment ["a"]).Plain exampleStore standardTenancy
    (examplePolicies 86400) (examplePolicies 3600) where
  backed := by
    have hok : Runs.Meets (Disk.step exampleStore) (fun d e => d.ok exampleStore e = true)
        (.empty exampleStore) [.commit (exampleFile "all" "a" 1)] := by decide +kernel
    have hsound : (exampleMoment ["a"]).disk.Sound exampleStore :=
      hok.invariant (fun _ e hi hm => hi.step e hm) (Disk.sound_empty exampleStore)
    exact ⟨hsound.nodup, hsound.placed, by decide +kernel⟩
  names := by
    unfold Clean
    decide +kernel
  free := fun _ _ _ _ _ _ => ⟨by simp [exampleMoment], by simp [exampleMoment],
    by simp [exampleMoment]⟩

end LogLess.Policy
