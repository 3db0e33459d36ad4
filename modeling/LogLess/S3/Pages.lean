import LogLess.S3.Candidates
import LogLess.Serde

/-!
# Pages and the reference listing

The lines of a page are the first `maxKeys` of those after the marker, each once, in order; the
page says whether there are more. Which lines there are is compared with a reference: the files
that are listed, rolled up at the delimiter. The walk rolls a directory up without looking into
it, so a directory without a listed file gives a line of its own, and it starts nowhere if the
directory part of the prefix has a backslash.
-/

namespace LogLess.S3

/-! ## The lines of a page -/

section

variable (p : ListParams)

/-- What is pushed of a sequence of lines, with the common prefix pushed last. -/
def fresh : Option Text → List ListUnit → List ListUnit
  | _, [] => []
  | last, u :: us =>
    if p.marker.any fun m => u.text ≤ m then fresh last us
    else if u.isCommonPrefix && last = some u.text then fresh last us
    else u :: fresh (if u.isCommonPrefix then some u.text else last) us

theorem pushAll_eq {w : Walker} (hout : w.out.length ≤ p.maxKeys) (htrunc : w.truncated = false)
    (us : List ListUnit) :
    (loopWhile (Walker.push p) w us).1.out
        = w.out ++ (fresh p w.lastPrefix us).take (p.maxKeys - w.out.length) ∧
      (loopWhile (Walker.push p) w us).1.truncated
        = decide (p.maxKeys < w.out.length + (fresh p w.lastPrefix us).length) := by
  induction us generalizing w with
  | nil =>
    simp only [loopWhile, fresh, List.take_nil, List.append_nil, List.length_nil, htrunc]
    exact ⟨trivial, by simpa using hout⟩
  | cons u us ih =>
    rw [loopWhile, Walker.push, fresh]
    by_cases hmarker : (p.marker.any fun m => decide (u.text ≤ m)) = true
    · rw [if_pos hmarker, if_pos hmarker]
      exact ih hout htrunc
    · rw [if_neg hmarker, if_neg hmarker]
      by_cases hsame : (u.isCommonPrefix && decide (w.lastPrefix = some u.text)) = true
      · rw [if_pos hsame, if_pos hsame]
        exact ih hout htrunc
      · rw [if_neg hsame, if_neg hsame]
        by_cases hfull : p.maxKeys ≤ w.out.length
        · rw [if_pos hfull]
          have hlen : w.out.length = p.maxKeys := le_antisymm hout hfull
          simp [hlen]
        · have hroom := hfull
          rw [if_neg hfull]
          rw [not_le] at hroom
          have hlen : (w.out ++ [u]).length = w.out.length + 1 := by simp
          obtain ⟨h₁, h₂⟩ := @ih ⟨w.out ++ [u], w.truncated,
            if u.isCommonPrefix then some u.text else w.lastPrefix⟩ (by simp; omega) htrunc
          simp only at h₁ h₂ ⊢
          rw [h₁, h₂, hlen]
          constructor
          · obtain ⟨k, hk⟩ : ∃ k, p.maxKeys - w.out.length = k + 1 :=
              ⟨p.maxKeys - w.out.length - 1, by omega⟩
            rw [hk, List.take_succ_cons, show p.maxKeys - (w.out.length + 1) = k by omega,
              List.append_assoc, List.singleton_append]
          · rw [List.length_cons]
            congr 1
            rw [eq_iff_iff]
            omega

/-- Lines in order, of which a common prefix may come several times in a row. -/
def Rolled (us : List ListUnit) : Prop :=
  us.Pairwise fun u v => u.text < v.text ∨ (u = v ∧ u.isCommonPrefix = true)

variable {p}

theorem eq_of_isCommonPrefix {u v : ListUnit} (hu : u.isCommonPrefix = true)
    (hv : v.isCommonPrefix = true) (h : u.text = v.text) : u = v := by
  cases u with
  | key => simp [ListUnit.isCommonPrefix] at hu
  | commonPrefix a =>
    cases v with
    | key => simp [ListUnit.isCommonPrefix] at hv
    | commonPrefix b => rw [show a = b from h]

theorem mem_fresh {last : Option Text} {us : List ListUnit} (hus : Rolled us)
    (hlast : ∀ c, last = some c → ∀ u ∈ us, c ≤ u.text) {v : ListUnit} :
    v ∈ fresh p last us ↔ v ∈ us ∧ (p.marker.any fun m => decide (v.text ≤ m)) = false ∧
      ¬ (v.isCommonPrefix = true ∧ last = some v.text) := by
  induction us generalizing last with
  | nil => simp [fresh]
  | cons u us ih =>
    obtain ⟨hu, hus⟩ := List.pairwise_cons.mp hus
    have hrest : ∀ c, last = some c → ∀ u ∈ us, c ≤ u.text :=
      fun c hc u hu => hlast c hc u (List.mem_cons_of_mem _ hu)
    rw [fresh]
    split
    · next hmarker =>
      rw [ih hus hrest, List.mem_cons]
      refine ⟨fun h => ⟨.inr h.1, h.2⟩, fun h => ⟨h.1.resolve_left ?_, h.2⟩⟩
      rintro rfl
      exact absurd (hmarker.symm.trans h.2.1) (by simp)
    · next hmarker =>
      split
      · next hsame =>
        rw [Bool.and_eq_true, decide_eq_true_eq] at hsame
        rw [ih hus hrest, List.mem_cons]
        refine ⟨fun h => ⟨.inr h.1, h.2⟩, fun h => ⟨h.1.resolve_left ?_, h.2⟩⟩
        rintro rfl
        exact h.2.2 hsame
      · next hsame =>
        rw [Bool.and_eq_true, decide_eq_true_eq] at hsame
        rw [Bool.not_eq_true] at hmarker
        have hnext : ∀ c, (if u.isCommonPrefix = true then some u.text else last) = some c →
            ∀ v ∈ us, c ≤ v.text := by
          intro c hc v hv
          split at hc
          · obtain rfl := Option.some.inj hc
            rcases hu v hv with hlt | ⟨rfl, -⟩
            · exact le_of_lt hlt
            · exact le_rfl
          · exact hrest c hc v hv
        rw [List.mem_cons, ih hus hnext, List.mem_cons]
        constructor
        · rintro (rfl | ⟨hv, hm, hne⟩)
          · exact ⟨.inl rfl, hmarker, hsame⟩
          · refine ⟨.inr hv, hm, fun ⟨hcp, hl⟩ => ?_⟩
            -- the prefix pushed before would lie at or above this line
            have hle := hlast _ hl u List.mem_cons_self
            rcases hu v hv with hlt | ⟨rfl, -⟩
            · exact absurd (lt_of_le_of_lt hle hlt) (lt_irrefl _)
            · exact hsame ⟨hcp, hl⟩
        · rintro ⟨rfl | hv, hm, hne⟩
          · exact .inl rfl
          · by_cases hvu : v = u
            · exact .inl hvu
            · refine .inr ⟨hv, hm, fun ⟨hcp, hl⟩ => ?_⟩
              split at hl
              · next hucp => exact hvu (eq_of_isCommonPrefix hcp hucp (Option.some.inj hl).symm)
              · exact hne ⟨hcp, hl⟩

theorem pairwise_fresh {last : Option Text} {us : List ListUnit} (hus : Rolled us)
    (hlast : ∀ c, last = some c → ∀ u ∈ us, c ≤ u.text) :
    (fresh p last us).Pairwise fun u v => u.text < v.text := by
  induction us generalizing last with
  | nil => exact List.Pairwise.nil
  | cons u us ih =>
    obtain ⟨hu, hus'⟩ := List.pairwise_cons.mp hus
    have hrest : ∀ c, last = some c → ∀ u ∈ us, c ≤ u.text :=
      fun c hc u hu => hlast c hc u (List.mem_cons_of_mem _ hu)
    rw [fresh]
    split
    · exact ih hus' hrest
    · split
      · exact ih hus' hrest
      · have hnext : ∀ c, (if u.isCommonPrefix = true then some u.text else last) = some c →
            ∀ v ∈ us, c ≤ v.text := by
          intro c hc v hv
          split at hc
          · obtain rfl := Option.some.inj hc
            rcases hu v hv with hlt | ⟨rfl, -⟩
            · exact le_of_lt hlt
            · exact le_rfl
          · exact hrest c hc v hv
        refine List.pairwise_cons.mpr ⟨fun v hv => ?_, ih hus' hnext⟩
        obtain ⟨hv, -, hne⟩ := (mem_fresh hus' hnext).mp hv
        rcases hu v hv with hlt | ⟨rfl, hcp⟩
        · exact hlt
        · exact absurd ⟨hcp, by rw [if_pos hcp]⟩ hne

/-- Lines that come from keys in order. -/
theorem rolled_of_candidates {keyPrefix : Text} {xs : List (Text × ListUnit)}
    (hxs : xs.Pairwise fun x y => x.1 < y.1) (hcand : ∀ x ∈ xs, Candidate p keyPrefix x) :
    Rolled (xs.map Prod.snd) := by
  refine List.pairwise_map.mpr (hxs.imp_of_mem ?_)
  intro x y hx hy hlt
  have hcx := hcand x hx
  have hcy := hcand y hy
  rw [hcx.text, hcy.text]
  cases hd : p.delimiter with
  | none =>
    have hroll : ∀ k, rollUp p k = k := by
      intro k
      simp [rollUp, commonPrefix, hd]
    rw [hroll, hroll]
    exact .inl hlt
  | some d =>
    have hcommon : ∀ k, commonPrefix p k = Rollup.cut p.pfx d k := by
      intro k
      simp [commonPrefix, hd]
    rcases Rollup.roll_lt_or_eq (d := d) hcy.pfx hlt with h | ⟨c, hx', hy'⟩
    · left
      simp only [rollUp, hcommon]
      exact h
    · right
      have hrx : x.2 = .commonPrefix c := by
        rw [hcx.rolled.mpr (by rw [hcommon, hx']; rfl), rollUp, hcommon, hx']
        rfl
      have hry : y.2 = .commonPrefix c := by
        rw [hcy.rolled.mpr (by rw [hcommon, hy']; rfl), rollUp, hcommon, hy']
        rfl
      rw [hrx, hry]
      exact ⟨rfl, rfl⟩

/-! ## All lines of a listing -/

/-- What the walk of a listing pushes, with repetitions. -/
def pushed (p : ListParams) (t : Tree) (scope : ReadScope) : List ListUnit :=
  match listBase t p.pfx with
  | none => []
  | some (dir, base) => (candidates p t scope (t.depth + 1) dir base).map Prod.snd

theorem rolled_pushed (p : ListParams) (t : Tree) (scope : ReadScope) :
    Rolled (pushed p t scope) := by
  unfold pushed
  split
  · exact List.Pairwise.nil
  · exact rolled_of_candidates (pairwise_candidates p t scope _ _ _) fun x hx => candidate_of_mem hx

variable {t : Tree} {scope : ReadScope}

/-- The lines pushed, each common prefix once. -/
def pushedOnce (p : ListParams) (t : Tree) (scope : ReadScope) : List ListUnit :=
  fresh { p with marker := none } none (pushed p t scope)

theorem pairwise_pushedOnce : (pushedOnce p t scope).Pairwise fun u v => u.text < v.text :=
  pairwise_fresh (rolled_pushed p t scope) (by simp)

theorem mem_pushedOnce {u : ListUnit} : u ∈ pushedOnce p t scope ↔ u ∈ pushed p t scope := by
  rw [pushedOnce, mem_fresh (rolled_pushed p t scope) (by simp)]
  simp

/-- A page, from the lines there are. -/
theorem page_eq (hmax : 1 ≤ p.maxKeys) {lines : List ListUnit}
    (hlines : lines.Pairwise fun u v => u.text < v.text)
    (hmem : ∀ u, u ∈ lines ↔ u ∈ pushed p t scope) :
    (page p t scope).out = (lines.filter fun u => p.marker.all (· < u.text)).take p.maxKeys ∧
      (page p t scope).truncated
        = decide (p.maxKeys < (lines.filter fun u => p.marker.all (· < u.text)).length) := by
  have hpage : (page p t scope) = (loopWhile (Walker.push p) .empty (pushed p t scope)).1 := by
    rw [page, if_neg (by omega), pushed]
    cases listBase t p.pfx with
    | none => rfl
    | some v => exact congrArg Prod.fst (walk_eq _ _ _ _)
  have hfresh : fresh p none (pushed p t scope)
      = lines.filter fun u => p.marker.all (· < u.text) := by
    refine Lists.eq_of_pairwise_lt (pairwise_fresh (rolled_pushed p t scope) (by simp))
      (hlines.filter _) fun u => ?_
    rw [mem_fresh (rolled_pushed p t scope) (by simp), List.mem_filter, hmem]
    cases p.marker <;> simp
  obtain ⟨hout, htrunc⟩ := pushAll_eq p (w := .empty) (Nat.zero_le _) rfl (pushed p t scope)
  rw [hpage, hout, htrunc]
  simp only [Walker.empty, List.nil_append, List.length_nil, Nat.sub_zero, Nat.zero_add, hfresh]
  exact ⟨trivial, trivial⟩

/-- A key that starts with the prefix is below the base of the listing. -/
theorem exists_base {pfx key : Text} {names : Path} (hkey : Text.splitAt '/' key = names)
    (hpfx : pfx <+: key) :
    ∃ dir rest, rest ≠ [] ∧ names = dir ++ rest ∧ baseOf pfx = dirKey dir := by
  rcases baseOf_eq pfx with hbase | ⟨before, hbase⟩
  · exact ⟨[], names, by rw [← hkey]; exact Text.splitAt_ne_nil _ _, rfl, hbase⟩
  · obtain ⟨dir, rest, hne, hnames, hdir⟩ := exists_dir_of_isPrefix hkey
      (hbase ▸ (baseOf_isPrefix pfx).trans hpfx)
    exact ⟨dir, rest, hne, hnames, by rw [hbase, hdir]⟩

theorem noSlash_of_mem {path : Path} {kind : Kind} (h : (path, kind) ∈ t.entries) :
    ∀ name ∈ path, '/' ∉ name := fun name hname => (Tree.validName_of_mem h name hname).2.1

/-- A listed file is below a directory that the listing can start at. -/
theorem ListedFile.exists_base {path : Path} {f : FileData} (h : ListedFile p t scope [] path f) :
    ∃ dir, baseOf p.pfx = dirKey dir ∧ t.kind? dir = some .dir ∧ (∀ n ∈ dir, validName n) ∧
      (∀ n ∈ dir, n.head? ≠ some '.') ∧ ListedFile p t scope dir path f := by
  obtain ⟨rest, hne, hpath, hdots⟩ := h.shown
  rw [List.nil_append] at hpath
  subst hpath
  obtain ⟨dir, below, hbelow, hnames, hbase⟩ :=
    S3.exists_base (splitAt_fileKey hne (noSlash_of_mem h.mem)) h.pfx
  subst hnames
  refine ⟨dir, hbase, Tree.kind?_of_append hbelow h.mem, ?_, ?_, ?_⟩
  · exact fun n hn => Tree.validName_of_mem h.mem n (List.mem_append_left _ hn)
  · exact fun n hn => hdots n (List.mem_append_left _ hn)
  · exact { h with shown := ⟨below, hbelow, rfl, fun n hn => hdots n (List.mem_append_right _ hn)⟩ }

theorem ListedDir.exists_base (hd : p.delimiter ≠ some []) {path : Path} {cp : Text}
    (h : ListedDir p t scope [] path cp) :
    ∃ dir, baseOf p.pfx = dirKey dir ∧ t.kind? dir = some .dir ∧ (∀ n ∈ dir, validName n) ∧
      (∀ n ∈ dir, n.head? ≠ some '.') ∧ ListedDir p t scope dir path cp := by
  obtain ⟨rest, hne, hpath, hdots⟩ := h.shown
  rw [List.nil_append] at hpath
  subst hpath
  obtain ⟨dir, below, hbelow, hnames, hbase⟩ :=
    S3.exists_base (splitAt_dirKey (noSlash_of_mem h.mem)) h.pfx
  obtain ⟨below, rfl⟩ : ∃ below', below = below' ++ [[]] := by
    have hlast := congrArg List.getLast? hnames
    rw [List.getLast?_concat, List.getLast?_append_of_ne_nil _ hbelow] at hlast
    exact ⟨_, (List.dropLast_append_getLast? _ hlast.symm).symm⟩
  rw [← List.append_assoc] at hnames
  obtain rfl := (List.append_inj' hnames rfl).1
  have hbelow : below ≠ [] := by
    rintro rfl
    -- the prefix would be the key of the directory, with nothing after it to cut
    obtain ⟨d, hdel, hcut⟩ := Option.bind_eq_some_iff.mp h.rolled
    have hpfx := h.pfx
    rw [List.append_nil, ← hbase] at hpfx hcut
    have heq : p.pfx = baseOf p.pfx := hpfx.eq_of_length_le (baseOf_isPrefix _).length_le
    rw [← heq, Rollup.cut, List.drop_length] at hcut
    obtain ⟨i, hi, -⟩ := Option.map_eq_some_iff.mp hcut
    rw [Rollup.find] at hi
    split at hi
    · next hnil => exact hd (hnil ▸ hdel)
    · cases hi
  refine ⟨dir, hbase, Tree.kind?_of_append hbelow h.mem, ?_, ?_, ?_⟩
  · exact fun n hn => Tree.validName_of_mem h.mem n (List.mem_append_left _ hn)
  · exact fun n hn => hdots n (List.mem_append_left _ hn)
  · exact { h with shown := ⟨below, hbelow, rfl, fun n hn => hdots n (List.mem_append_right _ hn)⟩ }

/-- The lines of a listing are those of the files and of the directories rolled up. -/
theorem mem_pushed (hd : p.delimiter ≠ some []) (hback : '\\' ∉ baseOf p.pfx) {u : ListUnit} :
    u ∈ pushed p t scope ↔
      (∃ path f, ListedFile p t scope [] path f ∧ u = unitOf p (fileKey path) f) ∨
      ∃ path cp, ListedDir p t scope [] path cp ∧ u = .commonPrefix cp := by
  constructor
  · intro hu
    rw [pushed] at hu
    split at hu
    · cases hu
    · next dir base hbase =>
      obtain ⟨hkey, -, -, hdots⟩ := listBase_eq_some hbase
      have hshown : ∀ {path}, Shown dir path → Shown [] path := by
        rintro path ⟨rest, hne, rfl, hrest⟩
        refine ⟨dir ++ rest, by simp [hne], rfl, fun n hn => ?_⟩
        rcases List.mem_append.mp hn with hn | hn
        · exact hdots n hn
        · exact hrest n hn
      obtain ⟨x, hx, rfl⟩ := List.mem_map.mp hu
      rw [hkey] at hx
      rcases listed_of_mem_candidates hx with ⟨path, f, h, hunit⟩ | ⟨path, cp, h, hunit⟩
      · exact .inl ⟨path, f, { h with shown := hshown h.shown }, hunit⟩
      · exact .inr ⟨path, cp, { h with shown := hshown h.shown }, hunit⟩
  · have hstart : ∀ {dir : Path}, baseOf p.pfx = dirKey dir → t.kind? dir = some .dir →
        (∀ n ∈ dir, validName n) → (∀ n ∈ dir, n.head? ≠ some '.') →
        (∃ x ∈ candidates p t scope (t.depth + 1) dir (dirKey dir), x.2 = u) →
        u ∈ pushed p t scope := by
      rintro dir hbase hdir hvalid hdots ⟨x, hx, rfl⟩
      rw [pushed, listBase_of_dir hbase hdir hdots hvalid hback, hbase]
      exact List.mem_map_of_mem hx
    rintro (⟨path, f, h, rfl⟩ | ⟨path, cp, h, rfl⟩)
    · obtain ⟨dir, hbase, hdir, hvalid, hdots, h⟩ := h.exists_base
      have hlen := Tree.length_le_depth h.mem
      exact hstart hbase hdir hvalid hdots (mem_candidates_of_listedFile h (by omega))
    · obtain ⟨dir, hbase, hdir, hvalid, hdots, h⟩ := h.exists_base hd
      have hlen := Tree.length_le_depth h.mem
      exact hstart hbase hdir hvalid hdots (mem_candidates_of_listedDir h (by omega))

end

/-! ## The reference -/

/-- What a key is listed as in the reference. An empty delimiter is none. -/
def referenceUnit (pfx : Text) (delimiter : Option Text) (key : Text) (f : FileData) : ListUnit :=
  match (delimiter.filter fun d => !d.isEmpty).bind fun d => Rollup.cut pfx d key with
  | some cut => .commonPrefix cut
  | none => .ofFile key f

/-- The keys a reader may list: no name starts with a dot, the key is servable, in scope, and
starts with the prefix. -/
def visible (t : Tree) (scope : ReadScope) (pfx : Text) : List (Text × FileData) :=
  t.entries.filterMap fun e =>
    match e.2 with
    | .file f =>
      let key := fileKey e.1
      if (e.1.all fun name => decide (name.head? ≠ some '.')) && servable key && scope.allows key
          && pfx.isPrefixOf key then some (key, f)
      else none
    | _ => none

/-- The reference listing: each line once, in order. -/
def reference (t : Tree) (scope : ReadScope) (pfx : Text) (delimiter : Option Text) :
    List ListUnit :=
  ((visible t scope pfx).map fun x => referenceUnit pfx delimiter x.1 x.2).dedup.insertionSort
    fun a b => a.text ≤ b.text

/-- What `list_objects` asks the walker for. -/
def listParams (pfx : Text) (delimiter marker : Option Text) (maxKeys : ℕ) : ListParams :=
  ⟨pfx, delimiter.filter fun d => !d.isEmpty, maxKeys, marker⟩

section

variable {t : Tree} {scope : ReadScope} {pfx : Text} {delimiter : Option Text}

theorem unitOf_listParams (marker : Option Text) (maxKeys : ℕ) (key : Text) (f : FileData) :
    unitOf (listParams pfx delimiter marker maxKeys) key f = referenceUnit pfx delimiter key f := rfl

theorem delimiter_listParams (marker : Option Text) (maxKeys : ℕ) :
    (listParams pfx delimiter marker maxKeys).delimiter ≠ some [] := by
  intro h
  have := (Option.filter_eq_some_iff.mp h).2
  simp at this

theorem mem_visible {key : Text} {f : FileData} : (key, f) ∈ visible t scope pfx ↔
    ∃ path, key = fileKey path ∧ ∀ (delimiter marker : Option Text) (maxKeys : ℕ),
      ListedFile (listParams pfx delimiter marker maxKeys) t scope [] path f := by
  rw [visible, List.mem_filterMap]
  constructor
  · rintro ⟨⟨path, kind⟩, he, hsome⟩
    cases kind with
    | file g =>
      simp only at hsome
      split at hsome
      · next hok =>
        obtain ⟨rfl, rfl⟩ := Prod.mk.inj (Option.some.inj hsome)
        simp only [Bool.and_eq_true, List.all_eq_true, decide_eq_true_eq,
          List.isPrefixOf_iff_prefix] at hok
        obtain ⟨⟨⟨hdots, hserv⟩, hallow⟩, hpfx⟩ := hok
        exact ⟨path, rfl, fun _ _ _ =>
          ⟨he, ⟨path, (t.names _ he).1, rfl, hdots⟩, hserv, hpfx, hallow⟩⟩
      · cases hsome
    | dir => cases hsome
    | other => cases hsome
  · rintro ⟨path, rfl, h⟩
    have h := h none none 0
    refine ⟨(path, .file f), h.mem, ?_⟩
    have hpfx : pfx.isPrefixOf (fileKey path) = true := List.isPrefixOf_iff_prefix.mpr h.pfx
    have hall : (path.all fun name => decide (name.head? ≠ some '.')) = true := by
      obtain ⟨rest, -, rfl, hdots⟩ := h.shown
      rw [List.all_eq_true]
      exact fun name hname => decide_eq_true (hdots name hname)
    simp only [hpfx, hall, h.servable, h.allowed, Bool.and_self, if_true]

theorem mem_reference {u : ListUnit} : u ∈ reference t scope pfx delimiter ↔
    ∃ x ∈ visible t scope pfx, u = referenceUnit pfx delimiter x.1 x.2 := by
  rw [reference, (List.perm_insertionSort _ _).mem_iff, List.mem_dedup, List.mem_map]
  simp only [eq_comm]

/-- Two files do not have one key. -/
theorem visible_inj {key : Text} {f g : FileData} (hf : (key, f) ∈ visible t scope pfx)
    (hg : (key, g) ∈ visible t scope pfx) : f = g := by
  obtain ⟨a, rfl, ha⟩ := mem_visible.mp hf
  obtain ⟨b, hkey, hb⟩ := mem_visible.mp hg
  have hma := (ha none none 0).mem
  have hmb := (hb none none 0).mem
  have hpath : a = b := by
    have hsplit := congrArg (Text.splitAt '/') hkey
    rwa [splitAt_fileKey (t.names _ hma).1 (noSlash_of_mem hma),
      splitAt_fileKey (t.names _ hmb).1 (noSlash_of_mem hmb)] at hsplit
  subst hpath
  have h := (Assoc.get_eq_some_iff t.nodup).mpr hma
  rw [(Assoc.get_eq_some_iff t.nodup).mpr hmb] at h
  simpa using h.symm

/-- A line of the reference is known by its text: a key that is not cut is no cut. -/
theorem reference_text_inj {u v : ListUnit} (hu : u ∈ reference t scope pfx delimiter)
    (hv : v ∈ reference t scope pfx delimiter) (h : u.text = v.text) : u = v := by
  obtain ⟨⟨k, f⟩, hx, rfl⟩ := mem_reference.mp hu
  obtain ⟨⟨l, g⟩, hy, rfl⟩ := mem_reference.mp hv
  have hpfx : ∀ {x : Text × FileData}, x ∈ visible t scope pfx → pfx <+: x.1 := by
    rintro ⟨x, e⟩ hx
    obtain ⟨path, rfl, hfile⟩ := mem_visible.mp hx
    exact (hfile none none 0).pfx
  have hcut : ∀ {x : Text × FileData} {c : Text}, x ∈ visible t scope pfx →
      ((delimiter.filter fun d => !d.isEmpty).bind fun d => Rollup.cut pfx d x.1) = some c →
      ((delimiter.filter fun d => !d.isEmpty).bind fun d => Rollup.cut pfx d c) = some c := by
    rintro x c hx hc
    obtain ⟨d, hd, hc⟩ := Option.bind_eq_some_iff.mp hc
    exact Option.bind_eq_some_iff.mpr ⟨d, hd, (Rollup.cut_cut (hpfx hx) hc).2⟩
  simp only [referenceUnit] at h ⊢
  cases hk : (delimiter.filter fun d => !d.isEmpty).bind fun d => Rollup.cut pfx d k with
  | some c =>
    cases hl : (delimiter.filter fun d => !d.isEmpty).bind fun d => Rollup.cut pfx d l with
    | some c' =>
      simp only [hk, hl, ListUnit.text] at h
      rw [h]
    | none =>
      simp only [hk, hl, ListUnit.text, ListUnit.ofFile] at h
      have := hcut hx hk
      rw [h, hl] at this
      cases this
  | none =>
    cases hl : (delimiter.filter fun d => !d.isEmpty).bind fun d => Rollup.cut pfx d l with
    | some c' =>
      simp only [hk, hl, ListUnit.text, ListUnit.ofFile] at h
      have := hcut hy hl
      rw [← h, hk] at this
      cases this
    | none =>
      simp only [hk, hl, ListUnit.text, ListUnit.ofFile] at h
      subst h
      rw [visible_inj hx hy]

theorem pairwise_reference (t : Tree) (scope : ReadScope) (pfx : Text) (delimiter : Option Text) :
    (reference t scope pfx delimiter).Pairwise fun u v => u.text < v.text := by
  have htotal : Std.Total fun a b : ListUnit => a.text ≤ b.text := ⟨fun a b => le_total _ _⟩
  have htrans : IsTrans ListUnit fun a b : ListUnit => a.text ≤ b.text :=
    ⟨fun _ _ _ h h' => h.trans h'⟩
  have hle : (reference t scope pfx delimiter).Pairwise fun a b => a.text ≤ b.text :=
    List.pairwise_insertionSort _ _
  have hnodup : (reference t scope pfx delimiter).Nodup :=
    (List.perm_insertionSort _ _).nodup_iff.mpr (List.nodup_dedup _)
  refine (hle.and hnodup).imp_of_mem ?_
  rintro a b ha hb ⟨hle, hne⟩
  exact lt_of_le_of_ne hle fun h => hne (reference_text_inj ha hb h)

/-! ## When the walk agrees with it -/

/-- Every directory that is rolled up holds a visible key, or another visible key rolls up to the
same; and if the directory part of the prefix has a backslash, nothing visible is below it. -/
def Tidy (t : Tree) (scope : ReadScope) (pfx : Text) (delimiter : Option Text) : Prop :=
  if '\\' ∈ baseOf pfx then visible t scope pfx = []
  else ∀ path cp, ListedDir (listParams pfx delimiter none 0) t scope [] path cp →
    ∃ x ∈ visible t scope pfx, cp <+: x.1

/-- What a page should be. -/
def PagesExact (t : Tree) (scope : ReadScope) (pfx : Text) (delimiter : Option Text) : Prop :=
  ∀ (marker : Option Text) (maxKeys : ℕ), 1 ≤ maxKeys →
    let rest := (reference t scope pfx delimiter).filter fun u => marker.all (· < u.text)
    let w := page (listParams pfx delimiter marker maxKeys) t scope
    w.out = rest.take maxKeys ∧ w.truncated = decide (maxKeys < rest.length)

/-- A rolled up key is a line exactly if some visible key starts with it. -/
theorem commonPrefix_mem_reference {path : Path} {cp : Text}
    (h : ListedDir (listParams pfx delimiter none 0) t scope [] path cp) :
    .commonPrefix cp ∈ reference t scope pfx delimiter ↔ ∃ x ∈ visible t scope pfx, cp <+: x.1 := by
  obtain ⟨d, hd, hcut⟩ := Option.bind_eq_some_iff.mp h.rolled
  rw [mem_reference]
  constructor
  · rintro ⟨x, hx, hunit⟩
    refine ⟨x, hx, ?_⟩
    unfold referenceUnit at hunit
    split at hunit
    · next c hc =>
      obtain rfl := ListUnit.commonPrefix.inj hunit
      obtain ⟨d', -, hc⟩ := Option.bind_eq_some_iff.mp hc
      exact Rollup.isPrefix_of_cut hc
    · cases hunit
  · rintro ⟨x, hx, hpre⟩
    refine ⟨x, hx, ?_⟩
    have hc := Rollup.cut_of_cut_isPrefix h.pfx hcut hpre
    have hbind : ((delimiter.filter fun d => !d.isEmpty).bind fun d => Rollup.cut pfx d x.1)
        = some cp := Option.bind_eq_some_iff.mpr ⟨d, hd, hc⟩
    simp only [referenceUnit, hbind]

theorem mem_pushed_of_visible {u : ListUnit} (marker : Option Text) (maxKeys : ℕ)
    (hback : '\\' ∉ baseOf pfx) :
    u ∈ pushed (listParams pfx delimiter marker maxKeys) t scope ↔
      u ∈ reference t scope pfx delimiter ∨
      ∃ path cp, ListedDir (listParams pfx delimiter none 0) t scope [] path cp ∧
        u = .commonPrefix cp := by
  rw [mem_pushed (delimiter_listParams marker maxKeys) hback, mem_reference]
  refine or_congr ?_ ?_
  · constructor
    · rintro ⟨path, f, h, rfl⟩
      refine ⟨(fileKey path, f), mem_visible.mpr ⟨path, rfl, fun _ _ _ => ?_⟩, rfl⟩
      exact ⟨h.mem, h.shown, h.servable, h.pfx, h.allowed⟩
    · rintro ⟨⟨key, f⟩, hx, rfl⟩
      obtain ⟨path, rfl, h⟩ := mem_visible.mp hx
      exact ⟨path, f, h delimiter marker maxKeys, rfl⟩
  · constructor
    · rintro ⟨path, cp, h, rfl⟩
      exact ⟨path, cp, ⟨h.mem, h.shown, h.reached, h.pfx, h.rolled⟩, rfl⟩
    · rintro ⟨path, cp, h, rfl⟩
      exact ⟨path, cp, ⟨h.mem, h.shown, h.reached, h.pfx, h.rolled⟩, rfl⟩

theorem reference_eq_nil (h : visible t scope pfx = []) : reference t scope pfx delimiter = [] := by
  rw [List.eq_nil_iff_forall_not_mem]
  intro u hu
  obtain ⟨x, hx, -⟩ := mem_reference.mp hu
  rw [h] at hx
  cases hx

theorem pagesExact_iff : PagesExact t scope pfx delimiter ↔ Tidy t scope pfx delimiter := by
  constructor
  · intro h
    -- a page with room for everything
    have hall : ∀ {lines : List ListUnit}, (lines.Pairwise fun u v => u.text < v.text) →
        (∀ maxKeys u, u ∈ lines ↔ u ∈ pushed (listParams pfx delimiter none maxKeys) t scope) →
        lines = reference t scope pfx delimiter := by
      intro lines hlines hmem
      let n := lines.length + (reference t scope pfx delimiter).length + 1
      have hone : 1 ≤ n := by simp only [n]; omega
      obtain ⟨hout, -⟩ := h none n hone
      obtain ⟨hout', -⟩ := page_eq (p := listParams pfx delimiter none n) hone hlines (hmem n)
      simp only [listParams, Option.all_none, List.filter_true] at hout hout'
      rw [List.take_of_length_le (by simp only [n]; omega)] at hout hout'
      exact hout'.symm.trans hout
    unfold Tidy
    by_cases hback : '\\' ∈ baseOf pfx
    · rw [if_pos hback]
      have hnil := @hall [] List.Pairwise.nil fun maxKeys u => by
        simp [pushed, listParams, listBase_of_backslash t hback]
      rw [List.eq_nil_iff_forall_not_mem]
      intro x hx
      have hmem : referenceUnit pfx delimiter x.1 x.2 ∈ reference t scope pfx delimiter :=
        mem_reference.mpr ⟨x, hx, rfl⟩
      rw [← hnil] at hmem
      cases hmem
    · rw [if_neg hback]
      intro path cp hdir
      rw [← commonPrefix_mem_reference hdir]
      have hlines : (fresh (listParams pfx delimiter none 0) none
          (pushed (listParams pfx delimiter none 0) t scope)).Pairwise fun u v => u.text < v.text :=
        pairwise_fresh (rolled_pushed _ t scope) (by simp)
      have hmem : ∀ maxKeys u, u ∈ fresh (listParams pfx delimiter none 0) none
          (pushed (listParams pfx delimiter none 0) t scope) ↔
          u ∈ pushed (listParams pfx delimiter none maxKeys) t scope := by
        intro maxKeys u
        rw [mem_fresh (rolled_pushed _ t scope) (by simp), mem_pushed_of_visible none 0 hback,
          mem_pushed_of_visible none maxKeys hback]
        simp [listParams]
      rw [← hall hlines hmem, hmem 0, mem_pushed_of_visible none 0 hback]
      exact .inr ⟨path, cp, hdir, rfl⟩
  · intro h marker maxKeys hmax
    refine page_eq (p := listParams pfx delimiter marker maxKeys) hmax
      (pairwise_reference t scope pfx delimiter) fun u => ?_
    unfold Tidy at h
    by_cases hback : '\\' ∈ baseOf pfx
    · rw [if_pos hback] at h
      simp [reference_eq_nil h, pushed, listParams, listBase_of_backslash t hback]
    · rw [if_neg hback] at h
      rw [mem_pushed_of_visible marker maxKeys hback]
      refine ⟨.inl, ?_⟩
      rintro (hu | ⟨path, cp, hdir, rfl⟩)
      · exact hu
      · exact (commonPrefix_mem_reference hdir).mpr (h path cp hdir)

end

end LogLess.S3
