import Mathlib.Data.List.Basic
import Mathlib.Tactic

/-!
# Text as lists of characters

The operations of `str` that readers of small text files use: trimming and splitting at
a character. `trim_eq_self`, `splitAt_append` and `splitAt_of_notMem` say what a reader gets
back from text a writer joined, and `splitAt_append_eq` that text may be split piece by
piece when the last part of a piece is kept for the next one.
-/

namespace Text

/-- `char::is_whitespace`: the Unicode property `White_Space`. -/
def isWhitespace (c : Char) : Bool :=
  let n := c.toNat
  (9 ≤ n && n ≤ 13) || n == 0x20 || n == 0x85 || n == 0xA0 || n == 0x1680
    || (0x2000 ≤ n && n ≤ 0x200A) || n == 0x2028 || n == 0x2029 || n == 0x202F
    || n == 0x205F || n == 0x3000

/-- `str::trim`. -/
def trim (t : List Char) : List Char :=
  ((t.dropWhile isWhitespace).reverse.dropWhile isWhitespace).reverse

/-- `str::split` at a character: there is always a first part. -/
def splitAt (sep : Char) : List Char → List (List Char)
  | [] => [[]]
  | c :: cs =>
    if c = sep then [] :: splitAt sep cs
    else
      match splitAt sep cs with
      | part :: parts => (c :: part) :: parts
      | [] => [[c]]

/-- `str::split_whitespace`. -/
def splitWhitespace (t : List Char) : List (List Char) :=
  (t.splitOnP isWhitespace).filter fun word => !word.isEmpty

/-- `str::split_once`: the text before and after the first separator. -/
def splitOnce (sep : Char) : List Char → Option (List Char × List Char)
  | [] => none
  | c :: cs =>
    if c = sep then some ([], cs)
    else (splitOnce sep cs).map fun (before, rest) => (c :: before, rest)

/-- `str::split_once` at a text. -/
def splitOnceAt (sep : List Char) : List Char → Option (List Char × List Char)
  | [] => if sep.isEmpty then some ([], []) else none
  | c :: cs =>
    match sep.isPrefixOf? (c :: cs) with
    | some rest => some ([], rest)
    | none => (splitOnceAt sep cs).map fun (before, rest) => (c :: before, rest)

/-- `str::trim_end_matches`. -/
def trimEndMatches (p : Char → Bool) (t : List Char) : List Char :=
  (t.reverse.dropWhile p).reverse

/-- `str::trim_matches`. -/
def trimMatches (p : Char → Bool) (t : List Char) : List Char := trimEndMatches p (t.dropWhile p)

/-- `str::rfind` and the text before and after what it finds. -/
def rsplitOnce (sep : Char) : List Char → Option (List Char × List Char)
  | [] => none
  | c :: cs =>
    match rsplitOnce sep cs with
    | some (before, rest) => some (c :: before, rest)
    | none => if c = sep then some ([], cs) else none

/-- `BufRead::lines`: a line ends at a newline, with a carriage return before it or not, or
where the text does. -/
def bufLines (t : List Char) : List (List Char) :=
  let parts := splitAt '\n' t
  let stripCr := fun (l : List Char) => if l.getLast? = some '\r' then l.dropLast else l
  parts.dropLast.map stripCr ++ (parts.getLast?.filter fun l => !l.isEmpty).toList

theorem dropWhile_eq_self_of_all {p : Char → Bool} {t : List Char} (h : ∀ c ∈ t, p c = false) :
    t.dropWhile p = t := by
  cases t with
  | nil => rfl
  | cons c cs => rw [List.dropWhile_cons, h c List.mem_cons_self]; rfl

/-- Text without whitespace is not trimmed. -/
theorem trim_eq_self {t : List Char} (h : ∀ c ∈ t, isWhitespace c = false) : trim t = t := by
  rw [trim, dropWhile_eq_self_of_all h, dropWhile_eq_self_of_all (by simpa using h),
    List.reverse_reverse]

/-- A part without the separator, and what follows the separator. -/
theorem splitAt_append {sep : Char} {t : List Char} (h : sep ∉ t) (rest : List Char) :
    splitAt sep (t ++ sep :: rest) = t :: splitAt sep rest := by
  induction t with
  | nil => simp [splitAt]
  | cons c cs ih =>
    simp only [List.mem_cons, not_or] at h
    obtain ⟨hc, hcs⟩ := h
    rw [List.cons_append, splitAt, if_neg (Ne.symm hc), ih hcs]

theorem splitOnce_append {sep : Char} {t : List Char} (h : sep ∉ t) (rest : List Char) :
    splitOnce sep (t ++ sep :: rest) = some (t, rest) := by
  induction t with
  | nil => simp [splitOnce]
  | cons c t ih =>
    obtain ⟨hc, ht⟩ := List.ne_and_not_mem_of_not_mem_cons h
    rw [List.cons_append, splitOnce, if_neg (Ne.symm hc), ih ht]
    rfl

theorem notMem_of_splitOnce {sep : Char} {t a b : List Char} (h : splitOnce sep t = some (a, b)) :
    sep ∉ a := by
  induction t generalizing a b with
  | nil => cases h
  | cons c cs ih =>
    rw [splitOnce] at h
    split at h
    · obtain ⟨rfl, -⟩ := Prod.mk.inj (Option.some.inj h)
      exact List.not_mem_nil
    · next hc =>
      obtain ⟨⟨before, rest⟩, hsplit, hab⟩ := Option.map_eq_some_iff.mp h
      obtain ⟨rfl, -⟩ := Prod.mk.inj hab
      intro hmem
      rcases List.mem_cons.mp hmem with rfl | hmem
      · exact hc rfl
      · exact ih hsplit hmem

theorem eq_of_splitOnce {sep : Char} {t a b : List Char} (h : splitOnce sep t = some (a, b)) :
    t = a ++ sep :: b := by
  induction t generalizing a with
  | nil => cases h
  | cons c t ih =>
    unfold splitOnce at h
    split at h
    · next hc =>
      obtain ⟨rfl, rfl⟩ := Prod.mk.inj (Option.some.inj h)
      rw [hc]
      rfl
    · obtain ⟨⟨x, y⟩, hxy, hab⟩ := Option.map_eq_some_iff.mp h
      obtain ⟨rfl, rfl⟩ := Prod.mk.inj hab
      rw [ih hxy]
      rfl

theorem isPrefixOf?_append (p t : List Char) : p.isPrefixOf? (p ++ t) = some t := by
  induction p with
  | nil => cases t <;> rfl
  | cons c p ih => simp [List.isPrefixOf?, ih]

/-- A separator that begins with a character the text before it does not have. -/
theorem splitOnceAt_append {c : Char} {sep t : List Char} (h : c ∉ t) (rest : List Char) :
    splitOnceAt (c :: sep) (t ++ c :: sep ++ rest) = some (t, rest) := by
  induction t with
  | nil =>
    have hprefix := isPrefixOf?_append (c :: sep) rest
    rw [List.nil_append]
    simp only [List.cons_append] at hprefix ⊢
    rw [splitOnceAt, hprefix]
  | cons d t ih =>
    obtain ⟨hd, ht⟩ := List.ne_and_not_mem_of_not_mem_cons h
    have hnone : (c :: sep).isPrefixOf? (d :: (t ++ c :: sep ++ rest)) = none := by
      rw [List.isPrefixOf?, if_neg (by simpa using hd)]
    show splitOnceAt (c :: sep) (d :: (t ++ c :: sep ++ rest)) = _
    rw [splitOnceAt, hnone]
    simp only
    rw [ih ht]
    rfl

theorem splitAt_of_notMem {sep : Char} {t : List Char} (h : sep ∉ t) : splitAt sep t = [t] := by
  induction t with
  | nil => rfl
  | cons c cs ih =>
    simp only [List.mem_cons, not_or] at h
    obtain ⟨hc, hcs⟩ := h
    rw [splitAt, if_neg (Ne.symm hc), ih hcs]

theorem notMem_of_rsplitOnce {sep : Char} {t : List Char} (h : rsplitOnce sep t = none) :
    sep ∉ t := by
  induction t with
  | nil => simp
  | cons c cs ih =>
    rw [rsplitOnce] at h
    cases hcs : rsplitOnce sep cs with
    | some v => rw [hcs] at h; cases h
    | none =>
      rw [hcs] at h
      by_cases hc : c = sep
      · rw [if_pos hc] at h
        cases h
      · simp only [List.mem_cons, not_or]
        exact ⟨Ne.symm hc, ih hcs⟩

theorem eq_of_rsplitOnce {sep : Char} {t a b : List Char} (h : rsplitOnce sep t = some (a, b)) :
    t = a ++ sep :: b := by
  induction t generalizing a with
  | nil => cases h
  | cons c cs ih =>
    rw [rsplitOnce] at h
    cases hcs : rsplitOnce sep cs with
    | some v =>
      rw [hcs, Option.some.injEq, Prod.mk.injEq] at h
      obtain ⟨rfl, rfl⟩ := h
      rw [ih hcs, List.cons_append]
    | none =>
      rw [hcs] at h
      by_cases hc : c = sep
      · rw [if_pos hc, Option.some.injEq, Prod.mk.injEq] at h
        obtain ⟨rfl, rfl⟩ := h
        rw [hc, List.nil_append]
      · rw [if_neg hc] at h
        cases h

theorem splitAt_ne_nil (sep : Char) (t : List Char) : splitAt sep t ≠ [] := by
  cases t with
  | nil => simp [splitAt]
  | cons c cs =>
    rw [splitAt]
    split
    · simp
    · split <;> simp

/-- Text may be split piece by piece, if the last part of one piece is put before the next. -/
theorem splitAt_append_eq (sep : Char) (a b : List Char) :
    splitAt sep (a ++ b)
      = (splitAt sep a).dropLast ++ splitAt sep ((splitAt sep a).getLastD [] ++ b) := by
  induction a with
  | nil => simp [splitAt]
  | cons c cs ih =>
    obtain ⟨part, parts, hsplit⟩ := List.exists_cons_of_ne_nil (splitAt_ne_nil sep cs)
    by_cases hc : c = sep
    · rw [List.cons_append, splitAt, if_pos hc, splitAt, if_pos hc, ih, hsplit]
      simp
    · rw [List.cons_append, splitAt, if_neg hc, splitAt, if_neg hc, ih, hsplit]
      cases parts with
      | nil =>
        simp only [List.dropLast_singleton, List.nil_append, List.getLastD_cons,
          List.getLastD_nil]
        rw [List.cons_append, splitAt, if_neg hc]
      | cons q qs => simp

/-- The text before the last separator is split into all parts but the last. -/
theorem splitAt_of_rsplitOnce {sep : Char} {t a b : List Char}
    (h : rsplitOnce sep t = some (a, b)) : splitAt sep t = splitAt sep a ++ [b] := by
  induction t generalizing a with
  | nil => cases h
  | cons c cs ih =>
    rw [rsplitOnce] at h
    cases hcs : rsplitOnce sep cs with
    | some v =>
      obtain ⟨before, rest⟩ := v
      rw [hcs, Option.some.injEq, Prod.mk.injEq] at h
      obtain ⟨rfl, rfl⟩ := h
      rw [splitAt, splitAt, ih hcs]
      obtain ⟨part, parts, hsplit⟩ := List.exists_cons_of_ne_nil (splitAt_ne_nil sep before)
      rw [hsplit]
      by_cases hc : c = sep
      · simp [hc]
      · simp [hc]
    | none =>
      rw [hcs] at h
      by_cases hc : c = sep
      · rw [if_pos hc, Option.some.injEq, Prod.mk.injEq] at h
        obtain ⟨rfl, rfl⟩ := h
        have hnil : splitAt sep [] = [[]] := rfl
        rw [hnil, splitAt, if_pos hc, splitAt_of_notMem (notMem_of_rsplitOnce hcs)]
        rfl
      · rw [if_neg hc] at h
        cases h

theorem splitAt_append_sep (sep : Char) (a b : List Char) :
    splitAt sep (a ++ sep :: b) = splitAt sep a ++ splitAt sep b := by
  induction a with
  | nil => simp [splitAt]
  | cons c cs ih =>
    by_cases hc : c = sep
    · rw [List.cons_append, splitAt, if_pos hc, splitAt, if_pos hc, ih, List.cons_append]
    · obtain ⟨part, parts, hsplit⟩ := List.exists_cons_of_ne_nil (splitAt_ne_nil sep cs)
      rw [List.cons_append, splitAt, if_neg hc, splitAt, if_neg hc, ih, hsplit]
      rfl

/-- Parts with the separator after each are found again, and an empty one after the last. -/
theorem splitAt_flatMap {sep : Char} {parts : List (List Char)} (h : ∀ part ∈ parts, sep ∉ part) :
    splitAt sep (parts.flatMap fun part => part ++ [sep]) = parts ++ [[]] := by
  induction parts with
  | nil => rfl
  | cons part parts ih =>
    rw [List.flatMap_cons, List.append_assoc, List.singleton_append,
      splitAt_append (h part List.mem_cons_self), ih fun x hx => h x (List.mem_cons_of_mem _ hx)]
    rfl

/-- Parts with the separator before each. -/
theorem splitAt_flatMap_cons {sep : Char} {t : List Char} {parts : List (List Char)} (ht : sep ∉ t)
    (h : ∀ part ∈ parts, sep ∉ part) :
    splitAt sep (t ++ parts.flatMap fun part => sep :: part) = t :: parts := by
  induction parts generalizing t with
  | nil => rw [List.flatMap_nil, List.append_nil, splitAt_of_notMem ht]
  | cons part parts ih =>
    rw [List.flatMap_cons, List.cons_append, splitAt_append ht, ih (h part List.mem_cons_self)
      fun x hx => h x (List.mem_cons_of_mem _ hx)]

theorem mem_intercalate {sep : List Char} {parts : List (List Char)} {c : Char}
    (h : c ∈ List.intercalate sep parts) : c ∈ sep ∨ ∃ part ∈ parts, c ∈ part := by
  induction parts with
  | nil => cases h
  | cons part parts ih =>
    cases parts with
    | nil =>
      rw [List.intercalate_singleton] at h
      exact Or.inr ⟨part, List.mem_cons_self, h⟩
    | cons next parts =>
      rw [List.intercalate_cons_cons, List.append_assoc, List.mem_append, List.mem_append] at h
      rcases h with h | h | h
      · exact Or.inr ⟨part, List.mem_cons_self, h⟩
      · exact Or.inl h
      · rcases ih h with h | ⟨x, hx, hc⟩
        · exact Or.inl h
        · exact Or.inr ⟨x, List.mem_cons_of_mem _ hx, hc⟩

/-- Parts with the separator between them. -/
theorem splitAt_intercalate {sep : Char} {t : List Char} {parts : List (List Char)} (ht : sep ∉ t)
    (h : ∀ part ∈ parts, sep ∉ part) :
    splitAt sep (List.intercalate [sep] (t :: parts)) = t :: parts := by
  have hjoin : List.intercalate [sep] (t :: parts) = t ++ parts.flatMap fun part => sep :: part := by
    induction parts generalizing t with
    | nil => simp [List.intercalate]
    | cons part parts ih =>
      have hrest := ih (h part List.mem_cons_self) fun x hx => h x (List.mem_cons_of_mem _ hx)
      rw [List.intercalate_cons_cons, hrest, List.flatMap_cons]
      simp
  rw [hjoin, splitAt_flatMap_cons ht h]

/-- The parts with the separator after each make up the text with the separator after it. -/
theorem flatMap_splitAt (sep : Char) (t : List Char) :
    (splitAt sep t).flatMap (fun part => part ++ [sep]) = t ++ [sep] := by
  induction t with
  | nil => simp [splitAt]
  | cons c cs ih =>
    by_cases hc : c = sep
    · rw [splitAt, if_pos hc, List.flatMap_cons, ih, hc]
      rfl
    · obtain ⟨part, parts, hsplit⟩ := List.exists_cons_of_ne_nil (splitAt_ne_nil sep cs)
      rw [splitAt, if_neg hc, hsplit]
      rw [hsplit, List.flatMap_cons] at ih
      rw [List.flatMap_cons, List.cons_append, List.cons_append, ih, List.cons_append]

/-- A part holds no separator and only what the text holds. -/
theorem of_mem_splitAt {sep : Char} {t part : List Char} (h : part ∈ splitAt sep t) :
    sep ∉ part ∧ part ⊆ t := by
  induction t generalizing part with
  | nil =>
    obtain rfl : part = [] := by simpa [splitAt] using h
    simp
  | cons c cs ih =>
    by_cases hc : c = sep
    · rw [splitAt, if_pos hc] at h
      rcases List.mem_cons.mp h with rfl | h
      · simp
      · exact ⟨(ih h).1, List.subset_cons_of_subset _ (ih h).2⟩
    · obtain ⟨first, parts, hsplit⟩ := List.exists_cons_of_ne_nil (splitAt_ne_nil sep cs)
      rw [splitAt, if_neg hc, hsplit] at h
      rw [hsplit] at ih
      rcases List.mem_cons.mp h with rfl | h
      · obtain ⟨hsep, hsub⟩ := ih List.mem_cons_self
        exact ⟨by simp [Ne.symm hc, hsep], List.cons_subset_cons c hsub⟩
      · obtain ⟨hsep, hsub⟩ := ih (List.mem_cons_of_mem _ h)
        exact ⟨hsep, List.subset_cons_of_subset _ hsub⟩

/-- The parts of a text joined again, where there are three. -/
theorem eq_of_splitAt_three {sep : Char} {t a b c : List Char} (h : splitAt sep t = [a, b, c]) :
    t = a ++ sep :: (b ++ sep :: c) := by
  have hjoin := flatMap_splitAt sep t
  rw [h] at hjoin
  simp only [List.flatMap_cons, List.flatMap_nil, List.append_nil] at hjoin
  have hlast : t ++ [sep] = (a ++ sep :: (b ++ sep :: c)) ++ [sep] := by
    rw [← hjoin]
    simp
  exact List.append_cancel_right hlast

theorem eq_of_splitAt_singleton {sep : Char} {t part : List Char} (h : splitAt sep t = [part]) :
    t = part := by
  have hjoin := flatMap_splitAt sep t
  rw [h, List.flatMap_singleton] at hjoin
  exact (List.append_cancel_right hjoin).symm

theorem of_mem_splitWhitespace {t word : List Char} (h : word ∈ splitWhitespace t) :
    ∀ c ∈ word, isWhitespace c = false := by
  have hword := (List.mem_filter.mp h).1
  clear h
  induction t generalizing word with
  | nil =>
    rw [List.splitOnP_nil, List.mem_singleton] at hword
    rw [hword]
    simp
  | cons c cs ih =>
    rw [List.splitOnP_cons_eq_if_modifyHead] at hword
    split at hword
    · rcases List.mem_cons.mp hword with rfl | hword
      · simp
      · exact ih hword
    · next hc =>
      cases hsplit : cs.splitOnP isWhitespace with
      | nil => exact absurd hsplit (List.splitOnP_ne_nil _ _)
      | cons first rest =>
        rw [hsplit] at hword ih
        rcases List.mem_cons.mp hword with rfl | hword
        · intro d hd
          rcases List.mem_cons.mp hd with rfl | hd
          · exact Bool.not_eq_true _ ▸ hc
          · exact ih List.mem_cons_self d hd
        · exact ih (List.mem_cons_of_mem _ hword)

theorem isWhitespace_of_isDigit {c : Char} (h : c.isDigit = true) :
    isWhitespace c = false := by
  have hc : 48 ≤ c.toNat ∧ c.toNat ≤ 57 := by
    simpa [Char.isDigit, UInt32.le_iff_toNat_le] using h
  simp only [isWhitespace, Bool.or_eq_false_iff, Bool.and_eq_false_iff, decide_eq_false_iff_not,
    beq_eq_false_iff_ne, ne_eq]
  omega

/-- A word, and what follows the white space after it. -/
theorem splitWhitespace_append {word : List Char} (hne : word ≠ [])
    (h : ∀ c ∈ word, isWhitespace c = false) {sep : Char} (hsep : isWhitespace sep = true)
    (rest : List Char) :
    splitWhitespace (word ++ sep :: rest) = word :: splitWhitespace rest := by
  rw [splitWhitespace, List.splitOnP_append_cons_of_forall_mem h sep hsep, List.filter_cons,
    if_pos (by simpa using hne), splitWhitespace]

theorem splitWhitespace_of_all {word : List Char} (hne : word ≠ [])
    (h : ∀ c ∈ word, isWhitespace c = false) : splitWhitespace word = [word] := by
  rw [splitWhitespace, List.splitOnP_eq_singleton h, List.filter_cons,
    if_pos (by simpa using hne), List.filter_nil]

theorem exists_mem_splitAt {sep c : Char} {t : List Char} (h : c ∈ t) (hne : c ≠ sep) :
    ∃ part ∈ splitAt sep t, c ∈ part := by
  have hmem : c ∈ (splitAt sep t).flatMap (fun part => part ++ [sep]) := by
    rw [flatMap_splitAt]
    exact List.mem_append_left _ h
  obtain ⟨part, hpart, hc⟩ := List.mem_flatMap.mp hmem
  refine ⟨part, hpart, ?_⟩
  rcases List.mem_append.mp hc with hc | hc
  · exact hc
  · exact absurd (List.mem_singleton.mp hc) hne

/-! ## Lines -/

/-- Text after which a line begins. -/
def endsLine (t : List Char) : Bool := t.isEmpty || t.getLast? == some '\n'

theorem endsLine_iff {t : List Char} : endsLine t = true ↔ t = [] ∨ t.getLast? = some '\n' := by
  rw [endsLine, Bool.or_eq_true, List.isEmpty_iff, beq_iff_eq]

theorem endsLine_append_newline (t line : List Char) : endsLine (t ++ (line ++ ['\n'])) = true := by
  rw [endsLine_iff, ← List.append_assoc, List.getLast?_concat]
  exact .inr rfl

theorem endsLine_flatMap {α : Type} (f : α → List Char) (as : List α) :
    endsLine (as.flatMap fun a => f a ++ ['\n']) = true := by
  rcases List.eq_nil_or_concat as with rfl | ⟨bs, b, rfl⟩
  · rfl
  · rw [List.concat_eq_append, List.flatMap_append, List.flatMap_cons, List.flatMap_nil,
      List.append_nil]
    exact endsLine_append_newline _ _

/-- A line after text that ends a line. -/
theorem bufLines_append {t line : List Char} (ht : endsLine t = true) (hline : '\n' ∉ line)
    (hcr : line.getLast? ≠ some '\r') :
    bufLines (t ++ (line ++ ['\n'])) = bufLines t ++ [line] := by
  have hone : bufLines (line ++ ['\n']) = [line] := by
    simp [bufLines, splitAt_append hline, splitAt, hcr]
  rcases endsLine_iff.mp ht with rfl | hlast
  · exact hone
  · obtain ⟨s, rfl⟩ := List.getLast?_eq_some_iff.mp hlast
    have hsplit : splitAt '\n' (s ++ ['\n']) = splitAt '\n' s ++ [[]] :=
      splitAt_append_sep '\n' s []
    have hboth : splitAt '\n' (s ++ ['\n'] ++ (line ++ ['\n']))
        = splitAt '\n' s ++ [line] ++ [[]] := by
      rw [List.append_assoc, List.singleton_append, splitAt_append_sep,
        splitAt_append hline, List.append_assoc]
      rfl
    simp only [bufLines, hsplit, hboth, List.dropLast_concat, List.getLast?_concat,
      List.map_append, List.map_cons, List.map_nil, if_neg hcr]
    rw [List.append_assoc, List.append_assoc]
    rfl

/-- A line that is not ended, after text that ends a line. -/
theorem bufLines_append_last {t line : List Char} (ht : endsLine t = true) (hline : '\n' ∉ line)
    (hne : line ≠ []) : bufLines (t ++ line) = bufLines t ++ [line] := by
  have hone : bufLines line = [line] := by
    simp [bufLines, splitAt_of_notMem hline, hne]
  rcases endsLine_iff.mp ht with rfl | hlast
  · exact hone
  · obtain ⟨s, rfl⟩ := List.getLast?_eq_some_iff.mp hlast
    have hsplit : splitAt '\n' (s ++ ['\n']) = splitAt '\n' s ++ [[]] :=
      splitAt_append_sep '\n' s []
    have hboth : splitAt '\n' (s ++ ['\n'] ++ line) = splitAt '\n' s ++ [line] := by
      rw [List.append_assoc, List.singleton_append, splitAt_append_sep, splitAt_of_notMem hline]
    have hkeep : (some line).filter (fun l => !l.isEmpty) = some line := by simp [hne]
    simp only [bufLines, hsplit, hboth, List.dropLast_concat, List.getLast?_concat, hkeep]
    rw [List.append_assoc]
    rfl

end Text
