import LogLess.S3.Pages

/-!
# Continuation tokens

A page that is not the last one names its last line in a token, in hexadecimal, and the next
request resumes after it. Where pages are exact, a client that follows the tokens gets every
line of the reference once.
-/

namespace LogLess.S3

/-! ## Tokens -/

def encodeToken (key : Text) : Text := Store.simple (Utf8.encode key)

/-- `u8::from_str_radix` of two characters: the first may be a plus sign. -/
def hexPair (a b : Char) : Option UInt8 := do
  let x ← if a = '+' then some 0 else Json.hexValue a
  let y ← Json.hexValue b
  return UInt8.ofNat (x * 16 + y)

def hexPairs : Text → Option (List UInt8)
  | a :: b :: rest => do
    let byte ← hexPair a b
    let bytes ← hexPairs rest
    return byte :: bytes
  | _ => some []

def decodeToken (token : Text) : Option Text :=
  if token.isEmpty || token.len % 2 ≠ 0 || !token.all (fun c => c.toNat < 128) then none
  else (hexPairs token).bind Utf8.strict

/-- Where a request with a token resumes, and one without; none if the token is refused. -/
def markerOf : Option Text → Option (Option Text)
  | none => some none
  | some token => (decodeToken token).map some

/-- The lines that a client gets which follows the tokens from `token` on, in so many requests at
most; none if it does not get to an end, or a token is refused. -/
def followTokens (t : Tree) (scope : ReadScope) (pfx : Text) (delimiter : Option Text)
    (maxKeys : ℕ) : ℕ → Option Text → Option (List ListUnit)
  | 0, _ => none
  | n + 1, token =>
    (markerOf token).bind fun marker =>
      let w := page (listParams pfx delimiter marker maxKeys) t scope
      match w.truncated, w.out.getLast? with
      | true, some last =>
        (followTokens t scope pfx delimiter maxKeys n (some (encodeToken last.text))).map
          (w.out ++ ·)
      | _, _ => some w.out

theorem hexPairs_simple (bytes : List UInt8) : hexPairs (Store.simple bytes) = some bytes := by
  induction bytes with
  | nil => rfl
  | cons b bytes ih =>
    have hb := b.toNat_lt
    have hplus : ∀ m < 16, Store.hexDigit m ≠ '+' := by decide
    have hhi : Json.hexValue (Store.hexDigit (b.toNat / 16)) = some (b.toNat / 16) :=
      Json.hexValue_hexChar (by omega)
    have hlo : Json.hexValue (Store.hexDigit (b.toNat % 16)) = some (b.toNat % 16) :=
      Json.hexValue_hexChar (by omega)
    have hbyte : UInt8.ofNat (b.toNat / 16 * 16 + b.toNat % 16) = b := by
      rw [Nat.div_add_mod', UInt8.ofNat_toNat]
    have hpair : hexPair (Store.hexDigit (b.toNat / 16)) (Store.hexDigit (b.toNat % 16)) = some b := by
      rw [hexPair, if_neg (hplus _ (by omega)), hhi, hlo]
      simp only [Option.bind_eq_bind, Option.bind_some, Option.pure_def, hbyte]
    rw [Store.simple] at ih
    rw [Store.simple, List.flatMap_cons]
    simp only [List.cons_append, List.nil_append, hexPairs, hpair, ih, Option.bind_eq_bind,
      Option.bind_some, Option.pure_def]

theorem ascii_simple (bytes : List UInt8) : ∀ c ∈ Store.simple bytes, c.toNat < 128 := by
  have hall : ∀ m < 16, (Store.hexDigit m).toNat < 128 := by decide
  intro c hc
  obtain ⟨b, -, hc⟩ := List.mem_flatMap.mp hc
  have hb := b.toNat_lt
  simp only [List.mem_cons, List.not_mem_nil, or_false] at hc
  rcases hc with rfl | rfl
  · exact hall _ (by omega)
  · exact hall _ (by omega)

theorem len_of_ascii {s : Text} (h : ∀ c ∈ s, c.toNat < 128) : s.len = s.length := by
  induction s with
  | nil => rfl
  | cons c s ih =>
    have hc := h c List.mem_cons_self
    have hsize : c.utf8Size = 1 := by
      rw [Char.utf8Size, if_pos]
      rw [UInt32.le_iff_toNat_le]
      exact Nat.le_of_lt_succ hc
    rw [Text.len, List.map_cons, List.sum_cons, List.length_cons, hsize]
    have := ih fun x hx => h x (List.mem_cons_of_mem _ hx)
    rw [Text.len] at this
    omega

theorem decodeToken_encodeToken {key : Text} (hne : key ≠ []) :
    decodeToken (encodeToken key) = some key := by
  have hlen : (encodeToken key).length = 2 * (Utf8.encode key).length := by
    simp [encodeToken, Store.simple, List.length_flatMap, Nat.mul_comm]
  have hbytes : Utf8.encode key ≠ [] := by
    obtain ⟨c, cs, rfl⟩ := List.exists_cons_of_ne_nil hne
    intro hnil
    have := congrArg List.length hnil
    rw [Utf8.length_encode] at this
    have hpos := Char.utf8Size_pos c
    simp at this
    omega
  have hpos := List.length_pos_of_ne_nil hbytes
  have hascii := ascii_simple (Utf8.encode key)
  have hsize : (encodeToken key).len = 2 * (Utf8.encode key).length :=
    (len_of_ascii hascii).trans hlen
  have hall : (encodeToken key).all (fun c => decide (c.toNat < 128)) = true := by
    rw [List.all_eq_true]
    exact fun c hc => decide_eq_true (hascii c hc)
  have hnil : encodeToken key ≠ [] := by
    intro hnil
    rw [hnil, List.length_nil] at hlen
    omega
  rw [decodeToken, if_neg (by simp [hnil, hsize, hall]), encodeToken, hexPairs_simple,
    Option.bind_some, Utf8.strict_encode]

/-! ## Following them -/

/-- What follows the last line of a page is what the page left. -/
theorem filter_lt_getLast {lines : List ListUnit} (hlines : lines.Pairwise fun u v => u.text < v.text)
    {n : ℕ} {last : ListUnit} (hlast : (lines.take n).getLast? = some last) :
    lines.filter (fun u => decide (last.text < u.text)) = lines.drop n := by
  obtain ⟨before, hbefore⟩ : ∃ before, lines.take n = before ++ [last] :=
    ⟨_, (List.dropLast_append_getLast? last hlast).symm⟩
  have hsplit : lines = before ++ [last] ++ lines.drop n := by
    rw [← hbefore, List.take_append_drop]
  rw [hsplit] at hlines
  obtain ⟨hleft, -, hcross⟩ := List.pairwise_append.mp hlines
  obtain ⟨-, -, hinit⟩ := List.pairwise_append.mp hleft
  have hnone : (before ++ [last]).filter (fun u => decide (last.text < u.text)) = [] := by
    rw [List.filter_eq_nil_iff]
    intro u hu
    rw [decide_eq_true_eq, not_lt]
    rcases List.mem_append.mp hu with hu | hu
    · exact le_of_lt (hinit u hu last (by simp))
    · rw [List.mem_singleton.mp hu]
  have hall : (lines.drop n).filter (fun u => decide (last.text < u.text)) = lines.drop n := by
    rw [List.filter_eq_self]
    intro u hu
    exact decide_eq_true (hcross last (by simp) u hu)
  calc lines.filter (fun u => decide (last.text < u.text))
      = (before ++ [last] ++ lines.drop n).filter (fun u => decide (last.text < u.text)) := by
        rw [← hsplit]
    _ = lines.drop n := by rw [List.filter_append, hnone, hall, List.nil_append]

variable {t : Tree} {scope : ReadScope} {pfx : Text} {delimiter : Option Text}

theorem text_ne_nil {u : ListUnit} (hu : u ∈ reference t scope pfx delimiter) : u.text ≠ [] := by
  obtain ⟨⟨key, f⟩, hx, rfl⟩ := mem_reference.mp hu
  obtain ⟨path, rfl, h⟩ := mem_visible.mp hx
  have hserv := (h none none 0).servable
  unfold referenceUnit
  split
  · next cut hcut =>
    obtain ⟨d, hd, hcut⟩ := Option.bind_eq_some_iff.mp hcut
    obtain ⟨i, hi, rfl⟩ := Option.map_eq_some_iff.mp hcut
    have hlen := Rollup.length_le_of_find hi
    have hdne : d ≠ [] := by simpa using (Option.filter_eq_some_iff.mp hd).2
    have hdpos := List.length_pos_of_ne_nil hdne
    simp only [List.length_drop] at hlen
    intro hnil
    have := congrArg List.length hnil
    simp only [ListUnit.text, List.length_take, List.length_nil] at this
    omega
  · intro hnil
    have hkey : fileKey path = [] := hnil
    rw [hkey] at hserv
    revert hserv
    decide

theorem followTokens_eq (h : PagesExact t scope pfx delimiter) {maxKeys : ℕ} (hmax : 1 ≤ maxKeys)
    {n : ℕ} {token marker : Option Text}
    (htoken : markerOf token = some marker)
    (hn : ((reference t scope pfx delimiter).filter fun u => marker.all (· < u.text)).length < n) :
    followTokens t scope pfx delimiter maxKeys n token
      = some ((reference t scope pfx delimiter).filter fun u => marker.all (· < u.text)) := by
  induction n generalizing token marker with
  | zero => omega
  | succ n ih =>
    obtain ⟨hout, htrunc⟩ := h marker maxKeys hmax
    set lines := (reference t scope pfx delimiter).filter fun u => marker.all (· < u.text)
      with hlines
    have hsorted : lines.Pairwise fun u v => u.text < v.text :=
      (pairwise_reference t scope pfx delimiter).filter _
    rw [followTokens, htoken]
    simp only [Option.bind_some, hout, htrunc]
    by_cases hmore : maxKeys < lines.length
    · rw [decide_eq_true hmore]
      obtain ⟨last, hlast⟩ : ∃ last, (lines.take maxKeys).getLast? = some last := by
        have hne : lines.take maxKeys ≠ [] := by
          intro hnil
          have := congrArg List.length hnil
          rw [List.length_take, List.length_nil] at this
          omega
        exact ⟨_, List.getLast?_eq_some_getLast hne⟩
      have hmem : last ∈ lines := List.mem_of_mem_take (List.mem_of_getLast? hlast)
      have hmarker : marker.all (· < last.text) = true := (List.mem_filter.mp hmem).2
      -- a line after the last one of the page is after the marker
      have hrest : (reference t scope pfx delimiter).filter
          (fun u => (some last.text).all (· < u.text)) = lines.drop maxKeys := by
        rw [← filter_lt_getLast hsorted hlast, hlines, List.filter_filter]
        refine List.filter_congr fun u _ => ?_
        by_cases hu : last.text < u.text
        · cases marker with
          | none => simp [hu]
          | some m =>
            have hm : m < last.text := by simpa using hmarker
            simp [hu, hm.trans hu]
        · simp [hu]
      have hdecode : decodeToken (encodeToken last.text) = some last.text :=
        decodeToken_encodeToken (text_ne_nil (List.mem_of_mem_filter hmem))
      have hnext := @ih (some (encodeToken last.text)) (some last.text) (by simp [markerOf, hdecode]) (by
        rw [hrest, List.length_drop]
        omega)
      simp only [hlast, hnext, hrest, Option.map_some, List.take_append_drop]
    · rw [decide_eq_false hmore]
      simp only
      rw [List.take_of_length_le (by omega)]

/-- **Pages are exact where the store is tidy, and nowhere else.** For every tree, scope, prefix
and delimiter: every page is the first `maxKeys` lines of the reference after the marker and says
whether there are more, and following the tokens ends and gives every line of the reference once,
exactly if each directory that is rolled up shares its roll-up with a visible key and, where the
directory part of the prefix has a backslash, nothing visible is below it. -/
theorem listing_exact_iff (t : Tree) (scope : ReadScope) (pfx : Text) (delimiter : Option Text) :
    (PagesExact t scope pfx delimiter ∧ ∀ maxKeys, 1 ≤ maxKeys →
      ∃ n, followTokens t scope pfx delimiter maxKeys n none
        = some (reference t scope pfx delimiter)) ↔
    Tidy t scope pfx delimiter := by
  rw [← pagesExact_iff]
  refine ⟨fun h => h.1, fun h => ⟨h, fun maxKeys hmax => ?_⟩⟩
  refine ⟨(reference t scope pfx delimiter).length + 1, ?_⟩
  have hnone : markerOf none = some none := rfl
  have hroom : ((reference t scope pfx delimiter).filter
      fun u => (none : Option Text).all (· < u.text)).length
        < (reference t scope pfx delimiter).length + 1 := by
    simp
  simpa using followTokens_eq h hmax hnone hroom

/-! ## Examples -/

/-- A directory with nothing in it. -/
def emptyDir : Tree where
  entries := [(["tenant=acme".toList], .dir)]
  nodup := by decide
  names := by
    intro e he
    obtain rfl := List.mem_singleton.mp he
    exact ⟨by decide, by unfold validName; decide⟩
  parents := by
    intro dir name hmem hne
    have hmem : dir ++ [name] = ["tenant=acme".toList] := by simpa using hmem
    have hlen := congrArg List.length hmem
    rw [List.length_append, List.length_singleton, List.length_singleton] at hlen
    exact absurd (List.length_eq_zero_iff.mp (by omega)) hne

/-- The listing shows a common prefix that no key has, and the reference nothing. -/
theorem empty_directory_is_listed :
    (page (listParams [] (some ['/']) none 1) emptyDir .whole).out
        = [.commonPrefix "tenant=acme/".toList] ∧
      reference emptyDir .whole [] (some ['/']) = [] ∧
      ¬ (PagesExact emptyDir .whole [] (some ['/']) ∧ ∀ maxKeys, 1 ≤ maxKeys →
        ∃ n, followTokens emptyDir .whole [] (some ['/']) maxKeys n none
          = some (reference emptyDir .whole [] (some ['/']))) := by
  have hpage : (page (listParams [] (some ['/']) none 1) emptyDir .whole).out
      = [.commonPrefix "tenant=acme/".toList] := by decide +kernel
  have hreference : reference emptyDir .whole [] (some ['/']) = [] := by decide +kernel
  refine ⟨hpage, hreference, fun h => ?_⟩
  have hout := (h.1 none 1 le_rfl).1
  rw [hpage, hreference] at hout
  cases hout

end LogLess.S3
