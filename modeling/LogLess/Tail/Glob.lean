import LogLess.Lib.Glob
import LogLess.Model

/-!
# Globs of the tail section

`glob_match` walks a pattern and a name with two indices and goes back to the last star when
the two do not fit. It always ends, and its answer is that of the recursive matcher, except
where a `[` of the name stands against a `[` of the pattern that opens a class: the literal
comparison comes first, takes the bracket for itself and goes on inside the class.
-/

namespace LogLess.Tail

/-! ## The code -/

/-- The loop of `class_match` over the body of a class. -/
def scanClass (c : Char) : Bool → List Char → Bool
  | matched, a :: '-' :: b :: body => scanClass c (matched || (a ≤ c && c ≤ b)) body
  | matched, a :: body => scanClass c (matched || a == c) body
  | matched, [] => matched

/-- `class_match`: whether the class takes the character, and how long the class is. -/
def classMatch (pattern : List Char) (c : Char) : Option (Bool × ℕ) := do
  let close ← pattern.findIdx? (· == ']')
  if close = 0 then none
  else
    let body := (pattern.take close).drop 1
    let negated := body.head? == some '!' || body.head? == some '^'
    let matched := scanClass c false (if negated then body.drop 1 else body)
    some (matched != negated, close + 1)

/-- The indices of `glob_match`: into the pattern, into the name, and those of the last
star. -/
structure Search where
  pi : ℕ
  ni : ℕ
  star : Option ℕ
  starN : ℕ
deriving DecidableEq

namespace Search

def start : Search := ⟨0, 0, none, 0⟩

/-- The last star takes one character more; without a star there is no match. -/
def back (c : Search) : Search ⊕ Bool :=
  match c.star with
  | some s => .inl ⟨s + 1, c.starN + 1, some s, c.starN + 1⟩
  | none => .inr false

/-- One turn of the loop of `glob_match`, or its answer. -/
def step (p n : List Char) (c : Search) : Search ⊕ Bool :=
  match n[c.ni]? with
  | none => .inr ((p.drop c.pi).all (· == '*'))
  | some ch =>
    match p[c.pi]? with
    | none => c.back
    | some x =>
      if x = '*' then .inl ⟨c.pi + 1, c.ni, some c.pi, c.ni⟩
      else if x = '?' ∨ x = ch then .inl { c with pi := c.pi + 1, ni := c.ni + 1 }
      else if x = '[' then
        match classMatch (p.drop c.pi) ch with
        | some (true, len) => .inl { c with pi := c.pi + len, ni := c.ni + 1 }
        | _ => c.back
      else c.back

/-- The loop, for at most so many turns. -/
def search (p n : List Char) : ℕ → Search → Option Bool
  | 0, _ => none
  | fuel + 1, c =>
    match c.step p n with
    | .inl c' => search p n fuel c'
    | .inr answer => some answer

/-- The cursors the loop goes through. -/
def trace (p n : List Char) : ℕ → Search → List Search
  | 0, _ => []
  | fuel + 1, c =>
    match c.step p n with
    | .inl c' => c :: trace p n fuel c'
    | .inr _ => [c]

end Search

/-- As many turns as the loop can take. -/
def turns (p n : List Char) : ℕ := (n.length + 1) * (p.length + 1)

/-- `glob_match`. -/
def globMatch (p n : List Char) : Option Bool := Search.start.search p n (turns p n)

/-! ## The language of a pattern -/

/-- The ranges of a class; a character of its own is a range of one. -/
def classRanges : List Char → List (Char × Char)
  | a :: '-' :: b :: body => (a, b) :: classRanges body
  | a :: body => (a, a) :: classRanges body
  | [] => []

def inRanges (body : List Char) (c : Char) : Bool :=
  (classRanges body).any fun r => r.1 ≤ c && c ≤ r.2

/-- Whether a class with this body takes a character. -/
def inClass : List Char → Char → Bool
  | '!' :: body, c => !inRanges body c
  | '^' :: body, c => !inRanges body c
  | body, c => inRanges body c

/-- The tokens of a pattern. A bracket that is not closed stands for itself. -/
def tokens : List Char → List (Glob.Token Char)
  | [] => []
  | x :: p =>
    if x = '*' then .star :: tokens p
    else if x = '?' then .one (fun _ => true) :: tokens p
    else if x = '[' ∧ ']' ∈ p then
      .one (inClass (p.takeWhile (· != ']'))) :: tokens ((p.dropWhile (· != ']')).drop 1)
    else .one (· == x) :: tokens p
termination_by p => p.length
decreasing_by
  · simp
  · simp
  · have := (List.dropWhile_suffix (l := p) (· != ']')).length_le
    simp only [List.length_drop, List.length_cons]
    omega
  · simp

/-- A `[` of the name stands against a `[` of the pattern that opens a class. -/
def Search.Misread (p n : List Char) (c : Search) : Prop :=
  n[c.ni]? = some '[' ∧ p[c.pi]? = some '[' ∧ ']' ∈ p.drop c.pi

instance (p n : List Char) (c : Search) : Decidable (c.Misread p n) := by
  unfold Search.Misread
  infer_instance

/-- The search never takes a bracket that opens a class for a bracket of the name. -/
def Clear (p n : List Char) : Prop :=
  ∀ c ∈ Search.start.trace p n (turns p n), ¬ c.Misread p n

instance (p n : List Char) : Decidable (Clear p n) := by
  unfold Clear
  infer_instance

/-! ## Classes -/

section Classes

variable {body rest : List Char} {c : Char}

theorem scanClass_eq (c : Char) (matched : Bool) (body : List Char) :
    scanClass c matched body = (matched || inRanges body c) := by
  have hself : ∀ a : Char, (a == c) = (decide (a ≤ c) && decide (c ≤ a)) := by
    intro a
    rw [Bool.eq_iff_iff, beq_iff_eq, Bool.and_eq_true, decide_eq_true_iff, decide_eq_true_iff]
    exact ⟨fun h => h ▸ ⟨Char.le_refl _, Char.le_refl _⟩, fun h => Char.le_antisymm h.1 h.2⟩
  fun_induction scanClass c matched body with
  | case1 matched a b body ih =>
    have hranges : inRanges (a :: '-' :: b :: body) c
        = (decide (a ≤ c) && decide (c ≤ b) || inRanges body c) := by
      simp only [inRanges, classRanges, List.any_cons]
    rw [ih, hranges, Bool.or_assoc]
  | case2 matched a body hdash ih =>
    have hranges : inRanges (a :: body) c = (a == c || inRanges body c) := by
      simp only [inRanges, classRanges.eq_2 _ _ hdash, List.any_cons, hself]
    rw [ih, hranges, Bool.or_assoc]
  | case3 matched => simp [inRanges, classRanges]

/-- The class at the start of a pattern, and how long it is. -/
theorem classMatch_closed (hbody : ']' ∉ body) :
    classMatch ('[' :: (body ++ ']' :: rest)) c = some (inClass body c, body.length + 2) := by
  have hclose : ('[' :: (body ++ ']' :: rest)).findIdx? (· == ']') = some (body.length + 1) := by
    have hnone : body.findIdx? (· == ']') = none := by
      rw [List.findIdx?_eq_none_iff]
      intro x hx
      simpa using fun h : x = ']' => hbody (h ▸ hx)
    rw [List.findIdx?_cons, List.findIdx?_append, hnone, List.findIdx?_cons]
    simp
  have htake : (('[' :: (body ++ ']' :: rest)).take (body.length + 1)).drop 1 = body := by
    rw [List.take_succ_cons, List.take_left' rfl]
    rfl
  simp only [classMatch, hclose, Option.bind_eq_bind, Option.bind_some, htake]
  rw [if_neg (by omega)]
  simp only [scanClass_eq, Bool.false_or, Option.some.injEq, Prod.mk.injEq, and_true]
  match body with
  | [] => rfl
  | x :: body =>
    by_cases hbang : x = '!'
    · simp [hbang, inClass]
    · by_cases hcaret : x = '^'
      · simp [hcaret, inClass]
      · have hclass : inClass (x :: body) c = inRanges (x :: body) c :=
          inClass.eq_3 _ _ (by simp [hbang]) (by simp [hcaret])
        have hplain : (x == '!' || x == '^') = false := by simp [hbang, hcaret]
        simp [hclass, hplain]

theorem classMatch_open (hbody : ']' ∉ body) : classMatch ('[' :: body) c = none := by
  have hclose : ('[' :: body).findIdx? (· == ']') = none := by
    rw [List.findIdx?_eq_none_iff]
    intro x hx
    rcases List.mem_cons.mp hx with rfl | hx
    · rfl
    · simpa using fun h : x = ']' => hbody (h ▸ hx)
  rw [classMatch, hclose]
  rfl

theorem tokens_closed (hbody : ']' ∉ body) :
    tokens ('[' :: (body ++ ']' :: rest)) = .one (inClass body) :: tokens rest := by
  have hall : ∀ x ∈ body, (x != ']') = true := by
    intro x hx
    simpa using fun h : x = ']' => hbody (h ▸ hx)
  have htake : (body ++ ']' :: rest).takeWhile (· != ']') = body := by
    rw [List.takeWhile_append_of_pos hall]
    simp
  have hdrop : (body ++ ']' :: rest).dropWhile (· != ']') = ']' :: rest := by
    rw [List.dropWhile_append_of_pos hall]
    simp
  rw [tokens, if_neg (by decide), if_neg (by decide), if_pos (by simp), htake, hdrop]
  rfl

end Classes

/-! ## One turn of the loop -/

/-- What one turn of the loop can be. A token that is taken is the next one of the pattern
unless the turn misreads a bracket. -/
inductive Search.Move (p n : List Char) (c : Search) : Search ⊕ Bool → Prop where
  | done (hn : n.length ≤ c.ni) : Move p n c (.inr ((p.drop c.pi).all (· == '*')))
  | star (hn : c.ni < n.length) (hp : c.pi < p.length)
      (htokens : tokens (p.drop c.pi) = .star :: tokens (p.drop (c.pi + 1))) :
      Move p n c (.inl ⟨c.pi + 1, c.ni, some c.pi, c.ni⟩)
  | take (pi : ℕ) (ch : Char) (hn : n[c.ni]? = some ch) (hlt : c.pi < pi) (hp : pi ≤ p.length)
      (htokens : ¬ c.Misread p n → ∃ accepts, accepts ch = true ∧
        tokens (p.drop c.pi) = .one accepts :: tokens (p.drop pi)) :
      Move p n c (.inl { c with pi := pi, ni := c.ni + 1 })
  | back (hn : c.ni < n.length) (hfail : ¬ Glob.Matches (tokens (p.drop c.pi)) (n.drop c.ni)) :
      Move p n c c.back

namespace Search

variable {p n : List Char} {c c' : Search}

theorem step_move (p n : List Char) (c : Search) : c.Move p n (c.step p n) := by
  unfold step
  cases hn : n[c.ni]? with
  | none => exact .done (List.getElem?_eq_none_iff.mp hn)
  | some ch =>
    obtain ⟨hlt, hch⟩ := List.getElem?_eq_some_iff.mp hn
    have hname : n.drop c.ni = ch :: n.drop (c.ni + 1) := by
      rw [List.drop_eq_getElem_cons hlt, hch]
    cases hp : p[c.pi]? with
    | none =>
      refine .back hlt ?_
      rw [List.drop_eq_nil_of_le (List.getElem?_eq_none_iff.mp hp), hname, tokens, Glob.matches_nil]
      simp
    | some x =>
      obtain ⟨hplt, hx⟩ := List.getElem?_eq_some_iff.mp hp
      have hpattern : p.drop c.pi = x :: p.drop (c.pi + 1) := by
        rw [List.drop_eq_getElem_cons hplt, hx]
      simp only
      by_cases hstar : x = '*'
      · rw [if_pos hstar]
        refine .star hlt hplt ?_
        rw [hpattern, tokens, if_pos hstar]
      rw [if_neg hstar]
      by_cases hone : x = '?' ∨ x = ch
      · rw [if_pos hone]
        refine .take _ ch hn (by omega) (by omega) fun hclear => ?_
        rw [hpattern, tokens, if_neg hstar]
        by_cases hany : x = '?'
        · rw [if_pos hany]
          exact ⟨_, rfl, rfl⟩
        · obtain rfl := hone.resolve_left hany
          -- a bracket here opens no class
          have hopen : ¬ (x = '[' ∧ ']' ∈ p.drop (c.pi + 1)) := by
            rintro ⟨rfl, hmem⟩
            refine hclear ⟨hn, hp, ?_⟩
            rw [hpattern]
            exact List.mem_cons_of_mem _ hmem
          rw [if_neg hany, if_neg hopen]
          exact ⟨_, by simp, rfl⟩
      · obtain ⟨hany, hne⟩ := not_or.mp hone
        rw [if_neg hone]
        by_cases hbracket : x = '['
        · subst hbracket
          rw [if_pos rfl]
          by_cases hclosed : ']' ∈ p.drop (c.pi + 1)
          · obtain ⟨body, rest, hsplit, hbody⟩ := List.eq_append_cons_of_mem hclosed
            rw [hsplit] at hpattern
            have htokens : tokens ('[' :: (body ++ ']' :: rest)) = _ := tokens_closed hbody
            have hmatch : classMatch ('[' :: (body ++ ']' :: rest)) ch = _ :=
              classMatch_closed hbody
            rw [hpattern, hmatch]
            cases hin : inClass body ch with
            | true =>
              have hrest : p.drop (c.pi + (body.length + 2)) = rest := by
                rw [← List.drop_drop, hpattern]
                simp
              refine .take _ ch hn (by omega) ?_ fun _ => ⟨inClass body, hin, ?_⟩
              · have hlength := congrArg List.length hpattern
                simp only [List.length_drop, List.length_cons, List.length_append] at hlength
                omega
              · rw [hrest, hpattern, htokens]
            | false =>
              refine .back hlt ?_
              rw [hpattern, htokens, hname, Glob.matches_one_cons]
              simp [hin]
          · rw [hpattern, classMatch_open hclosed]
            refine .back hlt ?_
            rw [hpattern, tokens, if_neg hstar, if_neg hany, if_neg (by simp [hclosed]), hname,
              Glob.matches_one_cons]
            simp [Ne.symm hne]
        · rw [if_neg hbracket]
          refine .back hlt ?_
          rw [hpattern, tokens, if_neg hstar, if_neg hany, if_neg (by simp [hbracket]), hname,
            Glob.matches_one_cons]
          simp [Ne.symm hne]

theorem back_eq_inl (h : c.back = .inl c') :
    ∃ s, c.star = some s ∧ c' = ⟨s + 1, c.starN + 1, some s, c.starN + 1⟩ := by
  unfold back at h
  split at h
  · next s hs => exact ⟨s, hs, (Sum.inl.inj h).symm⟩
  · cases h

theorem back_eq_inr {answer : Bool} (h : c.back = .inr answer) :
    c.star = none ∧ answer = false := by
  unfold back at h
  split at h
  · cases h
  · next hs => exact ⟨hs, (Sum.inr.inj h).symm⟩

/-! ## The loop ends -/

/-- The indices stay in the pattern, and the name is not read before the last star. -/
structure Within (p n : List Char) (c : Search) : Prop where
  pi_le : c.pi ≤ p.length
  starN_le : c.starN ≤ c.ni
  star_lt : ∀ s, c.star = some s → s < p.length

/-- Going back takes one more character, anything else one more of the pattern. -/
def rank (p n : List Char) (c : Search) : ℕ :=
  (n.length - c.starN) * (p.length + 1) + (p.length - c.pi)

theorem Move.advances {r : Search ⊕ Bool} (h : c.Move p n r) (hr : r = .inl c')
    (hc : c.Within p n) : c'.Within p n ∧ c'.rank p n < c.rank p n := by
  obtain ⟨hpi, hstarN, hstar⟩ := hc
  -- where the last star is further on in the name
  have hless : ∀ {m k : ℕ}, c.starN < m → m ≤ n.length →
      (n.length - m) * (p.length + 1) + (p.length - k) < c.rank p n := by
    intro m k hlt hle
    have hmul : (n.length - m + 1) * (p.length + 1) ≤ (n.length - c.starN) * (p.length + 1) :=
      Nat.mul_le_mul_right _ (by omega)
    rw [Nat.add_mul] at hmul
    unfold rank
    omega
  cases h with
  | done hn => cases hr
  | star hn hp htokens =>
    obtain rfl := Sum.inl.inj hr
    refine ⟨⟨hp, le_refl _, fun s hs => Option.some.inj hs ▸ hp⟩, ?_⟩
    rcases Nat.eq_or_lt_of_le hstarN with heq | hlt
    · unfold rank
      simp only [heq]
      omega
    · exact hless hlt hn.le
  | take pi ch hn hlt hp htokens =>
    obtain rfl := Sum.inl.inj hr
    refine ⟨⟨hp, by simp only; omega, hstar⟩, ?_⟩
    unfold rank
    simp only
    omega
  | back hn hfail =>
    obtain ⟨s, hs, rfl⟩ := back_eq_inl hr
    refine ⟨⟨hstar s hs, le_refl _, fun t ht => Option.some.inj ht ▸ hstar s hs⟩, ?_⟩
    exact @hless (c.starN + 1) (s + 1) (by omega) (by omega)

theorem search_isSome (fuel : ℕ) (hc : c.Within p n) (hfuel : c.rank p n < fuel) :
    ∃ answer, c.search p n fuel = some answer := by
  induction fuel generalizing c with
  | zero => omega
  | succ fuel ih =>
    rw [search]
    cases hstep : c.step p n with
    | inr answer => exact ⟨answer, rfl⟩
    | inl c' =>
      obtain ⟨hc', hrank⟩ := (step_move p n c).advances hstep hc
      exact ih hc' (by omega)

end Search

theorem globMatch_isSome (p n : List Char) : ∃ answer, globMatch p n = some answer := by
  refine Search.search_isSome _ ⟨Nat.zero_le _, le_refl _, fun s hs => by cases hs⟩ ?_
  rw [Search.rank, turns, Search.start, Nat.add_mul, Nat.sub_zero, Nat.sub_zero]
  omega

/-! ## The answer of the loop -/

namespace Search

variable {p n : List Char} {c c' : Search} {goal : Prop}

/-- What the search has left to do. -/
def Searches (goal : Prop) (p n : List Char) (c : Search) : Prop :=
  Glob.Greedy goal (tokens (p.drop c.pi)) (n.drop c.ni)
    (c.star.map fun s => (tokens (p.drop (s + 1)), n.drop c.starN))

theorem Move.searches {r : Search ⊕ Bool} (h : c.Move p n r) (hr : r = .inl c')
    (hc : c.Within p n) (hclear : ¬ c.Misread p n) (hs : c.Searches goal p n) :
    c'.Searches goal p n := by
  cases h with
  | done hn => cases hr
  | star hn hp htokens =>
    obtain rfl := Sum.inl.inj hr
    unfold Searches at hs
    rw [htokens] at hs
    exact hs.meet
  | take pi ch hn hlt hp htokens =>
    obtain rfl := Sum.inl.inj hr
    obtain ⟨accepts, haccepts, htokens⟩ := htokens hclear
    obtain ⟨hnlt, hch⟩ := List.getElem?_eq_some_iff.mp hn
    unfold Searches at hs
    rw [htokens, List.drop_eq_getElem_cons hnlt, hch] at hs
    exact hs.one haccepts
  | back hn hfail =>
    obtain ⟨s, hstar, rfl⟩ := back_eq_inl hr
    have hstarN : c.starN < n.length := lt_of_le_of_lt hc.starN_le hn
    unfold Searches at hs
    rw [hstar, Option.map_some, List.drop_eq_getElem_cons hstarN] at hs
    exact hs.back hfail

theorem Move.answers {r : Search ⊕ Bool} {answer : Bool} (h : c.Move p n r)
    (hr : r = .inr answer) (hs : c.Searches goal p n) : answer = true ↔ goal := by
  cases h with
  | done hn =>
    obtain rfl := Sum.inr.inj hr
    unfold Searches at hs
    rw [List.drop_eq_nil_of_le hn] at hs
    rw [hs.finish]
    -- only stars match the empty name
    generalize p.drop c.pi = q
    fun_induction tokens q with
    | case1 => simp
    | case2 p ih => rw [Glob.matches_star_nil, ← ih]; simp
    | case3 p hstar ih => simp
    | case4 x p hstar hany hclass ih => simp [hstar]
    | case5 x p hstar hany hclass ih => simp [hstar]
  | star hn hp htokens => cases hr
  | take pi ch hn hlt hp htokens => cases hr
  | back hn hfail =>
    obtain ⟨hstar, rfl⟩ := back_eq_inr hr
    unfold Searches at hs
    rw [hstar, Option.map_none] at hs
    simpa using hs.stuck hfail

theorem search_iff (fuel : ℕ) {answer : Bool} (hc : c.Within p n) (hs : c.Searches goal p n)
    (hclear : ∀ d ∈ c.trace p n fuel, ¬ d.Misread p n) (h : c.search p n fuel = some answer) :
    answer = true ↔ goal := by
  induction fuel generalizing c with
  | zero => cases h
  | succ fuel ih =>
    rw [search] at h
    rw [trace] at hclear
    cases hstep : c.step p n with
    | inr r =>
      rw [hstep] at h
      obtain rfl := Option.some.inj h
      exact (step_move p n c).answers hstep hs
    | inl c' =>
      simp only [hstep, List.forall_mem_cons] at h hclear
      have hmove := step_move p n c
      exact ih (hmove.advances hstep hc).1 (hmove.searches hstep hc hclear.1 hs) hclear.2 h

end Search

/-- The loop of `glob_match` ends for every pattern and name, and unless it misreads a
bracket it decides the language of the pattern, as the recursive matcher does. -/
theorem globMatch_decides (p n : List Char) :
    ∃ answer, globMatch p n = some answer ∧
      (Clear p n → (answer = true ↔ Glob.Matches (tokens p) n) ∧
        answer = Glob.matcher (tokens p) n) := by
  obtain ⟨answer, hanswer⟩ := globMatch_isSome p n
  refine ⟨answer, hanswer, fun hclear => ?_⟩
  have hstart : Search.start.Searches (Glob.Matches (tokens p) n) p n := Glob.Greedy.start _ _
  have hiff : answer = true ↔ Glob.Matches (tokens p) n :=
    Search.search_iff _ ⟨Nat.zero_le _, le_refl _, fun s hs => by cases hs⟩ hstart hclear hanswer
  refine ⟨hiff, ?_⟩
  rw [Bool.eq_iff_iff, hiff, Glob.matcher_iff]

theorem globMatch_decides_digits :
    ∃ answer, globMatch "app-[0-9]*.log".toList "app-3.1.log".toList = some answer ∧
      (answer = true ↔ Glob.Matches (tokens "app-[0-9]*.log".toList) "app-3.1.log".toList) := by
  have hclear : Clear "app-[0-9]*.log".toList "app-3.1.log".toList := by decide +kernel
  obtain ⟨answer, hanswer, h⟩ := globMatch_decides "app-[0-9]*.log".toList "app-3.1.log".toList
  exact ⟨answer, hanswer, (h hclear).1⟩

/-- A class of one opening bracket takes the name that is one opening bracket, and the loop
says that it does not. -/
theorem globMatch_misses_bracket : globMatch "[[]".toList "[".toList = some false ∧
    Glob.Matches (tokens "[[]".toList) "[".toList := by
  refine ⟨by decide +kernel, ?_⟩
  have htext : "[[]".toList = '[' :: (['['] ++ ']' :: []) := by decide
  rw [htext, tokens_closed (by decide)]
  exact Glob.matches_one_cons.mpr ⟨by decide, by simp [tokens]⟩

/-- A name without an opening bracket is read rightly by every pattern. -/
theorem clear_of_name {p n : List Char} (h : '[' ∉ n) : Clear p n := by
  intro c _ hmisread
  exact h (List.mem_of_getElem? hmisread.1)

/-- A pattern without a class reads every name rightly. -/
theorem clear_of_pattern {p n : List Char} (h : ∀ k : ℕ, p[k]? = some '[' → ']' ∉ p.drop k) :
    Clear p n := by
  intro c _ hmisread
  exact h c.pi hmisread.2.1 hmisread.2.2

end LogLess.Tail
