import LogLess.Httpd.Reader

/-!
# What a request is

The requests that `readRequest` takes in one piece, as a grammar of their bytes: a head that ends
with a blank line, then a body of its length, or chunks and trailers. `accepted_iff` says that these
are all.
-/

namespace LogLess.Httpd

open Frames (Bytes)
open Reads

/-! ## Lines -/

/-- A line as it is found: its end is the first there is. -/
def IsLine (line : Bytes) : Prop := position crlf (line ++ crlf) = some line.length

instance (line : Bytes) : Decidable (IsLine line) := inferInstanceAs (Decidable (_ = _))

section

variable {maxBody maxLine : ℕ} {ended : Bad}

theorem takeLine_gathered {bytes line : Bytes} {t : Source} :
    takeLine maxLine ended ⟨bytes, []⟩ = .ok (line, t) ↔
      ∃ rest, bytes = line ++ crlf ++ rest ∧ IsLine line ∧ t = ⟨rest, []⟩ := by
  rw [takeLine, await_gathered]
  constructor
  · rintro ⟨n, hn, rfl⟩
    obtain ⟨rest, hbytes, hline, rfl⟩ := delimited_eq_some.mp hn
    refine ⟨rest, hbytes, hline, ?_⟩
    rw [hbytes, List.drop_left]
  · rintro ⟨rest, rfl, hline, rfl⟩
    refine ⟨_, delimited_eq_some.mpr ⟨rest, rfl, hline, rfl⟩, ?_⟩
    rw [List.drop_left]

theorem exactly_gathered {bytes found : Bytes} {count : ℕ} {e : Refused} {t : Source} :
    await (exactly count) none e ⟨bytes, []⟩ = .ok (found, t) ↔
      ∃ rest, bytes = found ++ rest ∧ found.length = count ∧ t = ⟨rest, []⟩ := by
  rw [await_gathered]
  constructor
  · rintro ⟨n, hn, rfl⟩
    obtain ⟨rest, hbytes, hcount, rfl⟩ := exactly_eq_some.mp hn
    refine ⟨rest, hbytes, hcount, ?_⟩
    rw [hbytes, ← hcount, List.drop_left]
  · rintro ⟨rest, rfl, rfl, rfl⟩
    refine ⟨_, exactly_eq_some.mpr ⟨rest, rfl, rfl, rfl⟩, ?_⟩
    rw [List.drop_left]

theorem pure_eq_ok {α : Type} {a b : α} {s t : Source} :
    (pure a : Reader Refused α) s = .ok (b, t) ↔ a = b ∧ s = t := by
  show Except.ok (a, s) = .ok (b, t) ↔ _
  rw [Except.ok.injEq, Prod.mk.injEq]

theorem not_fail {α : Type} {bad : Bad} {s : Source} {r : α × Source} :
    (fail bad : Reader Refused α) s ≠ .ok r := by
  intro h
  cases h

theorem not_reject {α : Type} {reason : Reject} {s : Source} {r : α × Source} :
    (reject reason : Reader Refused α) s ≠ .ok r := by
  intro h
  cases h

/-! ## Chunks -/

/-- The chunks of a body, with the last one, which is empty. -/
inductive Chunks : Bytes → Bytes → Prop where
  | last {line : Bytes} (hline : IsLine line) (hsize : chunkSize line = some 0) :
    Chunks (line ++ crlf) []
  | chunk {line data wire body : Bytes} (hline : IsLine line)
    (hsize : chunkSize line = some data.length) (hdata : data ≠ []) (h : Chunks wire body) :
    Chunks (line ++ crlf ++ (data ++ crlf ++ wire)) (data ++ body)

/-- The trailers, and how many bytes their lines are. -/
inductive Trailers : Bytes → ℕ → Prop where
  | done : Trailers crlf 0
  | trailer {line wire : Bytes} {n : ℕ} (hline : IsLine line) (hsome : line ≠ [])
    (h : Trailers wire n) : Trailers (line ++ crlf ++ wire) (line.length + 2 + n)

/-- A body in chunks, as it is sent. -/
structure ChunkedBody (maxBody maxLine : ℕ) (wire body : Bytes) : Prop where
  parts : ∃ chunks trailers n, wire = chunks ++ trailers ∧ Chunks chunks body ∧
    Trailers trailers n ∧ n ≤ maxLine
  within : body.length ≤ maxBody

theorem Chunks.wire_pos {wire body : Bytes} (h : Chunks wire body) : 0 < wire.length := by
  cases h with
  | last hline hsize => simp [crlf]
  | chunk hline hsize hdata h => simp [crlf]

/-- What is read as chunks is chunks. -/
theorem chunks_of_read {turns : ℕ} {before bytes body : Bytes} {t : Source}
    (h : readChunks maxBody maxLine ended turns before ⟨bytes, []⟩ = .ok (body, t)) :
    ∃ wire more rest, bytes = wire ++ rest ∧ Chunks wire more ∧ body = before ++ more ∧
      (more = [] ∨ body.length ≤ maxBody) ∧ t = ⟨rest, []⟩ := by
  induction turns generalizing before bytes with
  | zero => exact absurd h not_fail
  | succ turns ih =>
    rw [readChunks] at h
    obtain ⟨line, s, hline, h⟩ := bind_eq_ok.mp h
    obtain ⟨rest, rfl, hisLine, rfl⟩ := takeLine_gathered.mp hline
    cases hsize : chunkSize line with
    | none =>
      rw [hsize] at h
      exact absurd h not_fail
    | some size =>
      rw [hsize] at h
      cases size with
      | zero =>
        obtain ⟨rfl, rfl⟩ := pure_eq_ok.mp h
        exact ⟨line ++ crlf, [], rest, rfl, .last hisLine hsize, (List.append_nil _).symm,
          .inl rfl, rfl⟩
      | succ size =>
        simp only at h
        split at h
        · exact absurd h not_reject
        · next hroom =>
          obtain ⟨data, s, hdata, h⟩ := bind_eq_ok.mp h
          obtain ⟨rest', rfl, hlength, rfl⟩ := exactly_gathered.mp hdata
          split at h
          · next hend =>
            obtain ⟨wire, more, rest'', rfl, hchunks, rfl, hwithin, rfl⟩ := ih h
            have hsplit : data.take (size + 1) ++ crlf = data := by
              rw [← hend, List.take_append_drop]
            have htake : (data.take (size + 1)).length = size + 1 :=
              List.length_take_of_le (by omega)
            have hsome : data.take (size + 1) ≠ [] := by
              intro hnil
              rw [hnil, List.length_nil] at htake
              omega
            refine ⟨line ++ crlf ++ (data.take (size + 1) ++ crlf ++ wire),
              data.take (size + 1) ++ more, rest'', ?_,
              .chunk hisLine (htake.symm ▸ hsize) hsome hchunks, ?_, .inr ?_, rfl⟩
            · rw [hsplit]
              simp only [List.append_assoc]
            · rw [List.append_assoc]
            · rcases hwithin with rfl | hwithin
              · rw [List.append_nil, List.length_append, htake]
                omega
              · exact hwithin
          · exact absurd h not_fail

/-- Chunks are read, with as many turns as there are bytes. -/
theorem read_of_chunks {wire more : Bytes} (h : Chunks wire more) {turns : ℕ}
    (hturns : wire.length < turns) {before : Bytes} (rest : Bytes)
    (hwithin : more = [] ∨ (before ++ more).length ≤ maxBody) :
    readChunks maxBody maxLine ended turns before ⟨wire ++ rest, []⟩
      = .ok (before ++ more, ⟨rest, []⟩) := by
  induction h generalizing turns before with
  | @last line hline hsize =>
    obtain ⟨turns, rfl⟩ := Nat.exists_eq_add_one_of_ne_zero (Nat.ne_zero_of_lt hturns)
    rw [readChunks]
    refine bind_eq_ok.mpr ⟨line, ⟨rest, []⟩, takeLine_gathered.mpr ⟨rest, rfl, hline, rfl⟩, ?_⟩
    rw [hsize]
    exact pure_eq_ok.mpr ⟨(List.append_nil _).symm, rfl⟩
  | @chunk line data wire body hline hsize hdata h ih =>
    obtain ⟨turns, rfl⟩ := Nat.exists_eq_add_one_of_ne_zero (Nat.ne_zero_of_lt hturns)
    have hpos : 0 < data.length := List.length_pos_iff.mpr hdata
    have hbody : (before ++ (data ++ body)).length ≤ maxBody := by
      rcases hwithin with hnil | hwithin
      · exact absurd (List.append_eq_nil_iff.mp hnil).1 hdata
      · exact hwithin
    simp only [List.length_append] at hturns hbody
    rw [readChunks]
    refine bind_eq_ok.mpr ⟨line, ⟨data ++ crlf ++ (wire ++ rest), []⟩,
      takeLine_gathered.mpr ⟨_, ?_, hline, rfl⟩, ?_⟩
    · simp only [List.append_assoc]
    obtain ⟨size, hsome⟩ := Nat.exists_eq_add_one_of_ne_zero hpos.ne'
    rw [hsize, hsome]
    show (if maxBody < before.length + (size + 1) then _ else _ : Reader Refused Bytes) _ = _
    rw [if_neg (by omega)]
    refine bind_eq_ok.mpr ⟨data ++ crlf, ⟨wire ++ rest, []⟩,
      exactly_gathered.mpr ⟨_, rfl, ?_, rfl⟩, ?_⟩
    · rw [List.length_append, hsome]
      rfl
    rw [← hsome, if_pos List.drop_left, List.take_left, ← List.append_assoc]
    refine ih (by omega) (.inr ?_)
    simp only [List.length_append]
    omega

theorem trailers_of_read {turns before : ℕ} {bytes : Bytes} {t : Source}
    (h : readTrailers maxLine ended turns before ⟨bytes, []⟩ = .ok ((), t)) :
    ∃ wire n rest, bytes = wire ++ rest ∧ Trailers wire n ∧ (n = 0 ∨ before + n ≤ maxLine) ∧
      t = ⟨rest, []⟩ := by
  induction turns generalizing before bytes with
  | zero => exact absurd h not_fail
  | succ turns ih =>
    rw [readTrailers] at h
    obtain ⟨line, s, hline, h⟩ := bind_eq_ok.mp h
    obtain ⟨rest, rfl, hisLine, rfl⟩ := takeLine_gathered.mp hline
    split at h
    · next hnil =>
      obtain ⟨-, rfl⟩ := pure_eq_ok.mp h
      rw [hnil]
      exact ⟨crlf, 0, rest, rfl, .done, .inl rfl, rfl⟩
    · next hsome =>
      split at h
      · exact absurd h not_fail
      · next hroom =>
        obtain ⟨wire, n, rest', rfl, htrailers, hwithin, rfl⟩ := ih h
        refine ⟨line ++ crlf ++ wire, line.length + 2 + n, rest', ?_, .trailer hisLine hsome
          htrailers, .inr ?_, rfl⟩
        · simp only [List.append_assoc]
        · omega

theorem read_of_trailers {wire : Bytes} {n : ℕ} (h : Trailers wire n) {turns before : ℕ}
    (hturns : wire.length < turns) (rest : Bytes) (hwithin : n = 0 ∨ before + n ≤ maxLine) :
    readTrailers maxLine ended turns before ⟨wire ++ rest, []⟩ = .ok ((), ⟨rest, []⟩) := by
  induction h generalizing turns before with
  | done =>
    obtain ⟨turns, rfl⟩ := Nat.exists_eq_add_one_of_ne_zero (Nat.ne_zero_of_lt hturns)
    rw [readTrailers]
    refine bind_eq_ok.mpr ⟨[], ⟨rest, []⟩, takeLine_gathered.mpr ⟨rest, rfl, by decide, rfl⟩, ?_⟩
    exact pure_eq_ok.mpr ⟨rfl, rfl⟩
  | @trailer line wire n hline hsome h ih =>
    obtain ⟨turns, rfl⟩ := Nat.exists_eq_add_one_of_ne_zero (Nat.ne_zero_of_lt hturns)
    have hle : before + (line.length + 2 + n) ≤ maxLine := by omega
    have hcrlf : crlf.length = 2 := rfl
    simp only [List.length_append] at hturns
    rw [readTrailers]
    refine bind_eq_ok.mpr ⟨line, ⟨wire ++ rest, []⟩, takeLine_gathered.mpr ⟨_, ?_, hline, rfl⟩, ?_⟩
    · simp only [List.append_assoc]
    rw [if_neg hsome, if_neg (by omega)]
    exact ih (by omega) (by omega)

theorem sized_eq_ok {α : Type} {f : ℕ → Reader Refused α} {bytes : Bytes} {r : α × Source} :
    sized f ⟨bytes, []⟩ = .ok r ↔ f bytes.length ⟨bytes, []⟩ = .ok r := by
  rw [sized, Source.whole, List.flatten_nil, List.append_nil]

/-- A body in chunks, with what is behind it. -/
theorem readChunked_gathered {bytes body : Bytes} {t : Source} :
    readChunked maxBody maxLine ended ⟨bytes, []⟩ = .ok (body, t) ↔
      ∃ wire rest, bytes = wire ++ rest ∧ ChunkedBody maxBody maxLine wire body ∧
        t = ⟨rest, []⟩ := by
  rw [readChunked]
  constructor
  · intro h
    obtain ⟨body', s, hchunks, h⟩ := bind_eq_ok.mp h
    obtain ⟨chunks, more, rest, rfl, hmore, hbody, hwithin, rfl⟩ :=
      chunks_of_read (sized_eq_ok.mp hchunks)
    rw [List.nil_append] at hbody
    obtain ⟨⟨⟩, s, htrailers, h⟩ := bind_eq_ok.mp h
    have hturns : readTrailers maxLine ended (rest.length + 1) 0 ⟨rest, []⟩ = .ok ((), s) :=
      sized_eq_ok.mp htrailers
    obtain ⟨trailers, n, rest', rfl, hn, hle, rfl⟩ := trailers_of_read hturns
    obtain ⟨rfl, rfl⟩ := pure_eq_ok.mp h
    refine ⟨chunks ++ trailers, rest', (List.append_assoc _ _ _).symm, ⟨?_, ?_⟩, rfl⟩
    · exact ⟨chunks, trailers, n, rfl, hbody ▸ hmore, hn, by omega⟩
    · rcases hwithin with hnil | hwithin
      · rw [hbody, hnil]
        exact Nat.zero_le _
      · exact hwithin
  · rintro ⟨wire, rest, rfl, ⟨⟨chunks, trailers, n, rfl, hchunks, htrailers, hle⟩, hwithin⟩, rfl⟩
    rw [List.append_assoc]
    refine bind_eq_ok.mpr ⟨body, ⟨trailers ++ rest, []⟩, sized_eq_ok.mpr ?_, ?_⟩
    · refine read_of_chunks hchunks ?_ _ (.inr hwithin)
      rw [List.length_append]
      omega
    refine bind_eq_ok.mpr ⟨(), ⟨rest, []⟩, sized_eq_ok.mpr ?_, pure_eq_ok.mpr ⟨rfl, rfl⟩⟩
    refine read_of_trailers htrailers ?_ _ (by omega)
    rw [List.length_append]
    omega

end

/-! ## Requests -/

section

variable (limits : Limits) (head : HeadLimits) (preflight : Incoming → Option Reply)
  (gunzip : ℕ → Bytes → Except Reject Bytes)

/-- A body as it is sent, after a head that declares it. -/
def BodySent (chunked : Bool) (declared : ℕ) (wire sent : Bytes) : Prop :=
  declared ≤ limits.maxBodyBytes ∧
    if chunked then ChunkedBody limits.maxBodyBytes head.maxHeadBytes wire sent
    else wire = sent ∧ sent.length = declared

/-- A body as it is meant. -/
def BodyMeant (r : Incoming) (sent body : Bytes) : Prop :=
  if head.gzip ∧ (r.named "content-encoding").any (fun h => eqIgnoreCase h.2 "gzip") then
    gunzip limits.maxDecompressedBytes sent = .ok body
  else sent = body

/-- A request as it is sent. -/
structure RequestSent (bytes : Bytes) (p : Parsed) : Prop where
  parts : ∃ headBytes wire text request chunked declared sent,
    bytes = headBytes ++ (crlf ++ crlf) ++ wire ∧
    position (crlf ++ crlf) (headBytes ++ (crlf ++ crlf)) = some headBytes.length ∧
    headBytes.length ≤ head.maxHeadBytes ∧ Utf8.strict headBytes = some text ∧
    Http.readHead head.maxHeaders text = .ok request ∧
    framing head (incomingOf request) = .ok (chunked, declared) ∧
    preflight (incomingOf request) = none ∧
    BodySent limits head chunked declared wire sent ∧
    BodyMeant limits head gunzip (incomingOf request) sent p.body ∧
    p.head = incomingOf request ∧ p.methodName = request.method

variable {limits head preflight gunzip} {ended : Bad}

theorem readText_gathered {bytes : Bytes} {text : Text} {t : Source} :
    readText head ended ⟨bytes, []⟩ = .ok (text, t) ↔
      ∃ headBytes rest, bytes = headBytes ++ (crlf ++ crlf) ++ rest ∧
        position (crlf ++ crlf) (headBytes ++ (crlf ++ crlf)) = some headBytes.length ∧
        headBytes.length ≤ head.maxHeadBytes ∧ Utf8.strict headBytes = some text ∧
        t = ⟨rest, []⟩ := by
  rw [readText]
  constructor
  · intro h
    obtain ⟨headBytes, s, hawait, h⟩ := bind_eq_ok.mp h
    obtain ⟨n, hn, rfl⟩ := await_gathered.mp hawait
    obtain ⟨rest, rfl, hend, rfl⟩ := delimited_eq_some.mp hn
    split at h
    · exact absurd h not_fail
    · next hlength =>
      cases htext : Utf8.strict headBytes with
      | none =>
        rw [htext] at h
        exact absurd h not_fail
      | some text' =>
        rw [htext] at h
        obtain ⟨rfl, rfl⟩ := pure_eq_ok.mp h
        refine ⟨headBytes, rest, rfl, hend, Nat.le_of_not_lt hlength, htext, ?_⟩
        rw [List.drop_left]
  · rintro ⟨headBytes, rest, rfl, hend, hlength, htext, rfl⟩
    refine bind_eq_ok.mpr ⟨headBytes, ⟨rest, []⟩, await_gathered.mpr
      ⟨_, delimited_eq_some.mpr ⟨rest, rfl, hend, rfl⟩, by rw [List.drop_left]⟩, ?_⟩
    rw [if_neg (Nat.not_lt.mpr hlength), htext]
    exact pure_eq_ok.mpr ⟨rfl, rfl⟩

theorem readBody_gathered {chunked : Bool} {declared : ℕ} {bytes sent : Bytes} {t : Source} :
    readBody limits head ended chunked declared ⟨bytes, []⟩ = .ok (sent, t) ↔
      ∃ wire rest, bytes = wire ++ rest ∧ BodySent limits head chunked declared wire sent ∧
        t = ⟨rest, []⟩ := by
  rw [readBody]
  by_cases hlarge : limits.maxBodyBytes < declared
  · rw [if_pos hlarge]
    refine iff_of_false not_reject ?_
    rintro ⟨wire, rest, -, ⟨hle, -⟩, -⟩
    omega
  · rw [if_neg hlarge]
    have hle := Nat.le_of_not_lt hlarge
    cases chunked with
    | true =>
      rw [if_pos rfl, readChunked_gathered]
      constructor
      · rintro ⟨wire, rest, hbytes, hbody, ht⟩
        exact ⟨wire, rest, hbytes, ⟨hle, hbody⟩, ht⟩
      · rintro ⟨wire, rest, hbytes, ⟨-, hbody⟩, ht⟩
        exact ⟨wire, rest, hbytes, hbody, ht⟩
    | false =>
      rw [if_neg Bool.false_ne_true, exactly_gathered]
      constructor
      · rintro ⟨rest, hbytes, hlength, ht⟩
        exact ⟨sent, rest, hbytes, ⟨hle, rfl, hlength⟩, ht⟩
      · rintro ⟨wire, rest, hbytes, ⟨-, hwire, hlength⟩, ht⟩
        exact ⟨rest, hwire ▸ hbytes, hlength, ht⟩

theorem inflated_eq_ok {r : Incoming} {sent body : Bytes} {s t : Source} :
    inflated limits head gunzip r sent s = .ok (body, t) ↔
      BodyMeant limits head gunzip r sent body ∧ s = t := by
  rw [inflated, BodyMeant]
  split
  · cases gunzip limits.maxDecompressedBytes sent with
    | ok plain =>
      rw [Except.ok.injEq]
      exact pure_eq_ok
    | error reason =>
      refine iff_of_false not_reject ?_
      rintro ⟨h, -⟩
      cases h
  · exact pure_eq_ok

/-- In one piece exactly the requests of the grammar are taken, each as what it says, and what is
behind them is left. -/
theorem accepted_iff (bytes : Bytes) (p : Parsed) (t : Source) :
    readRequest limits head preflight gunzip ended ⟨bytes, []⟩ = .ok (p, t) ↔
      ∃ request rest, bytes = request ++ rest ∧
        RequestSent limits head preflight gunzip request p ∧ t = ⟨rest, []⟩ := by
  rw [readRequest]
  constructor
  · intro h
    obtain ⟨text, s, htext, h⟩ := bind_eq_ok.mp h
    obtain ⟨headBytes, rest, rfl, hend, hlength, hstrict, rfl⟩ := readText_gathered.mp htext
    cases hrequest : Http.readHead head.maxHeaders text with
    | error bad =>
      rw [hrequest] at h
      exact absurd h not_fail
    | ok request =>
      rw [hrequest] at h
      simp only at h
      cases hframing : framing head (incomingOf request) with
      | error bad =>
        rw [hframing] at h
        exact absurd h not_fail
      | ok framed =>
        obtain ⟨chunked, declared⟩ := framed
        rw [hframing] at h
        simp only at h
        cases hpreflight : preflight (incomingOf request) with
        | some reply =>
          rw [hpreflight] at h
          exact absurd h not_fail
        | none =>
          rw [hpreflight] at h
          obtain ⟨sent, s, hsent, h⟩ := bind_eq_ok.mp h
          obtain ⟨wire, rest', rfl, hbody, rfl⟩ := readBody_gathered.mp hsent
          obtain ⟨body, s, hinflated, h⟩ := bind_eq_ok.mp h
          obtain ⟨hmeant, rfl⟩ := inflated_eq_ok.mp hinflated
          obtain ⟨rfl, rfl⟩ := pure_eq_ok.mp h
          refine ⟨headBytes ++ (crlf ++ crlf) ++ wire, rest', (List.append_assoc _ _ _).symm,
            ⟨headBytes, wire, text, request, chunked, declared, sent, rfl, hend, hlength, hstrict,
              hrequest, hframing, hpreflight, hbody, hmeant, rfl, rfl⟩, rfl⟩
  · rintro ⟨request, rest, rfl, ⟨headBytes, wire, text, request', chunked, declared, sent, rfl,
      hend, hlength, hstrict, hrequest, hframing, hpreflight, hbody, hmeant, hhead, hname⟩, rfl⟩
    refine bind_eq_ok.mpr ⟨text, ⟨wire ++ rest, []⟩, readText_gathered.mpr
      ⟨headBytes, wire ++ rest, ?_, hend, hlength, hstrict, rfl⟩, ?_⟩
    · simp only [List.append_assoc]
    simp only [hrequest, hframing, hpreflight]
    refine bind_eq_ok.mpr ⟨sent, ⟨rest, []⟩, readBody_gathered.mpr ⟨wire, rest, rfl, hbody, rfl⟩,
      ?_⟩
    refine bind_eq_ok.mpr ⟨p.body, ⟨rest, []⟩, inflated_eq_ok.mpr ⟨hmeant, rfl⟩, ?_⟩
    refine pure_eq_ok.mpr ⟨?_, rfl⟩
    cases p
    rw [Parsed.mk.injEq]
    exact ⟨hhead.symm, hname.symm, rfl⟩

/-- A request that is taken in whatever pieces is one of the grammar, and nothing behind it is
used. -/
theorem accepted_is_request {s t : Source} {p : Parsed}
    (h : readRequest limits head preflight gunzip ended s = .ok (p, t)) :
    ∃ request, s.whole = request ++ t.whole ∧
      RequestSent limits head preflight gunzip request p := by
  have hone := (steady_readRequest limits head preflight gunzip ended).in_one_piece h
  obtain ⟨request, rest, hbytes, hrequest, ht⟩ := (accepted_iff _ _ _).mp hone
  have hrest : t.whole = rest := congrArg Source.buf ht
  exact ⟨request, hrest ▸ hbytes, hrequest⟩

end

end LogLess.Httpd
