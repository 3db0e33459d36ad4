import LogLess.Config
import LogLess.Lib.Text

/-!
# The head of an HTTP request

`readHead` reads what the listeners know of a request before its body: the request line and the
headers. It looks at single bytes only where they separate something, so a method or a path may hold
a newline, but the name of a header never does.
-/

namespace LogLess.Http

/-- Why a head is refused. -/
inductive Bad where
  | request (why : Text)
  | headTooLarge
deriving DecidableEq

/-- What the name of a header may be. -/
def headerName (name : Text) : Bool :=
  !name.isEmpty && name.all fun c => decide (0x20 < c.toNat) && c.toNat != 0x7f && c != ':'

structure Request where
  method : Text
  path : Text
  query : Text
  headers : List (Text × Text)
  named : ∀ h ∈ headers, headerName h.1 = true

/-- `str::split` at CR LF. -/
def crlfLines : Text → List Text
  | [] => [[]]
  | '\r' :: '\n' :: rest => [] :: crlfLines rest
  | c :: rest =>
    match crlfLines rest with
    | line :: lines => (c :: line) :: lines
    | [] => [[c]]

def readHeader (line : Text) : Except Bad (Text × Text) :=
  if line.head? = some ' ' ∨ line.head? = some '\t' then
    .error (.request "folded headers are not accepted".toList)
  else
    match Text.splitOnce ':' line with
    | none => .error (.request "malformed header".toList)
    | some (name, value) =>
      if name.isEmpty ∨ name.any (fun c => decide (c.toNat ≤ 0x20) || c.toNat == 0x7f) then
        .error (.request "malformed header name".toList)
      else .ok (name, Text.trim value)

/-- The headers, at most so many. -/
def readHeaders : ℕ → List Text → Except Bad (List (Text × Text))
  | _, [] => .ok []
  | 0, _ :: _ => .error .headTooLarge
  | left + 1, line :: lines => do
    let h ← readHeader line
    let hs ← readHeaders left lines
    return h :: hs

theorem headerName_of_readHeader {line : Text} {h : Text × Text} (hread : readHeader line = .ok h) :
    headerName h.1 = true := by
  rw [readHeader] at hread
  split at hread
  · cases hread
  · split at hread
    · cases hread
    · next name value hsplit =>
      split at hread
      · cases hread
      · next hname =>
        obtain rfl := Except.ok.inj hread
        rw [not_or, Bool.not_eq_true, Bool.not_eq_true, List.any_eq_false] at hname
        rw [headerName, hname.1]
        simp only [Bool.not_false, Bool.true_and, List.all_eq_true]
        intro c hc
        have hplain := hname.2 c hc
        have hcolon : c ≠ ':' := fun h => Text.notMem_of_splitOnce hsplit (h ▸ hc)
        simp only [Bool.or_eq_true, decide_eq_true_eq, beq_iff_eq, not_or, not_le] at hplain
        simp [hplain.1, hplain.2, hcolon]

theorem headerName_of_readHeaders {left : ℕ} {lines : List Text} {hs : List (Text × Text)}
    (hread : readHeaders left lines = .ok hs) : ∀ h ∈ hs, headerName h.1 = true := by
  induction lines generalizing left hs with
  | nil =>
    rw [readHeaders] at hread
    obtain rfl := Except.ok.inj hread
    simp
  | cons line lines ih =>
    cases left with
    | zero => cases hread
    | succ left =>
      cases hh : readHeader line with
      | error e =>
        rw [readHeaders, hh] at hread
        cases hread
      | ok h =>
        cases hrest : readHeaders left lines with
        | error e =>
          rw [readHeaders, hh, hrest] at hread
          cases hread
        | ok rest =>
          rw [readHeaders, hh, hrest] at hread
          obtain rfl := Except.ok.inj hread
          intro x hx
          rcases List.mem_cons.mp hx with rfl | hx
          · exact headerName_of_readHeader hh
          · exact ih hrest x hx

/-- The part of `read_request` that reads the head, without the blank line that ends it. -/
def readHead (maxHeaders : ℕ) (text : Text) : Except Bad Request :=
  match crlfLines text with
  | [] => .error (.request "malformed request line".toList)
  | requestLine :: lines =>
    match Text.splitAt ' ' requestLine with
    | [method, target, version] =>
      if version = "HTTP/1.1".toList ∨ version = "HTTP/1.0".toList then
        let (path, query) := (Text.splitOnce '?' target).getD (target, [])
        match hread : readHeaders maxHeaders lines with
        | .ok headers => .ok ⟨method, path, query, headers, headerName_of_readHeaders hread⟩
        | .error e => .error e
      else .error (.request "unsupported HTTP version".toList)
    | _ => .error (.request "malformed request line".toList)

end LogLess.Http
