import LogLess.Lib.Assoc
import Mathlib.Data.List.Forall2
import Mathlib.Tactic

/-!
# Trees with a wildcard branch

A tree of items under lists of keys. A node has at most `cap` branches besides the one of
the key `wild`: an insertion that would open another goes to the wildcard branch, and so
does a lookup that finds no branch for its key.

`path` and `route` are the branches an insertion and a lookup take. `insert_congr` says that
an insertion depends on its path only, `at_insert` what it adds, `path_eq` how keys may
change without a change of the path, and `lookup_insert` what an insertion does to a lookup
with other keys.
-/

namespace WildTree

inductive Node (κ ι : Type) where
  | mk (children : List (κ × Node κ ι)) (items : List ι)

namespace Node

variable {κ ι : Type}

def children : Node κ ι → List (κ × Node κ ι)
  | mk children _ => children

def items : Node κ ι → List ι
  | mk _ items => items

def empty : Node κ ι := mk [] []

variable [DecidableEq κ]

def child (node : Node κ ι) (key : κ) : Option (Node κ ι) := Assoc.get node.children key

variable (wild : κ) (cap : ℕ)

/-- The items at the end of the branches of the keys, or where these end. -/
def lookup : Node κ ι → List κ → List ι
  | node, [] => node.items
  | node, key :: keys =>
    match node.child key with
    | some next => lookup next keys
    | none =>
      match node.child wild with
      | some next => lookup next keys
      | none => node.items

/-- The branch an insertion takes. -/
def branch (node : Node κ ι) (key : κ) : κ :=
  if (node.child key).isNone && cap ≤ node.children.length then wild else key

def insert : Node κ ι → List κ → ι → Node κ ι
  | node, [], i => mk node.children (node.items ++ [i])
  | node, key :: keys, i =>
    let b := node.branch wild cap key
    mk (Assoc.insert node.children b (insert ((node.child b).getD empty) keys i)) node.items

/-- The branches an insertion takes. -/
def path : Node κ ι → List κ → List κ
  | _, [] => []
  | node, key :: keys =>
    let b := node.branch wild cap key
    b :: path ((node.child b).getD empty) keys

/-- The branches a lookup takes. -/
def route : Node κ ι → List κ → List κ
  | _, [] => []
  | node, key :: keys =>
    match node.child key with
    | some next => key :: route next keys
    | none =>
      match node.child wild with
      | some next => wild :: route next keys
      | none => []

/-- The item is at the end of these branches. -/
def At : Node κ ι → List κ → ι → Prop
  | node, [], i => i ∈ node.items
  | node, b :: p, i => ∃ next, node.child b = some next ∧ next.At p i

/-- What an insertion with the keys `ks` does to a lookup with the keys `ls`. -/
inductive Hit where
  /-- Nothing. -/
  | apart
  /-- The new item is among those it finds. -/
  | joins
  /-- A branch is opened that it takes from now on. -/
  | diverts
deriving DecidableEq

def hit : Node κ ι → List κ → List κ → Hit
  | _, [], [] => .joins
  | node, [], l :: _ => if (node.child l).isNone && (node.child wild).isNone then .joins else .apart
  | _, _ :: _, [] => .apart
  | node, k :: ks, l :: ls =>
    let b := node.branch wild cap k
    match node.child l with
    | some next => if b = l then hit next ks ls else .apart
    | none =>
      if b = l then .diverts
      else
        match node.child wild with
        | some next => if b = wild then hit next ks ls else .apart
        | none => if b = wild then .diverts else .apart

variable {wild cap}

@[simp] theorem child_empty (key : κ) : (empty : Node κ ι).child key = none := rfl

@[simp] theorem child_mk_insert (node : Node κ ι) (b key : κ) (next : Node κ ι) (items : List ι) :
    (mk (Assoc.insert node.children b next) items).child key
      = if key = b then some next else node.child key :=
  Assoc.get_insert node.children b key next

@[simp] theorem child_mk_children (node : Node κ ι) (items : List ι) (key : κ) :
    (mk node.children items).child key = node.child key := rfl

@[simp] theorem branch_wild (node : Node κ ι) : node.branch wild cap wild = wild := by
  simp [branch]

theorem branch_eq (node : Node κ ι) (key : κ) :
    node.branch wild cap key = key ∨ node.branch wild cap key = wild := by
  rw [branch]
  split
  · exact .inr rfl
  · exact .inl rfl

@[simp] theorem lookup_empty (ls : List κ) : (empty : Node κ ι).lookup wild ls = [] := by
  cases ls <;> rfl

/-! ## Paths -/

theorem insert_congr {node : Node κ ι} {ks ks' : List κ}
    (h : node.path wild cap ks = node.path wild cap ks') (i : ι) :
    node.insert wild cap ks i = node.insert wild cap ks' i := by
  induction ks generalizing node ks' with
  | nil =>
    cases ks' with
    | nil => rfl
    | cons k' ks' => cases h
  | cons k ks ih =>
    cases ks' with
    | nil => cases h
    | cons k' ks' =>
      simp only [path, List.cons.injEq] at h
      obtain ⟨hb, hrest⟩ := h
      rw [← hb] at hrest
      simp only [insert, ← hb, ih hrest]

/-- Each branch of a path is that of its key or the wildcard. -/
theorem path_keys (node : Node κ ι) (ks : List κ) :
    List.Forall₂ (fun k b => b = k ∨ b = wild) ks (node.path wild cap ks) := by
  induction ks generalizing node with
  | nil => exact .nil
  | cons k ks ih => exact .cons (node.branch_eq k) (ih _)

/-- Each branch of a route is that of its key or the wildcard, as far as it goes. -/
theorem route_keys (node : Node κ ι) (ls : List κ) :
    ∃ n, List.Forall₂ (fun l b => b = l ∨ b = wild) (ls.take n) (node.route wild ls) := by
  induction ls generalizing node with
  | nil => exact ⟨0, .nil⟩
  | cons l ls ih =>
    simp only [route]
    split
    · next child _ =>
      obtain ⟨n, hn⟩ := ih child
      exact ⟨n + 1, .cons (.inl rfl) hn⟩
    · split
      · next child _ =>
        obtain ⟨n, hn⟩ := ih child
        exact ⟨n + 1, .cons (.inr rfl) hn⟩
      · exact ⟨0, .nil⟩

/-- A key may become the wildcard where its insertion went to the wildcard branch. -/
theorem path_eq {node : Node κ ι} {ks ks' : List κ}
    (h : List.Forall₂ (fun (kk : κ × κ) b => kk.2 = kk.1 ∨ (b = wild ∧ kk.2 = wild)) (ks.zip ks')
      (node.path wild cap ks)) (hlen : ks'.length = ks.length) :
    node.path wild cap ks' = node.path wild cap ks := by
  induction ks generalizing node ks' with
  | nil => rw [List.length_eq_zero_iff.mp hlen]
  | cons k ks ih =>
    cases ks' with
    | nil => cases hlen
    | cons k' ks' =>
      rw [List.zip_cons_cons, path, List.forall₂_cons] at h
      obtain ⟨hk, hrest⟩ := h
      have hb : node.branch wild cap k' = node.branch wild cap k := by
        change k' = k ∨ (node.branch wild cap k = wild ∧ k' = wild) at hk
        rcases hk with hk | ⟨hwild, hk⟩
        · rw [hk]
        · rw [hk, hwild, branch_wild]
      rw [path, path, hb, ih hrest (by simpa using hlen)]

/-! ## Items -/

theorem not_at_empty (p : List κ) (i : ι) : ¬ (empty : Node κ ι).At p i := by
  cases p with
  | nil => simp [At, empty, items]
  | cons b p => simp [At]

theorem at_insert {node : Node κ ι} {ks p : List κ} {i j : ι} :
    (node.insert wild cap ks i).At p j ↔
      node.At p j ∨ (p = node.path wild cap ks ∧ j = i) := by
  induction ks generalizing node p with
  | nil =>
    cases p with
    | nil => simp [insert, At, items, path]
    | cons b p => simp [insert, At, path]
  | cons k ks ih =>
    cases p with
    | nil => simp [insert, At, items, path]
    | cons b p =>
      simp only [insert, At, path, child_mk_insert, List.cons.injEq]
      by_cases hb : b = node.branch wild cap k
      · subst hb
        simp only [if_true, Option.some.injEq, exists_eq_left', ih, true_and]
        cases hchild : node.child (node.branch wild cap k) with
        | none => simp [not_at_empty]
        | some next => simp
      · simp [hb]

/-- What a lookup finds is at the end of its route. -/
theorem at_of_mem_lookup {node : Node κ ι} {ls : List κ} {i : ι} (h : i ∈ node.lookup wild ls) :
    node.At (node.route wild ls) i := by
  induction ls generalizing node with
  | nil => exact h
  | cons l ls ih =>
    cases hl : node.child l with
    | some next =>
      simp only [lookup, route, hl] at h ⊢
      exact ⟨next, hl, ih h⟩
    | none =>
      cases hw : node.child wild with
      | some next =>
        simp only [lookup, route, hl, hw] at h ⊢
        exact ⟨next, hw, ih h⟩
      | none =>
        simp only [lookup, route, hl, hw] at h ⊢
        exact h

/-! ## Lookups after an insertion -/

/-- A lookup with the keys of the insertion finds the new item last. -/
theorem lookup_insert_self (node : Node κ ι) (ks : List κ) (i : ι) :
    ∃ before, (node.insert wild cap ks i).lookup wild ks = before ++ [i] := by
  induction ks generalizing node with
  | nil => exact ⟨node.items, rfl⟩
  | cons k ks ih =>
    have hnext := ih ((node.child (node.branch wild cap k)).getD empty)
    by_cases hb : node.branch wild cap k = k
    · simp only [insert, lookup, child_mk_insert, hb, if_true] at hnext ⊢
      exact hnext
    · -- the branches were full, so the lookup finds none for `k` either
      have hwild : node.branch wild cap k = wild := (node.branch_eq k).resolve_left hb
      have hnone : node.child k = none := by
        rw [branch] at hb
        split at hb
        · next hfull =>
          simp only [Bool.and_eq_true, Option.isNone_iff_eq_none] at hfull
          exact hfull.1
        · exact absurd rfl hb
      have hne : k ≠ wild := by
        rintro rfl
        exact hb node.branch_wild
      simp only [hwild] at hnext
      simp only [insert, lookup, child_mk_insert, hwild, if_neg hne, hnone, if_true]
      exact hnext

variable (wild cap) in
theorem lookup_insert (node : Node κ ι) (ks ls : List κ) (i : ι) :
    (node.hit wild cap ks ls = .apart →
      (node.insert wild cap ks i).lookup wild ls = node.lookup wild ls) ∧
    (node.hit wild cap ks ls = .joins →
      (node.insert wild cap ks i).lookup wild ls = node.lookup wild ls ++ [i]) := by
  induction ks generalizing node ls with
  | nil =>
    cases ls with
    | nil => simp [hit, insert, lookup, items]
    | cons l ls =>
      cases hl : node.child l <;> cases hw : node.child wild <;>
        simp [hit, insert, lookup, items, hl, hw]
  | cons k ks ih =>
    cases ls with
    | nil => simp [hit, insert, lookup, items]
    | cons l ls =>
      cases hl : node.child l with
      | some next =>
        by_cases hb : node.branch wild cap k = l
        · simpa [hit, insert, lookup, hl, hb] using ih next ls
        · simp [hit, insert, lookup, hl, hb, Ne.symm hb]
      | none =>
        by_cases hb : node.branch wild cap k = l
        · simp [hit, hl, hb]
        · cases hw : node.child wild with
          | some next =>
            by_cases hbw : node.branch wild cap k = wild
            · rw [hbw] at hb
              simpa [hit, insert, lookup, hl, hw, hb, Ne.symm hb, hbw] using ih next ls
            · simp [hit, insert, lookup, hl, hw, hb, Ne.symm hb, hbw, Ne.symm hbw]
          | none =>
            by_cases hbw : node.branch wild cap k = wild
            · rw [hbw] at hb
              simp [hit, hl, hw, hb, hbw]
            · simp [hit, insert, lookup, items, hl, hw, hb, Ne.symm hb, hbw, Ne.symm hbw]

/-- A lookup that is diverted finds nothing but the new item. -/
theorem lookup_insert_diverts {node : Node κ ι} {ks ls : List κ}
    (h : node.hit wild cap ks ls = .diverts) (i : ι) :
    ∀ j ∈ (node.insert wild cap ks i).lookup wild ls, j = i := by
  -- the branch that is opened holds the new item alone
  have hfresh : ∀ (ks ls : List κ), ∀ j ∈ ((empty : Node κ ι).insert wild cap ks i).lookup wild ls,
      j = i := by
    intro ks ls j hj
    have hat := at_of_mem_lookup hj
    rw [at_insert] at hat
    exact (hat.resolve_left (not_at_empty _ _)).2
  induction ks generalizing node ls with
  | nil =>
    cases ls with
    | nil => cases h
    | cons l ls =>
      rw [hit] at h
      split at h <;> cases h
  | cons k ks ih =>
    cases ls with
    | nil => cases h
    | cons l ls =>
      rw [hit] at h
      simp only [insert, lookup, child_mk_insert]
      cases hl : node.child l with
      | some next =>
        simp only [hl] at h
        split at h
        · next hb =>
          simp only [hb, hl, if_true, Option.getD_some]
          exact ih h
        · cases h
      | none =>
        simp only [hl] at h
        split at h
        · next hb =>
          simp only [hb, hl, if_true, Option.getD_none]
          exact hfresh ks ls
        · next hb =>
          rw [if_neg (Ne.symm hb)]
          cases hw : node.child wild with
          | some next =>
            simp only [hw] at h
            split at h
            · next hbw =>
              simp only [hbw, hw, if_true, Option.getD_some]
              exact ih h
            · cases h
          | none =>
            simp only [hw] at h
            split at h
            · next hbw =>
              simp only [hbw, hw, if_true, Option.getD_none]
              exact hfresh ks ls
            · cases h

end Node

end WildTree
