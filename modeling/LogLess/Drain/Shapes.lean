import LogLess.Drain.Restore

/-!
# What a miner knows

Every hash that a template has held since the miner was made is a shape, under the hash of its
text, and no shape is forgotten. So the miner knows each id that it has assigned, until it is
restored from the templates that were saved.
-/

namespace LogLess

open WildTree Mask

namespace Drain

/-- The hash of each template is a shape, and each shape is under the hash of its text. -/
structure Shapely (d : Drain) : Prop where
  held : ∀ t ∈ d.templates, ∃ h, Assoc.get d.shapeIds t.id = some h ∧
    (Assoc.get d.shapes h).isSome = true
  hash : ∀ h shape, Assoc.get d.shapes h = some shape → fingerprintOf shape.text = h

/-- No shape is forgotten. -/
def Extends (d d' : Drain) : Prop :=
  ∀ h shape, Assoc.get d.shapes h = some shape → Assoc.get d'.shapes h = some shape

theorem Extends.refl (d : Drain) : d.Extends d := fun _ _ h => h

theorem Extends.trans {d d' d'' : Drain} (h : d.Extends d') (h' : d'.Extends d'') :
    d.Extends d'' := fun x shape hx => h' x shape (h x shape hx)

theorem Extends.isSome {d d' : Drain} (h : d.Extends d') {x : ℕ}
    (hx : (Assoc.get d.shapes x).isSome = true) : (Assoc.get d'.shapes x).isSome = true := by
  obtain ⟨shape, hshape⟩ := Option.isSome_iff_exists.mp hx
  rw [h x shape hshape]
  rfl

theorem shapely_new (config : DrainConfig) : (new config).Shapely where
  held t ht := absurd ht List.not_mem_nil
  hash h shape hget := by cases hget

variable {d : Drain}

theorem Shapely.putTemplate (h : d.Shapely) {t : Template}
    (ht : ∃ x, Assoc.get d.shapeIds t.id = some x ∧ (Assoc.get d.shapes x).isSome = true) :
    (d.putTemplate t).Shapely := by
  refine ⟨?_, h.hash⟩
  intro u hu
  have hmem : u = t ∨ u ∈ d.templates := by
    unfold Drain.putTemplate at hu
    simp only at hu
    split at hu
    · obtain ⟨w, hw, rfl⟩ := List.mem_map.mp hu
      split
      · exact .inl rfl
      · exact .inr hw
    · rcases List.mem_append.mp hu with hu | hu
      · exact .inr hu
      · exact .inl (List.mem_singleton.mp hu)
  rcases hmem with rfl | hmem
  · exact ht
  · exact h.held u hmem

/-- A shape that is noted is known from then on, and no other is forgotten. -/
theorem Shapely.noteShape (h : d.Shapely) (t : Template) :
    (d.noteShape t).1.Shapely ∧ d.Extends (d.noteShape t).1 ∧
      Assoc.get (d.noteShape t).1.shapeIds t.id = some (d.noteShape t).2 ∧
      (Assoc.get (d.noteShape t).1.shapes (d.noteShape t).2).isSome = true := by
  have hshapes : ∀ x, Assoc.get (d.noteShape t).1.shapes x
      = (Assoc.get d.shapes x).or
        (if x = fingerprintOf t.text then some ⟨t.lineageId, t.text⟩ else none) := by
    intro x
    unfold Drain.noteShape
    simp only
    split
    · next hknown =>
      by_cases hx : x = fingerprintOf t.text
      · rw [hx]
        obtain ⟨shape, hshape⟩ := Option.isSome_iff_exists.mp hknown
        rw [hshape]
        rfl
      · rw [if_neg hx, Option.or_none]
    · next hnew =>
      rw [Assoc.get_insert]
      by_cases hx : x = fingerprintOf t.text
      · rw [if_pos hx, if_pos hx, hx]
        rw [Bool.not_eq_true, Option.isSome_eq_false_iff, Option.isNone_iff_eq_none] at hnew
        rw [hnew]
        rfl
      · rw [if_neg hx, if_neg hx, Option.or_none]
  have hextends : d.Extends (d.noteShape t).1 := by
    intro x shape hx
    rw [hshapes, hx]
    rfl
  have hknown : (Assoc.get (d.noteShape t).1.shapes (fingerprintOf t.text)).isSome = true := by
    rw [hshapes, if_pos rfl]
    cases Assoc.get d.shapes (fingerprintOf t.text) <;> rfl
  have hids : ∀ id, Assoc.get (d.noteShape t).1.shapeIds id
      = if id = t.id then some (fingerprintOf t.text) else Assoc.get d.shapeIds id := by
    intro id
    exact Assoc.get_insert _ _ _ _
  refine ⟨⟨?_, ?_⟩, hextends, ?_, hknown⟩
  · intro u hu
    rw [hids]
    split
    · exact ⟨_, rfl, hknown⟩
    · obtain ⟨x, hx, hsome⟩ := h.held u hu
      exact ⟨x, hx, hextends.isSome hsome⟩
  · intro x shape hx
    rw [hshapes] at hx
    cases hold : Assoc.get d.shapes x with
    | some old =>
      rw [hold] at hx
      cases hx
      exact h.hash x _ hold
    | none =>
      rw [hold, Option.none_or] at hx
      split at hx
      · next heq =>
        cases hx
        exact heq.symm
      · cases hx
  · rw [hids, if_pos rfl]
    rfl

theorem Shapely.join (h : d.Shapely) {t : Template} (ht : t ∈ d.templates) (masked raw : List Text)
    (now : ℕ) :
    (d.join t masked raw now).1.Shapely ∧ d.Extends (d.join t masked raw now).1 ∧
      (Assoc.get (d.join t masked raw now).1.shapes
        (d.join t masked raw now).2.shapeId).isSome = true := by
  obtain ⟨x, hx, hknown⟩ := h.held t ht
  unfold Drain.join
  simp only
  set t' : Template := { t with
    tokens := (mergeInto t.tokens masked).1, count := t.count + 1, lastSeenUnixSecs := now }
  have hput : (d.putTemplate t').Shapely := h.putTemplate ⟨x, hx, hknown⟩
  split
  · obtain ⟨hnote, hextends, -, hsome⟩ := hput.noteShape t'
    exact ⟨hnote, hextends, hsome⟩
  · refine ⟨hput, Extends.refl d, ?_⟩
    show (Assoc.get d.shapes ((Assoc.get d.shapeIds t.id).getD 0)).isSome = true
    rw [hx]
    exact hknown

theorem Shapely.start (h : d.Shapely) (masked raw : List Text) (now : ℕ) :
    (d.start masked raw now).1.Shapely ∧ d.Extends (d.start masked raw now).1 ∧
      (Assoc.get (d.start masked raw now).1.shapes
        (d.start masked raw now).2.shapeId).isSome = true := by
  unfold Drain.start
  simp only
  generalize (if d.lineages.contains (fingerprintOf (joinTokens masked)) = true then
      fingerprintOf (joinTokens masked ++ [Char.ofNat 0x1F] ++ Decimal.ofNat d.nextId)
    else fingerprintOf (joinTokens masked)) = lineageId
  set t : Template := ⟨d.nextId, masked, 1, now, now, lineageId⟩
  have hd : ({ d with
      nextId := d.nextId + 1
      roots := d.config.insertIntoTree d.roots masked d.nextId } : Drain).Shapely := ⟨h.held, h.hash⟩
  have hlineage : (({ d with
      nextId := d.nextId + 1
      roots := d.config.insertIntoTree d.roots masked d.nextId } : Drain).insertLineage
        lineageId).Shapely := ⟨hd.held, hd.hash⟩
  obtain ⟨hnote, hextends, hid, hsome⟩ := hlineage.noteShape t
  exact ⟨hnote.putTemplate ⟨_, hid, hsome⟩, hextends, hsome⟩

/-- **A line**: what the miner says its id is, it knows from then on. -/
theorem Shapely.addLine (h : d.Shapely) (line : Text) (now : ℕ) :
    (d.addLine line now).1.Shapely ∧ d.Extends (d.addLine line now).1 ∧
      ∀ m ∈ (d.addLine line now).2, (Assoc.get (d.addLine line now).1.shapes m.shapeId).isSome
        = true := by
  unfold Drain.addLine
  simp only
  have hseen : ({ d with linesSeen := d.linesSeen + 1 } : Drain).Shapely := ⟨h.held, h.hash⟩
  set e : Drain := { d with linesSeen := d.linesSeen + 1 }
  generalize (maskLine line).1 = masked
  generalize (maskLine line).2 = raw
  rcases e.matchMasked_cases masked raw now with ⟨-, hmatch⟩ | ⟨t, -, hbest, hmatch⟩ |
      ⟨-, -, -, hmatch⟩ | ⟨-, -, -, hmatch⟩
  · rw [hmatch]
    exact ⟨hseen, Extends.refl d, fun m hm => by cases hm⟩
  · obtain ⟨hjoin, hextends, hsome⟩ := hseen.join (best_eq_some hbest).1 masked raw now
    rw [hmatch]
    refine ⟨hjoin, hextends, fun m hm => ?_⟩
    cases hm
    exact hsome
  · rw [hmatch]
    exact ⟨⟨hseen.held, hseen.hash⟩, Extends.refl d, fun m hm => by cases hm⟩
  · obtain ⟨hstart, hextends, hsome⟩ := hseen.start masked raw now
    rw [hmatch]
    refine ⟨hstart, hextends, fun m hm => ?_⟩
    cases hm
    exact hsome

theorem shapely_restore (config : DrainConfig) (templates : List Template) :
    (restore config templates).Shapely := by
  have hfold : ∀ (ts : List Template) (d : Drain), d.Shapely →
      (ts.foldl restoreTemplate d).Shapely := by
    intro ts
    induction ts with
    | nil => exact fun _ hd => hd
    | cons t ts ih =>
      intro d hd
      refine ih _ ?_
      have hd' : (({ d with
          nextId := max d.nextId (t.id + 1)
          roots := d.config.insertIntoTree d.roots t.tokens t.id } : Drain).insertLineage
            t.lineageId).Shapely := ⟨hd.held, hd.hash⟩
      obtain ⟨hnote, -, hid, hsome⟩ := hd'.noteShape t
      exact hnote.putTemplate ⟨_, hid, hsome⟩
  exact hfold templates _ (shapely_new config)

end Drain

end LogLess
