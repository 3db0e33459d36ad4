import LogLess.Lib.Tally
import LogLess.Store.Merge

/-!
# Sightings of templates

The catalog keeps, for each template and service of an index, how many rows had them and the
first and last time one was observed. A commit adds the tallies of its rows.
-/

namespace LogLess.Store

/-- The rows that carry a template id, each with when it was observed. -/
def sighted (rows : List (PartitionKey × List LogRecord)) : List (SightingKey × ℤ) :=
  rows.flatMap fun (key, records) => records.filterMap fun r =>
    r.templateId.map fun id => ((key.tenant, key.index, id, r.service), toI64 r.observedUnixNano)

/-- The key of a sighting in the table of the catalog. -/
def TemplateSighting.at_ (s : TemplateSighting) : SightingKey :=
  (s.tenant, s.index, s.templateId, s.service)

/-- A sighting as an entry of that table. -/
def TemplateSighting.entry (s : TemplateSighting) : SightingKey × (ℕ × ℤ × ℤ) :=
  (s.at_, s.rows, s.firstObservedNanos, s.lastObservedNanos)

theorem map_entry_sightingsOf (rows : List (PartitionKey × List LogRecord)) :
    (sightingsOf rows).map TemplateSighting.entry
      = ((sighted rows).map fun e => (e.1, (1, e.2, e.2))).foldl Tally.record [] := by
  unfold sightingsOf
  simp only
  rw [List.map_map, List.foldl_map]
  refine (List.map_id _).trans ?_
  unfold sighted
  congr 1
  funext table entry
  unfold Tally.record
  cases hget : Assoc.get table entry.1 with
  | none => rfl
  | some old => rfl

namespace Catalog

theorem templateServices_upsertSighting (c : Catalog) (s : TemplateSighting) :
    (c.upsertSighting s).templateServices = Tally.record c.templateServices s.entry := by
  unfold upsertSighting Tally.record
  show Assoc.insert c.templateServices s.at_ _ = _
  simp only [TemplateSighting.entry, TemplateSighting.at_]
  cases Assoc.get c.templateServices (s.tenant, s.index, s.templateId, s.service) <;> rfl

theorem templateServices_upsertSightings (c : Catalog) (ss : List TemplateSighting) :
    (ss.foldl upsertSighting c).templateServices
      = (ss.map TemplateSighting.entry).foldl Tally.record c.templateServices := by
  induction ss generalizing c with
  | nil => rfl
  | cons s ss ih => rw [List.foldl_cons, ih, templateServices_upsertSighting]; rfl

@[simp] theorem templateServices_upsertFiles (c : Catalog) (fs : List FileEntry) :
    (fs.foldl upsertFile c).templateServices = c.templateServices := by
  induction fs generalizing c with
  | nil => rfl
  | cons f fs ih => exact ih _

/-- **The sightings of some rows add their tallies**, and keep one entry for each key. -/
theorem get_upsertSightings (c : Catalog) (rows : List (PartitionKey × List LogRecord))
    (key : SightingKey) :
    Assoc.get ((sightingsOf rows).foldl upsertSighting c).templateServices key
      = Tally.join (Assoc.get c.templateServices key)
        (Tally.ofList (Tally.timesOf key (sighted rows))) := by
  have hempty : (([] : List (SightingKey × (ℕ × ℤ × ℤ))).map Prod.fst).Nodup := List.nodup_nil
  rw [templateServices_upsertSightings, map_entry_sightingsOf,
    Tally.get_foldl_join _ (Tally.nodup_foldl_record hempty _),
    Tally.get_foldl_record, Assoc.get_nil, Tally.join_none_left]

theorem get_templateServices_commitMerge {c : Catalog} (id now : ℕ) (uuid : Uuid)
    (fs : List FileEntry) (rows : List (PartitionKey × List LogRecord)) (key : SightingKey) :
    Assoc.get (c.commitMerge id uuid fs (sightingsOf rows) now).templateServices key
      = Tally.join (Assoc.get c.templateServices key)
        (Tally.ofList (Tally.timesOf key (sighted rows))) := by
  have hservices : (c.commitMerge id uuid fs (sightingsOf rows) now).templateServices
      = ((sightingsOf rows).foldl upsertSighting c).templateServices :=
    templateServices_upsertFiles _ fs
  rw [hservices, get_upsertSightings]

end Catalog

end LogLess.Store
