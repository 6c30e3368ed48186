import Lox.Proofs.Binding.Site
import Mathlib.Data.List.Nodup

set_option autoImplicit false

/-! # What a table says of a program

In a program whose references have offsets of their own, the table that resolving gives answers at
each site what the scopes there say (`Program.hops?_of_bind`).
-/

namespace Lox

namespace BindingTable

theorem getElem?_extend_of_not_mem {t : BindingTable} {entries : List (Nat × Nat)} {i : Nat}
    (h : i ∉ entries.map (·.1)) : (t.extend entries)[i]? = t[i]? := by
  induction entries generalizing t with
  | nil => rfl
  | cons entry entries ih =>
      simp only [List.map_cons, List.mem_cons, not_or] at h
      rw [extend_cons, ih h.2]
      simp [Std.TreeMap.getElem?_insert, Ne.symm h.1]

theorem hops?_extend_of_not_mem {t : BindingTable} {entries : List (Nat × Nat)} {name : Name}
    (h : name.start ∉ entries.map (·.1)) : (t.extend entries).hops? name = t.hops? name :=
  getElem?_extend_of_not_mem h

/-- A table answers what it was extended with, if no offset occurs twice. -/
theorem hops?_extend_of_mem {t : BindingTable} {entries : List (Nat × Nat)} {name : Name}
    {hops : Nat} (hnodup : (entries.map (·.1)).Nodup) (h : (name.start, hops) ∈ entries) :
    (t.extend entries).hops? name = some hops := by
  induction entries generalizing t with
  | nil => cases h
  | cons entry entries ih =>
      rw [List.map_cons, List.nodup_cons] at hnodup
      rw [extend_cons]
      rcases List.mem_cons.1 h with rfl | h
      · -- No later entry overwrites the first one.
        rw [hops?_extend_of_not_mem hnodup.1]
        simp [hops?]
      · exact ih hnodup.2 h

variable {t : BindingTable} {entries : List (Nat × Nat)} {bound bound' : Nat}

/-- Entries from a bound on say nothing of references before it. -/
theorem getElem?_extend_of_lt {i : Nat} (h : ∀ entry ∈ entries, bound ≤ entry.1) (hi : i < bound) :
    (t.extend entries)[i]? = t[i]? := by
  refine getElem?_extend_of_not_mem fun hmem => ?_
  obtain ⟨entry, hentry, rfl⟩ := List.mem_map.1 hmem
  exact absurd (h entry hentry) (Nat.not_le_of_lt hi)

/-- The table has no entry from the bound on. -/
def Below (bound : Nat) (t : BindingTable) : Prop :=
  ∀ i : Nat, bound ≤ i → t[i]? = none

theorem below_empty (bound : Nat) : BindingTable.Below bound ∅ :=
  fun _ _ => Std.TreeMap.getElem?_emptyc

theorem Below.mono (h : t.Below bound) (hle : bound ≤ bound') : t.Below bound' :=
  fun i hi => h i (Nat.le_trans hle hi)

theorem Below.extend (h : t.Below bound) (hentries : ∀ entry ∈ entries, entry.1 < bound) :
    (t.extend entries).Below bound := by
  induction entries generalizing t with
  | nil => exact h
  | cons entry entries ih =>
      obtain ⟨hentry, hentries⟩ := List.forall_mem_cons.1 hentries
      refine ih (fun i hi => ?_) hentries
      rw [Std.TreeMap.getElem?_insert, h i hi, if_neg]
      simp only [Std.LawfulEqCmp.compare_eq_iff_eq]
      omega

end BindingTable

/-- Every reference of a program has an offset of its own. -/
def Program.DistinctOffsets (p : Program) : Prop :=
  (p.references.map (·.name.start)).Nodup

namespace Program

variable {p : Program}

theorem bind_eq_ok_iff {t u : BindingTable} :
    p.bind t = .ok u ↔ p.findings.errors = [] ∧ t.extend p.findings.bindings = u := by
  rw [bind]
  cases p.findings.errors with
  | nil => simp
  | cons e es => simp

theorem reference_of_mem_sites {site : Site} (h : site ∈ p.sites) :
    site.reference ∈ p.references := by
  rw [← p.references_sites]
  exact List.mem_map_of_mem h

theorem nodup_sites (h : p.DistinctOffsets) :
    (p.sites.map (·.reference.name.start)).Nodup := by
  rw [DistinctOffsets, ← p.references_sites, List.map_map] at h
  exact h

/-- A reference stands at one site. -/
theorem site_eq_of_start (h : p.DistinctOffsets) {site site' : Site} (hsite : site ∈ p.sites)
    (hsite' : site' ∈ p.sites)
    (hstart : site.reference.name.start = site'.reference.name.start) : site = site' :=
  List.inj_on_of_nodup_map (nodup_sites h) hsite hsite' hstart

theorem mem_entries {sites : List Site} {entry : Nat × Nat} :
    entry ∈ Site.entries sites ↔
      ∃ site ∈ sites, site.reference.name.start = entry.1 ∧
        site.scopes.hops? site.reference.name.text = some entry.2 := by
  simp only [Site.entries, List.mem_filterMap, Site.entry?, Option.map_eq_some_iff]
  constructor
  · rintro ⟨site, hsite, hops, hhops, rfl⟩
    exact ⟨site, hsite, rfl, hhops⟩
  · rintro ⟨site, hsite, hstart, hhops⟩
    exact ⟨site, hsite, entry.2, hhops, by rw [hstart]⟩

theorem nodup_entries {sites : List Site}
    (h : (sites.map (·.reference.name.start)).Nodup) :
    ((Site.entries sites).map (·.1)).Nodup := by
  refine h.sublist ?_
  induction sites with
  | nil => exact .slnil
  | cons site sites ih =>
      have hrest := ih (List.nodup_cons.1 h).2
      rw [Site.entries, List.filterMap_cons]
      cases hentry : site.entry? with
      | none => exact hrest.cons _
      | some entry =>
          obtain ⟨hops, -, rfl⟩ := Option.map_eq_some_iff.1 hentry
          exact hrest.cons_cons _

/-- In a program with distinct offsets that are new to the table, the table says at every site what
the scopes there say. -/
theorem hops?_of_bind {t u : BindingTable} (h : p.DistinctOffsets)
    (hnew : ∀ r ∈ p.references, u.hops? r.name = none) (hbind : p.bind u = .ok t)
    {site : Site} (hsite : site ∈ p.sites) :
    t.hops? site.reference.name = site.scopes.hops? site.reference.name.text := by
  obtain ⟨herrors, rfl⟩ := bind_eq_ok_iff.1 hbind
  have hperm := Stmt.bindingsAll_perm p herrors
  have hnodup : ((p.findings.bindings).map (·.1)).Nodup :=
    (hperm.map _).nodup_iff.2 (nodup_entries (nodup_sites h))
  cases hhops : site.scopes.hops? site.reference.name.text with
  | some hops =>
      refine BindingTable.hops?_extend_of_mem hnodup (hperm.mem_iff.2 ?_)
      exact mem_entries.2 ⟨site, hsite, rfl, hhops⟩
  | none =>
      rw [BindingTable.hops?_extend_of_not_mem]
      · exact hnew _ (reference_of_mem_sites hsite)
      · -- An entry with this offset would come from this site, which gives none.
        intro hmem
        obtain ⟨entry, hentry, hstart⟩ := List.mem_map.1 hmem
        obtain ⟨site', hsite', hstart', hhops'⟩ := mem_entries.1 (hperm.mem_iff.1 hentry)
        have heq := site_eq_of_start h hsite hsite' (by rw [hstart', hstart])
        rw [← heq, hhops] at hhops'
        cases hhops'

end Program

end Lox
