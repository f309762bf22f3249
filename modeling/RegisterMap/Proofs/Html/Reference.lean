import RegisterMap.Proofs.Html.PageRows
import RegisterMap.Proofs.Html.Pages

/-!
A finished reference: its index is the walk of the map as a tree, and its pages agree
with the index.
-/

namespace RegisterMap.Html

open ExportM

variable {options : WalkOptions}

/-- The element and the entry with a number are documented together. -/
theorem mem_zipIdx_walk {top : Node} {index : List IndexEntry} {id : Nat} {e : Element}
    {entry : IndexEntry} (he : (Element.allBelow options top)[id]? = some e)
    (hentry : index[id]? = some entry) :
    ((e, entry.bare), id) ∈
      ((Element.forest options [.top top]).zip (index.map IndexEntry.bare)).zipIdx :=
  List.mk_mem_zipIdx_iff_getElem?.2
    (List.getElem?_zip_eq_some.2 ⟨by rw [Element.forest_top, he], by simp [hentry]⟩)

/-- All files are made of what the visit of the top leaves. -/
theorem produce_eq_ok_iff_visit {setup : Setup} {top : Node} {destination : Path} {a : Artifact}
    {s : Session State} :
    (emitter setup).produce top destination = (.ok a, s) ↔
      (top.kind.canBeTop = true ∧ top.validate = .ok ()) ∧
        ∃ t, Yields (visitNode setup (.top top) ((emitter setup).below (.top top)))
            ((emitter setup).opening top destination) () t ∧
          .tree (filesOf setup.options (titleOf setup.options top) t.state) = a ∧
          t.emit .debug ("documented " ++ toString t.state.index.size ++ " node(s)") = s := by
  rw [Emitter.produce_eq_ok_iff]
  refine and_congr_right fun _ => ⟨fun h => ?_, ?_⟩
  · obtain ⟨_, s₁, hstart, hrest⟩ := yields_bind.1 h
    obtain ⟨_, rfl⟩ := yields_pure.1 hstart
    obtain ⟨_, s₂, hvisit, hfinish⟩ := yields_bind.1 hrest
    obtain ⟨_, s₃, hbuilt, hfinish⟩ := yields_bind.1 hfinish
    obtain ⟨rfl, rfl⟩ := yields_built.1 hbuilt
    obtain ⟨_, s₄, hdebug, hfinish⟩ := yields_bind.1 hfinish
    exact ⟨s₂, hvisit, (yields_pure.1 hfinish).1,
      (yields_debug.1 hdebug).trans (yields_pure.1 hfinish).2⟩
  · rintro ⟨t, hvisit, hfiles, hsession⟩
    exact yields_bind.2 ⟨(), _, yields_pure.2 ⟨rfl, rfl⟩, yields_bind.2 ⟨(), t, hvisit,
      yields_bind.2 ⟨_, t, yields_built.2 ⟨rfl, rfl⟩, yields_bind.2 ⟨(), s,
        yields_debug.2 hsession, yields_pure.2 ⟨hfiles, rfl⟩⟩⟩⟩⟩

/-- A finished reference documents its top and all below it, and has no other assets than
images. -/
theorem documents_of_produce {setup : Setup} {top : Node} {destination : Path} {a : Artifact}
    {s : Session State} (h : (emitter setup).produce top destination = (.ok a, s)) :
    a = .tree (filesOf setup.options (titleOf setup.options top) s.state) ∧
      HasAssets s.state.assets ∧
      Documents (walkOptions setup.options) none 0 [.top top]
        (s.state.index.toList.map IndexEntry.bare) s.state.pages.toList := by
  obtain ⟨⟨_, hvalid⟩, t, hvisit, rfl, rfl⟩ := produce_eq_ok_iff_visit.1 h
  have htop := Node.isValid_of_validate hvalid
  have hguards : (emitter setup).Guards Collecting Collecting (fun _ => True) fun _ => True :=
    guards trivial fun _ _ _ _ _ => trivial
  have hassets : HasAssets t.state.assets :=
    ((hguards.visitTop htop (fun _ _ _ _ _ _ => trivial) ()).yields
      ((emitter setup).opening top destination) () t hasAssets_empty hvisit).1
  obtain ⟨entries, pages, hdocuments, hentries, hpages, _⟩ :=
    visits_visitTop htop _ () t hvisit ⟨rfl, fun p hp => by cases hp⟩
  obtain rfl : t.state.index.toList.map IndexEntry.bare = entries := hentries
  obtain rfl : t.state.pages.toList = pages := hpages
  exact ⟨rfl, hassets, hdocuments⟩

end RegisterMap.Html
