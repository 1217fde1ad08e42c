import Typewright.Proofs.Graph.Load
import Typewright.Proofs.Schema.Normal

/-!
# The documents of a schema graph

What the loading records is about the documents as they were read; a build reads them in normal form.
The normal form keeps one member a key, keeps the positions of a document, and adds no references.
-/

namespace Typewright

namespace SchemaGraph

variable {g : SchemaGraph} {id : Fragment} {name : String}

/-- A fragment that the loading scans for references: one at a position of a document. -/
def Scans (g : SchemaGraph) (id : Fragment) : Prop :=
  ∃ document c, g.documents[id.document]? = some document ∧
    c ∈ Schema.positions "#" document.root ∧ id = ⟨id.document, c.1, none⟩

theorem Distinct.get? (h : g.Distinct) {schema : Json} (hget : g.get? id = some schema) :
    schema.Distinct := by
  obtain ⟨d, hdoc, hat⟩ := Option.bind_eq_some_iff.1 hget
  exact (h d (List.mem_of_getElem? hdoc)).at? hat

/-! ## Normal form -/

@[simp] theorem refs_normalize (g : SchemaGraph) (name : String) :
    (g.normalize name).refs = g.refs := by
  unfold normalize
  split <;> rfl

theorem follow_congr {g' : SchemaGraph} (hrefs : g'.refs = g.refs)
    (hdepth : g'.maxDepth = g.maxDepth) (start : Fragment) (hops : Nat) (current : Fragment) :
    g'.follow start hops current = g.follow start hops current := by
  induction hops generalizing current with
  | zero => simp only [follow, hdepth]
  | succ hops ih =>
      simp only [follow, hrefs, ih]

/-- Where a fragment leads depends on the recorded references alone. -/
theorem resolve_congr {g' : SchemaGraph} (hrefs : g'.refs = g.refs)
    (hdepth : g'.maxDepth = g.maxDepth) (id : Fragment) : g'.resolve id = g.resolve id := by
  simp only [resolve, hdepth, follow_congr hrefs hdepth]

@[simp] theorem resolve_normalize (g : SchemaGraph) (name : String) (id : Fragment) :
    (g.normalize name).resolve id = g.resolve id := by
  refine resolve_congr (refs_normalize g name) ?_ id
  unfold normalize
  split <;> rfl

/-- Some reference leads to each target. -/
theorem exists_of_mem_targets (h : id ∈ g.targets) : ∃ site, (site, Target.fragment id) ∈ g.refs := by
  obtain ⟨⟨site, target⟩, he, htarget⟩ := List.mem_filterMap.1 h
  cases target with
  | fragment next =>
      obtain rfl := Option.some.inj htarget
      exact ⟨site, he⟩
  | external name => cases htarget

@[simp] theorem targets_normalize (g : SchemaGraph) (name : String) :
    (g.normalize name).targets = g.targets := by
  rw [targets, refs_normalize, targets]

/-- A document of a graph in normal form is one of the graph, as its root or as another document. -/
theorem getElem?_normalize {index : Nat} {d' : Document}
    (h : (g.normalize name).documents[index]? = some d') :
    ∃ d, g.documents[index]? = some d ∧
      ((index = 0 ∧ d'.root = Schema.normalize name d.root) ∨
        (index ≠ 0 ∧ d'.root = Schema.normalizeFragment d.root)) := by
  unfold normalize at h
  split at h
  · rename_i hnil
    rw [hnil] at h
    cases h
  · rename_i root rest hdocs
    rw [hdocs]
    cases index with
    | zero =>
        obtain rfl := Option.some.inj h
        exact ⟨root, rfl, .inl ⟨rfl, rfl⟩⟩
    | succ index =>
        rw [List.getElem?_cons_succ, List.getElem?_map] at h
        obtain ⟨d, hd, rfl⟩ := Option.map_eq_some_iff.1 h
        exact ⟨d, hd, .inr ⟨Nat.succ_ne_zero index, rfl⟩⟩

/-- A value of the root document is read off its normal form. -/
theorem get?_normalize_root {d : Document} (h : g.documents[0]? = some d) (path : String)
    (variant : Option Nat) :
    (g.normalize name).get? ⟨0, path, variant⟩ = (Schema.normalize name d.root).at? path := by
  cases hdocs : g.documents with
  | nil => rw [hdocs] at h; cases h
  | cons root rest =>
      rw [hdocs] at h
      obtain rfl := Option.some.inj h
      rw [get?, SchemaGraph.normalize, hdocs]
      rfl

theorem Distinct.normalize (h : g.Distinct) (name : String) : (g.normalize name).Distinct := by
  intro d' hmem
  obtain ⟨index, hindex⟩ := List.mem_iff_getElem?.1 hmem
  obtain ⟨d, hd, ⟨-, hroot⟩ | ⟨-, hroot⟩⟩ := getElem?_normalize hindex
  · exact hroot ▸ Schema.distinct_normalize name (h d (List.mem_of_getElem? hd))
  · exact hroot ▸ Schema.distinct_normalizeFragment _ (h d (List.mem_of_getElem? hd))

/-- A build reads the documents that were loaded, or their normal form. -/
theorem distinct_of_load_or_normalize {env : Environment} {options : Options}
    {location : Option FileUrl} {schema : Json} {read : SchemaGraph}
    (h : load env options location schema = .ok g) (hd : schema.Distinct)
    (hs : read = g ∨ ∃ name, read = g.normalize name) : read.Distinct := by
  rcases hs with rfl | ⟨name, rfl⟩
  · exact distinct_of_load h hd
  · exact (distinct_of_load h hd).normalize name

/-- A scanned fragment is still at a position of its document in normal form. -/
theorem Scans.normalize (h : g.Scans id) (hd : g.Distinct) (name : String) :
    (g.normalize name).Scans id := by
  obtain ⟨d, c, hdoc, hc, hid⟩ := h
  have hroot := hd d (List.mem_of_getElem? hdoc)
  have hlt : id.document < (g.normalize name).documents.length := by
    obtain ⟨hlt, -⟩ := List.getElem?_eq_some_iff.1 hdoc
    unfold SchemaGraph.normalize
    split
    · exact hlt
    · rename_i hdocs
      rw [hdocs] at hlt
      rwa [List.length_cons, List.length_map, ← List.length_cons]
  have hdoc' := List.getElem?_eq_getElem hlt
  obtain ⟨e, he, hform⟩ := getElem?_normalize hdoc'
  obtain rfl := Option.some.inj (hdoc.symm.trans he)
  rcases hform with ⟨-, hform⟩ | ⟨-, hform⟩
  · obtain ⟨w, hw⟩ := Schema.mem_positions_normalize name hroot hc
    exact ⟨_, (c.1, w), hdoc', hform ▸ hw, hid⟩
  · have hw := (Schema.mem_positions_normalizeFragment hroot c hc).1
    exact ⟨_, (c.1, Schema.normalizeFragment c.2), hdoc', hform ▸ hw, hid⟩

theorem reference?_congr {v w : Json} (h : Schema.Alike v w) :
    Loading.reference? v = Loading.reference? w := by
  rw [Loading.reference?, h "$ref" (by decide) (by decide), Loading.reference?]

/-- The normal form adds no references. -/
theorem Recorded.normalize (h : g.Recorded) (hd : g.Distinct) (name : String) :
    (g.normalize name).Recorded := by
  intro index d' hdoc' c hc href
  obtain ⟨d, hdoc, hform⟩ := getElem?_normalize hdoc'
  have hroot := hd d (List.mem_of_getElem? hdoc)
  have hold : (∃ w, (c.1, w) ∈ Schema.positions "#" d.root ∧ Schema.Alike c.2 w) ∨
      c.2 = .bool true := by
    rcases hform with ⟨-, hform⟩ | ⟨-, hform⟩
    · exact Schema.of_mem_positions_normalize hroot (hform ▸ hc)
    · refine (Schema.of_mem_positions_normalizeFragment hroot c (hform ▸ hc)).imp_left ?_
      rintro ⟨w, hw, hdw, heq⟩
      exact ⟨w, hw, heq ▸ Schema.alike_normalizeFragment hdw⟩
  rw [refs_normalize]
  rcases hold with ⟨w, hw, halike⟩ | htrue
  · exact h index d hdoc (c.1, w) hw (reference?_congr halike ▸ href)
  · rw [htrue] at href
    cases href

end SchemaGraph

end Typewright
