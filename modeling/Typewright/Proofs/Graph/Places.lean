import Typewright.Proofs.Graph.Located
import Typewright.Proofs.Json.Place
import Typewright.Proofs.Schema.Positions

/-!
# Where references lead

A reference names a document and a fragment of its URL, and the fragment, once decoded, stands for a
place of that document. What the loading records for the reference is the pointer of that place, in
the one form that the walk over a document writes as well. So fragments can be compared by their
identities, however the references to them are written (`SchemaGraph.places_of_load`).
-/

namespace Typewright

/-- The fragment of a URL, as it is written, stands for a place of a document. -/
def Json.Means (root : Json) (fragment : String) (place : Json.Place) : Prop :=
  ∃ text, Text.decode? (Percent.decode fragment.toList) = some text ∧ root.Addresses text place

/-- A reference in the document `index` names a document and a fragment of its URL: those that stand
behind a `#` are in the same document, any other is resolved against the location of the document,
and names the one at the location it resolves to. -/
inductive Document.Names (env : Environment) (options : Options) (documents : List Document)
    (index : Nat) (reference : String) : Nat → String → Prop where
  | own {fragment : List Char} (h : reference.toList = '#' :: fragment) :
      Names env options documents index reference index (String.ofList fragment)
  | file {d d' : Document} {base url : FileUrl} {fragment : String} {target : Nat}
      (hout : Loading.IsOutward reference) (hd : documents[index]? = some d)
      (hbase : rootBase env.workingDirectory options d.location = some base)
      (hurl : env.join base reference = some (.file url fragment))
      (htarget : documents[target]? = some d') (hlocation : d'.location = some url) :
      Names env options documents index reference target fragment

/-! ## Fragments of URLs -/

/-- The pointer that is read off a fragment is that of the place it stands for, if there is one. -/
theorem exists_place_of_fragmentPointer {root v : Json} {fragment pointer : String}
    (hp : fragmentPointer fragment = .ok pointer) (hv : root.at? pointer = some v) :
    ∃ place, root.Means fragment place ∧ pointer = place.pointer ∧ root.place? place = some v := by
  unfold fragmentPointer at hp
  split at hp
  · cases hp
  · rename_i text hdecode
    split at hp
    · rename_i hslash
      obtain ⟨rest, rfl⟩ := List.head?_eq_some_iff.1 (eq_of_beq hslash)
      obtain rfl := Except.ok.inj hp
      rw [Json.at?_build rfl] at hv
      obtain ⟨place, haddress, hsegments, hplace⟩ := Json.exists_addresses (.inr ⟨rest, rfl⟩) hv
      exact ⟨place, ⟨_, hdecode, haddress⟩, by rw [Json.Place.pointer, hsegments], hplace⟩
    · rename_i hslash
      obtain rfl := Except.ok.inj hp
      have hbody : Pointer.body (String.ofList ('#' :: text)) = text := by
        rw [Pointer.body, String.toList_ofList]
        rfl
      -- a text that does not start with a slash addresses nothing but the whole document
      have htext : text = [] := by
        rcases Json.rooted_of_at? hv with h | ⟨rest, h⟩
        · exact hbody.symm.trans h
        · rw [← hbody, h] at hslash
          exact absurd rfl hslash
      obtain rfl := htext
      rw [Json.at?, hbody] at hv
      exact ⟨[], ⟨[], hdecode, [], rfl, fun _ h => absurd h List.not_mem_nil, rfl, rfl⟩, rfl, hv⟩

theorem Json.Means.unique {root : Json} {fragment : String} {place place' : Json.Place}
    (h : root.Means fragment place) (h' : root.Means fragment place') : place = place' := by
  obtain ⟨text, hdecode, haddress⟩ := h
  obtain ⟨text', hdecode', haddress'⟩ := h'
  obtain rfl := Option.some.inj (hdecode.symm.trans hdecode')
  exact haddress.unique haddress'

namespace Loading

variable {env : Environment} {options : Options} {st st' : Loading} {sources sources' : Sources}
  {index depth : Nat}

/-! ## One reference -/

theorem location_of_loadFile {url : FileUrl} {source : Source}
    (h : loadFile env options url depth = .ok source) : source.document.location = some url := by
  unfold loadFile at h
  split at h
  · cases h
  · split at h
    · cases h
    · split at h
      · split at h
        · cases h
        · exact Except.ok.inj h ▸ rfl
      · cases h

/-- The documents after those that were loaded, if any is loaded: one from a location at which no
other is. -/
def Loads (sources sources' : Sources) : Prop :=
  sources' = sources ∨ ∃ source url, sources' = sources.push source ∧
    source.document.location = some url ∧ source.base = some url ∧
    ∀ s ∈ sources.rows, s.document.location ≠ some url

theorem locate_ok {url : FileUrl}
    (h : locate env options sources url depth = .ok (index, sources')) :
    Loads sources sources' ∧
      ∃ source, sources'.rows[index]? = some source ∧ source.document.location = some url := by
  rw [locate_eq] at h
  split at h
  · rename_i i hfound
    obtain ⟨rfl, rfl⟩ := Prod.mk.inj (Except.ok.inj h)
    obtain ⟨hlt, heq, -⟩ := List.findIdx?_eq_some_iff_getElem.1 hfound
    exact ⟨.inl rfl, sources.rows[i], List.getElem?_eq_getElem hlt, eq_of_beq heq⟩
  · rename_i hnone
    obtain ⟨source, hload, h⟩ := ok_of_bind h
    obtain ⟨rfl, rfl⟩ := Prod.mk.inj (Except.ok.inj h)
    have hlocation := location_of_loadFile hload
    refine ⟨.inr ⟨source, url, rfl, hlocation, (base_of_loadFile hload).trans hlocation, ?_⟩,
      source, by rw [Sources.rows_push]; exact List.getElem?_concat_length, hlocation⟩
    intro s hs heq
    have := List.findIdx?_eq_none_iff.1 hnone s hs
    simp [heq] at this

/-- A fragment that a reference is recorded to lead to: the one it names, in a document that is
loaded. -/
structure Lands (env : Environment) (options : Options) (documents : List Document) (index : Nat)
    (reference : String) (id : Fragment) : Prop where
  variant : id.variant = none
  named : ∃ fragment, Document.Names env options documents index reference id.document fragment ∧
    fragmentPointer fragment = .ok id.pointer
  value : ∃ d v, documents[id.document]? = some d ∧ d.root.at? id.pointer = some v ∧
    v.isSchema = true

theorem Lands.mono {documents more : List Document} {reference : String} {id : Fragment}
    (h : Lands env options documents index reference id) :
    Lands env options (documents ++ more) index reference id := by
  have hkeep : ∀ {i : Nat} {d : Document}, documents[i]? = some d →
      (documents ++ more)[i]? = some d := fun hd => by
    rw [List.getElem?_append_left (List.getElem?_eq_some_iff.1 hd).1, hd]
  obtain ⟨hvariant, ⟨fragment, hnames, hpointer⟩, d, v, hd, hv⟩ := h
  refine ⟨hvariant, ⟨fragment, ?_, hpointer⟩, d, v, hkeep hd, hv⟩
  cases hnames with
  | own hown => exact .own hown
  | file hout hd hbase hurl htarget hlocation =>
      exact .file hout (hkeep hd) hbase hurl (hkeep htarget) hlocation

/-- The references of each document resolve against its location. -/
def Based (env : Environment) (options : Options) (rows : List Source) : Prop :=
  ∀ source ∈ rows,
    source.base = rootBase env.workingDirectory options source.document.location

theorem Loads.based (h : Loads sources sources') (hb : Based env options sources.rows) :
    Based env options sources'.rows := by
  rcases h with rfl | ⟨source, url, rfl, hlocation, hbase, -⟩
  · exact hb
  · intro s hs
    rw [Sources.rows_push] at hs
    rcases List.mem_append.1 hs with hs | hs
    · exact hb s hs
    · rw [List.mem_singleton.1 hs, hlocation, hbase]
      rfl

theorem target_ok {reference : String} {entry : Target} (hb : Based env options sources.rows)
    (h : target env options sources index reference = .ok (entry, sources')) :
    Loads sources sources' ∧ ∀ id, entry = .fragment id →
      Lands env options sources'.documents index reference id := by
  have hdocument : ∀ {i : Nat} {source : Source} {sources : Sources},
      sources.rows[i]? = some source → sources.documents[i]? = some source.document :=
    fun hs => by rw [Sources.getElem?_documents, hs]; rfl
  unfold target at h
  split at h
  · rename_i fragment hown
    obtain ⟨pointer, hpointer, h⟩ := ok_of_bind h
    obtain ⟨_, hcheck, h⟩ := ok_of_bind h
    obtain ⟨rfl, rfl⟩ := Prod.mk.inj (Except.ok.inj h)
    refine ⟨.inl rfl, ?_⟩
    rintro id heq
    obtain rfl := Target.fragment.inj heq
    exact ⟨rfl, ⟨_, .own hown, hpointer⟩, isSchema_of_check hcheck⟩
  · rename_i hnot
    split at h
    · obtain ⟨rfl, rfl⟩ := Prod.mk.inj (Except.ok.inj h)
      exact ⟨.inl rfl, fun id heq => by cases heq⟩
    · rw [Sources.get?_eq] at h
      split at h
      · cases h
      · rename_i source hs
        split at h
        · cases h
        · rename_i base hbase
          split at h
          · cases h
          · cases h
          · rename_i url fragment hurl
            obtain ⟨⟨document, found⟩, hlocate, h⟩ := ok_of_bind h
            obtain ⟨pointer, hpointer, h⟩ := ok_of_bind h
            obtain ⟨_, hcheck, h⟩ := ok_of_bind h
            obtain ⟨rfl, rfl⟩ := Prod.mk.inj (Except.ok.inj h)
            obtain ⟨hloads, source', hs', hlocation⟩ := locate_ok hlocate
            refine ⟨hloads, ?_⟩
            rintro id heq
            obtain rfl := Target.fragment.inj heq
            have hout := isOutward_of_ne hnot
            have hkept : found.rows[index]? = some source := by
              rcases hloads with rfl | ⟨new, _, rfl, -⟩
              · exact hs
              · rw [Sources.rows_push, List.getElem?_append_left (List.getElem?_eq_some_iff.1 hs).1, hs]
            have hbased := hb source (List.mem_of_getElem? hs)
            exact ⟨rfl, ⟨fragment, .file hout (hdocument hkept) (hbased.symm.trans hbase) hurl
              (hdocument hs') hlocation, hpointer⟩, isSchema_of_check hcheck⟩

/-! ## All references -/

/-- What is recorded: each reference stands at a position of its document and leads to the fragment
it names, and no location is loaded twice. -/
structure Placed (env : Environment) (options : Options) (st : Loading) : Prop where
  based : Based env options st.sources.rows
  once : (st.sources.documents.filterMap (·.location)).Nodup
  lands : ∀ e ∈ st.refs, ∃ source c reference, st.sources.rows[e.1.document]? = some source ∧
    c ∈ Schema.positions "#" source.document.root ∧ e.1 = ⟨e.1.document, c.1, none⟩ ∧
    reference? c.2 = some reference ∧ ∀ id, e.2 = .fragment id →
      Lands env options st.sources.documents e.1.document reference id

theorem Loads.once (h : Loads sources sources')
    (ho : (sources.documents.filterMap (·.location)).Nodup) :
    (sources'.documents.filterMap (·.location)).Nodup := by
  rcases h with rfl | ⟨source, url, rfl, hlocation, -, hnew⟩
  · exact ho
  · have hlast : [source.document].filterMap (·.location) = [url] := by simp [hlocation]
    rw [Sources.push, List.filterMap_append, hlast]
    refine ho.append (List.nodup_singleton _) fun u hu hu' => ?_
    obtain ⟨d, hd, heq⟩ := List.mem_filterMap.1 hu
    rw [← Sources.map_document_rows] at hd
    obtain ⟨s, hs, rfl⟩ := List.mem_map.1 hd
    exact hnew s hs (heq.trans (congrArg some (List.mem_singleton.1 hu')))

theorem Loads.exists_append (h : Loads sources sources') :
    ∃ more, sources'.rows = sources.rows ++ more := by
  rcases h with rfl | ⟨source, _, rfl, -⟩
  · exact ⟨[], (List.append_nil _).symm⟩
  · exact ⟨[source], sources.rows_push source⟩

theorem placed_scanFrom {remaining next : Nat} (hst : Placed env options st)
    (h : scanFrom env options remaining next st = .ok st') : Placed env options st' := by
  refine scanFrom_references h hst fun t index source c reference entry sources ht hs hc href
    htarget => ?_
  obtain ⟨hloads, hlands⟩ := target_ok ht.based htarget
  refine ⟨hloads.based ht.based, hloads.once ht.once, fun e he => ?_⟩
  obtain ⟨more, hmore⟩ := hloads.exists_append
  have hkeep : ∀ {i : Nat} {source : Source}, t.sources.rows[i]? = some source →
      sources.rows[i]? = some source := fun hs => by
    rw [hmore, List.getElem?_append_left (List.getElem?_eq_some_iff.1 hs).1, hs]
  rcases List.mem_append.1 he with he | he
  · obtain ⟨source, c, reference, hs, hc, hid, href, hlands⟩ := ht.lands e he
    refine ⟨source, c, reference, hkeep hs, hc, hid, href, fun id heq => ?_⟩
    rw [← Sources.map_document_rows, hmore, List.map_append, Sources.map_document_rows]
    exact (hlands id heq).mono
  · obtain rfl := List.mem_singleton.1 he
    exact ⟨source, c, reference, hkeep hs, hc, rfl, href, hlands⟩

theorem target_of_file {reference : String} (hout : IsOutward reference)
    (hexternal : options.refOptions.external = true) {source : Source} {base url : FileUrl}
    {fragment pointer : String} {document : Nat} (hs : sources.rows[index]? = some source)
    (hbase : source.base = some base) (hurl : env.join base reference = some (.file url fragment))
    (hlocate : locate env options sources url source.depth = .ok (document, sources'))
    (hpointer : fragmentPointer fragment = .ok pointer)
    (hcheck : check sources'.documents ⟨document, pointer, none⟩ = .ok ()) :
    target env options sources index reference =
      .ok (.fragment ⟨document, pointer, none⟩, sources') := by
  unfold target
  split
  · rename_i heq
    exact absurd (by rw [heq]; rfl) hout
  · rw [hexternal, Sources.get?_eq, hs]
    simp only [hbase, hurl, bind_of_ok hlocate, bind_of_ok hpointer, bind_of_ok hcheck]
    rfl

theorem scanPosition_of_target {c : String × Json} {reference : String} {entry : Target}
    (href : reference? c.2 = some reference)
    (h : target env options st.sources index reference = .ok (entry, sources)) :
    scanPosition env options index st c =
      .ok ⟨sources, st.refs ++ [(⟨index, c.1, none⟩, entry)]⟩ := by
  simp only [scanPosition, href, h]

end Loading

namespace SchemaGraph

variable {env : Environment} {options : Options} {location : Option FileUrl} {schema : Json}
  {g : SchemaGraph}

/-- A position of a document at which an object with a string under `$ref` stands. -/
def IsSite (g : SchemaGraph) (site : Fragment) : Prop :=
  site.variant = none ∧ ∃ d ms reference, g.documents[site.document]? = some d ∧
    (site.pointer, .object ms) ∈ Schema.positions "#" d.root ∧
    ms.lookup "$ref" = some (.string reference)

/-- The reference at a site stands for a place of a document. -/
def StandsFor (env : Environment) (options : Options) (g : SchemaGraph) (site : Fragment)
    (document : Nat) (place : Json.Place) : Prop :=
  ∃ d ms reference fragment target, g.documents[site.document]? = some d ∧
    (site.pointer, .object ms) ∈ Schema.positions "#" d.root ∧
    ms.lookup "$ref" = some (.string reference) ∧
    Document.Names env options g.documents site.document reference document fragment ∧
    g.documents[document]? = some target ∧ target.root.Means fragment place

theorem exists_of_reference? {v : Json} {reference : String}
    (h : Loading.reference? v = some reference) :
    ∃ ms, v = .object ms ∧ ms.lookup "$ref" = some (.string reference) := by
  cases v with
  | object ms =>
      refine ⟨ms, rfl, ?_⟩
      obtain ⟨w, hw, hstring⟩ := Option.bind_eq_some_iff.1 h
      cases w with
      | string s =>
          obtain rfl := Option.some.inj hstring
          exact hw
      | _ => cases hstring
  | _ => cases h

/-! ## Documents and the places that references stand for -/

theorem placed_of_load (h : load env options location schema = .ok g) :
    (g.documents.filterMap (·.location)).Nodup ∧
    ∀ e ∈ g.refs, ∃ d c reference, g.documents[e.1.document]? = some d ∧
      c ∈ Schema.positions "#" d.root ∧ e.1 = ⟨e.1.document, c.1, none⟩ ∧
      Loading.reference? c.2 = some reference ∧ ∀ id, e.2 = .fragment id →
        Loading.Lands env options g.documents e.1.document reference id := by
  unfold load at h
  obtain ⟨st, hscan, h⟩ := Loading.ok_of_bind h
  obtain rfl := Except.ok.inj h
  have hst : Loading.Placed env options st := by
    refine Loading.placed_scanFrom ⟨fun s hs => ?_, ?_, fun e he => by cases he⟩ hscan
    · rw [List.mem_singleton.1 hs]
    · cases location with
      | none => exact List.nodup_nil
      | some url => exact List.nodup_singleton url
  refine ⟨hst.once, fun e he => ?_⟩
  obtain ⟨source, c, reference, hs, hrest⟩ := hst.lands e he
  exact ⟨source.document, c, reference, by rw [Sources.getElem?_documents, hs]; rfl, hrest⟩

/-- At each location there is one document. -/
theorem eq_of_location (hn : (g.documents.filterMap (·.location)).Nodup) {i j : Nat}
    {d d' : Document} {url : FileUrl} (hi : g.documents[i]? = some d)
    (hj : g.documents[j]? = some d') (hd : d.location = some url) (hd' : d'.location = some url) :
    i = j := by
  obtain ⟨hlt, rfl⟩ := List.getElem?_eq_some_iff.1 hi
  obtain ⟨hlt', rfl⟩ := List.getElem?_eq_some_iff.1 hj
  have hpairs := List.pairwise_iff_getElem.1 (List.pairwise_filterMap.1 hn)
  rcases Nat.lt_trichotomy i j with hij | rfl | hij
  · exact absurd rfl (hpairs i j hlt hlt' hij url hd url hd')
  · rfl
  · exact absurd rfl (hpairs j i hlt' hlt hij url hd' url hd)

theorem names_unique (hn : (g.documents.filterMap (·.location)).Nodup) {index i j : Nat}
    {reference fragment fragment' : String}
    (h : Document.Names env options g.documents index reference i fragment)
    (h' : Document.Names env options g.documents index reference j fragment') :
    i = j ∧ fragment = fragment' := by
  have hnever : ∀ {rest : List Char}, reference.toList = '#' :: rest →
      ¬ Loading.IsOutward reference := fun hown hout => hout (by rw [hown]; rfl)
  cases h with
  | own hown =>
      cases h' with
      | own hown' => exact ⟨rfl, congrArg String.ofList (List.cons.inj (hown.symm.trans hown')).2⟩
      | file hout => exact absurd hout (hnever hown)
  | file hout hd hbase hurl hi hlocation =>
      cases h' with
      | own hown => exact absurd hout (hnever hown)
      | file _ hd' hbase' hurl' hj hlocation' =>
          obtain rfl := Option.some.inj (hd.symm.trans hd')
          obtain rfl := Option.some.inj (hbase.symm.trans hbase')
          obtain ⟨rfl, rfl⟩ := Resource.file.inj (Option.some.inj (hurl.symm.trans hurl'))
          exact ⟨eq_of_location hn hi hj hlocation hlocation', rfl⟩

/-- Each position of a document is at a place of it, and its pointer is that of the place. -/
theorem exists_place_of_mem_positions {root : Json} (hd : root.Distinct) :
    ∀ c ∈ Schema.positions "#" root,
      ∃ place : Json.Place, c.1 = place.pointer ∧ root.place? place = some c.2 := by
  have hsteps : ∀ c ∈ Schema.positions "#" root, c.2.Distinct ∧
      ∃ steps, c.1 = Pointer.build "#" steps ∧ root.follow? steps = some c.2 := by
    refine Schema.positions_induction (P := fun path v => v.Distinct ∧
      ∃ steps, path = Pointer.build "#" steps ∧ root.follow? steps = some v)
      ⟨hd, [], rfl, rfl⟩ ?_
    rintro path ms further w ⟨hms, steps, hpath, hv⟩ hp -
    refine ⟨hp.distinct hms, steps ++ further, ?_, ?_⟩
    · rw [hpath, Pointer.build_append]
    · rw [Json.follow?_append, hv]
      exact hp.follow? hms
  intro c hc
  obtain ⟨-, steps, hpath, hv⟩ := hsteps c hc
  obtain ⟨place, rfl, hplace⟩ := Json.exists_place hv
  exact ⟨place, hpath, hplace⟩

/-- A reference stands for one place at most. -/
theorem StandsFor.unique (hg : g.Distinct) (hn : (g.documents.filterMap (·.location)).Nodup)
    {site : Fragment} {document document' : Nat} {place place' : Json.Place}
    (h : g.StandsFor env options site document place)
    (h' : g.StandsFor env options site document' place') :
    document = document' ∧ place = place' := by
  obtain ⟨d, ms, reference, fragment, target, hd, hc, href, hnames, htarget, hmeans⟩ := h
  obtain ⟨d', ms', reference', fragment', target', hd', hc', href', hnames', htarget', hmeans'⟩ :=
    h'
  obtain rfl := Option.some.inj (hd.symm.trans hd')
  have hself : d.root.at? "#" = some d.root := rfl
  have hat := Schema.at?_of_mem_positions hself (hg d (List.mem_of_getElem? hd))
  obtain rfl := Json.object.inj (Option.some.inj ((hat _ hc).1.symm.trans (hat _ hc').1))
  obtain rfl := Json.string.inj (Option.some.inj (href.symm.trans href'))
  obtain ⟨rfl, rfl⟩ := names_unique hn hnames hnames'
  obtain rfl := Option.some.inj (htarget.symm.trans htarget')
  exact ⟨rfl, hmeans.unique hmeans'⟩

theorem mem_refs_of_lookup {site : Fragment} {entry : Target}
    (h : g.refs.lookup site = some entry) : (site, entry) ∈ g.refs := by
  obtain ⟨before, after, hrefs, -⟩ := List.lookup_eq_some_iff.1 h
  exact hrefs ▸ List.mem_append_right _ List.mem_cons_self

/-- What a recorded reference leads to is the fragment at the place for which it stands. -/
theorem exists_place_of_lookup (h : load env options location schema = .ok g) {site id : Fragment}
    (hl : g.refs.lookup site = some (.fragment id)) :
    ∃ place d v, g.StandsFor env options site id.document place ∧
      id = ⟨id.document, place.pointer, none⟩ ∧ g.documents[id.document]? = some d ∧
      d.root.place? place = some v ∧ v.isSchema = true := by
  obtain ⟨d, c, reference, hd, hc, hsite, href, hlands⟩ :=
    (placed_of_load h).2 _ (mem_refs_of_lookup hl)
  obtain ⟨hvariant, ⟨fragment, hnames, hpointer⟩, target, v, htarget, hat, hv⟩ := hlands id rfl
  obtain ⟨place, hmeans, heq, hplace⟩ := exists_place_of_fragmentPointer hpointer hat
  obtain ⟨ms, hobject, hstring⟩ := exists_of_reference? href
  have hposition : (site.pointer, Json.object ms) ∈ Schema.positions "#" d.root := by
    rw [congrArg Fragment.pointer hsite, ← hobject]
    exact hc
  refine ⟨place, target, v,
    ⟨d, ms, reference, fragment, target, hd, hposition, hstring, hnames, htarget, hmeans⟩, ?_,
    htarget, hplace, hv⟩
  rw [← heq, ← hvariant]

/-- References of a graph that was loaded, and the places of its documents: each position is at a
place whose pointer is its own, the references are recorded at the positions where they stand, each
leads to an object or a boolean at the place for which it stands, under the identity that all
references to this place and the position there have, and no location is loaded twice. -/
theorem places_of_load (hd : schema.Distinct) (h : load env options location schema = .ok g) :
    (∃ rest, g.documents = ⟨location, schema⟩ :: rest) ∧
    (∀ index d, g.documents[index]? = some d → ∀ c ∈ Schema.positions "#" d.root,
      (∀ variant, g.get? ⟨index, c.1, variant⟩ = some c.2) ∧
      ∃ place : Json.Place, c.1 = place.pointer ∧ d.root.place? place = some c.2 ∧
        ∀ site id, g.refs.lookup site = some (.fragment id) →
          g.StandsFor env options site index place → id = ⟨index, c.1, none⟩) ∧
    (∀ site, (g.refs.lookup site).isSome ↔ g.IsSite site) ∧
    (∀ site id, g.refs.lookup site = some (.fragment id) → ∃ place d v,
      g.StandsFor env options site id.document place ∧
      id = ⟨id.document, place.pointer, none⟩ ∧ g.documents[id.document]? = some d ∧
      d.root.place? place = some v ∧ g.get? id = some v ∧ v.isSchema = true) ∧
    (∀ site site' id id' document place, g.refs.lookup site = some (.fragment id) →
      g.refs.lookup site' = some (.fragment id') → g.StandsFor env options site document place →
      g.StandsFor env options site' document place → id = id') ∧
    (g.documents.filterMap (·.location)).Nodup := by
  obtain ⟨⟨rest, hdocs, -⟩, hrec⟩ := recorded_of_load h
  obtain ⟨hn, hrefs⟩ := placed_of_load h
  have hg := distinct_of_load h hd
  -- a recorded fragment has the identity of the place for which its reference stands
  have hid : ∀ {site id document place}, g.refs.lookup site = some (.fragment id) →
      g.StandsFor env options site document place → id = ⟨document, place.pointer, none⟩ := by
    intro site id document place hl hstands
    obtain ⟨place', _, _, hstands', heq, -⟩ := exists_place_of_lookup h hl
    obtain ⟨rfl, rfl⟩ := hstands.unique hg hn hstands'
    exact heq
  refine ⟨⟨rest, hdocs⟩, fun index d hindex c hc => ⟨fun variant => ?_, ?_⟩, fun site => ⟨?_, ?_⟩,
    fun site id hl => ?_, fun site site' id id' document place hl hl' hstands hstands' =>
      (hid hl hstands).trans (hid hl' hstands').symm, hn⟩
  · rw [get?, hindex]
    exact (Schema.at?_of_mem_positions rfl (hg d (List.mem_of_getElem? hindex)) c hc).1
  · obtain ⟨place, hpath, hplace⟩ :=
      exists_place_of_mem_positions (hg d (List.mem_of_getElem? hindex)) c hc
    refine ⟨place, hpath, hplace, fun site id hl hstands => ?_⟩
    rw [hpath]
    exact hid hl hstands
  · intro hsome
    obtain ⟨entry, hl⟩ := Option.isSome_iff_exists.1 hsome
    obtain ⟨d, c, reference, hdoc, hc, hsite, href, -⟩ := hrefs _ (mem_refs_of_lookup hl)
    obtain ⟨ms, hobject, hstring⟩ := exists_of_reference? href
    refine ⟨congrArg Fragment.variant hsite, d, ms, reference, hdoc, ?_, hstring⟩
    rw [congrArg Fragment.pointer hsite, ← hobject]
    exact hc
  · rintro ⟨hvariant, d, ms, reference, hdoc, hc, hstring⟩
    have href : (Loading.reference? (.object ms)).isSome := by
      rw [Loading.reference?, Json.member?, Json.members?, Option.bind_some, hstring]
      rfl
    have hsome := hrec site.document d hdoc _ hc href
    rwa [← hvariant] at hsome
  · obtain ⟨place, d, v, hstands, heq, hdoc, hplace, hv⟩ := exists_place_of_lookup h hl
    refine ⟨place, d, v, hstands, heq, hdoc, hplace, ?_, hv⟩
    rw [heq, get?, hdoc]
    exact Json.at?_pointer hplace

/-! ## References written in several ways -/

/-- A directory in which one file holds a schema. -/
def oneFile : Environment :=
  ⟨"/work", fun path => if path == "/work/any.json" then .text "true" else .missing⟩

def anyFile : FileUrl := ⟨"", ["work", "any.json"], none⟩

/-- References to a definition and to a file, the latter in two ways. -/
def spellings : Json :=
  .object [("definitions", .object [("a/b", .bool true)]),
    ("items", .array [.object [("$ref", .string "#/definitions/%61~1b")],
      .object [("$ref", .string "any.json")], .object [("$ref", .string "./any.json#")]])]

def spellingsGraph : SchemaGraph where
  documents := [⟨none, spellings⟩, ⟨some anyFile, .bool true⟩]
  refs := [(⟨0, "#/items/0", none⟩, .fragment ⟨0, "#/definitions/a~1b", none⟩),
    (⟨0, "#/items/1", none⟩, .fragment ⟨1, "#", none⟩),
    (⟨0, "#/items/2", none⟩, .fragment ⟨1, "#", none⟩)]
  maxDepth := 50

theorem loadFile_anyFile {options : Options} {depth : Nat}
    (h : depth + 1 ≤ options.refOptions.maxDepth) :
    Loading.loadFile oneFile options anyFile depth =
      .ok ⟨⟨some anyFile, .bool true⟩, some anyFile, depth + 1⟩ := by
  have hpath : anyFile.filePath? = some "/work/any.json" := by rfl
  have hread : Json.read "true" = some (.bool true) := by
    rw [Json.read, Json.readRepeats, Json.readValue]
    rfl
  simp [Loading.loadFile, Nat.not_lt.2 h, hpath, oneFile, hread]

theorem load_spellings : load oneFile {} none spellings = .ok spellingsGraph := by
  let root : Sources := .root none (some ⟨"", ["work", ""], none⟩) spellings
  let both := root.push ⟨⟨some anyFile, .bool true⟩, some anyFile, 1⟩
  have hpositions : Schema.positions "#" spellings = [("#", spellings),
      ("#/definitions/a~1b", .bool true),
      ("#/items/0", .object [("$ref", .string "#/definitions/%61~1b")]),
      ("#/items/1", .object [("$ref", .string "any.json")]),
      ("#/items/2", .object [("$ref", .string "./any.json#")])] := by
    rw [spellings, Schema.positions_object]
    refine congrArg (List.cons _) ?_
    change [("#/definitions/a~1b", Json.bool true), _, _, _].flatMap _ = _
    simp only [List.flatMap_cons, Schema.positions_reference]
    rw [Schema.positions_of_not_object rfl]
    rfl
  have hload : Loading.loadFile oneFile {} anyFile 0 = .ok _ := loadFile_anyFile (by decide)
  have hown : Loading.target oneFile {} root 0 "#/definitions/%61~1b" =
      .ok (.fragment ⟨0, "#/definitions/a~1b", none⟩, root) := by rfl
  have hurl : (⟨"", ["work", ""], none⟩ : FileUrl).resolve "any.json" =
      some (.file anyFile "") := by rfl
  have hurl' : (⟨"", ["work", ""], none⟩ : FileUrl).resolve "./any.json#" =
      some (.file anyFile "") := by rfl
  have hfirst : Loading.target oneFile {} root 0 "any.json" =
      .ok (.fragment ⟨1, "#", none⟩, both) :=
    Loading.target_of_file (by simp [Loading.IsOutward]) rfl rfl rfl hurl
      (Loading.bind_of_ok hload) (by rfl) (by rfl)
  have hagain : Loading.target oneFile {} both 0 "./any.json#" =
      .ok (.fragment ⟨1, "#", none⟩, both) :=
    Loading.target_of_file (by simp [Loading.IsOutward]) rfl rfl rfl hurl' (by rfl) (by rfl)
      (by rfl)
  have hround : Loading.scanDocument oneFile {} ⟨root, []⟩ 0 =
      .ok ⟨both, spellingsGraph.refs⟩ := by
    change (Schema.positions "#" spellings).foldlM _ _ = _
    rw [hpositions]
    refine (Loading.bind_of_ok rfl).trans ((Loading.bind_of_ok rfl).trans ?_)
    refine (Loading.bind_of_ok (Loading.scanPosition_of_target rfl hown)).trans ?_
    refine (Loading.bind_of_ok (Loading.scanPosition_of_target rfl hfirst)).trans ?_
    exact (Loading.bind_of_ok (Loading.scanPosition_of_target rfl hagain)).trans rfl
  have hrest : Loading.scanDocument oneFile {} ⟨both, spellingsGraph.refs⟩ 1 =
      .ok ⟨both, spellingsGraph.refs⟩ := by
    change (Schema.positions "#" (.bool true)).foldlM _ _ = _
    rw [Schema.positions_of_not_object rfl]
    rfl
  have hscan : Loading.scanFrom oneFile {} 50 0 ⟨root, []⟩ =
      .ok ⟨both, spellingsGraph.refs⟩ := by
    rw [Loading.scanFrom_eq]
    refine (Loading.bind_of_ok ((Loading.bind_of_ok hround).trans rfl)).trans ?_
    rw [if_neg (by decide), Loading.scanFrom_eq]
    refine (Loading.bind_of_ok ((Loading.bind_of_ok hrest).trans rfl)).trans ?_
    exact if_pos (.inr (Nat.le_refl 2))
  exact Loading.bind_of_ok hscan

/-- References in three spellings: the definition has the identity that the walk gives it, and the
file is loaded once. -/
theorem places_of_load_spellings :
    spellings.Distinct ∧ load oneFile {} none spellings = .ok spellingsGraph ∧
    (∃ place, spellingsGraph.StandsFor oneFile {} ⟨0, "#/items/0", none⟩ 0 place ∧
      place.pointer = "#/definitions/a~1b") ∧
    (∃ place, spellingsGraph.StandsFor oneFile {} ⟨0, "#/items/2", none⟩ 1 place ∧
      place.pointer = "#") ∧
    (∀ site, (spellingsGraph.refs.lookup site).isSome ↔ spellingsGraph.IsSite site) ∧
    (spellingsGraph.documents.filterMap (·.location)).Nodup := by
  have hd : spellings.Distinct := by
    simp [spellings, Json.Distinct, Json.DistinctMembers, Json.DistinctItems, Members.keys]
  obtain ⟨-, -, hsites, hplaces, -, honce⟩ := places_of_load hd load_spellings
  obtain ⟨place, _, _, hstands, heq, -⟩ := hplaces ⟨0, "#/items/0", none⟩ _ rfl
  obtain ⟨place', _, _, hstands', heq', -⟩ := hplaces ⟨0, "#/items/2", none⟩ _ rfl
  exact ⟨hd, load_spellings, ⟨place, hstands, (congrArg Fragment.pointer heq).symm⟩,
    ⟨place', hstands', (congrArg Fragment.pointer heq').symm⟩, hsites, honce⟩

end SchemaGraph

end Typewright
