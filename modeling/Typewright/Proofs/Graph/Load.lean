import Typewright.Graph.Load
import Typewright.Proofs.Json.Keys

/-!
# What the loading records

The loading only adds documents and references. A document that it adds is further from the root than
the one that refers to it, and the limit refuses those that no scan would reach, so when the loading
ends, the references of all documents are recorded (`SchemaGraph.recorded_of_load`).
-/

namespace Typewright

/-! ## Documents with their bases and distances -/

namespace Sources

variable {sources : Sources} {source : Source} {index : Nat}

/-- The loaded documents, each with its base and distance. -/
def rows (sources : Sources) : List Source :=
  (sources.documents.zip (sources.bases.zip sources.depths)).map fun (document, base, depth) =>
    ⟨document, base, depth⟩

@[simp]
theorem rows_root (location base : Option FileUrl) (schema : Json) :
    (root location base schema).rows = [⟨⟨location, schema⟩, base, 0⟩] := rfl

theorem length_zip_columns (sources : Sources) :
    (sources.bases.zip sources.depths).length = sources.documents.length := by
  rw [List.length_zip, sources.length_bases, sources.length_depths, Nat.min_self]

@[simp]
theorem map_document_rows (sources : Sources) :
    sources.rows.map (·.document) = sources.documents := by
  rw [rows, List.map_map]
  exact List.map_fst_zip (Nat.le_of_eq sources.length_zip_columns.symm)

theorem map_columns_rows (sources : Sources) :
    sources.rows.map (fun source => (source.base, source.depth)) =
      sources.bases.zip sources.depths := by
  rw [rows, List.map_map]
  exact List.map_snd_zip (Nat.le_of_eq sources.length_zip_columns)

@[simp]
theorem map_base_rows (sources : Sources) : sources.rows.map (·.base) = sources.bases := by
  have hle : sources.bases.length ≤ sources.depths.length :=
    Nat.le_of_eq (sources.length_bases.trans sources.length_depths.symm)
  rw [← List.map_fst_zip hle, ← map_columns_rows, List.map_map]
  rfl

@[simp]
theorem map_depth_rows (sources : Sources) : sources.rows.map (·.depth) = sources.depths := by
  have hle : sources.depths.length ≤ sources.bases.length :=
    Nat.le_of_eq (sources.length_depths.trans sources.length_bases.symm)
  rw [← List.map_snd_zip hle, ← map_columns_rows, List.map_map]
  rfl

@[simp]
theorem length_rows (sources : Sources) : sources.rows.length = sources.length := by
  rw [length, ← map_document_rows, List.length_map]

@[simp]
theorem rows_push (sources : Sources) (source : Source) :
    (sources.push source).rows = sources.rows ++ [source] := by
  have hdepths := sources.length_bases.trans sources.length_depths.symm
  rw [rows, push, List.zip_append hdepths, List.zip_append sources.length_zip_columns.symm,
    List.map_append]
  rfl

theorem getElem?_documents (sources : Sources) (index : Nat) :
    sources.documents[index]? = sources.rows[index]?.map (·.document) := by
  rw [← List.getElem?_map, map_document_rows]

theorem getElem?_bases (sources : Sources) (index : Nat) :
    sources.bases[index]? = sources.rows[index]?.map (·.base) := by
  rw [← List.getElem?_map, map_base_rows]

theorem getElem?_depths (sources : Sources) (index : Nat) :
    sources.depths[index]? = sources.rows[index]?.map (·.depth) := by
  rw [← List.getElem?_map, map_depth_rows]

theorem get?_eq (sources : Sources) (index : Nat) : sources.get? index = sources.rows[index]? := by
  rw [get?, getElem?_documents, getElem?_bases, getElem?_depths]
  cases sources.rows[index]? <;> rfl

theorem exists_row (sources : Sources) (h : index < sources.length) :
    ∃ source, sources.rows[index]? = some source :=
  ⟨_, List.getElem?_eq_getElem (sources.length_rows.symm ▸ h)⟩

theorem lt_length (h : sources.rows[index]? = some source) : index < sources.length := by
  obtain ⟨hlt, -⟩ := List.getElem?_eq_some_iff.1 h
  exact sources.length_rows ▸ hlt

theorem exists_row_of_document {document : Document}
    (h : sources.documents[index]? = some document) :
    ∃ source, sources.rows[index]? = some source ∧ source.document = document := by
  rw [getElem?_documents] at h
  exact Option.map_eq_some_iff.1 h

end Sources

namespace Loading

variable {env : Environment} {options : Options} {st st' st'' : Loading} {depth : Nat}

theorem ok_of_bind {α β ε : Type} {x : Except ε α} {f : α → Except ε β} {b : β}
    (h : x >>= f = .ok b) : ∃ a, x = .ok a ∧ f a = .ok b := by
  cases x with
  | error e => cases h
  | ok a => exact ⟨a, rfl, h⟩

theorem bind_of_ok {α β ε : Type} {x : Except ε α} {f : α → Except ε β} {a : α} (h : x = .ok a) :
    x >>= f = f a := by
  rw [h]
  rfl

/-- What holds of the whole list at first and of what is left of it after each step. -/
theorem foldlM_induction {α β ε : Type} {f : β → α → Except ε β} {P : List α → β → Prop}
    {l : List α} {b c : β} (h : l.foldlM f b = .ok c) (hb : P l b)
    (hstep : ∀ a l b b', P (a :: l) b → f b a = .ok b' → P l b') : P [] c := by
  induction l generalizing b with
  | nil =>
      obtain rfl := Except.ok.inj h
      exact hb
  | cons a rest ih =>
      obtain ⟨b', hf, h⟩ := ok_of_bind h
      exact ih h (hstep a rest b b' hb hf)

/-! ## Growth -/

/-- A document that was read from a file, further from the root than `depth`. -/
structure Further (options : Options) (depth : Nat) (source : Source) : Prop where
  distinct : source.document.root.Distinct
  further : depth < source.depth
  limit : source.depth ≤ options.refOptions.maxDepth

/-- Documents and references are only added, the documents further from the root than `depth`. -/
structure Extends (options : Options) (depth : Nat) (st st' : Loading) : Prop where
  sources : ∃ more, st'.sources.rows = st.sources.rows ++ more ∧ ∀ s ∈ more, Further options depth s
  refs : ∃ more, st'.refs = st.refs ++ more

theorem Extends.refl (options : Options) (depth : Nat) (st : Loading) :
    Extends options depth st st where
  sources := ⟨[], (List.append_nil _).symm, fun s hs => by cases hs⟩
  refs := ⟨[], (List.append_nil _).symm⟩

theorem Extends.trans (h : Extends options depth st st') (h' : Extends options depth st' st'') :
    Extends options depth st st'' := by
  obtain ⟨⟨more, hs, hmore⟩, refs, hr⟩ := h
  obtain ⟨⟨more', hs', hmore'⟩, refs', hr'⟩ := h'
  refine ⟨⟨more ++ more', by rw [hs', hs, List.append_assoc], fun s hmem => ?_⟩,
    refs ++ refs', by rw [hr', hr, List.append_assoc]⟩
  rcases List.mem_append.1 hmem with hmem | hmem
  · exact hmore s hmem
  · exact hmore' s hmem

theorem Extends.mono {depth' : Nat} (h : Extends options depth st st') (hd : depth' ≤ depth) :
    Extends options depth' st st' := by
  obtain ⟨⟨more, hs, hmore⟩, hr⟩ := h
  exact ⟨⟨more, hs, fun s hmem =>
    ⟨(hmore s hmem).distinct, Nat.lt_of_le_of_lt hd (hmore s hmem).further, (hmore s hmem).limit⟩⟩, hr⟩

theorem Extends.length_le (h : Extends options depth st st') :
    st.sources.length ≤ st'.sources.length := by
  obtain ⟨⟨more, hs, -⟩, -⟩ := h
  rw [← Sources.length_rows, ← Sources.length_rows, hs, List.length_append]
  exact Nat.le_add_right _ _

theorem Extends.source (h : Extends options depth st st') {index : Nat}
    (hlt : index < st.sources.length) : st'.sources.rows[index]? = st.sources.rows[index]? := by
  obtain ⟨⟨more, hs, -⟩, -⟩ := h
  rw [hs, List.getElem?_append_left (st.sources.length_rows.symm ▸ hlt)]

theorem Extends.further (h : Extends options depth st st') {index : Nat} {source : Source}
    (hle : st.sources.length ≤ index) (hs : st'.sources.rows[index]? = some source) :
    Further options depth source := by
  obtain ⟨⟨more, heq, hmore⟩, -⟩ := h
  rw [heq, List.getElem?_append_right (st.sources.length_rows.symm ▸ hle)] at hs
  exact hmore source (List.mem_of_getElem? hs)

theorem Extends.recorded (h : Extends options depth st st') {id : Fragment}
    (hid : (st.refs.lookup id).isSome) : (st'.refs.lookup id).isSome := by
  obtain ⟨-, more, hr⟩ := h
  obtain ⟨target, htarget⟩ := Option.isSome_iff_exists.1 hid
  rw [hr, List.lookup_append, htarget]
  rfl

/-! ## One reference -/

theorem further_of_loadFile {url : FileUrl} {source : Source}
    (h : loadFile env options url depth = .ok source) : Further options depth source := by
  unfold loadFile at h
  split at h
  · cases h
  · rename_i hlimit
    split at h
    · cases h
    · split at h
      · split at h
        · cases h
        · rename_i root hread
          obtain rfl := Except.ok.inj h
          exact ⟨Json.distinct_of_read hread, Nat.lt_succ_self _, Nat.le_of_not_lt hlimit⟩
      · cases h

/-- The search for a location goes through the documents with their bases and distances. -/
theorem locate_eq (sources : Sources) (url : FileUrl) (depth : Nat) :
    locate env options sources url depth =
      match sources.rows.findIdx? (·.document.location == some url) with
      | some index => .ok (index, sources)
      | none => do
        let source ← loadFile env options url depth
        return (sources.rows.length, sources.push source) := by
  rw [locate, ← Sources.map_document_rows, List.findIdx?_map, Sources.length_rows]
  rfl

theorem further_of_locate {sources sources' : Sources} {url : FileUrl} {index : Nat}
    (h : locate env options sources url depth = .ok (index, sources')) :
    ∃ more, sources'.rows = sources.rows ++ more ∧ ∀ s ∈ more, Further options depth s := by
  rw [locate_eq] at h
  split at h
  · obtain ⟨-, rfl⟩ := Prod.mk.inj (Except.ok.inj h)
    exact ⟨[], (List.append_nil _).symm, fun s hs => by cases hs⟩
  · cases hload : loadFile env options url depth with
    | error e =>
        rw [hload] at h
        cases h
    | ok source =>
        rw [hload] at h
        obtain ⟨-, rfl⟩ := Prod.mk.inj (Except.ok.inj h)
        refine ⟨[source], sources.rows_push source, fun s hs => ?_⟩
        rw [List.mem_singleton.1 hs]
        exact further_of_loadFile hload

/-- What may be referred to is an object or a boolean of a document that is loaded. -/
theorem isSchema_of_check {documents : List Document} {id : Fragment}
    (h : check documents id = .ok ()) :
    ∃ d v, documents[id.document]? = some d ∧ d.root.at? id.pointer = some v ∧
      v.isSchema = true := by
  have hvalue : check.checkValue documents id = .ok () → ∃ d v,
      documents[id.document]? = some d ∧ d.root.at? id.pointer = some v ∧ v.isSchema = true := by
    intro h
    unfold check.checkValue at h
    split at h
    · cases h
    · rename_i v hv
      obtain ⟨d, hd, hat⟩ := Option.bind_eq_some_iff.1 hv
      split at h
      · rename_i hschema
        exact ⟨d, v, hd, hat, hschema⟩
      · cases h
  unfold check at h
  split at h
  · split at h
    · cases h
    · exact hvalue h
  · exact hvalue h

/-- A reference adds documents further from the root than its own. -/
theorem further_of_target {sources sources' : Sources} {index : Nat} {reference : String}
    {t : Target} (h : target env options sources index reference = .ok (t, sources'))
    (hd : ∀ source, sources.rows[index]? = some source → depth ≤ source.depth) :
    ∃ more, sources'.rows = sources.rows ++ more ∧ ∀ s ∈ more, Further options depth s := by
  have hsame : sources = sources' →
      ∃ more, sources'.rows = sources.rows ++ more ∧ ∀ s ∈ more, Further options depth s := by
    rintro rfl
    exact ⟨[], (List.append_nil _).symm, fun s hs => by cases hs⟩
  unfold target at h
  split at h
  · obtain ⟨pointer, -, h⟩ := ok_of_bind h
    obtain ⟨_, -, h⟩ := ok_of_bind h
    exact hsame (Prod.mk.inj (Except.ok.inj h)).2
  · split at h
    · exact hsame (Prod.mk.inj (Except.ok.inj h)).2
    · split at h
      · cases h
      · rename_i source hs
        split at h
        · cases h
        · split at h
          · cases h
          · cases h
          · obtain ⟨⟨document, found⟩, hlocate, h⟩ := ok_of_bind h
            obtain ⟨pointer, -, h⟩ := ok_of_bind h
            obtain ⟨_, -, h⟩ := ok_of_bind h
            obtain ⟨-, rfl⟩ := Prod.mk.inj (Except.ok.inj h)
            obtain ⟨more, hmore, hfurther⟩ := further_of_locate hlocate
            refine ⟨more, hmore, fun s hmem => ⟨(hfurther s hmem).distinct, ?_,
              (hfurther s hmem).limit⟩⟩
            exact Nat.lt_of_le_of_lt (hd source ((sources.get?_eq index).symm.trans hs))
              (hfurther s hmem).further

/-- A reference is recorded where it stands. -/
theorem scanPosition_ok {index : Nat} {position : String × Json}
    (h : scanPosition env options index st position = .ok st')
    (hd : ∀ source, st.sources.rows[index]? = some source → depth ≤ source.depth) :
    Extends options depth st st' ∧ ((reference? position.2).isSome →
      (st'.refs.lookup ⟨index, position.1, none⟩).isSome) := by
  unfold scanPosition at h
  split at h
  · rename_i hnone
    obtain rfl := Except.ok.inj h
    refine ⟨.refl options depth st, fun hsome => ?_⟩
    rw [hnone] at hsome
    cases hsome
  · split at h
    · cases h
    · rename_i t sources ht
      obtain rfl := Except.ok.inj h
      refine ⟨⟨further_of_target ht hd, [(⟨index, position.1, none⟩, t)], rfl⟩, fun _ => ?_⟩
      rw [List.lookup_append, List.lookup_cons_self]
      cases st.refs.lookup ⟨index, position.1, none⟩ <;> rfl

/-! ## One document -/

/-- The references of a document are recorded. -/
def Recorded (st : Loading) (index : Nat) : Prop :=
  ∀ source, st.sources.rows[index]? = some source →
    ∀ c ∈ Schema.positions "#" source.document.root, (reference? c.2).isSome →
      (st.refs.lookup ⟨index, c.1, none⟩).isSome

theorem Recorded.extends {index : Nat} (h : Recorded st index) (hlt : index < st.sources.length)
    (he : Extends options depth st st') : Recorded st' index :=
  fun source hs c hc hr => he.recorded (h source (he.source hlt ▸ hs) c hc hr)

theorem scanDocument_of_row {index : Nat} {source : Source}
    (hs : st.sources.rows[index]? = some source) :
    scanDocument env options st index =
      (Schema.positions "#" source.document.root).foldlM (scanPosition env options index) st := by
  rw [scanDocument, Sources.getElem?_documents, hs]
  rfl

theorem scanDocument_of_none {index : Nat} (hs : st.sources.rows[index]? = none) :
    scanDocument env options st index = .ok st := by
  rw [scanDocument, Sources.getElem?_documents, hs]
  rfl

theorem scanDocument_ok {index : Nat} (h : scanDocument env options st index = .ok st')
    (hlt : index < st.sources.length)
    (hd : ∀ source, st.sources.rows[index]? = some source → depth ≤ source.depth) :
    Extends options depth st st' ∧ Recorded st' index := by
  obtain ⟨source, hs⟩ := st.sources.exists_row hlt
  rw [scanDocument_of_row hs] at h
  -- the positions that are not left are recorded
  have hall := foldlM_induction (P := fun left t => Extends options depth st t ∧
    ∀ c ∈ Schema.positions "#" source.document.root, c ∉ left →
      (reference? c.2).isSome → (t.refs.lookup ⟨index, c.1, none⟩).isSome) h
    ⟨.refl options depth st, fun c hc hleft => absurd hc hleft⟩ ?_
  · refine ⟨hall.1, fun source hsource c hc => hall.2 c ?_ List.not_mem_nil⟩
    rw [hall.1.source hlt, hs] at hsource
    exact Option.some.inj hsource ▸ hc
  · rintro position left t t' ⟨hext, hrec⟩ hscan
    obtain ⟨hext', hnew⟩ := scanPosition_ok hscan fun source hsource =>
      hd source (hext.source hlt ▸ hsource)
    refine ⟨hext.trans hext', fun c hc hleft hr => ?_⟩
    by_cases heq : c = position
    · exact heq ▸ hnew (heq ▸ hr)
    · exact hext'.recorded (hrec c hc (fun hmem => hleft ((List.mem_cons.1 hmem).resolve_left heq)) hr)

/-! ## All documents -/

/-- The documents from `next` on are at least `depth` away from the root. -/
def Frontier (depth next : Nat) (st : Loading) : Prop :=
  ∀ index source, next ≤ index → st.sources.rows[index]? = some source → depth ≤ source.depth

theorem scanDocuments_ok {next : Nat}
    (h : ((List.range st.sources.length).drop next).foldlM (scanDocument env options) st = .ok st')
    (hfront : Frontier depth next st) (hdone : ∀ index < next, Recorded st index) :
    Extends options depth st st' ∧ ∀ index < st.sources.length, Recorded st' index := by
  have hleft : ∀ {index}, index ∈ (List.range st.sources.length).drop next →
      next ≤ index ∧ index < st.sources.length := by
    intro index hmem
    obtain ⟨i, hi, hget⟩ := List.mem_iff_getElem.1 hmem
    rw [List.length_drop, List.length_range] at hi
    rw [List.getElem_drop, List.getElem_range] at hget
    omega
  have hall := foldlM_induction (P := fun left t => left ⊆ (List.range st.sources.length).drop next ∧
    Extends options depth st t ∧
    ∀ index < st.sources.length, index ∉ left → Recorded t index) h
    ⟨List.Subset.refl _, .refl options depth st, fun index hlt hnot => hdone index ?_⟩ ?_
  · exact ⟨hall.2.1, fun index hlt => hall.2.2 index hlt List.not_mem_nil⟩
  · by_contra hge
    refine hnot (List.mem_iff_getElem.2 ⟨index - next, ?_, ?_⟩)
    · rw [List.length_drop, List.length_range]
      omega
    · rw [List.getElem_drop, List.getElem_range]
      omega
  · rintro index left t t' ⟨hsub, hext, hrec⟩ hscan
    obtain ⟨hge, hlt⟩ := hleft (hsub List.mem_cons_self)
    have hlt' := Nat.lt_of_lt_of_le hlt hext.length_le
    obtain ⟨hext', hnew⟩ := scanDocument_ok hscan hlt' fun source hsource =>
      hfront index source hge (hext.source hlt ▸ hsource)
    refine ⟨fun i hi => hsub (List.mem_cons_of_mem _ hi), hext.trans hext', fun i hi hnot => ?_⟩
    by_cases heq : i = index
    · exact heq ▸ hnew
    · exact (hrec i hi fun hmem => hnot ((List.mem_cons.1 hmem).resolve_left heq)).extends
        (Nat.lt_of_lt_of_le hi hext.length_le) hext'

theorem recorded_of_length_le {n : Nat} (h : ∀ index < n, Recorded st index)
    (hle : st.sources.length ≤ n) (index : Nat) : Recorded st index := by
  intro source hs
  exact h index (Nat.lt_of_lt_of_le (Sources.lt_length hs) hle) source hs

/-- One round of scans, and further rounds while they load documents and the limit allows it. -/
theorem scanFrom_eq (remaining next : Nat) (st : Loading) :
    scanFrom env options remaining next st =
      ((List.range st.sources.length).drop next).foldlM (scanDocument env options) st >>= fun t =>
        if remaining = 0 ∨ t.sources.length ≤ st.sources.length then .ok t
        else scanFrom env options (remaining - 1) st.sources.length t := by
  rw [scanFrom.eq_def]
  refine bind_congr fun t => ?_
  cases remaining with
  | zero => exact (ite_self _).trans (if_pos (.inl rfl)).symm
  | succ remaining => simp only [Nat.succ_ne_zero, false_or, Nat.add_sub_cancel]; rfl

/-- What holds at first and is kept by the scans of documents holds when the scans end. -/
theorem scanFrom_induction {P : Loading → Prop} {remaining next : Nat}
    (h : scanFrom env options remaining next st = .ok st') (hst : P st)
    (hstep : ∀ indices t t', P t →
      List.foldlM (scanDocument env options) t indices = .ok t' → P t') : P st' := by
  induction remaining using Nat.strongRecOn generalizing next st with
  | ind remaining ih =>
      rw [scanFrom_eq] at h
      obtain ⟨t, hscan, h⟩ := ok_of_bind h
      have ht := hstep _ st t hst hscan
      split at h
      · exact Except.ok.inj h ▸ ht
      · exact ih (remaining - 1) (by omega) h ht

/-- What holds at first and is kept by each reference that is recorded holds when the scans end. -/
theorem scanFrom_references {P : Loading → Prop} {remaining next : Nat}
    (h : scanFrom env options remaining next st = .ok st') (hst : P st)
    (hstep : ∀ t index source c reference entry sources, P t →
      t.sources.rows[index]? = some source → c ∈ Schema.positions "#" source.document.root →
      reference? c.2 = some reference →
      target env options t.sources index reference = .ok (entry, sources) →
      P ⟨sources, t.refs ++ [(⟨index, c.1, none⟩, entry)]⟩) : P st' := by
  refine scanFrom_induction h hst fun indices t t' ht hdocuments =>
    foldlM_induction (P := fun _ u => P u) hdocuments ht fun index _ u u' hu hdocument => ?_
  cases hs : u.sources.rows[index]? with
  | none =>
      rw [scanDocument_of_none hs] at hdocument
      exact Except.ok.inj hdocument ▸ hu
  | some source =>
    rw [scanDocument_of_row hs] at hdocument
    refine (foldlM_induction (P := fun left u => P u ∧ u.sources.rows[index]? = some source ∧
      left ⊆ Schema.positions "#" source.document.root) hdocument
      ⟨hu, hs, List.Subset.refl _⟩ ?_).1
    rintro c left x x' ⟨hx, hsource, hsub⟩ hposition
    obtain ⟨hext, -⟩ := scanPosition_ok hposition fun source _ => Nat.zero_le source.depth
    refine ⟨?_, (hext.source (Sources.lt_length hsource)).trans hsource,
      fun c hc => hsub (List.mem_cons_of_mem _ hc)⟩
    unfold scanPosition at hposition
    split at hposition
    · exact Except.ok.inj hposition ▸ hx
    · rename_i reference href
      split at hposition
      · cases hposition
      · rename_i entry sources htarget
        obtain rfl := Except.ok.inj hposition
        exact hstep x index source c reference entry sources hx hsource (hsub List.mem_cons_self)
          href htarget

/-- When the scans end, the references of all documents are recorded. -/
theorem scanFrom_ok {remaining next : Nat} (h : scanFrom env options remaining next st = .ok st')
    (hdepth : depth + remaining = options.refOptions.maxDepth) (hfront : Frontier depth next st)
    (hdone : ∀ index < next, Recorded st index) :
    Extends options depth st st' ∧ ∀ index, Recorded st' index := by
  induction remaining generalizing next st depth with
  | zero =>
      unfold scanFrom at h
      obtain ⟨t, hscan, h⟩ := ok_of_bind h
      obtain ⟨hext, hrec⟩ := scanDocuments_ok hscan hfront hdone
      have hle : t.sources.length ≤ st.sources.length := by
        -- a further document would be beyond the limit
        by_contra hlt
        obtain ⟨source, hs⟩ := t.sources.exists_row (Nat.lt_of_not_le hlt)
        have hfurther := hext.further (Nat.le_refl _) hs
        have := hfurther.further
        have := hfurther.limit
        omega
      dsimp only at h
      rw [if_pos hle] at h
      obtain rfl := Except.ok.inj h
      exact ⟨hext, recorded_of_length_le hrec hle⟩
  | succ remaining ih =>
      unfold scanFrom at h
      obtain ⟨t, hscan, h⟩ := ok_of_bind h
      obtain ⟨hext, hrec⟩ := scanDocuments_ok hscan hfront hdone
      dsimp only at h
      split at h
      · rename_i hle
        obtain rfl := Except.ok.inj h
        exact ⟨hext, recorded_of_length_le hrec hle⟩
      · have hnext : depth + 1 + remaining = options.refOptions.maxDepth := by omega
        obtain ⟨hext', hall⟩ := ih h hnext (fun index source hle hs =>
          (hext.further hle hs).further) hrec
        exact ⟨hext.trans (hext'.mono (Nat.le_succ _)), hall⟩

end Loading

namespace SchemaGraph

/-- Each object of a document has one member a key, as in every value that was read. -/
def Distinct (g : SchemaGraph) : Prop := ∀ d ∈ g.documents, d.root.Distinct

/-- The references at the positions of all documents are recorded. -/
def Recorded (g : SchemaGraph) : Prop :=
  ∀ index d, g.documents[index]? = some d → ∀ c ∈ Schema.positions "#" d.root,
    (Loading.reference? c.2).isSome → (g.refs.lookup ⟨index, c.1, none⟩).isSome

variable {env : Environment} {options : Options} {location : Option FileUrl} {schema : Json}
  {g : SchemaGraph}

/-- The graph of a root holds the root and files that were read, and their references. -/
theorem recorded_of_load (h : load env options location schema = .ok g) :
    (∃ rest, g.documents = ⟨location, schema⟩ :: rest ∧ ∀ d ∈ rest, d.root.Distinct) ∧
      g.Recorded := by
  unfold load at h
  obtain ⟨st, hscan, h⟩ := Loading.ok_of_bind h
  obtain rfl := Except.ok.inj h
  obtain ⟨hext, hrec⟩ := Loading.scanFrom_ok hscan (Nat.zero_add _)
    (fun _ _ _ _ => Nat.zero_le _) fun _ hlt => absurd hlt (Nat.not_lt_zero _)
  obtain ⟨⟨more, hs, hmore⟩, -⟩ := hext
  refine ⟨⟨more.map (·.document), ?_, fun d hd => ?_⟩, fun index d hd => ?_⟩
  · rw [← Sources.map_document_rows, hs]
    rfl
  · obtain ⟨s, hmem, rfl⟩ := List.mem_map.1 hd
    exact (hmore s hmem).distinct
  · rw [Sources.getElem?_documents] at hd
    obtain ⟨source, hsource, rfl⟩ := Option.map_eq_some_iff.1 hd
    exact hrec index source hsource

theorem distinct_of_load (h : load env options location schema = .ok g) (hd : schema.Distinct) :
    g.Distinct := by
  obtain ⟨⟨rest, hdocs, hrest⟩, -⟩ := recorded_of_load h
  intro d hmem
  rw [hdocs] at hmem
  rcases List.mem_cons.1 hmem with rfl | hmem
  · exact hd
  · exact hrest d hmem

/-- A root whose scan loads no file is the only document. -/
theorem load_of_alone {refs : List (Fragment × Target)} {root : Sources}
    (hroot : root = .root location (rootBase env.workingDirectory options location) schema)
    (h : (Schema.positions "#" schema).foldlM (Loading.scanPosition env options 0) ⟨root, []⟩ =
      .ok ⟨root, refs⟩) :
    load env options location schema =
      .ok ⟨[⟨location, schema⟩], refs, options.refOptions.maxDepth⟩ := by
  have hscan : Loading.scanFrom env options options.refOptions.maxDepth 0 ⟨root, []⟩ =
      .ok ⟨root, refs⟩ := by
    subst hroot
    rw [Loading.scanFrom_eq]
    exact (Loading.bind_of_ok (Loading.bind_of_ok h)).trans (if_pos (.inr (Nat.le_refl 1)))
  subst hroot
  exact Loading.bind_of_ok hscan

end SchemaGraph

end Typewright
