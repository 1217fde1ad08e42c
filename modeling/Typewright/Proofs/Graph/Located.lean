import Typewright.Proofs.Graph.Load
import Typewright.Proofs.Location

/-!
# Roots at a location and roots in memory

A root that is loaded from a file may also be given in memory, with the directory of the file for its
references. Both lead to the same documents and references where no reference leads back to the file
(`SchemaGraph.load_in_memory`): a root in memory has no location, so such a reference would load the
file once more.
-/

namespace Typewright

namespace Loading

variable {env : Environment} {options : Options} {home : FileUrl} {root : Json}
  {sources sources' : Sources} {st st' final : Loading}

/-- A loop that ends well takes another one along that can follow each of its steps. -/
theorem exists_foldlM {α β γ ε : Type} {f : β → α → Except ε β} {g : γ → α → Except ε γ}
    {R : β → γ → Prop} {l : List α} {b c : β} {d : γ} (h : l.foldlM f b = .ok c) (hr : R b d)
    (hstep : ∀ a ∈ l, ∀ b b' d, R b d → f b a = .ok b' → ∃ d', g d a = .ok d' ∧ R b' d') :
    ∃ d', l.foldlM g d = .ok d' ∧ R c d' := by
  induction l generalizing b d with
  | nil =>
      obtain rfl := Except.ok.inj h
      exact ⟨d, rfl, hr⟩
  | cons a rest ih =>
      obtain ⟨b', hf, h⟩ := ok_of_bind h
      obtain ⟨d', hg, hr'⟩ := hstep a List.mem_cons_self b b' d hr hf
      rw [List.foldlM_cons, bind_of_ok hg]
      exact ih h hr' fun a ha => hstep a (List.mem_cons_of_mem _ ha)

/-! ## Growth -/

theorem extends_scanDocument {index : Nat}
    (h : scanDocument env options st index = .ok st') : Extends options 0 st st' := by
  by_cases hlt : index < st.sources.length
  · exact (scanDocument_ok h hlt fun _ _ => Nat.zero_le _).1
  · rw [scanDocument_of_none (List.getElem?_eq_none
      (st.sources.length_rows.symm ▸ Nat.le_of_not_lt hlt))] at h
    exact Except.ok.inj h ▸ .refl options 0 st

theorem extends_scanDocuments {indices : List Nat}
    (h : indices.foldlM (scanDocument env options) st = .ok st') : Extends options 0 st st' :=
  foldlM_induction (P := fun _ t => Extends options 0 st t) h (.refl options 0 st)
    fun _ _ _ _ hext hscan => hext.trans (extends_scanDocument hscan)

theorem extends_scanFrom {remaining next : Nat}
    (h : scanFrom env options remaining next st = .ok st') : Extends options 0 st st' :=
  scanFrom_induction (P := Extends options 0 st) h (.refl options 0 st)
    fun _ _ _ hext hscan => hext.trans (extends_scanDocuments hscan)

theorem Extends.subset (h : Extends options 0 st st') : st.sources.rows ⊆ st'.sources.rows := by
  obtain ⟨⟨more, hs, -⟩, -⟩ := h
  exact hs ▸ List.subset_append_left _ _

/-! ## Two roots side by side -/

/-- The same documents, the first of them at `home` in one list and in memory in the other. -/
def Beside (home : FileUrl) (root : Json) (sources sources' : Sources) : Prop :=
  ∃ rest, sources.rows = ⟨⟨some home, root⟩, some home, 0⟩ :: rest ∧
    sources'.rows = ⟨⟨none, root⟩, some home.directory, 0⟩ :: rest ∧
    ∀ source ∈ rest, source.base = source.document.location

/-- A reference that is not one into its own document. -/
def IsOutward (reference : String) : Prop := reference.toList.head? ≠ some '#'

theorem isOutward_of_ne {reference : String}
    (h : ∀ fragment, reference.toList = '#' :: fragment → False) : IsOutward reference := by
  intro hhead
  obtain ⟨fragment, heq⟩ := List.head?_eq_some_iff.1 hhead
  exact h fragment heq

/-- No reference from a document to a file leads to the file at `home`. -/
def Onward (env : Environment) (home : FileUrl) (document : Document) : Prop :=
  ∀ c ∈ Schema.positions "#" document.root, ∀ reference, reference? c.2 = some reference →
    IsOutward reference → ∀ base, document.location = some base →
      ¬ FileUrl.LeadsTo env.join base reference home

/-- A file that references of a root resolve against in the same way as against its directory. -/
structure IsPlain (home : FileUrl) : Prop where
  query : home.query = none
  segments : home.segments ≠ []
  drive : home.segments.getLast?.any FileUrl.isNormalDrive = false

theorem check_beside (h : Beside home root sources sources') (id : Fragment) :
    check sources.documents id = check sources'.documents id := by
  obtain ⟨rest, hs, hs', -⟩ := h
  have hvalue : check.checkValue sources.documents id = check.checkValue sources'.documents id := by
    rw [← Sources.map_document_rows, ← Sources.map_document_rows, hs, hs']
    unfold check.checkValue
    cases id.document <;> rfl
  unfold check
  rw [hvalue]

/-- The references of a loaded file resolve against its location. -/
theorem base_of_loadFile {url : FileUrl} {depth : Nat} {source : Source}
    (h : loadFile env options url depth = .ok source) : source.base = source.document.location := by
  unfold loadFile at h
  split at h
  · cases h
  · split at h
    · cases h
    · split at h
      · split at h
        · cases h
        · exact Except.ok.inj h ▸ rfl
      · cases h

theorem locate_beside (h : Beside home root sources sources') {url : FileUrl} (hurl : url ≠ home)
    {depth index : Nat} {more : Sources}
    (hl : locate env options sources url depth = .ok (index, more)) :
    ∃ more', locate env options sources' url depth = .ok (index, more') ∧
      Beside home root more more' := by
  obtain ⟨rest, hs, hs', hrest⟩ := h
  have hhome : (some home == some url) = false := beq_false_of_ne fun heq =>
    hurl (Option.some.inj heq).symm
  have hnone : ((none : Option FileUrl) == some url) = false := rfl
  rw [locate_eq, hs] at hl
  rw [locate_eq, hs']
  simp only [List.findIdx?_cons, hhome, hnone, Bool.false_eq_true, if_false] at hl ⊢
  cases hfound : rest.findIdx? (·.document.location == some url) with
  | some i =>
      rw [hfound] at hl
      obtain ⟨rfl, rfl⟩ := Prod.mk.inj (Except.ok.inj hl)
      exact ⟨_, rfl, rest, hs, hs', hrest⟩
  | none =>
      rw [hfound] at hl
      obtain ⟨source, hload, hl⟩ := ok_of_bind hl
      obtain ⟨rfl, rfl⟩ := Prod.mk.inj (Except.ok.inj hl)
      refine ⟨_, bind_of_ok hload, rest ++ [source], by rw [Sources.rows_push, hs]; rfl,
        by rw [Sources.rows_push, hs']; rfl, fun s hs => ?_⟩
      rcases List.mem_append.1 hs with hs | hs
      · exact hrest s hs
      · exact List.mem_singleton.1 hs ▸ base_of_loadFile hload

section Joined

variable (hj : FileUrl.JoinsFromDirectory env.join)

include hj

/-- Where the references of a document resolve: those of the root resolve against its directory as
well, if they do not lead back to it. -/
theorem exists_base (h : Beside home root sources sources') (hp : IsPlain home) {index : Nat} {source : Source}
    {base : FileUrl} (hs : sources.rows[index]? = some source) (hbase : source.base = some base)
    {reference : String} (hto : ∀ base, source.document.location = some base →
      ¬ FileUrl.LeadsTo env.join base reference home) :
    source.document.location = some base ∧ ∃ source' base', sources'.rows[index]? = some source' ∧
      source'.base = some base' ∧ source'.depth = source.depth ∧
      env.join base' reference = env.join base reference := by
  obtain ⟨rest, hrow, hrow', hrest⟩ := h
  rw [hrow] at hs
  rw [hrow']
  cases index with
  | zero =>
      obtain rfl := Option.some.inj hs
      obtain rfl := Option.some.inj hbase
      refine ⟨rfl, _, _, rfl, rfl, rfl, ?_⟩
      exact (hj home hp.query hp.segments hp.drive reference).resolve_right (hto home rfl)
  | succ index =>
      have hlocation := hrest source (List.mem_of_getElem? hs)
      exact ⟨hlocation ▸ hbase, source, base, hs, hbase, rfl, rfl⟩

theorem target_beside (h : Beside home root sources sources') (hp : IsPlain home) {index : Nat}
    {source : Source} (hs : sources.rows[index]? = some source) {reference : String}
    (hto : options.refOptions.external = true → IsOutward reference →
      ∀ base, source.document.location = some base →
        ¬ FileUrl.LeadsTo env.join base reference home)
    {t : Target} {more : Sources}
    (ht : target env options sources index reference = .ok (t, more)) :
    ∃ more', target env options sources' index reference = .ok (t, more') ∧
      Beside home root more more' := by
  unfold target at ht ⊢
  split at ht
  · rename_i fragment hlocal
    obtain ⟨pointer, hpointer, ht⟩ := ok_of_bind ht
    obtain ⟨u, hcheck, ht⟩ := ok_of_bind ht
    obtain ⟨rfl, rfl⟩ := Prod.mk.inj (Except.ok.inj ht)
    rw [check_beside h] at hcheck
    exact ⟨sources', by rw [bind_of_ok hpointer, bind_of_ok hcheck]; rfl, h⟩
  · rename_i hnot
    split at ht
    · obtain ⟨rfl, rfl⟩ := Prod.mk.inj (Except.ok.inj ht)
      rename_i hexternal
      exact ⟨sources', by rw [if_pos hexternal], h⟩
    · rename_i hexternal
      have houtward := isOutward_of_ne hnot
      have hto := hto (by simpa using hexternal) houtward
      rw [if_neg hexternal]
      rw [Sources.get?_eq, hs] at ht
      dsimp only at ht
      split at ht
      · cases ht
      · rename_i base hbase
        obtain ⟨hlocation, source', base', hs', hbase', hdepth, hresolve⟩ :=
          exists_base hj h hp hs hbase hto
        rw [Sources.get?_eq, hs']
        dsimp only
        rw [hbase']
        dsimp only
        rw [hresolve, hdepth]
        split at ht
        · cases ht
        · cases ht
        · rename_i url fragment hfile
          have hurl : url ≠ home := fun heq =>
            hto base hlocation ⟨url, fragment, hfile, by rw [heq, ← hp.query]⟩
          obtain ⟨⟨document, found⟩, hlocate, ht⟩ := ok_of_bind ht
          obtain ⟨pointer, hpointer, ht⟩ := ok_of_bind ht
          obtain ⟨u, hcheck, ht⟩ := ok_of_bind ht
          obtain ⟨rfl, rfl⟩ := Prod.mk.inj (Except.ok.inj ht)
          obtain ⟨found', hlocate', hbeside⟩ := locate_beside h hurl hlocate
          rw [check_beside hbeside] at hcheck
          refine ⟨found', ?_, hbeside⟩
          dsimp only
          rw [bind_of_ok hlocate', bind_of_ok hpointer, bind_of_ok hcheck]
          rfl

/-- Two loadings of the same root, at its location and in memory. -/
structure Parallel (home : FileUrl) (root : Json) (st st' : Loading) : Prop where
  sources : Beside home root st.sources st'.sources
  refs : st'.refs = st.refs

/-- No file reference of a document leads to `home`, if files are loaded at all. -/
def Unlinked (env : Environment) (options : Options) (home : FileUrl) (document : Document) : Prop :=
  options.refOptions.external = true → Onward env home document

theorem scanPosition_parallel (h : Parallel home root st st') (hp : IsPlain home) {index : Nat}
    {source : Source} (hs : st.sources.rows[index]? = some source)
    (hu : Unlinked env options home source.document) {c : String × Json}
    (hc : c ∈ Schema.positions "#" source.document.root)
    (hscan : scanPosition env options index st c = .ok final) :
    ∃ final', scanPosition env options index st' c = .ok final' ∧
      Parallel home root final final' := by
  unfold scanPosition at hscan ⊢
  split at hscan
  · obtain rfl := Except.ok.inj hscan
    exact ⟨st', rfl, h⟩
  · rename_i reference href
    split at hscan
    · cases hscan
    · rename_i t more ht
      obtain rfl := Except.ok.inj hscan
      obtain ⟨more', ht', hbeside⟩ := target_beside hj h.sources hp hs
        (fun hexternal houtward => hu hexternal c hc reference href houtward) ht
      rw [ht']
      exact ⟨_, rfl, hbeside, by rw [h.refs]⟩

theorem scanDocument_parallel (h : Parallel home root st st') (hp : IsPlain home) {index : Nat}
    (hu : ∀ source, st.sources.rows[index]? = some source → Unlinked env options home source.document)
    (hscan : scanDocument env options st index = .ok final) :
    ∃ final', scanDocument env options st' index = .ok final' ∧
      Parallel home root final final' := by
  have hroots : st'.sources.rows[index]?.map (·.document.root) =
      st.sources.rows[index]?.map (·.document.root) := by
    obtain ⟨rest, hs, hs', -⟩ := h.sources
    rw [hs, hs']
    cases index <;> rfl
  cases hs : st.sources.rows[index]? with
  | none =>
      rw [hs, Option.map_none] at hroots
      rw [scanDocument_of_none hs] at hscan
      rw [scanDocument_of_none (Option.map_eq_none_iff.1 hroots)]
      obtain rfl := Except.ok.inj hscan
      exact ⟨st', rfl, h⟩
  | some source =>
      rw [hs] at hroots
      obtain ⟨source', hs', hroot⟩ := Option.map_eq_some_iff.1 hroots
      rw [scanDocument_of_row hs] at hscan
      rw [scanDocument_of_row hs', hroot]
      -- the document that is scanned stays where it is
      obtain ⟨final', hfinal, -, hparallel⟩ := exists_foldlM
        (R := fun t t' => t.sources.rows[index]? = some source ∧ Parallel home root t t') hscan ⟨hs, h⟩
        fun c hc t u t' ⟨hsource, ht⟩ hposition => by
          obtain ⟨u', hposition', hu'⟩ :=
            scanPosition_parallel hj ht hp hsource (hu source hs) hc hposition
          have hext := (scanPosition_ok hposition fun _ _ => Nat.zero_le _).1
          exact ⟨u', hposition', (hext.source (Sources.lt_length hsource)).trans hsource, hu'⟩
      exact ⟨final', hfinal, hparallel⟩

theorem scanDocuments_parallel (h : Parallel home root st st') (hp : IsPlain home)
    {indices : List Nat} (hlt : ∀ index ∈ indices, index < st.sources.length)
    (hu : ∀ source ∈ st.sources.rows, Unlinked env options home source.document)
    (hscan : indices.foldlM (scanDocument env options) st = .ok final) :
    ∃ final', indices.foldlM (scanDocument env options) st' = .ok final' ∧
      Parallel home root final final' := by
  obtain ⟨final', hfinal, -, hparallel⟩ := exists_foldlM
    (R := fun t t' => Extends options 0 st t ∧ Parallel home root t t') hscan
    ⟨.refl options 0 st, h⟩ fun index hmem t u t' ⟨hext, ht⟩ hdocument => by
      obtain ⟨u', hdocument', hu'⟩ := scanDocument_parallel hj ht hp (fun source hs =>
        hu source (List.mem_of_getElem? ((hext.source (hlt index hmem)).symm.trans hs))) hdocument
      exact ⟨u', hdocument', hext.trans (extends_scanDocument hdocument), hu'⟩
  exact ⟨final', hfinal, hparallel⟩

theorem scanFrom_parallel {remaining next : Nat} (h : Parallel home root st st') (hp : IsPlain home)
    (hu : ∀ source ∈ final.sources.rows, Unlinked env options home source.document)
    (hscan : scanFrom env options remaining next st = .ok final) :
    ∃ final', scanFrom env options remaining next st' = .ok final' ∧
      Parallel home root final final' := by
  have hlength : ∀ {st st' : Loading}, Parallel home root st st' →
      st'.sources.length = st.sources.length := by
    intro st st' h
    obtain ⟨rest, hs, hs', -⟩ := h.sources
    rw [← Sources.length_rows, ← Sources.length_rows, hs, hs']
    rfl
  have hinside : ∀ index ∈ (List.range st.sources.length).drop next, index < st.sources.length :=
    fun index hmem => List.mem_range.1 (List.drop_subset _ _ hmem)
  have hsafe : ∀ source ∈ st.sources.rows, Unlinked env options home source.document :=
    fun source hmem => hu source ((extends_scanFrom hscan).subset hmem)
  induction remaining using Nat.strongRecOn generalizing next st st' with
  | ind remaining ih =>
      rw [scanFrom_eq] at hscan ⊢
      obtain ⟨t, hdocuments, hscan⟩ := ok_of_bind hscan
      obtain ⟨t', hdocuments', ht⟩ := scanDocuments_parallel hj h hp hinside hsafe hdocuments
      rw [hlength h, bind_of_ok hdocuments', hlength ht]
      split at hscan
      · rename_i hend
        obtain rfl := Except.ok.inj hscan
        exact ⟨t', if_pos hend, ht⟩
      · rename_i hmore
        rw [if_neg hmore]
        exact ih (remaining - 1) (by omega) ht hscan
          (fun index hmem => List.mem_range.1 (List.drop_subset _ _ hmem))
          fun source hmem => hu source ((extends_scanFrom hscan).subset hmem)

end Joined

/-- The directory for the references of a root does not matter to the scans. -/
theorem scanFrom_cwd (cwd : String) (remaining next : Nat) (st : Loading) :
    scanFrom env { options with cwd } remaining next st = scanFrom env options remaining next st := by
  have hdocument : scanDocument env { options with cwd } = scanDocument env options := rfl
  induction remaining using Nat.strongRecOn generalizing next st with
  | ind remaining ih =>
      rw [scanFrom_eq, scanFrom_eq, hdocument]
      exact bind_congr fun t => ite_congr rfl (fun _ => rfl) fun hmore =>
        ih (remaining - 1) (by omega) _ t

end Loading

namespace SchemaGraph

open Loading (IsPlain Unlinked)

variable {env : Environment} {options : Options} {home : FileUrl} {schema : Json} {g : SchemaGraph}

/-- A root in memory whose references resolve against the directory of a file leads to the same graph
as the file, but that it has no location. -/
theorem load_in_memory {cwd : String} (hj : FileUrl.JoinsFromDirectory env.join)
    (h : load env options (some home) schema = .ok g)
    (hp : IsPlain home) (hu : ∀ d ∈ g.documents, Unlinked env options home d)
    (hcwd : (FilePath.absolute? env.workingDirectory cwd).map FileUrl.ofDirectory =
      some home.directory) :
    ∃ rest, g.documents = ⟨some home, schema⟩ :: rest ∧
      load env { options with cwd } none schema =
        .ok { g with documents := ⟨none, schema⟩ :: rest } := by
  unfold load at h ⊢
  obtain ⟨st, hscan, h⟩ := Loading.ok_of_bind h
  obtain rfl := Except.ok.inj h
  have hparallel : Loading.Parallel home schema ⟨.root (some home) (some home) schema, []⟩
      ⟨.root none (some home.directory) schema, []⟩ :=
    ⟨⟨[], rfl, rfl, fun _ hmem => by cases hmem⟩, rfl⟩
  obtain ⟨st', hscan', ⟨rest, hs, hs', -⟩, hrefs⟩ := Loading.scanFrom_parallel hj hparallel hp
    (fun source hmem => hu source.document
      (st.sources.map_document_rows ▸ List.mem_map_of_mem hmem)) hscan
  refine ⟨rest.map (·.document), by rw [← Sources.map_document_rows, hs]; rfl, ?_⟩
  have hbase : rootBase env.workingDirectory { options with cwd } none = some home.directory := hcwd
  dsimp only
  rw [hbase, Loading.scanFrom_cwd, Loading.bind_of_ok hscan', ← Sources.map_document_rows, hs', hrefs]
  rfl

end SchemaGraph

end Typewright
