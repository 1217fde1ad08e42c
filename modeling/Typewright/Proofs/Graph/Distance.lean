import Mathlib.Order.Bounds.Basic
import Typewright.Proofs.Graph.Places

/-!
# How far a document is from the root

The loading scans the documents in the order in which they were loaded, and each new one is one file
further from the root than the one that refers to it. So the distances never go down along the list,
and each is the length of a shortest chain of references from the root (`depths_are_distances`). The
limit is met if a file is further away than it allows, in whatever order the references stand.
-/

namespace Typewright

namespace Loading

variable {env : Environment} {options : Options} {location : Option FileUrl} {schema : Json}
  {st st' : Loading} {source : Source} {index n k : Nat}
  {todo : List (String × Json)} {c : String × Json} {url : FileUrl}

/-! ## Chains of references -/

/-- What the file at a location holds, if it can be read. -/
def fileRoot (env : Environment) (url : FileUrl) : Option Json :=
  url.filePath?.bind fun path => (env.file path).text?.bind Json.read

/-- A schema of the document at a location refers to a file. -/
def Links (env : Environment) (options : Options) (location : Option FileUrl) (c : String × Json)
    (url : FileUrl) : Prop :=
  ∃ reference base fragment, reference? c.2 = some reference ∧ IsOutward reference ∧
    rootBase env.workingDirectory options location = some base ∧
    env.join base reference = some (.file url fragment)

/-- The document at a location: the root at its own, and what a file holds anywhere else. -/
def rootAt (env : Environment) (location : Option FileUrl) (schema : Json)
    (place : Option FileUrl) : Option Json :=
  if place = location then some schema else place.bind (fileRoot env)

/-- The locations to which a number of references lead from the root, each at a position of the
document where the one before leads. -/
inductive Chain (env : Environment) (options : Options) (location : Option FileUrl) (schema : Json) :
    Nat → Option FileUrl → Prop where
  | root : Chain env options location schema 0 location
  | step {n : Nat} {place : Option FileUrl} {root : Json} {c : String × Json} {url : FileUrl}
      (h : Chain env options location schema n place)
      (hroot : rootAt env location schema place = some root) (hc : c ∈ Schema.positions "#" root)
      (hl : Links env options place c url) : Chain env options location schema (n + 1) (some url)

/-! ## The worklist -/

/-- The states of the loading: the first `n` documents are scanned, but for the positions `todo` of
the last of them. -/
inductive Reached (env : Environment) (options : Options) (location : Option FileUrl)
    (schema : Json) : Loading → Nat → List (String × Json) → Prop where
  | start : Reached env options location schema
      ⟨.root location (rootBase env.workingDirectory options location) schema, []⟩ 0 []
  | next {st : Loading} {n : Nat} {source : Source} (h : Reached env options location schema st n [])
      (hs : st.sources.rows[n]? = some source) :
      Reached env options location schema st (n + 1)
        (Schema.positions "#" source.document.root)
  | scan {st st' : Loading} {n : Nat} {c : String × Json} {todo : List (String × Json)}
      (h : Reached env options location schema st (n + 1) (c :: todo))
      (hc : scanPosition env options n st c = .ok st') :
      Reached env options location schema st' (n + 1) todo

/-! ## One reference -/

theorem error_of_bind {α β ε : Type} {x : Except ε α} {f : α → Except ε β} {e : ε}
    (h : x >>= f = .error e) : x = .error e ∨ ∃ a, x = .ok a ∧ f a = .error e := by
  cases x with
  | error e' => cases h; exact .inl rfl
  | ok a => exact .inr ⟨a, rfl, h⟩

theorem loadFile_ok {depth : Nat} (h : loadFile env options url depth = .ok source) :
    depth + 1 ≤ options.refOptions.maxDepth ∧ ∃ root, fileRoot env url = some root ∧
      source = ⟨⟨some url, root⟩, some url, depth + 1⟩ := by
  unfold loadFile at h
  split at h
  · cases h
  · rename_i hlimit
    split at h
    · cases h
    · rename_i path hpath
      split at h
      · rename_i content hcontent
        split at h
        · cases h
        · rename_i root hread
          refine ⟨Nat.le_of_not_lt hlimit, root, ?_, (Except.ok.inj h).symm⟩
          rw [fileRoot, hpath, Option.bind_some, hcontent]
          exact hread
      · cases h

section Sources

variable {sources sources' : Sources}

/-- A file is found among the documents, or loaded and put behind them. -/
theorem locate_cases {depth document : Nat}
    (h : locate env options sources url depth = .ok (document, sources')) :
    (sources' = sources ∧ ∃ s ∈ sources.rows, s.document.location = some url) ∨
      ∃ root, sources' = sources.push ⟨⟨some url, root⟩, some url, depth + 1⟩ ∧
        fileRoot env url = some root ∧ depth + 1 ≤ options.refOptions.maxDepth ∧
        ∀ s ∈ sources.rows, s.document.location ≠ some url := by
  rw [locate_eq] at h
  split at h
  · rename_i i hfound
    obtain ⟨rfl, rfl⟩ := Prod.mk.inj (Except.ok.inj h)
    obtain ⟨hlt, heq, -⟩ := List.findIdx?_eq_some_iff_getElem.1 hfound
    exact .inl ⟨rfl, sources.rows[i], List.getElem_mem hlt, eq_of_beq heq⟩
  · rename_i hnone
    obtain ⟨source, hload, h⟩ := ok_of_bind h
    obtain ⟨rfl, rfl⟩ := Prod.mk.inj (Except.ok.inj h)
    obtain ⟨hlimit, root, hroot, rfl⟩ := loadFile_ok hload
    refine .inr ⟨root, rfl, hroot, hlimit, fun s hs heq => ?_⟩
    have := List.findIdx?_eq_none_iff.1 hnone s hs
    simp [heq] at this

/-- A reference into its own document adds none; any other leads to a file. -/
theorem target_cases {reference : String} {t : Target}
    (hexternal : options.refOptions.external = true) (hs : sources.rows[index]? = some source)
    (h : target env options sources index reference = .ok (t, sources')) :
    (¬ IsOutward reference ∧ sources' = sources) ∨
      (IsOutward reference ∧ ∃ base url fragment document, source.base = some base ∧
        env.join base reference = some (.file url fragment) ∧
        locate env options sources url source.depth = .ok (document, sources')) := by
  unfold target at h
  split at h
  · rename_i fragment hown
    obtain ⟨pointer, -, h⟩ := ok_of_bind h
    obtain ⟨_, -, h⟩ := ok_of_bind h
    exact .inl ⟨fun hout => hout (by rw [hown]; rfl), (Prod.mk.inj (Except.ok.inj h)).2.symm⟩
  · rename_i hnot
    have hout := isOutward_of_ne hnot
    simp only [hexternal, Bool.not_true, Bool.false_eq_true, if_false, Sources.get?_eq, hs] at h
    split at h
    · cases h
    · rename_i base hbase
      split at h
      · cases h
      · cases h
      · rename_i url fragment hurl
        obtain ⟨⟨document, found⟩, hlocate, h⟩ := ok_of_bind h
        obtain ⟨pointer, -, h⟩ := ok_of_bind h
        obtain ⟨_, -, h⟩ := ok_of_bind h
        obtain ⟨-, rfl⟩ := Prod.mk.inj (Except.ok.inj h)
        exact .inr ⟨hout, base, url, fragment, document, hbase, hurl, hlocate⟩

theorem target_of_error {reference : String} (hout : IsOutward reference)
    (hexternal : options.refOptions.external = true) {base url : FileUrl} {fragment : String}
    {cause : RefFailure} (hs : sources.rows[index]? = some source) (hbase : source.base = some base)
    (hurl : env.join base reference = some (.file url fragment))
    (hlocate : locate env options sources url source.depth = .error cause) :
    target env options sources index reference = .error cause := by
  unfold target
  split
  · rename_i heq
    exact absurd (by rw [heq]; rfl) hout
  · rw [hexternal, Sources.get?_eq, hs]
    simp only [hbase, hurl, hlocate]
    rfl

theorem fragmentPointer_ne_nesting {fragment : String} {limit : Nat} :
    fragmentPointer fragment ≠ .error (.nestingTooDeep limit) := by
  unfold fragmentPointer
  intro h
  split at h
  · cases h
  · split at h <;> cases h

theorem check_ne_nesting {documents : List Document} {id : Fragment} {limit : Nat} :
    check documents id ≠ .error (.nestingTooDeep limit) := by
  have hvalue : check.checkValue documents id ≠ .error (.nestingTooDeep limit) := by
    unfold check.checkValue
    intro h
    split at h
    · cases h
    · split at h <;> cases h
  unfold check
  intro h
  split at h
  · split at h
    · cases h
    · exact hvalue h
  · exact hvalue h

theorem locate_nesting {depth limit : Nat}
    (h : locate env options sources url depth = .error (.nestingTooDeep limit)) :
    (∀ s ∈ sources.rows, s.document.location ≠ some url) ∧
      options.refOptions.maxDepth < depth + 1 := by
  rw [locate_eq] at h
  split at h
  · cases h
  · rename_i hnone
    refine ⟨fun s hs heq => ?_, ?_⟩
    · have := List.findIdx?_eq_none_iff.1 hnone s hs
      simp [heq] at this
    · rcases error_of_bind h with h | ⟨_, -, h⟩
      · unfold loadFile at h
        split at h
        · assumption
        · split at h
          · cases h
          · split at h
            · split at h <;> cases h
            · cases h
      · cases h

/-- Only a file that is further away than the limit allows is too deep. -/
theorem target_nesting {reference : String} {limit : Nat}
    (hs : sources.rows[index]? = some source)
    (h : target env options sources index reference = .error (.nestingTooDeep limit)) :
    IsOutward reference ∧ ∃ base url fragment, source.base = some base ∧
      env.join base reference = some (.file url fragment) ∧
      (∀ s ∈ sources.rows, s.document.location ≠ some url) ∧
      options.refOptions.maxDepth < source.depth + 1 := by
  unfold target at h
  split at h
  · rcases error_of_bind h with h | ⟨pointer, -, h⟩
    · exact absurd h fragmentPointer_ne_nesting
    · rcases error_of_bind h with h | ⟨_, -, h⟩
      · exact absurd h check_ne_nesting
      · cases h
  · rename_i hnot
    have hout := isOutward_of_ne hnot
    split at h
    · cases h
    · simp only [Sources.get?_eq, hs] at h
      split at h
      · cases h
      · rename_i base hbase
        split at h
        · cases h
        · cases h
        · rename_i url fragment hurl
          rcases error_of_bind h with h | ⟨_, -, h⟩
          · obtain ⟨hnew, hlimit⟩ := locate_nesting h
            exact ⟨hout, base, url, fragment, hbase, hurl, hnew, hlimit⟩
          · rcases error_of_bind h with h | ⟨_, -, h⟩
            · exact absurd h fragmentPointer_ne_nesting
            · rcases error_of_bind h with h | ⟨_, -, h⟩
              · exact absurd h check_ne_nesting
              · cases h

end Sources

/-! ## What holds at each state -/

variable {sources : List Source}

/-- The documents and their distances while the one at distance `k` is scanned. -/
structure Searched (env : Environment) (options : Options) (location : Option FileUrl)
    (schema : Json) (sources : List Source) (n : Nat) (todo : List (String × Json)) (k : Nat) :
    Prop where
  /-- Distances do not go down along the list, and the last is at most one more than the current. -/
  ordered : (sources.map (·.depth)).Pairwise (· ≤ ·)
  near : ∀ source ∈ sources, source.depth ≤ k + 1
  current : (n = 0 ∧ k = 0) ∨
    ∃ index source, n = index + 1 ∧ sources[index]? = some source ∧ source.depth = k
  limit : ∀ source ∈ sources, source.depth ≤ options.refOptions.maxDepth
  /-- Each document is the one at its location, and there is one at a location. -/
  based : Based env options sources
  roots : ∀ source ∈ sources,
    rootAt env location schema source.document.location = some source.document.root
  once : (sources.map (·.document.location)).Nodup
  start : ∃ source ∈ sources, source.document.location = location ∧ source.depth = 0
  chains : ∀ source ∈ sources,
    Chain env options location schema source.depth source.document.location
  /-- What is scanned refers to documents that are loaded, one file further away at most. -/
  closed : ∀ index source, index < n → sources[index]? = some source →
    ∀ c ∈ Schema.positions "#" source.document.root, (index + 1 = n → c ∉ todo) →
    ∀ url, Links env options source.document.location c url →
      ∃ s ∈ sources, s.document.location = some url ∧ s.depth ≤ source.depth + 1

/-- A schema refers to one file at most. -/
theorem Links.unique {url' : FileUrl} (h : Links env options location c url)
    (h' : Links env options location c url') : url = url' := by
  obtain ⟨reference, base, fragment, href, -, hbase, hurl⟩ := h
  obtain ⟨reference', base', fragment', href', -, hbase', hurl'⟩ := h'
  obtain rfl := Option.some.inj (href.symm.trans href')
  obtain rfl := Option.some.inj (hbase.symm.trans hbase')
  exact (Resource.file.inj (Option.some.inj (hurl.symm.trans hurl'))).1

/-- A scanned position adds the file to which it refers, if that is not there. -/
theorem scanPosition_cases (hexternal : options.refOptions.external = true)
    (hs : st.sources.rows[index]? = some source)
    (hbase : source.base = rootBase env.workingDirectory options source.document.location)
    (h : scanPosition env options index st c = .ok st') :
    (st'.sources.rows = st.sources.rows ∧ ∀ url, Links env options source.document.location c url →
      ∃ s ∈ st.sources.rows, s.document.location = some url) ∨
    ∃ url root, Links env options source.document.location c url ∧
      st'.sources.rows = st.sources.rows ++ [⟨⟨some url, root⟩, some url, source.depth + 1⟩] ∧
      fileRoot env url = some root ∧ source.depth + 1 ≤ options.refOptions.maxDepth ∧
      ∀ s ∈ st.sources.rows, s.document.location ≠ some url := by
  unfold scanPosition at h
  split at h
  · rename_i hnone
    obtain rfl := Except.ok.inj h
    refine .inl ⟨rfl, fun url hl => ?_⟩
    obtain ⟨reference, _, _, href, -⟩ := hl
    rw [hnone] at href
    cases href
  · rename_i reference href
    split at h
    · cases h
    · rename_i t sources ht
      obtain rfl := Except.ok.inj h
      rcases target_cases hexternal hs ht with
        ⟨hown, rfl⟩ | ⟨hout, base, url, fragment, document, hsource, hurl, hlocate⟩
      · refine .inl ⟨rfl, fun url hl => ?_⟩
        obtain ⟨reference', _, _, href', hout, -⟩ := hl
        obtain rfl := Option.some.inj (href.symm.trans href')
        exact absurd hout hown
      · have hl : Links env options source.document.location c url :=
          ⟨reference, base, fragment, href, hout, hbase.symm.trans hsource, hurl⟩
        rcases locate_cases hlocate with ⟨rfl, hfound⟩ | ⟨root, rfl, hroot, hlimit, hnew⟩
        · exact .inl ⟨rfl, fun url' hl' => hl.unique hl' ▸ hfound⟩
        · exact .inr ⟨url, root, hl, st.sources.rows_push _, hroot, hlimit, hnew⟩

theorem searched_start : Searched env options location schema
    [⟨⟨location, schema⟩, rootBase env.workingDirectory options location, 0⟩] 0 [] 0 where
  ordered := List.pairwise_singleton _ _
  near source hs := by simp [List.mem_singleton.1 hs]
  current := .inl ⟨rfl, rfl⟩
  limit source hs := by simp [List.mem_singleton.1 hs]
  based source hs := by simp [List.mem_singleton.1 hs]
  roots source hs := by simp [List.mem_singleton.1 hs, rootAt]
  once := List.nodup_singleton _
  start := ⟨_, List.mem_singleton_self _, rfl, rfl⟩
  chains source hs := by
    obtain rfl := List.mem_singleton.1 hs
    exact .root
  closed index source hlt := absurd hlt (Nat.not_lt_zero _)

theorem Searched.depth_le {i j : Nat} {source source' : Source}
    (h : Searched env options location schema sources n todo k) (hi : sources[i]? = some source)
    (hj : sources[j]? = some source') (hle : i ≤ j) : source.depth ≤ source'.depth := by
  rcases Nat.eq_or_lt_of_le hle with rfl | hlt
  · obtain rfl := Option.some.inj (hi.symm.trans hj)
    exact Nat.le_refl _
  · obtain ⟨hi', rfl⟩ := List.getElem?_eq_some_iff.1 hi
    obtain ⟨hj', rfl⟩ := List.getElem?_eq_some_iff.1 hj
    exact List.pairwise_iff_getElem.1 (List.pairwise_map.1 h.ordered) i j hi' hj' hlt

theorem Searched.next (h : Searched env options location schema sources n [] k)
    (hs : sources[n]? = some source) : Searched env options location schema sources (n + 1)
      (Schema.positions "#" source.document.root) source.depth where
  ordered := h.ordered
  near s hmem := by
    have hle : k ≤ source.depth := by
      rcases h.current with ⟨-, rfl⟩ | ⟨index, last, rfl, hlast, rfl⟩
      · exact Nat.zero_le _
      · exact h.depth_le hlast hs (Nat.le_succ index)
    exact Nat.le_trans (h.near s hmem) (Nat.succ_le_succ hle)
  current := .inr ⟨n, source, rfl, hs, rfl⟩
  limit := h.limit
  based := h.based
  roots := h.roots
  once := h.once
  start := h.start
  chains := h.chains
  closed index s hlt hindex c hc hleft := by
    rcases Nat.eq_or_lt_of_le (Nat.lt_succ_iff.1 hlt) with rfl | hlt
    · obtain rfl := Option.some.inj (hs.symm.trans hindex)
      exact absurd hc (hleft rfl)
    · exact h.closed index s hlt hindex c hc fun _ => List.not_mem_nil

/-- The document that is scanned is at the current distance. -/
theorem Searched.depth_eq (h : Searched env options location schema sources (n + 1) todo k)
    (hs : sources[n]? = some source) : source.depth = k := by
  rcases h.current with ⟨hzero, -⟩ | ⟨i, last, hi, hlast, rfl⟩
  · cases hzero
  · obtain rfl := Nat.succ.inj hi
    obtain rfl := Option.some.inj (hs.symm.trans hlast)
    rfl

/-- A position that is not left behind the next one is this one, or was scanned before. -/
theorem Searched.closed_or_next {s : Source} {d : String × Json}
    (h : Searched env options location schema sources (n + 1) (c :: todo) k)
    (hs : sources[n]? = some source) (hlt : index < n + 1) (hindex : sources[index]? = some s)
    (hd : d ∈ Schema.positions "#" s.document.root) (hleft : index + 1 = n + 1 → d ∉ todo)
    (hl : Links env options s.document.location d url) :
    (s = source ∧ d = c) ∨
      ∃ t ∈ sources, t.document.location = some url ∧ t.depth ≤ s.depth + 1 := by
  by_cases heq : index = n ∧ d = c
  · obtain ⟨rfl, rfl⟩ := heq
    exact .inl ⟨Option.some.inj (hindex.symm.trans hs), rfl⟩
  · refine .inr (h.closed index s hlt hindex d hd (fun hn hmem => ?_) url hl)
    rcases List.mem_cons.1 hmem with rfl | hmem
    · exact heq ⟨Nat.succ.inj hn, rfl⟩
    · exact hleft hn hmem

/-- A position that refers to no file, or to one that is there. -/
theorem Searched.skip
    (h : Searched env options location schema sources (n + 1) (c :: todo) k)
    (hs : sources[n]? = some source)
    (hfound : ∀ url, Links env options source.document.location c url →
      ∃ s ∈ sources, s.document.location = some url) :
    Searched env options location schema sources (n + 1) todo k where
  ordered := h.ordered
  near := h.near
  current := h.current
  limit := h.limit
  based := h.based
  roots := h.roots
  once := h.once
  start := h.start
  chains := h.chains
  closed index s hlt hindex d hd hleft url hl := by
    rcases h.closed_or_next hs hlt hindex hd hleft hl with ⟨rfl, rfl⟩ | hclosed
    · obtain ⟨t, ht, hlocation⟩ := hfound url hl
      refine ⟨t, ht, hlocation, ?_⟩
      rw [h.depth_eq hs]
      exact h.near t ht
    · exact hclosed

/-- A position that refers to a file that is loaded now. -/
theorem Searched.load {root : Json}
    (h : Searched env options location schema sources (n + 1) (c :: todo) k)
    (hs : sources[n]? = some source) (hc : c ∈ Schema.positions "#" source.document.root)
    (hl : Links env options source.document.location c url) (hroot : fileRoot env url = some root)
    (hlimit : source.depth + 1 ≤ options.refOptions.maxDepth)
    (hnew : ∀ s ∈ sources, s.document.location ≠ some url) :
    Searched env options location schema
      (sources ++ [⟨⟨some url, root⟩, some url, source.depth + 1⟩]) (n + 1) todo k := by
  have hmem := List.mem_of_getElem? hs
  have hcurrent := h.depth_eq hs
  have hne : some url ≠ location := by
    obtain ⟨s, hmem, hlocation, -⟩ := h.start
    exact fun heq => hnew s hmem (hlocation.trans heq.symm)
  have hkeep : ∀ {i : Nat} {s : Source}, i < n + 1 →
      (sources ++ [⟨⟨some url, root⟩, some url, source.depth + 1⟩])[i]? = some s →
      sources[i]? = some s := fun hlt hi => by
    have hlength := (List.getElem?_eq_some_iff.1 hs).1
    rwa [List.getElem?_append_left (by omega)] at hi
  -- what held of the documents that were there holds, and the new one is as far as it may be
  have hall : ∀ {P : Source → Prop}, (∀ s ∈ sources, P s) →
      P ⟨⟨some url, root⟩, some url, source.depth + 1⟩ →
      ∀ s ∈ sources ++ [⟨⟨some url, root⟩, some url, source.depth + 1⟩], P s := fun hold hlast s hs => by
    rcases List.mem_append.1 hs with hs | hs
    · exact hold s hs
    · exact List.mem_singleton.1 hs ▸ hlast
  refine ⟨?_, hall h.near (by simp [hcurrent]), ?_, hall h.limit hlimit, hall h.based rfl,
    hall h.roots ?_, ?_, ?_, hall h.chains ?_, ?_⟩
  · rw [List.map_append, List.map_singleton, List.pairwise_append]
    refine ⟨h.ordered, List.pairwise_singleton _ _, fun d hd d' hd' => ?_⟩
    obtain ⟨s, hs, rfl⟩ := List.mem_map.1 hd
    rw [List.mem_singleton.1 hd', hcurrent]
    exact h.near s hs
  · refine .inr ⟨n, source, rfl, ?_, hcurrent⟩
    rw [List.getElem?_append_left (List.getElem?_eq_some_iff.1 hs).1, hs]
  · rw [rootAt, if_neg hne]
    exact hroot
  · rw [List.map_append, List.map_singleton]
    refine h.once.append (List.nodup_singleton _) fun l hl hl' => ?_
    obtain ⟨s, hs, rfl⟩ := List.mem_map.1 hl
    exact hnew s hs (List.mem_singleton.1 hl')
  · obtain ⟨s, hmem, hstart⟩ := h.start
    exact ⟨s, List.mem_append_left _ hmem, hstart⟩
  · exact .step (h.chains source hmem) (h.roots source hmem) hc hl
  · intro index s hlt hindex d hd hleft url' hl'
    rcases h.closed_or_next hs hlt (hkeep hlt hindex) hd hleft hl' with
      ⟨rfl, rfl⟩ | ⟨t, ht, hlocation⟩
    · exact ⟨_, List.mem_append_right _ (List.mem_singleton_self _), congrArg some (hl.unique hl'),
        Nat.le_refl _⟩
    · exact ⟨t, List.mem_append_left _ ht, hlocation⟩

/-- The positions that are left are positions of the document that is scanned. -/
theorem Reached.exists_source (h : Reached env options location schema st (n + 1) todo) :
    ∃ source, st.sources.rows[n]? = some source ∧ todo ⊆ Schema.positions "#" source.document.root := by
  generalize hm : n + 1 = m at h
  induction h with
  | start => cases hm
  | next h hs _ =>
      obtain rfl := Nat.succ.inj hm
      exact ⟨_, hs, List.Subset.refl _⟩
  | scan h hc ih =>
      obtain rfl := Nat.succ.inj hm
      obtain ⟨source, hs, hsub⟩ := ih rfl
      have hext := (scanPosition_ok hc fun _ _ => Nat.zero_le _).1
      exact ⟨source, (hext.source (Sources.lt_length hs)).trans hs,
        fun d hd => hsub (List.mem_cons_of_mem _ hd)⟩

/-- The invariant holds at all states of the loading. -/
theorem Reached.searched (hexternal : options.refOptions.external = true)
    (h : Reached env options location schema st n todo) :
    ∃ k, Searched env options location schema st.sources.rows n todo k := by
  induction h with
  | start => exact ⟨0, searched_start⟩
  | next _ hs ih =>
      obtain ⟨k, hk⟩ := ih
      exact ⟨_, hk.next hs⟩
  | scan h hc ih =>
      obtain ⟨k, hk⟩ := ih
      obtain ⟨source, hs, hsub⟩ := h.exists_source
      have hbase := hk.based source (List.mem_of_getElem? hs)
      rcases scanPosition_cases hexternal hs hbase hc with
        ⟨heq, hfound⟩ | ⟨url, root, hl, heq, hroot, hlimit, hnew⟩
      · exact ⟨k, heq ▸ hk.skip hs hfound⟩
      · exact ⟨k, heq ▸ hk.load hs (hsub List.mem_cons_self) hl hroot hlimit hnew⟩

/-! ## Shortest chains -/

theorem Searched.eq_of_location {s t : Source}
    (h : Searched env options location schema sources n todo k) (hs : s ∈ sources)
    (ht : t ∈ sources) (heq : s.document.location = t.document.location) : s = t :=
  List.inj_on_of_nodup_map h.once hs ht heq

/-- A chain leads to a document that is no further away than the chain is long, or, while there is
something to scan, beyond the document that is scanned. -/
theorem Searched.exists_or_beyond {m : Nat} {place : Option FileUrl}
    (h : Searched env options location schema sources n todo k)
    (hchain : Chain env options location schema m place) :
    (∃ s ∈ sources, s.document.location = place ∧ s.depth ≤ m) ∨
      (k < m ∧ ¬ (n = sources.length ∧ todo = [])) := by
  induction hchain with
  | root =>
      obtain ⟨s, hs, hlocation, hdepth⟩ := h.start
      exact .inl ⟨s, hs, hlocation, Nat.le_of_eq hdepth⟩
  | @step m place root c url _ hroot hc hl ih =>
      rcases ih with ⟨s, hs, rfl, hle⟩ | ⟨hlt, hleft⟩
      · obtain rfl := Option.some.inj ((h.roots s hs).symm.trans hroot)
        obtain ⟨i, hi⟩ := List.mem_iff_getElem?.1 hs
        -- a document that is not behind the current one is not nearer
        have hahead : n ≤ i + 1 → k < m + 1 := fun hge => by
          rcases h.current with ⟨-, rfl⟩ | ⟨j, current, rfl, hj, rfl⟩
          · exact Nat.succ_pos m
          · exact Nat.lt_succ_of_le (Nat.le_trans (h.depth_le hj hi (Nat.le_of_succ_le_succ hge)) hle)
        by_cases hscanned : i < n ∧ (i + 1 = n → c ∉ todo)
        · obtain ⟨t, ht, hlocation, hdepth⟩ :=
            h.closed i s hscanned.1 hi c hc hscanned.2 url hl
          exact .inl ⟨t, ht, hlocation, Nat.le_trans hdepth (Nat.succ_le_succ hle)⟩
        · have hlength := (List.getElem?_eq_some_iff.1 hi).1
          by_cases hlt : i < n
          · have hlast : i + 1 = n ∧ c ∈ todo := by
              by_contra hnot
              exact hscanned ⟨hlt, fun heq hmem => hnot ⟨heq, hmem⟩⟩
            refine .inr ⟨hahead (Nat.le_of_eq hlast.1.symm), fun hend => ?_⟩
            rw [hend.2] at hlast
            exact absurd hlast.2 List.not_mem_nil
          · exact .inr ⟨hahead (by omega), fun hend => by omega⟩
      · exact .inr ⟨Nat.lt_succ_of_lt hlt, hleft⟩

/-- The distance of a document is the length of a shortest chain to it. -/
theorem Searched.isLeast (h : Searched env options location schema sources n todo k)
    (hs : source ∈ sources) :
    IsLeast {m | Chain env options location schema m source.document.location} source.depth := by
  refine ⟨h.chains source hs, fun m hm => ?_⟩
  rcases h.exists_or_beyond hm with ⟨t, ht, hlocation, hle⟩ | ⟨hlt, -⟩
  · rwa [h.eq_of_location ht hs hlocation] at hle
  · exact Nat.le_trans (h.near source hs) hlt

/-- The file that is too deep is further away than the limit allows. -/
theorem Reached.exists_too_far (hexternal : options.refOptions.external = true)
    (h : Reached env options location schema st (n + 1) (c :: todo)) {path reference : String}
    {limit : Nat} (herror : scanPosition env options n st c =
      .error (.reference path reference (.nestingTooDeep limit))) :
    ∃ url m, IsLeast {m | Chain env options location schema m (some url)} m ∧
      options.refOptions.maxDepth < m := by
  obtain ⟨k, hk⟩ := h.searched hexternal
  obtain ⟨source, hs, hsub⟩ := h.exists_source
  have hmem := List.mem_of_getElem? hs
  unfold scanPosition at herror
  split at herror
  · cases herror
  · rename_i reference' href
    split at herror
    · rename_i cause ht
      obtain ⟨-, -, rfl⟩ := CompileError.reference.inj (Except.error.inj herror)
      obtain ⟨hout, base, url, fragment, hbase, hurl, hnew, hlimit⟩ := target_nesting hs ht
      have hl : Links env options source.document.location c url :=
        ⟨reference', base, fragment, href, hout, (hk.based source hmem).symm.trans hbase, hurl⟩
      refine ⟨url, source.depth + 1, ⟨?_, fun m hm => ?_⟩, hlimit⟩
      · exact Chain.step (hk.chains source hmem) (hk.roots source hmem) (hsub List.mem_cons_self) hl
      · rcases hk.exists_or_beyond hm with ⟨t, ht, hlocation, -⟩ | ⟨hlt, -⟩
        · exact absurd hlocation (hnew t ht)
        · rw [hk.depth_eq hs]
          exact hlt
    · cases herror

/-- When all documents are scanned, no chain leads further than the limit. -/
theorem Reached.not_too_far (hexternal : options.refOptions.external = true)
    (h : Reached env options location schema st st.sources.length []) {place : Option FileUrl}
    {m : Nat} (hm : IsLeast {m | Chain env options location schema m place} m) :
    m ≤ options.refOptions.maxDepth := by
  obtain ⟨k, hk⟩ := h.searched hexternal
  rcases hk.exists_or_beyond hm.1 with ⟨s, hs, rfl, -⟩ | ⟨-, hnot⟩
  · exact (hm.unique (hk.isLeast hs)).symm ▸ hk.limit s hs
  · exact absurd ⟨st.sources.length_rows.symm, rfl⟩ hnot

/-! ## The states of a loading -/

/-- How scans end: in a state as described, or with the error of a position in some state. -/
def Stops (env : Environment) (options : Options) (location : Option FileUrl) (schema : Json)
    (P : Loading → Prop) : Except CompileError Loading → Prop
  | .ok st => P st
  | .error e => ∃ st n c todo, Reached env options location schema st (n + 1) (c :: todo) ∧
      scanPosition env options n st c = .error e

theorem Stops.bind {P Q : Loading → Prop} {x : Except CompileError Loading}
    {f : Loading → Except CompileError Loading} (hx : Stops env options location schema P x)
    (hf : ∀ st, x = .ok st → P st → Stops env options location schema Q (f st)) :
    Stops env options location schema Q (x >>= f) := by
  cases x with
  | ok st => exact hf st rfl hx
  | error e => exact hx

theorem stops_scanPositions (h : Reached env options location schema st (n + 1) todo) :
    Stops env options location schema (Reached env options location schema · (n + 1) [])
      (todo.foldlM (scanPosition env options n) st) := by
  induction todo generalizing st with
  | nil => exact h
  | cons c todo ih =>
      rw [List.foldlM_cons]
      cases hc : scanPosition env options n st c with
      | ok st' => exact ih (.scan h hc)
      | error e => exact ⟨st, n, c, todo, h, hc⟩

theorem stops_scanDocument (h : Reached env options location schema st n [])
    (hlt : n < st.sources.length) :
    Stops env options location schema (Reached env options location schema · (n + 1) [])
      (scanDocument env options st n) := by
  obtain ⟨source, hs⟩ := st.sources.exists_row hlt
  rw [scanDocument_of_row hs]
  exact stops_scanPositions (.next h hs)

theorem stops_scanDocuments {count : Nat} (h : Reached env options location schema st n [])
    (hle : n + count ≤ st.sources.length) :
    Stops env options location schema (Reached env options location schema · (n + count) [])
      ((List.range' n count).foldlM (scanDocument env options) st) := by
  induction count generalizing n st with
  | zero => exact h
  | succ count ih =>
      rw [List.range'_succ, List.foldlM_cons]
      refine (stops_scanDocument h (by omega)).bind fun t hscan ht => ?_
      have hext := (extends_scanDocument hscan).length_le
      have hrest := ih ht (by omega)
      rwa [Nat.add_assoc, Nat.add_comm 1] at hrest

theorem drop_range (count next : Nat) :
    (List.range count).drop next = List.range' next (count - next) := by
  rw [List.range_eq_range', List.drop_range', Nat.zero_add, Nat.mul_one]

/-- Rounds of scans end when all documents are scanned. -/
theorem stops_scanFrom {remaining depth : Nat}
    (hdepth : depth + remaining = options.refOptions.maxDepth) (hfront : Frontier depth n st)
    (hdone : ∀ index < n, Recorded st index) (h : Reached env options location schema st n [])
    (hle : n ≤ st.sources.length) :
    Stops env options location schema
      (fun t => Reached env options location schema t t.sources.length [])
      (scanFrom env options remaining n st) := by
  induction remaining using Nat.strongRecOn generalizing n st depth with
  | ind remaining ih =>
      rw [scanFrom_eq]
      have hround : Stops env options location schema
          (Reached env options location schema · st.sources.length [])
          (((List.range st.sources.length).drop n).foldlM (scanDocument env options) st) := by
        rw [drop_range]
        have hscans := stops_scanDocuments h (Nat.le_of_eq (Nat.add_sub_cancel' hle))
        rwa [Nat.add_sub_cancel' hle] at hscans
      refine hround.bind fun t hscan ht => ?_
      obtain ⟨hext, hrec⟩ := scanDocuments_ok hscan hfront hdone
      have hlength := hext.length_le
      split
      · rename_i hend
        have hall : t.sources.length = st.sources.length := by
          refine Nat.le_antisymm ?_ hlength
          rcases hend with rfl | hend
          · -- a further document would be beyond the limit
            by_contra hlt
            obtain ⟨source, hs⟩ := t.sources.exists_row (Nat.lt_of_not_le hlt)
            have hfurther := hext.further (Nat.le_refl _) hs
            have := hfurther.further
            have := hfurther.limit
            omega
          · exact hend
        rw [← hall] at ht
        exact ht
      · rename_i hmore
        exact ih (remaining - 1) (by omega) (by omega) (fun index source hge hs =>
          (hext.further hge hs).further) hrec ht hlength

/-- The documents that are loaded, with their bases and distances: for each document there is one of
either, the distances do not go down, and each is the length of a shortest chain to the document. -/
structure Measured (env : Environment) (options : Options) (location : Option FileUrl)
    (schema : Json) (sources : Sources) : Prop where
  columns : sources.bases.length = sources.documents.length ∧
    sources.depths.length = sources.documents.length
  based : ∀ (index : Nat) document base, sources.documents[index]? = some document →
    sources.bases[index]? = some base →
    base = rootBase env.workingDirectory options document.location
  ordered : sources.depths.Pairwise (· ≤ ·)
  shortest : ∀ (index : Nat) document depth, sources.documents[index]? = some document →
    sources.depths[index]? = some depth →
    IsLeast {n | Chain env options location schema n document.location} depth

theorem Searched.measured {sources : Sources}
    (h : Searched env options location schema sources.rows n todo k) :
    Measured env options location schema sources where
  columns := ⟨sources.length_bases, sources.length_depths⟩
  based index document base hd hbase := by
    obtain ⟨source, hs, rfl⟩ := Sources.exists_row_of_document hd
    rw [Sources.getElem?_bases, hs] at hbase
    obtain rfl := Option.some.inj hbase
    exact h.based source (List.mem_of_getElem? hs)
  ordered := sources.map_depth_rows ▸ h.ordered
  shortest index document depth hd hdepth := by
    obtain ⟨source, hs, rfl⟩ := Sources.exists_row_of_document hd
    rw [Sources.getElem?_depths, hs] at hdepth
    obtain rfl := Option.some.inj hdepth
    exact h.isLeast (List.mem_of_getElem? hs)

end Loading

namespace SchemaGraph

open Loading (Chain Measured Reached Stops)

variable {env : Environment} {options : Options} {location : Option FileUrl} {schema : Json}

theorem stops_load (env : Environment) (options : Options) (location : Option FileUrl)
    (schema : Json) :
    (∀ g, load env options location schema = .ok g → ∃ st : Loading,
      Reached env options location schema st st.sources.length [] ∧
        g = ⟨st.sources.documents, st.refs, options.refOptions.maxDepth⟩) ∧
    ∀ e, load env options location schema = .error e → ∃ st n c todo,
      Reached env options location schema st (n + 1) (c :: todo) ∧
        Loading.scanPosition env options n st c = .error e := by
  have hstop := Loading.stops_scanFrom (Nat.zero_add options.refOptions.maxDepth)
    (fun _ _ _ _ => Nat.zero_le _) (fun _ hlt => absurd hlt (Nat.not_lt_zero _))
    (.start : Reached env options location schema _ 0 []) (Nat.zero_le _)
  refine ⟨fun g h => ?_, fun e h => ?_⟩
  · unfold load at h
    obtain ⟨st, hscan, h⟩ := Loading.ok_of_bind h
    rw [hscan] at hstop
    exact ⟨st, hstop, (Except.ok.inj h).symm⟩
  · unfold load at h
    rcases Loading.error_of_bind h with hscan | ⟨_, -, h⟩
    · rw [hscan] at hstop
      exact hstop
    · cases h

/-- The documents are loaded in the order of their distance from the root, the length of a shortest
chain of references to them, in every state of the loading. So unless something else fails first, the
loading fails if and only if a shortest chain to some file is longer than the limit allows. -/
theorem depths_are_distances (env : Environment) (location : Option FileUrl) (schema : Json)
    (hexternal : options.refOptions.external = true) :
    (∀ g, load env options location schema = .ok g → ∃ st : Loading,
      Reached env options location schema st st.sources.length [] ∧
        g = ⟨st.sources.documents, st.refs, options.refOptions.maxDepth⟩) ∧
    (∀ e, load env options location schema = .error e → ∃ st n c todo,
      Reached env options location schema st (n + 1) (c :: todo) ∧
        Loading.scanPosition env options n st c = .error e) ∧
    (∀ st n todo, Reached env options location schema st n todo →
      Measured env options location schema st.sources) ∧
    ((∀ e, load env options location schema = .error e →
        ∃ path reference limit, e = .reference path reference (.nestingTooDeep limit)) →
      ((∃ path reference limit, load env options location schema =
          .error (.reference path reference (.nestingTooDeep limit))) ↔
        ∃ url n, IsLeast {n | Chain env options location schema n (some url)} n ∧
          options.refOptions.maxDepth < n)) := by
  obtain ⟨hok, herror⟩ := stops_load env options location schema
  refine ⟨hok, herror, fun st n todo h => ?_, fun honly => ⟨?_, ?_⟩⟩
  · obtain ⟨k, hk⟩ := h.searched hexternal
    exact hk.measured
  · rintro ⟨path, reference, limit, h⟩
    obtain ⟨st, n, c, todo, hreached, hc⟩ := herror _ h
    exact hreached.exists_too_far hexternal hc
  · rintro ⟨url, n, hleast, hlt⟩
    cases hload : load env options location schema with
    | ok g =>
        obtain ⟨st, hreached, -⟩ := hok g hload
        exact absurd (hreached.not_too_far hexternal hleast) (Nat.not_le_of_lt hlt)
    | error e =>
        obtain ⟨path, reference, limit, rfl⟩ := honly e hload
        exact ⟨path, reference, limit, rfl⟩

/-! ## A file at the limit -/

/-- A root that refers to a file. -/
def outward : Json := .object [("$ref", .string "any.json")]

def limited (maxDepth : Nat) : Options := { refOptions := { maxDepth } }

def outwardGraph : SchemaGraph where
  documents := [⟨none, outward⟩, ⟨some anyFile, .bool true⟩]
  refs := [(⟨0, "#", none⟩, .fragment ⟨1, "#", none⟩)]
  maxDepth := 1

theorem positions_outward : Schema.positions "#" outward = [("#", outward)] :=
  Schema.positions_reference _ _

theorem resolve_anyFile : (⟨"", ["work", ""], none⟩ : FileUrl).resolve "any.json" =
    some (.file anyFile "") := rfl

theorem load_outward_refused : load oneFile (limited 0) none outward =
    .error (.reference "#" "any.json" (.nestingTooDeep 0)) := by
  let root : Sources := .root none (some ⟨"", ["work", ""], none⟩) outward
  have htarget : Loading.target oneFile (limited 0) root 0 "any.json" =
      .error (.nestingTooDeep 0) :=
    Loading.target_of_error (by simp [Loading.IsOutward]) rfl rfl rfl resolve_anyFile (by rfl)
  have hposition : Loading.scanPosition oneFile (limited 0) 0 ⟨root, []⟩ ("#", outward) =
      .error (.reference "#" "any.json" (.nestingTooDeep 0)) := by
    have href : Loading.reference? outward = some "any.json" := rfl
    simp only [Loading.scanPosition, href, htarget]
  have hdocument : Loading.scanDocument oneFile (limited 0) ⟨root, []⟩ 0 =
      .error (.reference "#" "any.json" (.nestingTooDeep 0)) := by
    change (Schema.positions "#" outward).foldlM _ _ = _
    rw [positions_outward, List.foldlM_cons, hposition]
    rfl
  have hscan : Loading.scanFrom oneFile (limited 0) 0 0 ⟨root, []⟩ =
      .error (.reference "#" "any.json" (.nestingTooDeep 0)) := by
    rw [Loading.scanFrom_eq]
    change ([0].foldlM (Loading.scanDocument oneFile (limited 0)) ⟨root, []⟩ >>= _) = _
    rw [List.foldlM_cons, hdocument]
    rfl
  change (Loading.scanFrom oneFile (limited 0) 0 0 ⟨root, []⟩ >>= _) = _
  rw [hscan]
  rfl

theorem load_outward : load oneFile (limited 1) none outward = .ok outwardGraph := by
  let root : Sources := .root none (some ⟨"", ["work", ""], none⟩) outward
  let both := root.push ⟨⟨some anyFile, .bool true⟩, some anyFile, 1⟩
  have hload : Loading.loadFile oneFile (limited 1) anyFile 0 = .ok _ :=
    loadFile_anyFile (Nat.le_refl 1)
  have htarget : Loading.target oneFile (limited 1) root 0 "any.json" =
      .ok (.fragment ⟨1, "#", none⟩, both) :=
    Loading.target_of_file (by simp [Loading.IsOutward]) rfl rfl rfl resolve_anyFile
      (Loading.bind_of_ok hload) (by rfl) (by rfl)
  have hround : Loading.scanDocument oneFile (limited 1) ⟨root, []⟩ 0 =
      .ok ⟨both, outwardGraph.refs⟩ := by
    change (Schema.positions "#" outward).foldlM _ _ = _
    rw [positions_outward]
    exact (Loading.bind_of_ok (Loading.scanPosition_of_target rfl htarget)).trans rfl
  have hrest : Loading.scanDocument oneFile (limited 1) ⟨both, outwardGraph.refs⟩ 1 =
      .ok ⟨both, outwardGraph.refs⟩ := by
    change (Schema.positions "#" (.bool true)).foldlM _ _ = _
    rw [Schema.positions_of_not_object rfl]
    rfl
  have hscan : Loading.scanFrom oneFile (limited 1) 1 0 ⟨root, []⟩ =
      .ok ⟨both, outwardGraph.refs⟩ := by
    rw [Loading.scanFrom_eq]
    refine (Loading.bind_of_ok ((Loading.bind_of_ok hround).trans rfl)).trans ?_
    rw [if_neg (by decide), Loading.scanFrom_eq]
    refine (Loading.bind_of_ok ((Loading.bind_of_ok hrest).trans rfl)).trans ?_
    exact if_pos (.inr (Nat.le_refl 2))
  exact Loading.bind_of_ok hscan

/-- The file is one file away from the root: too far for a limit of 0, but not for a limit of 1. -/
theorem depths_are_distances_outward :
    (limited 0).refOptions.external = true ∧ (limited 1).refOptions.external = true ∧
    (∃ url n, IsLeast {n | Chain oneFile (limited 0) none outward n (some url)} n ∧ 0 < n) ∧
    ¬ ∃ url n, IsLeast {n | Chain oneFile (limited 1) none outward n (some url)} n ∧ 1 < n := by
  have hrefused := load_outward_refused
  have hload := load_outward
  have hexternal : ∀ n, (limited n).refOptions.external = true := fun _ => rfl
  obtain ⟨-, -, -, hnear⟩ := depths_are_distances oneFile none outward (hexternal 0)
  obtain ⟨-, -, -, hfar⟩ := depths_are_distances oneFile none outward (hexternal 1)
  refine ⟨rfl, rfl, ?_, fun htoo => ?_⟩
  · have honly := hnear fun e h => ⟨_, _, _, (Except.error.inj (hrefused.symm.trans h)).symm⟩
    exact honly.1 ⟨_, _, _, hrefused⟩
  · obtain ⟨_, _, _, h⟩ := (hfar fun e h => by rw [hload] at h; cases h).2 htoo
    rw [hload] at h
    cases h

end SchemaGraph

end Typewright
