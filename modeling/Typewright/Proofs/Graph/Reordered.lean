import Typewright.Proofs.Graph.Targets
import Typewright.Proofs.Schema.Reordered
import Typewright.Proofs.TypeGraph.Basic

/-!
# Loading and the order of keywords

Two roots in memory that differ in the order of keywords alone lead to the same files and the same
references, or to the same failure (`SchemaGraph.agree_load`). A reference into its own document is
followed by its pointer, so it must point at a schema of the document: anywhere else a value could
have been reordered without notice.
-/

namespace Typewright

/-- The same failure, or values that are related. -/
inductive Agree {α β ε : Type} (R : α → β → Prop) : Except ε α → Except ε β → Prop
  | ok {a : α} {b : β} (h : R a b) : Agree R (.ok a) (.ok b)
  | error (e : ε) : Agree R (.error e) (.error e)

namespace Agree

variable {α β γ δ ε : Type} {R : α → β → Prop} {S : γ → δ → Prop}

theorem bind {x : Except ε α} {y : Except ε β} {f : α → Except ε γ} {g : β → Except ε δ}
    (h : Agree R x y) (hf : ∀ a b, R a b → Agree S (f a) (g b)) : Agree S (x >>= f) (y >>= g) := by
  cases h with
  | ok h => exact hf _ _ h
  | error e => exact .error e

theorem refl {x : Except ε α} {R : α → α → Prop} (h : ∀ a, x = .ok a → R a a) : Agree R x x := by
  cases x with
  | ok a => exact .ok (h a rfl)
  | error e => exact .error e

/-- Loops over lists whose entries correspond. -/
theorem foldlM {f : γ → α → Except ε γ} {g : δ → β → Except ε δ} {xs : List α} {ys : List β}
    (h : List.Forall₂ R xs ys) (hf : ∀ a b c d, R a b → S c d → Agree S (f c a) (g d b)) {c : γ}
    {d : δ} (hcd : S c d) : Agree S (xs.foldlM f c) (ys.foldlM g d) := by
  induction h generalizing c d with
  | nil => exact .ok hcd
  | cons hr _ ih =>
      rw [List.foldlM_cons, List.foldlM_cons]
      exact (hf _ _ c d hr hcd).bind fun c' d' h => ih h

end Agree

namespace Schema

/-- Each reference into the document itself leads to one of its schemas. -/
def PointsInside (schema : Json) : Prop :=
  ∀ c ∈ positions "#" schema, ∀ reference fragment, Loading.reference? c.2 = some reference →
    reference.toList = '#' :: fragment → ∃ pointer v,
      fragmentPointer (String.ofList fragment) = .ok pointer ∧ (pointer, v) ∈ positions "#" schema

variable {a b : Json}

theorem Reordered.reference?_eq (h : Reordered a b) :
    Loading.reference? a = Loading.reference? b := by
  rw [Loading.reference?, h.member?_eq (by decide), Loading.reference?]

/-- A schema of one document has a counterpart at its pointer in the other. -/
theorem Reordered.exists_at? (h : Reordered a b) (ha : a.Distinct) (hb : b.Distinct)
    {pointer : String} {v : Json} (hv : (pointer, v) ∈ Schema.positions "#" a) :
    ∃ w, a.at? pointer = some v ∧ b.at? pointer = some w ∧ Reordered v w := by
  obtain ⟨⟨_, w⟩, hw, rfl, hvw⟩ := exists_of_forall₂_left (h.positions "#") hv
  exact ⟨w, (at?_of_mem_positions rfl ha _ hv).1, (at?_of_mem_positions rfl hb _ hw).1, hvw⟩

end Schema

namespace Loading

open Schema (Reordered Matched PointsInside)

variable {env : Environment} {options : Options} {a b : Json} {sources sources' : Sources}
  {st st' : Loading} {index : Nat}

/-- The same documents but for the roots, which are in memory. -/
def TwinSources (a b : Json) (sources sources' : Sources) : Prop :=
  ∃ base rest, sources.rows = ⟨⟨none, a⟩, base, 0⟩ :: rest ∧
    sources'.rows = ⟨⟨none, b⟩, base, 0⟩ :: rest

/-- The same references from documents that are the same but for the roots. Those that lead into
the root lead to a schema of it. -/
structure Twins (a b : Json) (st st' : Loading) : Prop where
  sources : TwinSources a b st.sources st'.sources
  refs : st.refs = st'.refs
  inside : ∀ e ∈ st.refs, ∀ id, e.2 = .fragment id → id.document = 0 →
    ∃ v, (id.pointer, v) ∈ Schema.positions "#" a

structure TwinSource (a b : Json) (index : Nat) (source source' : Source) : Prop where
  base : source.base = source'.base
  depth : source.depth = source'.depth
  root : index = 0 ∧ source.document.root = a ∧ source'.document.root = b ∨
    index ≠ 0 ∧ source.document.root = source'.document.root

theorem TwinSources.getElem? (h : TwinSources a b sources sources') (index : Nat) :
    Option.Rel (TwinSource a b index) sources.rows[index]? sources'.rows[index]? := by
  obtain ⟨base, rest, hs, hs'⟩ := h
  rw [hs, hs']
  cases index with
  | zero => exact .some ⟨rfl, rfl, .inl ⟨rfl, rfl, rfl⟩⟩
  | succ index =>
      rw [List.getElem?_cons_succ, List.getElem?_cons_succ]
      cases rest[index]? with
      | none => exact .none
      | some source => exact .some ⟨rfl, rfl, .inr ⟨Nat.succ_ne_zero index, rfl⟩⟩

theorem agree_locate (h : TwinSources a b sources sources') (url : FileUrl) (depth : Nat) :
    Agree (fun p q => p.1 = q.1 ∧ p.1 ≠ 0 ∧ TwinSources a b p.2 q.2)
      (locate env options sources url depth) (locate env options sources' url depth) := by
  obtain ⟨base, rest, hs, hs'⟩ := h
  rw [locate_eq, locate_eq, hs, hs']
  -- a root in memory is at no location
  have hroot : ((none : Option FileUrl) == some url) = false := rfl
  simp only [List.findIdx?_cons, hroot, Bool.false_eq_true, if_false]
  cases rest.findIdx? (·.document.location == some url) with
  | some i => exact .ok ⟨rfl, Nat.succ_ne_zero i, base, rest, hs, hs'⟩
  | none =>
      refine Agree.bind (R := Eq) (.refl fun _ _ => rfl) ?_
      rintro source _ rfl
      refine .ok ⟨rfl, Nat.succ_ne_zero _, base, rest ++ [source], ?_, ?_⟩
      · rw [Sources.rows_push, hs, List.cons_append]
      · rw [Sources.rows_push, hs', List.cons_append]

/-- The same target, and documents that are the same but for the roots. -/
structure TwinTarget (a b : Json) (p q : Target × Sources) : Prop where
  target : p.1 = q.1
  sources : TwinSources a b p.2 q.2
  inside : ∀ id, p.1 = .fragment id → id.document = 0 →
    ∃ v, (id.pointer, v) ∈ Schema.positions "#" a

variable (hr : Reordered a b) (ha : a.Distinct) (hb : b.Distinct)
include hr ha hb

theorem check_twins (h : TwinSources a b sources sources') {id : Fragment}
    (hid : id.document = 0 → ∃ v, (id.pointer, v) ∈ Schema.positions "#" a) :
    check sources.documents id = check sources'.documents id := by
  have hvalue : check.checkValue sources.documents id = check.checkValue sources'.documents id := by
    have hsource := h.getElem? id.document
    unfold check.checkValue
    rw [Sources.getElem?_documents, Sources.getElem?_documents]
    generalize sources.rows[id.document]? = s, sources'.rows[id.document]? = s' at hsource
    cases hsource with
    | none => rfl
    | some hs =>
        rcases hs.root with ⟨hzero, hroot, hroot'⟩ | ⟨-, heq⟩
        · obtain ⟨v, hv⟩ := hid hzero
          obtain ⟨w, hav, hbw, hvw⟩ := hr.exists_at? ha hb hv
          simp only [Option.map_some, Option.bind_some, hroot, hroot', hav, hbw, hvw.isSchema_eq]
        · simp only [Option.map_some, Option.bind_some, heq]
  unfold check
  rw [hvalue]

theorem agree_fragment (h : TwinSources a b sources sources') {document : Nat} {pointer : String}
    (hid : document = 0 → ∃ v, (pointer, v) ∈ Schema.positions "#" a) :
    Agree (TwinTarget a b)
      (do check sources.documents ⟨document, pointer, none⟩
          return (Target.fragment ⟨document, pointer, none⟩, sources))
      (do check sources'.documents ⟨document, pointer, none⟩
          return (Target.fragment ⟨document, pointer, none⟩, sources')) := by
  rw [← check_twins hr ha hb h hid]
  refine Agree.bind (R := Eq) (.refl fun _ _ => rfl) fun _ _ _ => .ok ⟨rfl, h, ?_⟩
  rintro id heq hzero
  obtain rfl := Target.fragment.inj heq
  exact hid hzero

/-- A reference leads to the same target, and loads the same file. -/
theorem agree_target (h : TwinSources a b sources sources') {reference : String}
    (hin : index = 0 → ∀ fragment, reference.toList = '#' :: fragment → ∃ pointer v,
      fragmentPointer (String.ofList fragment) = .ok pointer ∧
      (pointer, v) ∈ Schema.positions "#" a) :
    Agree (TwinTarget a b) (target env options sources index reference)
      (target env options sources' index reference) := by
  unfold target
  split
  · rename_i fragment hlocal
    refine Agree.bind (R := fun p q => p = q ∧ fragmentPointer (String.ofList fragment) = .ok p)
      (.refl fun p hp => ⟨rfl, hp⟩) ?_
    rintro pointer _ ⟨rfl, hpointer⟩
    refine agree_fragment hr ha hb h fun hzero => ?_
    obtain ⟨p, v, hp, hv⟩ := hin hzero fragment hlocal
    obtain rfl := Except.ok.inj (hpointer.symm.trans hp)
    exact ⟨v, hv⟩
  · split
    · exact .ok ⟨rfl, h, fun id heq => by cases heq⟩
    · have hsource := h.getElem? index
      rw [Sources.get?_eq, Sources.get?_eq]
      generalize sources.rows[index]? = s, sources'.rows[index]? = s' at hsource
      cases hsource with
      | none => exact .error _
      | some hs =>
          dsimp only
          rw [← hs.base, ← hs.depth]
          split
          · exact .error _
          · split
            · exact .error _
            · exact .error _
            · refine (agree_locate h _ _).bind ?_
              rintro ⟨document, more⟩ ⟨_, more'⟩ ⟨rfl, hne, hmore⟩
              refine Agree.bind (R := Eq) (.refl fun _ _ => rfl) ?_
              rintro pointer _ rfl
              exact agree_fragment hr ha hb hmore fun hzero => absurd hzero hne

variable (hin : PointsInside a)
include hin

theorem agree_scanPosition {c d : String × Json} (hcd : Matched c d)
    (hc : index = 0 → c ∈ Schema.positions "#" a) (h : Twins a b st st') :
    Agree (Twins a b) (scanPosition env options index st c)
      (scanPosition env options index st' d) := by
  obtain ⟨path, v⟩ := c
  obtain ⟨_, w⟩ := d
  obtain ⟨rfl, hvw⟩ := hcd
  unfold scanPosition
  dsimp only at hvw ⊢
  rw [← hvw.reference?_eq]
  split
  · exact .ok h
  · rename_i reference href
    have htarget : Agree (TwinTarget a b) (target env options st.sources index reference)
        (target env options st'.sources index reference) :=
      agree_target hr ha hb h.sources fun hzero fragment hlocal =>
        hin _ (hc hzero) reference fragment href hlocal
    generalize target env options st.sources index reference = x,
      target env options st'.sources index reference = y at htarget
    cases htarget with
    | error cause => exact .error _
    | @ok p q hpq =>
        obtain ⟨t, sources⟩ := p
        obtain ⟨_, sources'⟩ := q
        obtain ⟨rfl, hsources, hinside⟩ := hpq
        refine .ok ⟨hsources, by rw [h.refs], fun e he id heq hzero => ?_⟩
        rcases List.mem_append.1 he with he | he
        · exact h.inside e he id heq hzero
        · rw [List.mem_singleton.1 he] at heq
          exact hinside id heq hzero

theorem agree_scanDocument (h : Twins a b st st') (index : Nat) :
    Agree (Twins a b) (scanDocument env options st index) (scanDocument env options st' index) := by
  have hsource := h.sources.getElem? index
  rw [scanDocument, scanDocument, Sources.getElem?_documents, Sources.getElem?_documents]
  generalize st.sources.rows[index]? = s, st'.sources.rows[index]? = s' at hsource
  cases hsource with
  | none => exact .ok h
  | @some source source' hs =>
      dsimp only [Option.map_some]
      refine Agree.foldlM
        (R := fun c d => (index = 0 → c ∈ Schema.positions "#" a) ∧ Matched c d) ?_
        (fun c d st st' hcd h => agree_scanPosition hr ha hb hin hcd.2 hcd.1 h) h
      rcases hs.root with ⟨hzero, rfl, rfl⟩ | ⟨hne, heq⟩
      · exact (List.forall₂_and_left _ _).2 ⟨fun c hc _ => hc, hr.positions "#"⟩
      · rw [← heq]
        exact List.forall₂_same.2 fun c _ => ⟨fun hzero => absurd hzero hne, .refl c⟩

theorem agree_scanFrom (remaining next : Nat) (h : Twins a b st st') :
    Agree (Twins a b) (scanFrom env options remaining next st)
      (scanFrom env options remaining next st') := by
  have hlength : ∀ {st st'}, Twins a b st st' → st.sources.length = st'.sources.length := by
    rintro st st' ⟨⟨base, rest, hs, hs'⟩, -, -⟩
    rw [← Sources.length_rows, ← Sources.length_rows, hs, hs', List.length_cons, List.length_cons]
  have hscan : ∀ {st st'} (indices : List Nat), Twins a b st st' →
      Agree (Twins a b) (indices.foldlM (scanDocument env options) st)
        (indices.foldlM (scanDocument env options) st') := by
    intro st st' indices h
    refine Agree.foldlM (R := Eq) (List.forall₂_same.2 fun _ _ => rfl) ?_ h
    rintro index _ st st' rfl h
    exact agree_scanDocument hr ha hb hin h index
  induction remaining using Nat.strongRecOn generalizing next st st' with
  | ind remaining ih =>
      rw [scanFrom_eq, scanFrom_eq, ← hlength h]
      refine (hscan _ h).bind fun t t' ht => ?_
      rw [← hlength ht]
      split
      · exact .ok ht
      · exact ih (remaining - 1) (by omega) _ ht

end Loading

namespace SchemaGraph

open Schema (Reordered PointsInside)

/-- The same references between documents that are the same but for the roots. -/
structure Twins (a b : Json) (g g' : SchemaGraph) : Prop where
  documents : ∃ rest, g.documents = ⟨none, a⟩ :: rest ∧ g'.documents = ⟨none, b⟩ :: rest
  refs : g.refs = g'.refs
  maxDepth : g.maxDepth = g'.maxDepth
  inside : ∀ id ∈ g.targets, id.document = 0 → ∃ v, (id.pointer, v) ∈ Schema.positions "#" a

variable {a b : Json}

/-- Roots that differ in the order of keywords alone lead to the same files and references. -/
theorem agree_load (hr : Reordered a b) (ha : a.Distinct) (hb : b.Distinct)
    (hin : PointsInside a) (env : Environment) (options : Options) :
    Agree (Twins a b) (load env options none a) (load env options none b) := by
  unfold load
  refine Agree.bind (R := Loading.Twins a b) (Loading.agree_scanFrom hr ha hb hin _ 0 ?_)
    fun st st' h => .ok ?_
  · exact ⟨⟨_, [], rfl, rfl⟩, rfl, fun e he => by cases he⟩
  · obtain ⟨⟨base, rest, hs, hs'⟩, hrefs, hinside⟩ := h
    refine ⟨⟨rest.map (·.document), by rw [← Sources.map_document_rows, hs]; rfl,
      by rw [← Sources.map_document_rows, hs']; rfl⟩, hrefs, rfl,
      fun id hid => ?_⟩
    obtain ⟨site, he⟩ := exists_of_mem_targets hid
    exact hinside _ he id rfl

end SchemaGraph

end Typewright
