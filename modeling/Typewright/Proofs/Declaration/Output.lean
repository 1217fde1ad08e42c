import Typewright.Proofs.Declaration.Names
import Typewright.Proofs.Text.Layout
import Typewright.Proofs.TypeGraph.Kept

/-!
# Declarations in the output

Each declaration opens a line of its own with its keyword and its name. The layout keeps these
lines, so what a pass declares can be found in the output below the banner (`declares_of_mem`).
-/

namespace Typewright

open Text (content isBlank trim)

namespace Pass

/-- How the line of a declaration begins. -/
def opening (pass : Pass) (options : Options) (name : String) : String :=
  "export " ++ pass.keyword options ++ " " ++ name

/-- A line begins with a declaration under a name, which ends where the line or the name does. -/
def Opens (pass : Pass) (options : Options) (name : String) (line : List Char) : Prop :=
  ∃ rest, line = (pass.opening options name).toList ++ rest ∧
    ∀ c ∈ rest.head?, Identifier.isPart c = false

variable {pass : Pass} {options : Options} {name : String}

theorem Opens.ended {line line' : List Char} (h : pass.Opens options name line)
    (he : Layout.Ended line line') : pass.Opens options name line' := by
  obtain ⟨rest, rfl, hrest⟩ := h
  rcases he with rfl | rfl
  · exact ⟨rest, rfl, hrest⟩
  · refine ⟨rest ++ [';'], List.append_assoc _ _ _, ?_⟩
    cases rest with
    | nil => rintro c ⟨⟩; rfl
    | cons d more => exact hrest

theorem not_isBlank_parts : ∀ n < 128, Identifier.isPart (.ofNat n) = true →
    isBlank (.ofNat n) = false := by
  decide +kernel

theorem not_isBlank_of_isPart {c : Char} (h : Identifier.isPart c = true) : isBlank c = false := by
  have hc := Char.ofNat_toNat c
  rw [← hc] at h ⊢
  exact not_isBlank_parts _ (by simpa using Identifier.toNat_lt_of_isPart (hc ▸ h)) h

theorem not_mem_keyword (pass : Pass) (options : Options) :
    '\n' ∉ (pass.keyword options).toList := by
  cases pass with
  | aliases => exact (by decide : '\n' ∉ "type".toList)
  | interfaces => exact (by decide : '\n' ∉ "interface".toList)
  | enums =>
      rw [keyword]
      split <;> decide

/-- Nothing is taken off the front of a declaration or off the end of its name. -/
theorem exists_opening (pass : Pass) (options : Options) (h : Identifier.Clean name.toList) :
    ∃ cs d, (pass.opening options name).toList = 'e' :: cs ++ [d] ∧ isBlank d = false ∧
      '\n' ∉ (pass.opening options name).toList := by
  have hpart := Identifier.isPart_of_isBare h.bare
  have hne : name.toList ≠ [] := fun hnil => by
    have hbare := h.bare
    rw [hnil] at hbare
    cases hbare
  obtain ⟨init, d, hname⟩ : ∃ init d, name.toList = init ++ [d] :=
    ⟨_, _, (List.dropLast_append_getLast hne).symm⟩
  have hopening : (pass.opening options name).toList =
      'e' :: ("xport ".toList ++ (pass.keyword options).toList ++ [' ']) ++ name.toList := by
    simp [opening]
  refine ⟨"xport ".toList ++ (pass.keyword options).toList ++ [' '] ++ init, d, ?_, ?_, ?_⟩
  · rw [hopening, hname]
    simp
  · exact not_isBlank_of_isPart (hpart d (by simp [hname]))
  · intro hmem
    have hname : '\n' ∉ name.toList := fun hmem => by cases hpart _ hmem
    rw [hopening] at hmem
    simp [not_mem_keyword, hname] at hmem

/-- A blank behind a declaration's name and what follows it may be taken off. -/
theorem trim_opening (pass : Pass) (options : Options) (h : Identifier.Clean name.toList)
    (cs : List Char) :
    pass.Opens options name (trim ((pass.opening options name).toList ++ ' ' :: cs)) := by
  obtain ⟨init, d, hopening, hd, -⟩ := exists_opening pass options h
  have hfirst : ((pass.opening options name).toList ++ ' ' :: cs).dropWhile isBlank =
      (pass.opening options name).toList ++ ' ' :: cs := by
    rw [hopening]
    rfl
  rw [Text.trim_eq, hfirst]
  by_cases hblank : ∀ c ∈ ' ' :: cs, isBlank c = true
  · refine ⟨[], ?_, nofun⟩
    rw [Text.rdropWhile_append_blank hblank, hopening,
      List.rdropWhile_concat_neg _ _ _ (by simp [hd]), List.append_nil]
  · refine ⟨(' ' :: cs).rdropWhile isBlank, Text.rdropWhile_append_of_not hblank, fun c hc => ?_⟩
    -- what is left of the rest begins with the blank
    obtain ⟨more, hmore⟩ := List.rdropWhile_prefix isBlank (' ' :: cs)
    cases hrest : (' ' :: cs).rdropWhile isBlank with
    | nil => exact absurd (List.rdropWhile_eq_nil_iff.1 hrest) hblank
    | cons e rest =>
        rw [hrest] at hc hmore
        obtain rfl := Option.some.inj hc
        rw [(List.cons.inj hmore).1]
        rfl

/-- The first line of a declaration opens it. -/
theorem exists_opens (pass : Pass) (options : Options) (h : Identifier.Clean name.toList)
    (body : String) :
    ∃ line ∈ content (pass.opening options name ++ " " ++ body).toList,
      pass.Opens options name line := by
  obtain ⟨init, d, hopening, -, hfree⟩ := exists_opening pass options h
  have hline : ∀ cs, '\n' ∉ cs → trim ((pass.opening options name).toList ++ ' ' :: cs) ∈
      content ((pass.opening options name).toList ++ ' ' :: cs) := by
    intro cs hcs
    have hne : trim ((pass.opening options name).toList ++ ' ' :: cs) ≠ [] := by
      obtain ⟨rest, heq, -⟩ := trim_opening pass options h cs
      rw [heq, hopening]
      exact List.cons_ne_nil _ _
    rw [Text.content_line (by simp [hfree, hcs]), Text.visible_singleton hne]
    exact List.mem_singleton_self _
  have hbody : (pass.opening options name ++ " " ++ body).toList =
      (pass.opening options name).toList ++ ' ' :: body.toList := by
    simp
  rw [hbody]
  by_cases hfeed : '\n' ∈ body.toList
  · obtain ⟨first, more, hsplit, hfirst⟩ := List.eq_append_cons_of_mem hfeed
    refine ⟨_, ?_, trim_opening pass options h first⟩
    rw [hsplit, ← List.cons_append, ← List.append_assoc, Text.content_append]
    exact List.mem_append_left _ (hline first hfirst)
  · exact ⟨_, hline _ hfeed, trim_opening pass options h _⟩

end Pass

namespace Declaration

variable {g : TypeGraph} {options : Options} {pass : Pass}

theorem exists_opens_heading (pass : Pass) (options : Options) {node : Node} {name : String}
    (hc : Identifier.Clean name.toList) (hname : declaredName node = name) (body : String) :
    ∃ line ∈ content (pass.heading options node ++ body).toList, pass.Opens options name line := by
  obtain ⟨line, hline, hopens⟩ := pass.exists_opens options hc body
  refine ⟨line, ?_, hopens⟩
  have hheading : pass.heading options node ++ body =
      leadingComment node ++ (pass.opening options name ++ " " ++ body) := by
    simp [Pass.heading, Pass.opening, hname, String.append_assoc]
  rw [hheading, leadingComment]
  cases node.comment with
  | none => simpa using hline
  | some comment =>
      have hlines : (commentBlock comment ++ "\n" ++
          (pass.opening options name ++ " " ++ body)).toList = (commentBlock comment).toList ++
            '\n' :: (pass.opening options name ++ " " ++ body).toList := by
        simp
      rw [hlines, Text.content_append]
      exact List.mem_append_right _ hline

theorem Section.exists_opens {out : String} (h : Section pass options g (.ok out))
    (hl : g.Labelled) {d : NodeId × Node × String} (hd : d ∈ pass.declared g options) :
    ∃ line ∈ content out.toList, pass.Opens options (declaredName d.2.1) line := by
  obtain ⟨texts, htexts, heq⟩ := h
  obtain rfl := Except.ok.inj heq
  obtain ⟨text, hmem, body, rfl⟩ := exists_of_forall₂_left htexts hd
  obtain ⟨hn, -, hname⟩ := Pass.of_mem_declared hd
  obtain ⟨name, hname⟩ := Option.isSome_iff_exists.1 hname
  have hdeclared := declaredName_eq hl hn hname
  obtain ⟨line, hline, hopens⟩ := exists_opens_heading pass options
    (hl.clean _ _ _ hn hname) hdeclared body
  rw [Text.content_lines]
  exact ⟨line, List.mem_flatMap.2 ⟨_, hmem, hline⟩, hdeclared ▸ hopens⟩

/-- Below the banner the text says what its sections say. -/
theorem content_text {a i e out : String} (ha : aliases options g = .ok a)
    (hi : interfaces options g = .ok i) (he : enums options g = .ok e)
    (h : text options g = .ok out) :
    content out.toList = content options.bannerComment.toList ++
      (content a.toList ++ content i.toList ++ content e.toList) := by
  rw [text, ha, hi, he] at h
  obtain rfl := Except.ok.inj h
  have hfilter : ∀ texts : List String, (texts.filter (· != "")).flatMap (content ·.toList) =
      texts.flatMap (content ·.toList) := by
    intro texts
    induction texts with
    | nil => rfl
    | cons text rest ih =>
        rw [List.filter_cons, List.flatMap_cons]
        split
        · rw [List.flatMap_cons, ih]
        · rename_i hempty
          have hempty : text = "" := by simpa using hempty
          rw [hempty, ih]
          rfl
  rw [String.toList_append, show "\n".toList = ['\n'] from rfl, Text.content_append_newline,
    Text.content_paragraphs, hfilter]
  simp

/-- Each declaration is opened by a line below the banner, which the layout keeps. -/
theorem exists_opens_format (hw : g.WellFormed) (hl : g.Labelled) {written out : String}
    (ht : text options g = .ok written) (hf : Layout.format options.style written = .ok out)
    {d : NodeId × Node × String} (hd : d ∈ pass.declared g options) :
    ∃ line ∈ (content out.toList).drop (content options.bannerComment.toList).length,
      pass.Opens options (declaredName d.2.1) line := by
  obtain ⟨as, hsa, ha⟩ := section_aliases hw options
  obtain ⟨is, hsi, hi⟩ := section_interfaces hw options
  obtain ⟨es, hse, he⟩ := section_enums hw options
  obtain ⟨line, hline, hopens⟩ : ∃ line ∈ (content written.toList).drop
      (content options.bannerComment.toList).length,
      pass.Opens options (declaredName d.2.1) line := by
    rw [content_text ha hi he ht, List.drop_left]
    have hsection : ∀ {texts : List String} {out : Except CompileError String},
        Section pass options g out → out = .ok (String.intercalate "\n" texts) →
        ∃ line ∈ content (String.intercalate "\n" texts).toList,
          pass.Opens options (declaredName d.2.1) line := by
      rintro texts out hs rfl
      exact hs.exists_opens hl hd
    cases pass with
    | aliases =>
        obtain ⟨line, hline, hopens⟩ := hsection (section_aliases hw options) ha
        exact ⟨line, List.mem_append_left _ (List.mem_append_left _ hline), hopens⟩
    | interfaces =>
        obtain ⟨line, hline, hopens⟩ := hsection (section_interfaces hw options) hi
        exact ⟨line, List.mem_append_left _ (List.mem_append_right _ hline), hopens⟩
    | enums =>
        obtain ⟨line, hline, hopens⟩ := hsection (section_enums hw options) he
        exact ⟨line, List.mem_append_right _ hline, hopens⟩
  obtain ⟨line', hline', hended⟩ :=
    exists_of_forall₂_left (List.forall₂_drop _ (Layout.content_format hf)) hline
  exact ⟨line', hline', hopens.ended hended⟩

/-- A node is declared under its name: once, by one of the passes, which opens a line of the output
below the banner. -/
def Declares (options : Options) (g : TypeGraph) (out : String) (id : NodeId) (name : String) :
    Prop :=
  g.Holds id name ∧ ∃ pass : Pass,
    (∀ other : Pass, ((other.declared g options).map (·.1)).count id =
      if other = pass then 1 else 0) ∧
    ∃ line ∈ (content out.toList).drop (content options.bannerComment.toList).length,
      pass.Opens options name line

theorem declares_of_mem (hw : g.WellFormed) (hl : g.Labelled) {written out : String}
    (ht : text options g = .ok written) (hf : Layout.format options.style written = .ok out)
    {d : NodeId × Node × String} (hd : d ∈ pass.declared g options) {name : String}
    (hname : d.2.1.name = some name) : Declares options g out d.1 name := by
  obtain ⟨hn, -, -⟩ := Pass.of_mem_declared hd
  have hopens := exists_opens_format hw hl ht hf hd
  rw [declaredName_eq hl hn hname] at hopens
  exact ⟨⟨d.2.1, hn, hname⟩, pass, Pass.count_declared hd, hopens⟩

end Declaration

end Typewright
